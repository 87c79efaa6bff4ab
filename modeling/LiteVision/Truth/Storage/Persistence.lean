import LiteVision.Truth.Storage

/-!
# What a restart finds

JSON has no maps with byte arrays for keys, so a state can be written only while the maps in
it are empty; `restart_run`: a node that starts again has what it last persisted, and one
that last tried with any other state does not start.
-/

namespace LiteVision.Truth

open Lib

/-- No map of the state has an entry under a byte array. -/
structure State.Keyless (s : State) : Prop where
  receipts : s.intelligenceReceipts = .empty
  escrows : s.settlement.jobEscrows = .empty
  operators : s.settlement.operatorRegistry.operators = .empty
  anchors : s.settlement.receiptAnchors = .empty
  artifacts : s.settlement.artifacts = .empty
  rewards : s.settlement.verifierRewards = .empty

/-- A value that can be written is read again, but not from a part of its text; what is left of
one that cannot is not read. -/
structure Json.Handles {α : Type} (json : Json α) (Writable : Prop) (a : α) : Prop where
  written : (json.write a).2 = true ↔ Writable
  read_write : Writable → json.read (json.write a).1 = some a
  read_front : Writable → ∀ k < (json.write a).1.length, json.read ((json.write a).1.take k) = none
  torn : ¬ Writable → json.read (json.write a).1 = none

structure Formats.Handles (fmt : Formats) (it : Map.Iteration UInt64 Block) (s : Storage) :
    Prop where
  state : fmt.state.Handles s.state.Keyless s.state
  index : fmt.index.Handles True (s.index it)
  snapshots : fmt.snapshots.Handles True s.snapshots

/-- What the files of a directory hold. -/
structure Disk.Holds (fmt : Formats) (disk : Disk) (dir : String) (state : State)
    (blocks : UInt64 → Option Block) (snapshots : List Snapshot) : Prop where
  state : ∃ data, disk.get (dir, .state) = some data ∧ fmt.state.read data = some state
  index : ∃ data heights, disk.get (dir, .blockIndex) = some data ∧
    fmt.index.read data = some heights ∧ ∀ h, h ∈ heights ↔ (blocks h).isSome
  block : ∀ h b, blocks h = some b →
    ∃ data, disk.get (dir, .block h) = some data ∧ fmt.block.decode data = some b
  snapshots : ∃ data, disk.get (dir, .snapshots) = some data ∧
    fmt.snapshots.read data = some snapshots

namespace Storage

variable {fmt : Formats} {it : Map.Iteration UInt64 Block} {disk : Disk} {s : Storage}

-- ---------------------------------------------------------------------------
-- Reading
-- ---------------------------------------------------------------------------

theorem loadState_eq {data : List UInt8} (hdir : s.hasDataDir)
    (h : disk.get (s.dataDir, .state) = some data) :
    s.loadState fmt disk = (fmt.state.read data).elim (.error .serialization, s)
      fun state => (.ok (), { s with state }) := by
  cases hread : fmt.state.read data <;> simp [loadState, hdir, h, hread]

theorem loadBlocks_eq {data : List UInt8} (hdir : s.hasDataDir)
    (h : disk.get (s.dataDir, .blockIndex) = some data) :
    s.loadBlocks fmt disk = (fmt.index.read data).elim (.error .serialization, s)
      (s.readBlocks fmt disk) := by
  cases hread : fmt.index.read data <;> simp [loadBlocks, hdir, h, hread]

theorem loadSnapshots_eq {data : List UInt8} (hdir : s.hasDataDir)
    (h : disk.get (s.dataDir, .snapshots) = some data) :
    s.loadSnapshots fmt disk = (fmt.snapshots.read data).elim (.error .serialization, s)
      fun snapshots => (.ok (), { s with snapshots }) := by
  cases hread : fmt.snapshots.read data <;> simp [loadSnapshots, hdir, h, hread]

theorem readBlocks_of_files (blocks : UInt64 → Option Block) (heights : List UInt64)
    (hfiles : ∀ h ∈ heights, ∃ b data, blocks h = some b ∧
      disk.get (s.dataDir, .block h) = some data ∧ fmt.block.decode data = some b) :
    ∃ m : Map UInt64 Block, s.readBlocks fmt disk heights = (.ok (), { s with blocks := m }) ∧
      ∀ h, m.get h = if h ∈ heights then blocks h else s.blocks.get h := by
  induction heights generalizing s with
  | nil => exact ⟨s.blocks, rfl, fun h => by simp⟩
  | cons height heights ih =>
    obtain ⟨⟨b, data, hb, hdata, hdecode⟩, hrest⟩ := List.forall_mem_cons.mp hfiles
    obtain ⟨m, hm, hget⟩ := ih (s := { s with blocks := s.blocks.insert height b }) hrest
    refine ⟨m, ?_, fun h => ?_⟩
    · simp only [readBlocks, hdata, hdecode, hm]
    · rw [hget, Map.get_insert]
      by_cases hh : h = height
      · subst hh
        simp [hb]
      · simp [hh]

/-- What the files hold is what `load` finds; blocks in memory at other heights stay. -/
theorem load_of_holds {state : State} {blocks : UInt64 → Option Block}
    {snapshots : List Snapshot} (hdir : s.hasDataDir)
    (h : disk.Holds fmt s.dataDir state blocks snapshots) :
    ∃ m : Map UInt64 Block, (∀ height, m.get height = (blocks height).or (s.blocks.get height)) ∧
      s.load fmt disk = (.ok (), { s with state, blocks := m, snapshots }) := by
  obtain ⟨stateData, hstate, hreadState⟩ := h.state
  obtain ⟨indexData, heights, hindex, hreadIndex, hheights⟩ := h.index
  obtain ⟨snapshotData, hsnapshots, hreadSnapshots⟩ := h.snapshots
  obtain ⟨m, hm, hget⟩ := readBlocks_of_files (s := { s with state }) blocks heights
    fun height hmem => by
      obtain ⟨b, hb⟩ := Option.isSome_iff_exists.mp ((hheights height).mp hmem)
      obtain ⟨data, hdata, hdecode⟩ := h.block height b hb
      exact ⟨b, data, hb, hdata, hdecode⟩
  refine ⟨m, fun height => ?_, ?_⟩
  · rw [hget]
    cases hblock : blocks height with
    | none => simp [hheights, hblock]
    | some b => simp [hheights, hblock]
  · simp only [load, loadState_eq hdir hstate, hreadState, Option.elim_some,
      loadBlocks_eq (s := { s with state }) hdir hindex, hreadIndex, hm,
      loadSnapshots_eq (s := { s with state, blocks := m }) hdir hsnapshots, hreadSnapshots]

-- ---------------------------------------------------------------------------
-- Writing
-- ---------------------------------------------------------------------------

theorem get_writeAll_of_not_mem {files : List ((String × FileName) × List UInt8)}
    {path : String × FileName} (h : path ∉ files.map Prod.fst) :
    (writeAll disk files).get path = disk.get path := by
  induction files generalizing disk with
  | nil => rfl
  | cons file files ih =>
    rw [List.map_cons, List.mem_cons, not_or] at h
    exact (ih h.2).trans (Map.get_insert_ne _ _ h.1)

/-- All that `persist` writes, in its order. -/
def persistFiles (fmt : Formats) (it : Map.Iteration UInt64 Block) (s : Storage) :
    List ((String × FileName) × List UInt8) :=
  ((s.dataDir, .state), (fmt.state.write s.state).1) ::
    (s.blockFiles fmt it ++ [((s.dataDir, .blockIndex), (fmt.index.write (s.index it)).1),
      ((s.dataDir, .snapshots), (fmt.snapshots.write s.snapshots).1)])

theorem persist_of_keyless (hfmt : fmt.Handles it s) (hdir : s.hasDataDir) (h : s.state.Keyless) :
    s.persist fmt it disk = (.ok (), writeAll disk (s.persistFiles fmt it)) := by
  have hstate := hfmt.state.written.mpr h
  have hindex := hfmt.index.written.mpr trivial
  have hsnapshots := hfmt.snapshots.written.mpr trivial
  simp only [persist, saveState, saveBlocks, saveSnapshots, writeJson, hdir, hstate, hindex,
    hsnapshots, not_true_eq_false, if_false, if_true, persistFiles, writeAll, List.foldl_cons,
    List.foldl_append, List.foldl_nil]

theorem persist_of_not_keyless (hfmt : fmt.Handles it s) (hdir : s.hasDataDir)
    (h : ¬ s.state.Keyless) : s.persist fmt it disk =
      (.error .serialization,
        disk.insert (s.dataDir, .state) (fmt.state.write s.state).1) := by
  have hstate : (fmt.state.write s.state).2 = false := by
    rw [← Bool.not_eq_true, hfmt.state.written]
    exact h
  simp [persist, saveState, writeJson, hdir, hstate]

/-- The blocks are ones that can be in memory. -/
def FitsBlocks (fmt : Formats) (s : Storage) : Prop :=
  ∀ height b, s.getBlock height = some b → fmt.block.Fits b

theorem get_writeAll_of_mem {files : List ((String × FileName) × List UInt8)}
    (hnodup : (files.map Prod.fst).Nodup) {path : String × FileName} {data : List UInt8}
    (h : (path, data) ∈ files) : (writeAll disk files).get path = some data := by
  induction files generalizing disk with
  | nil => cases h
  | cons file files ih =>
    obtain ⟨hnew, hnodup⟩ := List.nodup_cons.mp hnodup
    rcases List.mem_cons.mp h with rfl | hmem
    · exact (get_writeAll_of_not_mem hnew).trans (Map.get_insert_self ..)
    · exact ih hnodup hmem

theorem map_fst_blockFiles (fmt : Formats) (it : Map.Iteration UInt64 Block)
    (s : Storage) :
    (s.blockFiles fmt it).map Prod.fst =
      ((it.entries s.blocks).map Prod.fst).map fun h => (s.dataDir, FileName.block h) := by
  simp [blockFiles, Function.comp_def]

theorem nodup_blockFiles (fmt : Formats) (it : Map.Iteration UInt64 Block) (s : Storage) :
    ((s.blockFiles fmt it).map Prod.fst).Nodup := by
  rw [map_fst_blockFiles]
  refine (it.nodup s.blocks).map fun h h' heq => ?_
  cases heq
  rfl

theorem nodup_persistFiles (fmt : Formats) (it : Map.Iteration UInt64 Block) (s : Storage) :
    ((s.persistFiles fmt it).map Prod.fst).Nodup := by
  have hblocks := nodup_blockFiles fmt it s
  rw [map_fst_blockFiles] at hblocks
  simp only [persistFiles, List.map_cons, List.map_append, map_fst_blockFiles, List.nodup_cons,
    List.nodup_append, hblocks]
  simp
  rintro _ _ height block - rfl rfl
  simp

theorem mem_blockFiles (fmt : Formats) (it : Map.Iteration UInt64 Block) {height : UInt64}
    {b : Block} (hb : s.getBlock height = some b) :
    ((s.dataDir, FileName.block height), fmt.block.write b) ∈ s.blockFiles fmt it :=
  List.mem_map.mpr ⟨(height, b), (it.mem _ _ _).mpr hb, rfl⟩

theorem mem_index (it : Map.Iteration UInt64 Block) (height : UInt64) :
    height ∈ s.index it ↔ (s.getBlock height).isSome := by
  rw [index, it.mem_map_fst, Map.mem_keys, Option.isSome_iff_exists]
  rfl

theorem decode_block {b : Block} (h : fmt.block.Fits b) :
    fmt.block.decode (fmt.block.write b) = some b := by
  have hdecode := Codec.decode_write h []
  rwa [List.append_nil] at hdecode

theorem holds_persist (disk : Disk) (hfmt : fmt.Handles it s) (h : s.state.Keyless)
    (hfits : s.FitsBlocks fmt) :
    (writeAll disk (s.persistFiles fmt it)).Holds fmt s.dataDir s.state s.getBlock
      s.snapshots where
  state := ⟨_, get_writeAll_of_mem (nodup_persistFiles fmt it s) List.mem_cons_self,
    hfmt.state.read_write h⟩
  index := by
    refine ⟨_, s.index it, get_writeAll_of_mem (nodup_persistFiles fmt it s) ?_,
      hfmt.index.read_write trivial, mem_index it⟩
    simp [persistFiles]
  block height b hb := by
    refine ⟨_, get_writeAll_of_mem (nodup_persistFiles fmt it s) ?_,
      decode_block (hfits height b hb)⟩
    simp [persistFiles, mem_blockFiles fmt it hb]
  snapshots := by
    refine ⟨_, get_writeAll_of_mem (nodup_persistFiles fmt it s) ?_,
      hfmt.snapshots.read_write trivial⟩
    simp [persistFiles]

-- ---------------------------------------------------------------------------
-- Runs
-- ---------------------------------------------------------------------------

inductive Op where
  | storeBlock (block : Block)
  | createSnapshot (height : UInt64) (stateRoot blockHash : Bytes 32)
  | prune (keepHeight : UInt64)
  | setState (state : State)
  | persist

def step (fmt : Formats) (it : Map.Iteration UInt64 Block) (node : Storage × Disk) :
    Op → Storage × Disk
  | .storeBlock block => (node.1.storeBlock block, node.2)
  | .createSnapshot height stateRoot blockHash =>
    (node.1.createSnapshot height stateRoot blockHash, node.2)
  | .prune keepHeight => (node.1.prune keepHeight, node.2)
  | .setState state => ({ node.1 with state }, node.2)
  | .persist => (node.1, (node.1.persist fmt it node.2).2)

/-- A new node on an empty disk after some calls, with what is on its disk. -/
def run (fmt : Formats) (it : Map.Iteration UInt64 Block) (dir : String) (ops : List Op) :
    Storage × Disk := Trace.exec (step fmt it) (new.withDataDir dir, .empty) ops

/-- A node that starts on the disk of another. -/
def restart (fmt : Formats) (dir : String) (disk : Disk) : Except StorageError Unit × Storage :=
  (new.withDataDir dir).loadOrCreate fmt disk

variable {it : Map.Iteration UInt64 Block} {dir : String} {ops : List Op}

/-- What no call changes. -/
structure Opened (dir : String) (s : Storage) : Prop where
  dataDir : s.dataDir = dir
  archivalHeight : s.archivalHeight = 10000
  pruneHeight : s.pruneHeight = 1000

theorem opened_run (fmt : Formats) (it : Map.Iteration UInt64 Block) (dir : String)
    (ops : List Op) : (run fmt it dir ops).1.Opened dir := by
  refine Trace.invariant (I := fun node : Storage × Disk => node.1.Opened dir) (fun node op h => ?_)
    ⟨rfl, rfl, rfl⟩ ops
  cases op <;> exact ⟨h.dataDir, h.archivalHeight, h.pruneHeight⟩

theorem fitsBlocks_run (h : ∀ block, .storeBlock block ∈ ops → fmt.block.Fits block) :
    (run fmt it dir ops).1.FitsBlocks fmt := by
  induction ops using List.reverseRecOn with
  | nil => exact fun height b hb => nomatch hb
  | append_singleton ops op ih =>
    have hbefore := ih fun block hmem => h block (List.mem_append_left _ hmem)
    rw [run, Trace.exec_concat, ← run]
    cases op with
    | storeBlock block =>
      intro height b hb
      rcases Map.of_get_insert hb with ⟨-, rfl⟩ | ⟨-, hold⟩
      · exact h _ (by simp)
      · exact hbefore height b hold
    | prune keepHeight =>
      exact fun height b hb => hbefore height b (Map.get_retain_eq_some.mp hb).1
    | _ => exact hbefore

theorem disk_of_not_persist {node : Storage × Disk} (h : .persist ∉ ops) :
    (Trace.exec (step fmt it) node ops).2 = node.2 := by
  induction ops generalizing node with
  | nil => rfl
  | cons op ops ih =>
    rw [List.mem_cons, not_or] at h
    rw [Trace.exec_cons, ih h.2]
    cases op with
    | persist => exact absurd rfl h.1
    | _ => rfl

/-- After any run, a node that starts again has all that was in memory when the first one last
persisted it, however many blocks were stored or pruned in between. If the state had an entry
in one of its maps then, the node does not start; before any `persist` it starts afresh. -/
theorem restart_run (fmt : Formats) (it : Map.Iteration UInt64 Block) (dir : String)
    (hdir : dir ≠ "") (ops : List Op)
    (hfits : ∀ block, .storeBlock block ∈ ops → fmt.block.Fits block) :
    (.persist ∉ ops → restart fmt dir (run fmt it dir ops).2 = (.ok (), new.withDataDir dir)) ∧
    ∀ before after, ops = before ++ .persist :: after → .persist ∉ after →
      fmt.Handles it (run fmt it dir before).1 →
      ((run fmt it dir before).1.state.Keyless →
        restart fmt dir (run fmt it dir ops).2 = (.ok (), (run fmt it dir before).1)) ∧
      (¬ (run fmt it dir before).1.state.Keyless →
        (restart fmt dir (run fmt it dir ops).2).1 = .error .serialization) := by
  have hfresh : (new.withDataDir dir).hasDataDir = true := by
    simpa [hasDataDir, withDataDir] using hdir
  constructor
  · intro hnever
    have hdisk : (run fmt it dir ops).2 = .empty := disk_of_not_persist hnever
    rw [hdisk, restart, loadOrCreate, load, loadState, if_neg (not_not.mpr hfresh), Map.get_empty]
    rfl
  · rintro before after rfl hnever hfmt
    have hopened := opened_run fmt it dir before
    have hblocks : (run fmt it dir before).1.FitsBlocks fmt := fitsBlocks_run fun block hmem =>
      hfits block (List.mem_append_left _ hmem)
    have hdisk : (run fmt it dir (before ++ .persist :: after)).2 =
        ((run fmt it dir before).1.persist fmt it (run fmt it dir before).2).2 := by
      rw [run, Trace.exec_append, Trace.exec_cons, disk_of_not_persist hnever]
      rfl
    rw [hdisk]
    generalize run fmt it dir before = node at hopened hblocks hfmt
    obtain ⟨saved, disk⟩ := node
    obtain ⟨rfl, harchival, hprune⟩ := hopened
    have hsaved : saved.hasDataDir = true := hfresh
    constructor
    · intro hkeyless
      rw [persist_of_keyless hfmt hsaved hkeyless]
      have hholds := holds_persist disk hfmt hkeyless hblocks
      obtain ⟨m, hm, hload⟩ := load_of_holds (s := new.withDataDir saved.dataDir) hfresh hholds
      have hblocks : m = saved.blocks := Map.ext fun height => (hm height).trans Option.or_none
      rw [restart, loadOrCreate, hload, hblocks]
      obtain ⟨state, blocks, snapshots, archivalHeight, pruneHeight, dataDir⟩ := saved
      cases harchival
      cases hprune
      rfl
    · intro hkeyless
      have hget : (disk.insert (saved.dataDir, .state) (fmt.state.write saved.state).1).get
          ((new.withDataDir saved.dataDir).dataDir, .state) =
          some (fmt.state.write saved.state).1 := Map.get_insert_self ..
      rw [persist_of_not_keyless hfmt hsaved hkeyless, restart, loadOrCreate, load,
        loadState_eq hfresh hget, hfmt.state.torn hkeyless]
      rfl

end Storage

-- ---------------------------------------------------------------------------
-- Sample files
-- ---------------------------------------------------------------------------

namespace Storage.Sample

def json {α : Type} (text : α → List UInt8) (samples : List α) : Json α where
  write a := (text a, true)
  read data := samples.find? fun a => text a = data

theorem handles_json {α : Type} {text : α → List UInt8} {samples : List α}
    (hfree : ∀ a ∈ samples, ∀ b ∈ samples, text b <+: text a → b = a) {a : α} (ha : a ∈ samples)
    {Writable : Prop} (h : Writable) : (json text samples).Handles Writable a := by
  refine ⟨iff_of_true rfl h, fun _ => ?_, fun _ k hk => ?_, fun hno => absurd h hno⟩
  · cases hfind : (json text samples).read (text a) with
    | none => exact absurd (List.find?_eq_none.mp hfind a ha) (by simp)
    | some b =>
      have htext : text b = text a := by simpa using List.find?_some hfind
      obtain rfl := hfree a ha b (List.mem_of_find?_eq_some hfind) (htext ▸ List.prefix_rfl)
      exact hfind
  · refine List.find?_eq_none.mpr fun b hb htext => ?_
    have htext : text b = (text a).take k := of_decide_eq_true htext
    obtain rfl := hfree a ha b hb (htext ▸ List.take_prefix ..)
    have hlength := congrArg List.length htext
    rw [List.length_take] at hlength
    change k < (text b).length at hk
    omega

def utf8 (text : String) : List UInt8 := text.toByteArray.data.toList

def hashText : String :=
  "[" ++ ",".intercalate (List.replicate 32 "\n    0") ++ "\n  ]"

/-- The text of a new state of some height. -/
def stateText (s : State) : List UInt8 :=
  utf8 "\x7b\n  \"version\": 2,\n  \"height\": " ++ (utf8 s.height.toNat.repr ++
    utf8 (",\n  \"state_root\": " ++ hashText ++ ",\n  \"validator_set_root\": " ++ hashText ++
      ",\n  \"settlement\": \x7b\n    \"job_escrows\": \x7b\x7d,\n" ++
      "    \"operator_registry\": \x7b\n      \"operators\": \x7b\x7d,\n" ++
      "      \"stake_index\": \x7b\x7d\n    \x7d,\n    \"receipt_anchors\": \x7b\x7d,\n" ++
      "    \"artifacts\": \x7b\x7d,\n    \"slashing_conditions\": \x7b\n" ++
      "      \"min_stake\": 1000,\n      \"slash_percentage\": 5000,\n" ++
      "      \"challenge_window_blocks\": 100,\n      \"double_signing_window_blocks\": 10,\n" ++
      "      \"max_challenges_before_slash\": 3\n    \x7d,\n    \"slashing_pool\": 0,\n" ++
      "    \"verifier_rewards\": \x7b\x7d\n  \x7d,\n  \"intelligence_receipts\": \x7b\x7d\n\x7d"))

def indexText (heights : List UInt64) : List UInt8 :=
  utf8 ("[" ++ ",".intercalate (heights.map fun height => height.toNat.repr) ++ "]")

def state (height : UInt64) : State := { State.new with height }

def heights : List UInt64 := [0, 1, 2]

/-- What is written for samples of one height. -/
def formats : Formats where
  state := json stateText (heights.map state)
  block := Block.codec
  index := json indexText (heights.map fun height => [height])
  snapshots := json (fun _ => utf8 "[]") [[]]

theorem mem_heights {height : UInt64} :
    height ∈ heights ↔ height = 0 ∨ height = 1 ∨ height = 2 := by simp [heights]

theorem keyless_state (height : UInt64) : (state height).Keyless := ⟨rfl, rfl, rfl, rfl, rfl, rfl⟩

theorem height_of_stateText {h h' : UInt64} (hh : h ∈ heights) (hh' : h' ∈ heights)
    (hfront : stateText (state h') <+: stateText (state h)) : h' = h := by
  have hdigits : ∀ h ∈ heights, (utf8 h.toNat.repr).length = 1 := by
    intro h hh
    rcases mem_heights.mp hh with rfl | rfl | rfl <;> rfl
  have hsame : ∀ h ∈ heights, ∀ h' ∈ heights,
      utf8 h'.toNat.repr = utf8 h.toNat.repr → h' = h := by
    intro h hh h' hh' heq
    rcases mem_heights.mp hh with rfl | rfl | rfl <;>
      rcases mem_heights.mp hh' with rfl | rfl | rfl <;> first | rfl | exact absurd heq (by decide)
  have htext := hfront.eq_of_length (by simp [stateText, state, hdigits h hh, hdigits h' hh'])
  have hrest := List.append_cancel_left htext
  exact hsame h hh h' hh' (List.append_cancel_right hrest)

theorem handles_formats (it : Map.Iteration UInt64 Block) {s : Storage} {height : UInt64}
    (hstate : s.state = state height) (hheight : height ∈ heights) {stored : UInt64}
    (hindex : s.index it = [stored]) (hstored : stored ∈ heights) (hsnapshots : s.snapshots = []) :
    formats.Handles it s where
  state := by
    rw [hstate]
    refine handles_json ?_ (List.mem_map_of_mem hheight) (keyless_state height)
    rintro _ hleft _ hright hfront
    obtain ⟨h, hh, rfl⟩ := List.mem_map.mp hleft
    obtain ⟨h', hh', rfl⟩ := List.mem_map.mp hright
    rw [height_of_stateText hh hh' hfront]
  index := by
    rw [hindex]
    exact handles_json (by decide) (List.mem_map_of_mem hstored) trivial
  snapshots := by
    rw [hsnapshots]
    exact handles_json (by simp) (List.mem_singleton_self []) trivial

def iteration : Map.Iteration UInt64 Block :=
  have := LinearOrder.lift' UInt64.toNat fun _ _ => UInt64.toNat_inj.mp
  Map.Iteration.ascending

def block (height timestamp : UInt64) : Block :=
  .new ⟨height, timestamp, .fill 32 0, .fill 32 0, .fill 32 0, .fill 32 0⟩ []

theorem fits_block (height timestamp : UInt64) : formats.block.Fits (block height timestamp) :=
  Block.fits_empty _

def storage (height stored timestamp : UInt64) : Storage :=
  { (new.withDataDir "data").storeBlock (block stored timestamp) with state := state height }

theorem entries_storage (height stored timestamp : UInt64) :
    iteration.entries (storage height stored timestamp).blocks =
      [(stored, block stored timestamp)] :=
  Map.Iteration.entries_single ..

theorem handles_storage (height stored timestamp : UInt64) (hheight : height ∈ heights)
    (hstored : stored ∈ heights) : formats.Handles iteration (storage height stored timestamp) :=
  handles_formats iteration rfl hheight (by rw [index, entries_storage]; rfl) hstored rfl

end Storage.Sample

open Storage.Sample in
/-- A block is stored and persisted, then another one is stored and both are pruned. -/
theorem Storage.restart_run_pruned :
    restart formats "data" (run formats iteration "data"
      [.storeBlock (block 1 7), .persist, .storeBlock (block 2 8), .prune 3]).2 =
      (.ok (), (new.withDataDir "data").storeBlock (block 1 7)) := by
  have hrun := restart_run formats iteration "data" (by decide)
    [.storeBlock (block 1 7), .persist, .storeBlock (block 2 8), .prune 3] (by simp [fits_block])
  exact (hrun.2 [.storeBlock (block 1 7)] [.storeBlock (block 2 8), .prune 3] rfl (by simp)
    (handles_storage 0 1 7 (by decide) (by decide))).1
    (keyless_state 0)

end LiteVision.Truth
