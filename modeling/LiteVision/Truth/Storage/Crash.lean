import LiteVision.Truth.Storage.Persistence

/-!
# A crash in the middle of `persist`

`persist` writes its files one after the other, and each file is empty from when it is opened
until its bytes are through the buffer. Between two files a crash leaves files that load: a new
state, with old blocks, heights or snapshots. In the middle of a file it leaves files that do
not, unless the file is of a block that the old index does not list.
-/

namespace LiteVision.Truth

open Lib

namespace Disk.Holds

variable {fmt : Formats} {disk : Disk} {dir : String} {state : State} {snapshots : List Snapshot}
  {blocks : UInt64 → Option Block} {data : List UInt8}

theorem insert_state (h : disk.Holds fmt dir state blocks snapshots) {state' : State}
    (hread : fmt.state.read data = some state') :
    Disk.Holds fmt (disk.insert (dir, .state) data) dir state' blocks snapshots where
  state := ⟨data, Map.get_insert_self .., hread⟩
  index := by simpa [Map.get_insert] using h.index
  block := by simpa [Map.get_insert] using h.block
  snapshots := by simpa [Map.get_insert] using h.snapshots

theorem insert_index (h : disk.Holds fmt dir state blocks snapshots)
    {blocks' : UInt64 → Option Block} {heights : List UInt64}
    (hread : fmt.index.read data = some heights) (hheights : ∀ h, h ∈ heights ↔ (blocks' h).isSome)
    (hblock : ∀ h b, blocks' h = some b →
      ∃ data, disk.get (dir, .block h) = some data ∧ fmt.block.decode data = some b) :
    Disk.Holds fmt (disk.insert (dir, .blockIndex) data) dir state blocks' snapshots where
  state := by simpa [Map.get_insert] using h.state
  index := ⟨data, heights, Map.get_insert_self .., hread, hheights⟩
  block := by simpa [Map.get_insert] using hblock
  snapshots := by simpa [Map.get_insert] using h.snapshots

theorem insert_block (h : disk.Holds fmt dir state blocks snapshots) (height : UInt64) {b : Block}
    (hfits : fmt.block.Fits b) :
    Disk.Holds fmt (disk.insert (dir, .block height) (fmt.block.write b)) dir state
      (fun h => if h = height then (blocks h).map fun _ => b else blocks h) snapshots where
  state := by simpa [Map.get_insert] using h.state
  index := by
    obtain ⟨data, heights, hdata, hread, hheights⟩ := h.index
    refine ⟨data, heights, by simpa [Map.get_insert] using hdata, hread, fun h => ?_⟩
    rw [hheights]
    split <;> simp
  block := by
    intro h' b' hb
    split at hb
    · rename_i heq
      subst heq
      obtain ⟨-, -, rfl⟩ := Option.map_eq_some_iff.mp hb
      exact ⟨_, Map.get_insert_self .., Storage.decode_block hfits⟩
    · rename_i hne
      simpa [Map.get_insert, hne] using h.block h' b' hb
  snapshots := by simpa [Map.get_insert] using h.snapshots

theorem insert_unlisted (h : disk.Holds fmt dir state blocks snapshots) {height : UInt64}
    (hnone : blocks height = none) (data : List UInt8) :
    Disk.Holds fmt (disk.insert (dir, .block height) data) dir state blocks snapshots where
  state := by simpa [Map.get_insert] using h.state
  index := by simpa [Map.get_insert] using h.index
  block height' b hb := by
    have hne : height' ≠ height := by
      rintro rfl
      rw [hnone] at hb
      cases hb
    simpa [Map.get_insert, hne] using h.block height' b hb
  snapshots := by simpa [Map.get_insert] using h.snapshots

/-- After some block files are replaced, each block is an old or a new one. -/
theorem insert_blocks (h : disk.Holds fmt dir state blocks snapshots)
    (entries : List (UInt64 × Block)) (hfits : ∀ e ∈ entries, fmt.block.Fits e.2) :
    ∃ blocks' : UInt64 → Option Block,
      (Storage.writeAll disk (entries.map fun e =>
        ((dir, .block e.1), fmt.block.write e.2))).Holds fmt dir state blocks' snapshots ∧
      ∀ height, (blocks' height).isSome = (blocks height).isSome ∧
        ∀ b, blocks' height = some b → blocks height = some b ∨ (height, b) ∈ entries := by
  induction entries generalizing disk blocks with
  | nil => exact ⟨blocks, h, fun height => ⟨rfl, fun b hb => .inl hb⟩⟩
  | cons e entries ih =>
    obtain ⟨hfirst, hrest⟩ := List.forall_mem_cons.mp hfits
    obtain ⟨blocks', hholds, hblocks⟩ := ih (h.insert_block e.1 hfirst) hrest
    refine ⟨blocks', hholds, fun height => ?_⟩
    obtain ⟨hsome, hfrom⟩ := hblocks height
    constructor
    · rw [hsome]
      split <;> simp
    · intro b hb
      rcases hfrom b hb with hold | hnew
      · split at hold
        · rename_i heq
          obtain ⟨-, -, rfl⟩ := Option.map_eq_some_iff.mp hold
          rw [heq]
          exact .inr List.mem_cons_self
        · exact .inl hold
      · exact .inr (List.mem_cons_of_mem e hnew)

end Disk.Holds

namespace Storage

variable {fmt : Formats} {disk : Disk} {s : Storage}

-- ---------------------------------------------------------------------------
-- Between two files
-- ---------------------------------------------------------------------------

theorem length_persistFiles (fmt : Formats) (it : Map.Iteration UInt64 Block) (s : Storage) :
    (s.persistFiles fmt it).length = (s.blockFiles fmt it).length + 3 := by
  simp [persistFiles]

theorem take_blockFiles (fmt : Formats) (it : Map.Iteration UInt64 Block) (s : Storage)
    (k : Nat) :
    (s.blockFiles fmt it).take k = ((it.entries s.blocks).take k).map fun entry =>
      ((s.dataDir, .block entry.1), fmt.block.write entry.2) := List.map_take.symm

theorem holds_take {it : Map.Iteration UInt64 Block} (hfmt : fmt.Handles it s) {state : State}
    {blocks : UInt64 → Option Block} {snapshots : List Snapshot}
    (hheld : disk.Holds fmt s.dataDir state blocks snapshots) (hkeyless : s.state.Keyless)
    (hfits : s.FitsBlocks fmt) (n : Nat) :
    ∃ blocks' : UInt64 → Option Block,
      (writeAll disk ((s.persistFiles fmt it).take n)).Holds fmt s.dataDir
        (if n = 0 then state else s.state) blocks'
        (if n < (s.persistFiles fmt it).length then snapshots else s.snapshots) ∧
      (if n + 1 < (s.persistFiles fmt it).length then
        ∀ height, (blocks' height).isSome = (blocks height).isSome ∧
          ∀ b, blocks' height = some b → blocks height = some b ∨ s.getBlock height = some b
      else blocks' = s.getBlock) := by
  have hlength := length_persistFiles fmt it s
  have hentries (entry) (hmem : entry ∈ it.entries s.blocks) :
      s.getBlock entry.1 = some entry.2 := (it.mem _ _ _).mp hmem
  cases n with
  | zero =>
    refine ⟨blocks, ?_, ?_⟩
    · rw [if_pos rfl, if_pos (by omega)]
      exact hheld
    · rw [if_pos (by omega)]
      exact fun height => ⟨rfl, fun b hb => .inl hb⟩
  | succ k =>
    rw [if_neg (Nat.succ_ne_zero k)]
    have hstate := hheld.insert_state (hfmt.state.read_write hkeyless)
    rcases Nat.lt_trichotomy k ((s.blockFiles fmt it).length + 1) with hk | hk | hk
    · -- only block files after the state
      have hfiles : (s.persistFiles fmt it).take (k + 1) =
          ((s.dataDir, .state), (fmt.state.write s.state).1) :: (s.blockFiles fmt it).take k := by
        rw [persistFiles, List.take_succ_cons, List.take_append_of_le_length (by omega)]
      obtain ⟨blocks', hholds, hblocks⟩ := hstate.insert_blocks
        ((it.entries s.blocks).take k) fun entry hmem =>
          hfits _ _ (hentries entry (List.mem_of_mem_take hmem))
      refine ⟨blocks', ?_, ?_⟩
      · rw [if_pos (by omega), hfiles, take_blockFiles]
        exact hholds
      · rw [if_pos (by omega)]
        refine fun height => ⟨(hblocks height).1, fun b hb => ?_⟩
        exact ((hblocks height).2 b hb).imp_right fun hmem =>
          hentries _ (List.mem_of_mem_take hmem)
    · -- the index as well, and then every file that it lists is there
      have hfiles : (s.persistFiles fmt it).take (k + 1) =
          ((s.dataDir, .state), (fmt.state.write s.state).1) :: (s.blockFiles fmt it ++
            [((s.dataDir, .blockIndex), (fmt.index.write (s.index it)).1)]) := by
        rw [persistFiles, List.take_succ_cons, hk, List.take_length_add_append]
        rfl
      obtain ⟨blocks', hholds, -⟩ := hstate.insert_blocks (it.entries s.blocks)
        fun entry hmem => hfits _ _ (hentries entry hmem)
      refine ⟨s.getBlock, ?_, ?_⟩
      · rw [if_pos (by omega), hfiles, writeAll, List.foldl_cons, List.foldl_append]
        refine hholds.insert_index (hfmt.index.read_write trivial) (mem_index it) ?_
        intro height b hb
        exact ⟨_, get_writeAll_of_mem (nodup_blockFiles fmt it s) (mem_blockFiles fmt it hb),
          decode_block (hfits height b hb)⟩
      · rw [if_neg (by omega)]
    · have hfiles : (s.persistFiles fmt it).take (k + 1) = s.persistFiles fmt it :=
        List.take_of_length_le (by omega)
      refine ⟨s.getBlock, ?_, ?_⟩
      · rw [if_neg (by omega), hfiles]
        exact holds_persist disk hfmt hkeyless hfits
      · rw [if_neg (by omega)]

-- ---------------------------------------------------------------------------
-- In the middle of a file
-- ---------------------------------------------------------------------------

theorem of_mem_persistFiles {it : Map.Iteration UInt64 Block} {name : FileName} {dir : String}
    {data : List UInt8} (h : ((dir, name), data) ∈ s.persistFiles fmt it) :
    dir = s.dataDir ∧ match name with
      | .state => data = (fmt.state.write s.state).1
      | .block height => ∃ b, s.getBlock height = some b ∧ data = fmt.block.write b
      | .blockIndex => data = (fmt.index.write (s.index it)).1
      | .snapshots => data = (fmt.snapshots.write s.snapshots).1 := by
  rw [persistFiles, List.mem_cons, List.mem_append, List.mem_pair] at h
  rcases h with h | h | h | h
  case inr.inl =>
    obtain ⟨entry, hentry, heq⟩ := List.mem_map.mp h
    cases heq
    exact ⟨rfl, entry.2, (it.mem _ _ _).mp hentry, rfl⟩
  all_goals
    cases h
    exact ⟨rfl, rfl⟩

theorem lt_length_of_block {it : Map.Iteration UInt64 Block} {n : Nat} {dir : String}
    {height : UInt64} {data : List UInt8}
    (h : (s.persistFiles fmt it)[n]? = some ((dir, .block height), data)) :
    n + 1 < (s.persistFiles fmt it).length := by
  have hlt := (List.getElem?_eq_some_iff.mp h).1
  rcases Nat.lt_or_eq_of_le hlt with hlt | heq
  · exact hlt
  · have hlast : (s.persistFiles fmt it).getLast? =
        some ((s.dataDir, .snapshots), (fmt.snapshots.write s.snapshots).1) := by
      simp [persistFiles, List.getLast?_cons, List.getLast?_append]
    rw [List.getLast?_eq_getElem?, ← heq, Nat.succ_sub_one, h] at hlast
    cases hlast

theorem readBlocks_of_torn {height : UInt64} {data : List UInt8} {heights : List UInt64}
    (hmem : height ∈ heights) (hdata : disk.get (s.dataDir, .block height) = some data)
    (htorn : fmt.block.decode data = none) :
    (s.readBlocks fmt disk heights).1 = .error .bincode := by
  induction heights generalizing s with
  | nil => cases hmem
  | cons first heights ih =>
    rcases List.mem_cons.mp hmem with rfl | hrest
    · simp [readBlocks, hdata, htorn]
    · rw [readBlocks]
      split
      · exact ih hrest hdata
      · split
        · rfl
        · rename_i b hb
          exact ih (s := { s with blocks := s.blocks.insert first b }) hrest hdata

theorem load_of_blocks {data : List UInt8} {state : State} {e : StorageError} (hdir : s.hasDataDir)
    (hstate : disk.get (s.dataDir, .state) = some data) (hread : fmt.state.read data = some state)
    (h : ({ s with state }.loadBlocks fmt disk).1 = .error e) : (s.load fmt disk).1 = .error e := by
  simp only [load, loadState_eq hdir hstate, hread, Option.elim_some]
  generalize { s with state }.loadBlocks fmt disk = loaded at h ⊢
  obtain ⟨outcome, s'⟩ := loaded
  simp only at h
  subst h
  rfl

/-- A part of a file stops the load, unless it is of a block that the index does not list. -/
theorem load_torn {state : State} {blocks : UInt64 → Option Block} {snapshots : List Snapshot}
    (hdir : s.hasDataDir) (h : disk.Holds fmt s.dataDir state blocks snapshots) (name : FileName)
    (data : List UInt8) :
    let torn := disk.insert (s.dataDir, name) data
    match name with
    | .state => fmt.state.read data = none → (s.load fmt torn).1 = .error .serialization
    | .block height => fmt.block.decode data = none →
      if blocks height = none then s.load fmt torn = s.load fmt disk
      else (s.load fmt torn).1 = .error .bincode
    | .blockIndex => fmt.index.read data = none → (s.load fmt torn).1 = .error .serialization
    | .snapshots => fmt.snapshots.read data = none →
      (s.load fmt torn).1 = .error .serialization := by
  intro torn
  obtain ⟨stateData, hstate, hreadState⟩ := h.state
  obtain ⟨indexData, heights, hindex, hreadIndex, hheights⟩ := h.index
  have hself : torn.get (s.dataDir, name) = some data := Map.get_insert_self ..
  have hother {name' : FileName} (hname : name' ≠ name) :
      torn.get (s.dataDir, name') = disk.get (s.dataDir, name') :=
    Map.get_insert_ne _ _ (by simpa using hname)
  cases name with
  | state =>
    intro hread
    rw [load, loadState_eq hdir hself, hread]
    rfl
  | block height =>
    intro hread
    split
    · rename_i hnone
      obtain ⟨m, hm, hload⟩ := load_of_holds hdir h
      obtain ⟨m', hm', hload'⟩ := load_of_holds hdir (h.insert_unlisted hnone data)
      have hsame : m' = m := Map.ext fun height' => (hm' height').trans (hm height').symm
      rw [hload, hload', hsame]
    · rename_i hsome
      refine load_of_blocks hdir ((hother (by simp)).trans hstate) hreadState ?_
      rw [loadBlocks_eq (s := { s with state }) hdir ((hother (by simp)).trans hindex), hreadIndex]
      exact readBlocks_of_torn ((hheights height).mpr (Option.ne_none_iff_isSome.mp hsome))
        hself hread
  | blockIndex =>
    intro hread
    refine load_of_blocks hdir ((hother (by simp)).trans hstate) hreadState ?_
    rw [loadBlocks_eq (s := { s with state }) hdir hself, hread]
    rfl
  | snapshots =>
    intro hread
    have hfiles : ∀ height ∈ heights, ∃ b data, blocks height = some b ∧
        torn.get (s.dataDir, .block height) = some data ∧ fmt.block.decode data = some b := by
      intro height hmem
      obtain ⟨b, hb⟩ := Option.isSome_iff_exists.mp ((hheights height).mp hmem)
      obtain ⟨data, hdata, hdecode⟩ := h.block height b hb
      exact ⟨b, data, hb, (hother (by simp)).trans hdata, hdecode⟩
    obtain ⟨m, hm, -⟩ := readBlocks_of_files (s := { s with state }) blocks heights hfiles
    simp only [load, loadState_eq hdir ((hother (by simp)).trans hstate), hreadState,
      Option.elim_some, loadBlocks_eq (s := { s with state }) hdir ((hother (by simp)).trans hindex),
      hreadIndex, hm, loadSnapshots_eq (s := { s with state, blocks := m }) hdir hself, hread,
      Option.elim_none]

/-- What a crash leaves of files that are written one after the other: `n` of them, and of the
next one, if it is open, the first `k` bytes. -/
def crash (disk : Disk) (files : List ((String × FileName) × List UInt8)) (n : Nat)
    (opened : Option Nat) : Disk :=
  match opened, files[n]? with
  | some k, some (path, data) => (writeAll disk (files.take n)).insert path (data.take k)
  | _, _ => writeAll disk (files.take n)

/-- A crash between two files leaves files that load. The state is the new one from the first
file on, the heights are the new ones once the index is there, and until then each block is the
old one or the new one of its height. A crash in the middle of a file leaves files that do not
load; only a block at a height that the old index does not list is not missed. -/
theorem load_after_crash (fmt : Formats) (it it' : Map.Iteration UInt64 Block)
    (old new : Storage) (hfmt : fmt.Handles it old) (hfmt' : fmt.Handles it' new)
    (hdir : old.hasDataDir) (hsame : new.dataDir = old.dataDir) (hold : old.state.Keyless)
    (hnew : new.state.Keyless) (hfits : old.FitsBlocks fmt) (hfits' : new.FitsBlocks fmt)
    (disk : Disk) (n : Nat) :
    let files := new.persistFiles fmt it'
    let load opened := (Storage.new.withDataDir old.dataDir).load fmt
      (crash (old.persist fmt it disk).2 files n opened)
    (∃ s, load none = (.ok (), s) ∧ s.state = (if n = 0 then old.state else new.state) ∧
      s.snapshots = (if n < files.length then old.snapshots else new.snapshots) ∧
      (if n + 1 < files.length then
        ∀ height, (s.getBlock height).isSome = (old.getBlock height).isSome ∧
          ∀ b, s.getBlock height = some b →
            old.getBlock height = some b ∨ new.getBlock height = some b
      else s.blocks = new.blocks)) ∧
    ∀ dir name data, files[n]? = some ((dir, name), data) → ∀ k < data.length,
      match name with
      | .block height =>
        if old.getBlock height = none then load (some k) = load none
        else (load (some k)).1 = .error .bincode
      | _ => (load (some k)).1 = .error .serialization := by
  intro files load
  simp only [load, persist_of_keyless hfmt hdir hold]
  have hheld := holds_persist disk hfmt hold hfits
  rw [← hsame] at hheld ⊢
  obtain ⟨blocks, hholds, hblocks⟩ := holds_take hfmt' hheld hnew hfits' n
  have hfresh : (Storage.new.withDataDir new.dataDir).hasDataDir := by
    rw [hsame]
    exact hdir
  constructor
  · obtain ⟨m, hm, hload⟩ := load_of_holds hfresh hholds
    have hget (height : UInt64) : m.get height = blocks height := by
      rw [hm]
      exact Option.or_none
    refine ⟨_, hload, rfl, rfl, ?_⟩
    split at hblocks
    · rename_i hn
      rw [if_pos hn]
      simpa only [getBlock, hget] using hblocks
    · rename_i hn
      rw [if_neg hn]
      exact Map.ext fun height => (hget height).trans (congrFun hblocks height)
  · intro dir name data hfile k hk
    obtain ⟨rfl, hdata⟩ := of_mem_persistFiles (List.mem_of_getElem? hfile)
    have htorn := load_torn hfresh hholds name (data.take k)
    simp only [crash, hfile]
    cases name with
    | state =>
      rw [hdata] at hk htorn ⊢
      exact htorn (hfmt'.state.read_front hnew k hk)
    | block height =>
      obtain ⟨b, hb, rfl⟩ := hdata
      have hread : fmt.block.decode ((fmt.block.write b).take k) = none := by
        refine Codec.decode_front (hfits' height b hb) (List.take_prefix ..) fun heq => ?_
        have hlength := congrArg List.length heq
        rw [List.length_take] at hlength
        omega
      have hlisted : blocks height = none ↔ old.getBlock height = none := by
        rw [if_pos (lt_length_of_block hfile)] at hblocks
        rw [← Option.isNone_iff_eq_none, ← Option.isNone_iff_eq_none, ← Option.not_isSome,
          ← Option.not_isSome, (hblocks height).1]
      have hresult := htorn hread
      simp only [hlisted] at hresult
      exact hresult
    | blockIndex =>
      rw [hdata] at hk htorn ⊢
      exact htorn (hfmt'.index.read_front trivial k hk)
    | snapshots =>
      rw [hdata] at hk htorn ⊢
      exact htorn (hfmt'.snapshots.read_front trivial k hk)

end Storage

open LiteVision.Truth.Storage LiteVision.Truth.Storage.Sample in
/-- Blocks in the middle of which it crashes: one at a height of the old index, one not. -/
theorem Storage.load_after_crash_block :
    let load (node : Storage) opened := (new.withDataDir "data").load formats
      (crash ((Sample.storage 1 1 7).persist formats iteration .empty).2
        (node.persistFiles formats iteration) 1 opened)
    (load (Sample.storage 2 1 8) (some 9)).1 = .error .bincode ∧
      ∃ s, load (Sample.storage 2 2 8) (some 9) = (.ok (), s) ∧ s.state = Sample.state 2 ∧
        s.getBlock 1 = some (block 1 7) ∧ s.getBlock 2 = none := by
  intro load
  have hfits (height stored timestamp : UInt64) :
      (Sample.storage height stored timestamp).FitsBlocks formats := by
    intro height' b hb
    rcases Map.of_get_insert hb with ⟨-, rfl⟩ | ⟨-, hold⟩
    · exact fits_block stored timestamp
    · cases hold
  have hfiles (stored : UInt64) :
      ((Sample.storage 2 stored 8).persistFiles formats iteration)[1]? =
      some (("data", .block stored), Block.codec.write (block stored 8)) := by
    rw [persistFiles, blockFiles, entries_storage]
    rfl
  have hcrash (stored : UInt64) (hstored : stored ∈ heights) :=
    load_after_crash formats iteration iteration (Sample.storage 1 1 7)
      (Sample.storage 2 stored 8) (handles_storage 1 1 7 (by decide) (by decide))
      (handles_storage 2 stored 8 (by decide) hstored) (by decide) rfl (keyless_state 1)
      (keyless_state 2) (hfits 1 1 7) (hfits 2 stored 8) .empty 1
  have hone : (Sample.storage 1 1 7).getBlock 1 = some (block 1 7) := Map.get_insert_self ..
  have htwo : (Sample.storage 1 1 7).getBlock 2 = none :=
    Map.get_insert_ne _ _ (by decide)
  constructor
  · have htorn := (hcrash 1 (by decide)).2 _ _ _ (hfiles 1) 9 (by decide +kernel)
    simp only [hone, reduceCtorEq, if_false] at htorn
    exact htorn
  · obtain ⟨⟨s, hload, hstate, -, hblocks⟩, htorn⟩ := hcrash 2 (by decide)
    have htorn := htorn _ _ _ (hfiles 2) 9 (by decide +kernel)
    simp only [htwo, if_true] at htorn
    rw [if_pos (lt_length_of_block (hfiles 2))] at hblocks
    refine ⟨s, htorn.trans hload, hstate, ?_, ?_⟩
    · obtain ⟨b, hb⟩ := Option.isSome_iff_exists.mp ((hblocks 1).1.trans (by rw [hone]; rfl))
      rcases (hblocks 1).2 b hb with hold | hnew
      · rw [hb, ← hold, hone]
      · cases (Map.get_insert_ne _ _ (by decide)).symm.trans hnew
    · rw [← Option.not_isSome_iff_eq_none, (hblocks 2).1, htwo]
      simp

end LiteVision.Truth
