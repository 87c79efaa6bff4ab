import LiteVision.Truth.Pruning
import LiteVision.Words

/-!
# Archive statistics

`get_stats` takes the bounds of the archived heights from the ends of the queue, which is in
the order of arrival. `stats_exact_iff`: the statistics are right in every state of a run
just when new heights come above all that are archived, and the sizes fit in a word.
-/

namespace LiteVision.Truth

open Lib

namespace StatePruner

variable {it : Map.Iteration UInt64 BlockArchive} {s : StatePruner} {height : UInt64}

def totalSize (blocks : Map UInt64 BlockArchive) : Nat :=
  blocks.total fun archive => archive.blockSizeBytes.toNat

structure StatsExact (it : Map.Iteration UInt64 BlockArchive) (s : StatePruner) : Prop where
  blocks : (s.getStats it).totalBlocks = UInt64.ofNat s.blocks.keys.card
  size : (s.getStats it).totalSizeBytes.toNat = totalSize s.blocks
  none : s.blocks.keys = ∅ → (s.getStats it).earliestHeight = 0 ∧ (s.getStats it).latestHeight = 0
  earliest : s.blocks.keys ≠ ∅ → (s.getStats it).earliestHeight ∈ s.blocks.keys ∧
    ∀ h ∈ s.blocks.keys, (s.getStats it).earliestHeight ≤ h
  latest : s.blocks.keys ≠ ∅ → (s.getStats it).latestHeight ∈ s.blocks.keys ∧
    ∀ h ∈ s.blocks.keys, h ≤ (s.getStats it).latestHeight

/-- A height that is archived for the first time is above the others, and all sizes
together fit in a word. -/
def ArchivesUpward (s : StatePruner) : Op → Prop
  | .archiveBlock height _ _ blockSize _ =>
    (height ∈ s.blocks.keys ∨ ∀ h ∈ s.blocks.keys, h < height) ∧
      totalSize (s.blocks.erase height) + blockSize.toNat < 2 ^ 64
  | .prune _ => True

def Ascending (s : StatePruner) : Prop := s.heights.Pairwise (· < ·)

-- ---------------------------------------------------------------------------
-- Statistics of one state
-- ---------------------------------------------------------------------------

theorem toNat_totalSizeBytes (it : Map.Iteration UInt64 BlockArchive) (s : StatePruner) :
    (s.getStats it).totalSizeBytes.toNat = totalSize s.blocks % 2 ^ 64 := by
  have hsum := it.sum_entries s.blocks fun archive => archive.blockSizeBytes.toNat
  simp only [getStats, toNat_foldl_add]
  rw [hsum, UInt64.toNat_zero, Nat.zero_add]
  rfl

theorem bounds_of_nil (h : s.heights = []) :
    (s.getStats it).earliestHeight = 0 ∧ (s.getStats it).latestHeight = 0 := by
  simp [getStats, h]

theorem latest_concat {heights : List UInt64} (h : s.heights = heights ++ [height]) :
    (s.getStats it).latestHeight = height := by
  simp [getStats, h]

theorem earliest_cons {heights : List UInt64} (h : s.heights = height :: heights) :
    (s.getStats it).earliestHeight = height := by
  simp [getStats, h, List.getLast?_cons]

theorem statsExact_of_ascending (hlists : Map.Lists s.heights s.blocks) (hasc : s.Ascending)
    (hsize : totalSize s.blocks < 2 ^ 64) : StatsExact it s := by
  refine ⟨rfl, ?_, fun hnone => ?_, fun hsome => ?_, fun hsome => ?_⟩
  · rw [toNat_totalSizeBytes, Nat.mod_eq_of_lt hsize]
  · refine bounds_of_nil (List.toFinset_eq_empty_iff _ |>.mp ?_)
    rw [hlists.toFinset, hnone]
  · rw [← hlists.toFinset] at hsome ⊢
    have hne : s.heights ≠ [] := fun hnil => hsome (by simp [hnil])
    obtain ⟨first, rest, hheights⟩ := List.exists_cons_of_ne_nil hne
    rw [earliest_cons hheights, hheights]
    rw [Ascending, hheights, List.pairwise_cons] at hasc
    refine ⟨by simp, fun h hh => ?_⟩
    rcases List.mem_cons.mp (List.mem_toFinset.mp hh) with rfl | hrest
    · exact UInt64.le_refl _
    · exact UInt64.le_of_lt (hasc.1 h hrest)
  · rw [← hlists.toFinset] at hsome ⊢
    have hne : s.heights ≠ [] := fun hnil => hsome (by simp [hnil])
    obtain ⟨rest, last, hheights⟩ := (List.eq_nil_or_concat' s.heights).resolve_left hne
    rw [latest_concat hheights, hheights]
    rw [Ascending, hheights, List.pairwise_append] at hasc
    refine ⟨by simp, fun h hh => ?_⟩
    rcases List.mem_append.mp (List.mem_toFinset.mp hh) with hrest | hlast
    · exact UInt64.le_of_lt (hasc.2.2 h hrest last List.mem_cons_self)
    · rw [List.mem_singleton.mp hlast]
      exact UInt64.le_refl _

-- ---------------------------------------------------------------------------
-- Statistics along a run
-- ---------------------------------------------------------------------------

theorem sublist_loop (count : Nat) (s : StatePruner) (heights : List UInt64) :
    (prune.loop count s heights).2.heights.Sublist s.heights := by
  induction heights generalizing count s with
  | nil => exact .refl _
  | cons height heights ih =>
    cases hget : s.blocks.get height with
    | none =>
      rw [loop_none hget]
      exact ih count s
    | some archive =>
      rw [loop_some hget]
      exact (ih (count + 1) (s.drop height)).trans List.erase_sublist

theorem totalSize_loop (count : Nat) (s : StatePruner) (heights : List UInt64) :
    totalSize (prune.loop count s heights).2.blocks ≤ totalSize s.blocks := by
  induction heights generalizing count s with
  | nil => exact Nat.le_refl _
  | cons height heights ih =>
    cases hget : s.blocks.get height with
    | none =>
      rw [loop_none hget]
      exact ih count s
    | some archive =>
      rw [loop_some hget]
      have hsplit := Map.total_erase s.blocks (fun archive => archive.blockSizeBytes.toNat) height
      exact (ih (count + 1) (s.drop height)).trans (Nat.le.intro hsplit)

theorem totalSize_archiveBlock (s : StatePruner) (height : UInt64) (hash stateRoot : Bytes 32)
    (blockSize : UInt64) (txCount : UInt32) :
    totalSize (s.archiveBlock height hash stateRoot blockSize txCount).blocks =
      totalSize (s.blocks.erase height) + blockSize.toNat := by
  let archive : BlockArchive := ⟨height, hash, stateRoot, blockSize, txCount⟩
  have hsplit := Map.total_erase (s.blocks.insert height archive)
    (fun archive => archive.blockSizeBytes.toNat) height
  rw [Map.erase_insert, Map.weightAt_some (Map.get_insert_self _ _ _)] at hsplit
  exact hsplit.symm

theorem totalSize_lt (h : StatsExact it s) : totalSize s.blocks < 2 ^ 64 := by
  rw [← h.size]
  exact (s.getStats it).totalSizeBytes.toNat_lt

variable {hash stateRoot : Bytes 32} {blockSize : UInt64} {txCount : UInt32}

theorem heights_new (hnew : height ∉ s.heights) :
    (s.archiveBlock height hash stateRoot blockSize txCount).heights = s.heights ++ [height] :=
  if_neg hnew

theorem ascending_archiveBlock (hasc : s.Ascending)
    (hupward : height ∈ s.heights ∨ ∀ h ∈ s.heights, h < height) :
    (s.archiveBlock height hash stateRoot blockSize txCount).Ascending := by
  by_cases hmem : height ∈ s.heights
  · rw [Ascending, archiveBlock, if_pos hmem]
    exact hasc
  · rw [Ascending, heights_new hmem]
    refine List.pairwise_append.mpr ⟨hasc, List.pairwise_singleton _ _, fun h hh last hlast => ?_⟩
    rw [List.mem_singleton.mp hlast]
    exact hupward.resolve_left hmem h hh

theorem upward_of_statsExact (hlists : Map.Lists s.heights s.blocks)
    (h : StatsExact it (s.archiveBlock height hash stateRoot blockSize txCount)) :
    height ∈ s.heights ∨ ∀ h ∈ s.heights, h < height := by
  refine or_iff_not_imp_left.mpr fun hnew h' hh' => ?_
  have hafter := lists_step hlists (.archiveBlock height hash stateRoot blockSize txCount)
  have hheights : (s.archiveBlock height hash stateRoot blockSize txCount).heights =
      s.heights ++ [height] := heights_new hnew
  have hkey (k : UInt64) (hk : k ∈ s.heights ++ [height]) :
      k ∈ (s.archiveBlock height hash stateRoot blockSize txCount).blocks.keys :=
    (hafter.mem k).mp (hheights ▸ hk)
  have hlast := (h.latest (Finset.ne_empty_of_mem (hkey height (by simp)))).2 h'
    (hkey h' (List.mem_append_left _ hh'))
  rw [latest_concat hheights] at hlast
  exact UInt64.lt_of_le_of_ne hlast fun heq => hnew (heq ▸ hh')

/-- After a height is archived, the statistics are right just when it came upward. -/
theorem statsExact_archiveBlock (hlists : Map.Lists s.heights s.blocks) (hasc : s.Ascending) :
    StatsExact it (s.archiveBlock height hash stateRoot blockSize txCount) ↔
      s.ArchivesUpward (.archiveBlock height hash stateRoot blockSize txCount) := by
  simp only [ArchivesUpward, ← totalSize_archiveBlock s height hash stateRoot blockSize txCount,
    ← hlists.mem]
  constructor
  · exact fun h => ⟨upward_of_statsExact hlists h, totalSize_lt h⟩
  · rintro ⟨hupward, hfits⟩
    exact statsExact_of_ascending
      (lists_step hlists (.archiveBlock height hash stateRoot blockSize txCount))
      (ascending_archiveBlock hasc hupward) hfits

theorem ascending_prune (hasc : s.Ascending) (heights : List UInt64) :
    (s.prune heights).2.Ascending := hasc.sublist (sublist_loop 0 s heights)

theorem statsExact_step (hlists : Map.Lists s.heights s.blocks) (hasc : s.Ascending)
    (hfits : totalSize s.blocks < 2 ^ 64) (op : Op) :
    StatsExact it (s.step op) ↔ s.ArchivesUpward op := by
  cases op with
  | archiveBlock height hash stateRoot blockSize txCount => exact statsExact_archiveBlock hlists hasc
  | prune heights =>
    refine iff_of_true ?_ trivial
    exact statsExact_of_ascending (lists_loop hlists 0 heights) (ascending_prune hasc heights)
      ((totalSize_loop 0 s heights).trans_lt hfits)

theorem ascending_step (hlists : Map.Lists s.heights s.blocks) (hasc : s.Ascending) {op : Op}
    (h : StatsExact it (s.step op)) : (s.step op).Ascending := by
  cases op with
  | archiveBlock height hash stateRoot blockSize txCount =>
    exact ascending_archiveBlock hasc (upward_of_statsExact hlists h)
  | prune heights => exact ascending_prune hasc heights

theorem statsExact_new (config : PruningConfig) : StatsExact it (new config) :=
  statsExact_of_ascending Map.lists_empty List.Pairwise.nil
    (by rw [totalSize, new, Map.total_empty]; decide)

/-- In every state of a run the statistics are right, just when every height that is new to
the archives comes above them, and their sizes fit. -/
theorem stats_exact_iff (it : Map.Iteration UInt64 BlockArchive) (config : PruningConfig)
    (run : List Op) :
    (∀ before, before <+: run → StatsExact it (Trace.exec step (new config) before)) ↔
      Trace.Always step ArchivesUpward (new config) run := by
  refine Trace.prefixes_iff_of_always (F := fun _ _ => True)
    (J := fun s : StatePruner => Map.Lists s.heights s.blocks ∧ (StatsExact it s → s.Ascending))
    ?_ ?_ ⟨Map.lists_empty, fun _ => List.Pairwise.nil⟩ (statsExact_new config)
    (Trace.always_of_forall_mem fun _ _ _ => trivial)
  · rintro s op ⟨hlists, hasc⟩ hexact -
    exact ⟨lists_step hlists op, ascending_step hlists (hasc hexact)⟩
  · rintro s op ⟨hlists, hasc⟩ hexact -
    exact statsExact_step hlists (hasc hexact) (totalSize_lt hexact) op

/-- Height 3 comes after height 5. -/
theorem stats_exact_fails :
    ¬ ∀ (it : Map.Iteration UInt64 BlockArchive) (config : PruningConfig) (run : List Op),
      ∀ before, before <+: run → StatsExact it (Trace.exec step (new config) before) := by
  intro h
  let _ : LinearOrder UInt64 := .lift' UInt64.toNat fun _ _ => UInt64.toNat_inj.mp
  let archive (height : UInt64) : Op := .archiveBlock height (.fill 32 1) (.fill 32 0) 100 1
  have hexact := h .ascending .initial [archive 5, archive 3] _ List.prefix_rfl
  have hbelow := (hexact.latest (by decide)).2 5 (by decide)
  exact absurd hbelow (by decide)

end StatePruner

end LiteVision.Truth
