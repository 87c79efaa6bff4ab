import LiteVision.Bytes
import LiteVision.Lib.KeyList
import LiteVision.Lib.Trace

/-!
# Pruning of archived blocks

`StatePruner` keeps the archives of blocks by height, and the heights in a queue in the
order in which they came. `prune_exact`: the queue has the heights of the archives, each
of them once, and pruning at a height removes the archives below its cutoff.
-/

namespace LiteVision.Truth

open Lib

structure PruningConfig where
  enabled : Bool
  retentionBlocks : UInt64
  minHeightToPrune : UInt64
  batchSize : Nat
  deriving DecidableEq

namespace PruningConfig

/-- `PruningConfig::default`. -/
def initial : PruningConfig where
  enabled := true
  retentionBlocks := 10000
  minHeightToPrune := 100
  batchSize := 1000

def withRetention (config : PruningConfig) (blocks : UInt64) : PruningConfig :=
  { config with retentionBlocks := blocks }

def disabled (config : PruningConfig) : PruningConfig := { config with enabled := false }

end PruningConfig

structure BlockArchive where
  height : UInt64
  hash : Bytes 32
  stateRoot : Bytes 32
  blockSizeBytes : UInt64
  txCount : UInt32
  deriving DecidableEq

structure ArchiveStats where
  totalBlocks : UInt64
  totalSizeBytes : UInt64
  earliestHeight : UInt64
  latestHeight : UInt64
  deriving DecidableEq

structure StatePruner where
  config : PruningConfig
  blocks : Map UInt64 BlockArchive
  heights : List UInt64
  deriving DecidableEq

namespace StatePruner

def new (config : PruningConfig) : StatePruner where
  config
  blocks := .empty
  heights := []

/-- A height that is archived again keeps its place in the queue. -/
def archiveBlock (s : StatePruner) (height : UInt64) (hash stateRoot : Bytes 32)
    (blockSize : UInt64) (txCount : UInt32) : StatePruner :=
  let archive : BlockArchive :=
    { height, hash, stateRoot, blockSizeBytes := blockSize, txCount }
  { s with
    blocks := s.blocks.insert height archive
    heights := if height ∈ s.heights then s.heights else s.heights ++ [height] }

def shouldPrune (s : StatePruner) (currentHeight : UInt64) : Bool :=
  if !s.config.enabled then false
  else
    let minHeight := saturatingSub currentHeight s.config.retentionBlocks
    decide (s.config.minHeightToPrune < minHeight)

def getBlocksToPrune (s : StatePruner) (currentHeight : UInt64) : List UInt64 :=
  if !s.shouldPrune currentHeight then []
  else
    let cutoff := saturatingSub currentHeight s.config.retentionBlocks
    s.heights.filter fun h => h < cutoff

/-- The loop of `prune`: a height without an archive is passed over. -/
def prune.loop (count : Nat) (s : StatePruner) : List UInt64 → Nat × StatePruner
  | [] => (count, s)
  | height :: heights =>
    match s.blocks.get height with
    | none => loop count s heights
    | some _ =>
      loop (count + 1) { s with
        blocks := s.blocks.erase height
        heights := s.heights.erase height } heights

def prune (s : StatePruner) (heights : List UInt64) : Nat × StatePruner := prune.loop 0 s heights

def getArchive (s : StatePruner) (height : UInt64) : Option BlockArchive := s.blocks.get height

/-- The bounds are the ends of the queue. -/
def getStats (it : Map.Iteration UInt64 BlockArchive) (s : StatePruner) : ArchiveStats :=
  let bounds :=
    match s.heights.head?, s.heights.getLast? with
    | some earliest, some latest => (earliest, latest)
    | _, _ => (0, 0)
  { totalBlocks := UInt64.ofNat s.blocks.keys.card
    totalSizeBytes := (it.entries s.blocks).foldl (fun total e => total + e.2.blockSizeBytes) 0
    earliestHeight := bounds.1
    latestHeight := bounds.2 }

inductive Op where
  | archiveBlock (height : UInt64) (hash stateRoot : Bytes 32) (blockSize : UInt64)
      (txCount : UInt32)
  | prune (heights : List UInt64)

def step (s : StatePruner) : Op → StatePruner
  | .archiveBlock height hash stateRoot blockSize txCount =>
    s.archiveBlock height hash stateRoot blockSize txCount
  | .prune heights => (s.prune heights).2

-- ---------------------------------------------------------------------------
-- The loop of `prune`
-- ---------------------------------------------------------------------------

variable {s : StatePruner} {height : UInt64} {count : Nat}

def drop (s : StatePruner) (height : UInt64) : StatePruner :=
  { s with blocks := s.blocks.erase height, heights := s.heights.erase height }

theorem loop_none (h : s.blocks.get height = none) (heights : List UInt64) :
    prune.loop count s (height :: heights) = prune.loop count s heights := by
  simp only [prune.loop, h]

theorem loop_some {archive : BlockArchive} (h : s.blocks.get height = some archive)
    (heights : List UInt64) :
    prune.loop count s (height :: heights) = prune.loop (count + 1) (s.drop height) heights := by
  simp only [prune.loop, h, drop]

theorem config_loop (count : Nat) (s : StatePruner) (heights : List UInt64) :
    (prune.loop count s heights).2.config = s.config := by
  induction heights generalizing count s with
  | nil => rfl
  | cons height heights ih =>
    cases hget : s.blocks.get height with
    | none => rw [loop_none hget, ih]
    | some archive =>
      rw [loop_some hget, ih]
      rfl

theorem get_loop (count : Nat) (s : StatePruner) (heights : List UInt64) (h : UInt64) :
    (prune.loop count s heights).2.blocks.get h = if h ∈ heights then none else s.blocks.get h := by
  induction heights generalizing count s with
  | nil => rfl
  | cons height heights ih =>
    cases hget : s.blocks.get height with
    | none =>
      rw [loop_none hget, ih]
      by_cases hh : h = height
      · simp [hh, hget]
      · simp [hh]
    | some archive =>
      rw [loop_some hget, ih, drop, Map.get_erase]
      by_cases hh : h = height <;> simp [hh]

theorem lists_loop (h : Map.Lists s.heights s.blocks) (count : Nat) (heights : List UInt64) :
    Map.Lists (prune.loop count s heights).2.heights (prune.loop count s heights).2.blocks := by
  induction heights generalizing count s with
  | nil => exact h
  | cons height heights ih =>
    cases hget : s.blocks.get height with
    | none =>
      rw [loop_none hget]
      exact ih h count
    | some archive =>
      rw [loop_some hget]
      exact ih (h.erase height) (count + 1)

theorem count_loop (count : Nat) (s : StatePruner) (heights : List UInt64) :
    (prune.loop count s heights).1 = count + (s.blocks.keys ∩ heights.toFinset).card := by
  induction heights generalizing count s with
  | nil => simp [prune.loop]
  | cons height heights ih =>
    rw [List.toFinset_cons]
    cases hget : s.blocks.get height with
    | none =>
      have habsent : height ∉ s.blocks.keys := by simp [Map.mem_keys, hget]
      rw [loop_none hget, ih, Finset.inter_insert_of_notMem habsent]
    | some archive =>
      have hkey : height ∈ s.blocks.keys := Map.mem_keys.mpr ⟨archive, hget⟩
      have hrest : (s.drop height).blocks.keys ∩ heights.toFinset =
          (s.blocks.keys ∩ heights.toFinset).erase height := by
        rw [drop, Map.keys_erase, Finset.erase_inter]
      rw [loop_some hget, ih, hrest, Finset.inter_insert_of_mem hkey,
        ← Finset.insert_erase (Finset.mem_insert_self height _), Finset.erase_insert_eq_erase,
        Finset.card_insert_of_notMem (Finset.notMem_erase height _)]
      omega

-- ---------------------------------------------------------------------------
-- Runs
-- ---------------------------------------------------------------------------

theorem lists_step (h : Map.Lists s.heights s.blocks) (op : Op) :
    Map.Lists (s.step op).heights (s.step op).blocks := by
  cases op with
  | archiveBlock height hash stateRoot blockSize txCount => exact h.insert height _
  | prune heights => exact lists_loop h 0 heights

theorem lists_exec (config : PruningConfig) (run : List Op) :
    Map.Lists (Trace.exec step (new config) run).heights
      (Trace.exec step (new config) run).blocks :=
  Trace.invariant (I := fun s : StatePruner => Map.Lists s.heights s.blocks)
    (fun _ op h => lists_step h op) Map.lists_empty run

-- ---------------------------------------------------------------------------
-- Pruning at a height
-- ---------------------------------------------------------------------------

/-- The archived heights below the cutoff, if it is time to prune. -/
def prunable (s : StatePruner) (currentHeight : UInt64) : Finset UInt64 :=
  if s.shouldPrune currentHeight then s.blocks.keys.filter fun h =>
    h.toNat < currentHeight.toNat - s.config.retentionBlocks.toNat
  else ∅

/-- What pruning at a height promises. -/
structure PrunesExactly (s : StatePruner) (currentHeight : UInt64) : Prop where
  removed : (s.prune (s.getBlocksToPrune currentHeight)).2.blocks.keys =
    s.blocks.keys \ s.prunable currentHeight
  kept : ∀ h, h ∉ s.prunable currentHeight →
    (s.prune (s.getBlocksToPrune currentHeight)).2.blocks.get h = s.blocks.get h
  count : (s.prune (s.getBlocksToPrune currentHeight)).1 = (s.prunable currentHeight).card
  again : (s.prune (s.getBlocksToPrune currentHeight)).2.getBlocksToPrune currentHeight = []

theorem mem_prunable {currentHeight h : UInt64} : h ∈ s.prunable currentHeight ↔
    h ∈ s.blocks.keys ∧ s.shouldPrune currentHeight = true ∧
      h.toNat < currentHeight.toNat - s.config.retentionBlocks.toNat := by
  unfold prunable
  split
  · rename_i hprune
    rw [Finset.mem_filter, hprune, eq_self_iff_true, true_and]
  · rename_i hprune
    simp [hprune]

theorem mem_getBlocksToPrune (hlists : Map.Lists s.heights s.blocks) {currentHeight h : UInt64} :
    h ∈ s.getBlocksToPrune currentHeight ↔ h ∈ s.prunable currentHeight := by
  rw [mem_prunable, ← hlists.mem]
  unfold getBlocksToPrune
  cases s.shouldPrune currentHeight
  · simp
  · simp [UInt64.lt_iff_toNat_lt, toNat_saturatingSub]

theorem prunesExactly (hlists : Map.Lists s.heights s.blocks) (currentHeight : UInt64) :
    s.PrunesExactly currentHeight := by
  have hget (h : UInt64) : (s.prune (s.getBlocksToPrune currentHeight)).2.blocks.get h =
      if h ∈ s.prunable currentHeight then none else s.blocks.get h := by
    simp only [prune, get_loop, mem_getBlocksToPrune hlists]
  have hkeys : (s.prune (s.getBlocksToPrune currentHeight)).2.blocks.keys =
      s.blocks.keys \ s.prunable currentHeight := by
    ext h
    rw [Finset.mem_sdiff, Map.mem_keys, Map.mem_keys, hget]
    split <;> simp_all
  have hafter : Map.Lists (s.prune (s.getBlocksToPrune currentHeight)).2.heights _ :=
    lists_loop hlists 0 _
  have hconfig : (s.prune (s.getBlocksToPrune currentHeight)).2.config = s.config :=
    config_loop 0 s _
  refine ⟨hkeys, fun h hh => ?_, ?_, ?_⟩
  · rw [hget, if_neg hh]
  · rw [prune, count_loop, Nat.zero_add]
    congr 1
    ext h
    rw [Finset.mem_inter, List.mem_toFinset, mem_getBlocksToPrune hlists]
    exact and_iff_right_of_imp fun hh => (mem_prunable.mp hh).1
  · -- what is left is not below the cutoff, which depends on the configuration alone
    refine List.eq_nil_iff_forall_not_mem.mpr fun h hh => ?_
    rw [mem_getBlocksToPrune hafter, mem_prunable, hkeys, shouldPrune, hconfig, Finset.mem_sdiff] at hh
    obtain ⟨⟨hkey, hleft⟩, hrest⟩ := hh
    exact hleft (mem_prunable.mpr ⟨hkey, hrest⟩)

/-- In every state the queue lists the archived heights, and pruning at any height removes
the archives that are due, counts them and leaves the others. -/
theorem prune_exact (config : PruningConfig) (run : List Op) :
    let s := Trace.exec step (new config) run
    Map.Lists s.heights s.blocks ∧ ∀ currentHeight, s.PrunesExactly currentHeight := by
  intro s
  exact ⟨lists_exec config run, prunesExactly (lists_exec config run)⟩

end StatePruner

end LiteVision.Truth
