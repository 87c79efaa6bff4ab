import LiteVision.Truth.Storage.Persistence

/-!
# What a node keeps in memory

Blocks stay until a block of the same height or a prune, snapshots until there are a
hundred newer ones. The last snapshot says what can be pruned.
-/

namespace LiteVision.Truth.Storage

open Lib

variable {fmt : Formats} {it : Map.Iteration UInt64 Block} {dir : String} {ops : List Op}

namespace Op

def snapshot? : Op → Option Snapshot
  | createSnapshot height stateRoot blockHash => some ⟨height, stateRoot, blockHash⟩
  | storeBlock _ | prune _ | setState _ | persist => none

/-- The call does not take a block away that is held. -/
def Leaves (block : Block) : Op → Prop
  | storeBlock other => other.header.height ≠ block.header.height
  | prune keepHeight => keepHeight ≤ block.header.height
  | createSnapshot _ _ _ | setState _ | persist => True

def effect : Op → History.Effect UInt64 Block
  | storeBlock block => .put block.header.height block
  | prune keepHeight => .sweep fun height _ => height ≥ keepHeight
  | createSnapshot _ _ _ | setState _ | persist => .skip

theorem spares_effect {block : Block} {op : Op} :
    op.effect.Spares block.header.height block ↔ op.Leaves block := by
  cases op with
  | storeBlock other => exact Iff.rfl
  | prune keepHeight => exact decide_eq_true_iff
  | _ => exact Iff.rfl

end Op

def created (ops : List Op) : List Snapshot := ops.filterMap Op.snapshot?

theorem step_blocks (node : Storage × Disk) (op : Op) :
    (step fmt it node op).1.blocks = op.effect.apply node.1.blocks := by
  cases op <;> rfl

theorem getBlock_run {height : UInt64} {block : Block} :
    (run fmt it dir ops).1.getBlock height = some block ↔
      ∃ before after, ops = before ++ .storeBlock block :: after ∧ block.header.height = height ∧
        ∀ later ∈ after, later.Leaves block := by
  have hheld : (run fmt it dir ops).1.getBlock height = some block ↔
      History.Stands Op.effect ops height block :=
    History.get_exec_iff (fun node : Storage × Disk => node.1.blocks) step_blocks rfl
  rw [hheld]
  constructor
  · rintro ⟨before, op, after, rfl, hput, hspared⟩
    cases op with
    | storeBlock other =>
      cases hput
      exact ⟨before, after, rfl, rfl, fun later hmem => Op.spares_effect.mp (hspared later hmem)⟩
    | _ => cases hput
  · rintro ⟨before, after, rfl, rfl, hleft⟩
    exact ⟨before, .storeBlock block, after, rfl, rfl,
      fun later hmem => Op.spares_effect.mpr (hleft later hmem)⟩

def lastOf {α : Type} (n : Nat) (l : List α) : List α := l.drop (l.length - n)

theorem length_lastOf {α : Type} (n : Nat) (l : List α) : (lastOf n l).length = min n l.length := by
  rw [lastOf, List.length_drop]
  omega

theorem lastOf_concat {α : Type} (n : Nat) (l : List α) (a : α) :
    lastOf n (l ++ [a]) = if (lastOf n l ++ [a]).length > n then (lastOf n l ++ [a]).drop 1
      else lastOf n l ++ [a] := by
  have hconcat : lastOf n l ++ [a] = (l ++ [a]).drop (l.length - n) := by
    rw [lastOf, List.drop_append_of_le_length (Nat.sub_le ..)]
  have hlength : (lastOf n l ++ [a]).length = min n l.length + 1 := by
    rw [List.length_append, length_lastOf, List.length_singleton]
  rw [hlength, hconcat, List.drop_drop, lastOf, List.length_append, List.length_singleton]
  split
  · rename_i hmany
    have heq : l.length + 1 - n = l.length - n + 1 := by omega
    rw [heq]
  · rename_i hfew
    have heq : l.length + 1 - n = l.length - n := by omega
    rw [heq]

theorem snapshots_run : (run fmt it dir ops).1.snapshots = lastOf 100 (created ops) := by
  induction ops using List.reverseRecOn with
  | nil => rfl
  | append_singleton ops op ih =>
    rw [run, Trace.exec_concat, ← run, created, List.filterMap_append, ← created]
    cases op with
    | createSnapshot height stateRoot blockHash =>
      have hone : [Op.createSnapshot height stateRoot blockHash].filterMap Op.snapshot? =
        [⟨height, stateRoot, blockHash⟩] := rfl
      rw [hone, lastOf_concat, ← ih]
      rfl
    | _ =>
      rw [List.filterMap_cons, Op.snapshot?, List.filterMap_nil, List.append_nil]
      exact ih

theorem getLast?_lastOf {α : Type} {n : Nat} (hn : 0 < n) (l : List α) :
    (lastOf n l).getLast? = l.getLast? := by
  rw [lastOf, List.getLast?_drop]
  split
  · rename_i hle
    have hnil : l.length = 0 := by omega
    rw [List.eq_nil_of_length_eq_zero hnil]
    rfl
  · rfl

/-- After any run: a block is held just where it was stored last at its height and not pruned
since, the snapshots are the last hundred made, and a height can be pruned just where the last
one of them is more than a thousand above it. The question overflows just where that snapshot
is above the height, but not a thousand high. -/
theorem memory_run (fmt : Formats) (it : Map.Iteration UInt64 Block) (dir : String)
    (ops : List Op) :
    let s := (run fmt it dir ops).1
    (∀ height block, s.getBlock height = some block ↔
      ∃ before after, ops = before ++ .storeBlock block :: after ∧ block.header.height = height ∧
        ∀ later ∈ after, later.Leaves block) ∧
    s.snapshots = lastOf 100 (created ops) ∧
    ∀ height : UInt64,
      (s.canPrune height = some true ↔ ∃ snapshot, (created ops).getLast? = some snapshot ∧
        height.toNat + 1000 < snapshot.height.toNat) ∧
      (s.canPrune height = none ↔ ∃ snapshot, (created ops).getLast? = some snapshot ∧
        height < snapshot.height ∧ snapshot.height < 1000) := by
  intro s
  refine ⟨fun height block => getBlock_run, snapshots_run, fun height => ?_⟩
  have hprune : s.pruneHeight = 1000 := (opened_run fmt it dir ops).pruneHeight
  have hlast : s.snapshots.getLast? = (created ops).getLast? := by
    rw [snapshots_run, getLast?_lastOf (by decide)]
  rw [canPrune, hlast, hprune]
  cases (created ops).getLast? with
  | none => simp
  | some snapshot =>
    simp only [Option.some.injEq, exists_eq_left', UInt64.lt_iff_toNat_lt]
    have hthousand : (1000 : UInt64).toNat = 1000 := rfl
    split
    · rename_i hlow
      constructor <;> simp <;> omega
    · rename_i hhigh
      split
      · rename_i hover
        constructor <;> simp <;> omega
      · rename_i hunder
        have hsub : (snapshot.height - 1000).toNat = snapshot.height.toNat - 1000 :=
          UInt64.toNat_sub_of_le _ _ (UInt64.le_iff_toNat_le.mpr (by omega))
        constructor
        · simp [hsub]
          omega
        · simp
          omega

example : (run Sample.formats Sample.iteration "data" [.storeBlock (Sample.block 1 7),
    .createSnapshot 500 (.fill 32 0) (.fill 32 0)]).1.canPrune 5 = none := rfl

end LiteVision.Truth.Storage
