import LiteVision.Truth.Settlement.Registry

/-!
# The stake index

`stakeIndex` sorts the operators into buckets by stake. `update_stake` moves an
id from one bucket to another. `register` pushes the id without looking for an
old entry, and `slash` takes it out of the bucket of the stake that is left,
never putting it back: each of them, where it changes anything already indexed,
leaves the index wrong.
-/

namespace LiteVision.Truth

open Lib

namespace OperatorRegistry

def bucket (index : Map UInt64 (List (Bytes 32))) (b : UInt64) : List (Bytes 32) :=
  (index.get b).getD []

/-- Every operator is in the bucket of its stake once, and nothing else is anywhere. -/
structure StakeIndexed (r : OperatorRegistry) : Prop where
  once : ∀ id operator, r.get id = some operator →
    (bucket r.stakeIndex (operator.stake / 1000)).count id = 1
  only : ∀ id operator b, r.get id = some operator → id ∈ bucket r.stakeIndex b →
    b = operator.stake / 1000
  known : ∀ id b, id ∈ bucket r.stakeIndex b → ∃ operator, r.get id = some operator

/-- A registration is of a new id, and a slash is refused. -/
def KeepsIndex (r : OperatorRegistry) : RegistryOp → Prop
  | .register operator => r.get operator.id = none
  | .slash id amount => ∀ operator, r.get id = some operator → operator.stake < amount
  | .updateStake .. | .deactivate _ | .increaseReputation .. | .decreaseReputation .. => True

-- ---------------------------------------------------------------------------
-- Buckets
-- ---------------------------------------------------------------------------

section
variable (index : Map UInt64 (List (Bytes 32))) (b b' : UInt64) (id : Bytes 32)

theorem bucket_pushStake :
    bucket (pushStake index b id) b' =
      if b' = b then bucket index b ++ [id] else bucket index b' := by
  unfold bucket pushStake
  rw [Map.get_insert]
  split <;> rfl

theorem bucket_dropStake :
    bucket (dropStake index b id) b' =
      if b' = b then (bucket index b).filter (· ≠ id) else bucket index b' := by
  unfold bucket dropStake
  rw [Map.get_modify]
  split
  · cases index.get b <;> rfl
  · rfl

theorem count_pushStake (j : Bytes 32) :
    (bucket (pushStake index b id) b').count j =
      (bucket index b').count j + if b' = b ∧ j = id then 1 else 0 := by
  rw [bucket_pushStake]
  by_cases hb : b' = b
  · subst hb
    by_cases hj : j = id
    · subst hj
      simp
    · simp [hj, List.count_eq_zero]
  · simp [hb]

theorem count_dropStake (j : Bytes 32) :
    (bucket (dropStake index b id) b').count j =
      if b' = b ∧ j = id then 0 else (bucket index b').count j := by
  rw [bucket_dropStake]
  by_cases hb : b' = b
  · subst hb
    by_cases hj : j = id
    · subst hj
      simp [List.count_eq_zero]
    · simp [hj, List.count_filter]
  · simp [hb]

end

-- ---------------------------------------------------------------------------
-- One call
-- ---------------------------------------------------------------------------

variable {r : OperatorRegistry}

/-- How often the index should list an id in a bucket. -/
def entries (r : OperatorRegistry) (id : Bytes 32) (b : UInt64) : Nat :=
  (r.get id).elim 0 fun operator => if b = operator.stake / 1000 then 1 else 0

theorem stakeIndexed_iff :
    StakeIndexed r ↔ ∀ id b, (bucket r.stakeIndex b).count id = entries r id b := by
  constructor
  · rintro ⟨honce, honly, hknown⟩ id b
    cases hget : r.get id with
    | none =>
      rw [entries, hget, List.count_eq_zero.mpr]
      · rfl
      · intro hmem
        obtain ⟨operator, hop⟩ := hknown id b hmem
        rw [hget] at hop
        cases hop
    | some operator =>
      simp only [entries, hget, Option.elim_some]
      split
      · rename_i hb
        rw [hb]
        exact honce id operator hget
      · rename_i hb
        exact List.count_eq_zero.mpr fun hmem => hb (honly id operator b hget hmem)
  · intro h
    refine ⟨fun id operator hget => ?_, fun id operator b hget hmem => ?_, fun id b hmem => ?_⟩
    · simp [h, entries, hget]
    · have hpos := List.count_pos_iff.mpr hmem
      rw [h, entries, hget, Option.elim_some] at hpos
      by_contra hb
      simp [hb] at hpos
    · have hpos := List.count_pos_iff.mpr hmem
      rw [h, entries] at hpos
      cases hget : r.get id with
      | none => simp [hget] at hpos
      | some operator => exact ⟨operator, rfl⟩

theorem entries_step (op : RegistryOp) (id : Bytes 32) (b : UInt64) :
    entries (r.step op) id b =
      if id = op.target then
        (op.entry (r.get id)).elim 0 fun operator => if b = operator.stake / 1000 then 1 else 0
      else entries r id b := by
  unfold entries
  rw [get_step]
  split <;> rfl

theorem stakeIndexed_of_same {op : RegistryOp} (hop : op.IsUpdate)
    (hindex : (r.step op).stakeIndex = r.stakeIndex)
    (hstake : ∀ operator, (op.update operator).stake = operator.stake) (h : StakeIndexed r) :
    StakeIndexed (r.step op) := by
  rw [stakeIndexed_iff] at h ⊢
  intro id b
  rw [hindex, h, entries_step]
  split
  · rw [RegistryOp.entry_eq_map hop, entries]
    cases r.get id with
    | none => rfl
    | some operator => simp only [Option.map_some, Option.elim_some, hstake]
  · rfl

theorem stakeIndexed_register (operator : OperatorState) (h : StakeIndexed r) :
    StakeIndexed (r.step (.register operator)) ↔ r.get operator.id = none := by
  have hpushed : ∀ j b, (bucket (r.step (.register operator)).stakeIndex b).count j =
      entries r j b + if b = operator.stake / 1000 ∧ j = operator.id then 1 else 0 := by
    intro j b
    rw [step, register, count_pushStake, stakeIndexed_iff.mp h]
  rw [stakeIndexed_iff]
  simp only [hpushed, entries_step, RegistryOp.target, RegistryOp.entry, Option.elim_some]
  constructor
  · intro hnew
    cases hget : r.get operator.id with
    | none => rfl
    | some old =>
      -- the entry of the old registration is still there
      have hold := hnew operator.id (old.stake / 1000)
      rw [entries, hget] at hold
      by_cases hb : old.stake / 1000 = operator.stake / 1000 <;> simp [hb] at hold
  · intro hget j b
    by_cases hj : j = operator.id
    · subst hj
      simp [entries, hget]
    · simp [hj]

theorem stakeIndexed_updateStake (id : Bytes 32) (newStake : UInt64) (hkeyed : Keyed r)
    (h : StakeIndexed r) : StakeIndexed (r.step (.updateStake id newStake)) := by
  cases hget : r.get id with
  | none =>
    rw [step, updateStake_none hget]
    exact h
  | some operator =>
    rw [stakeIndexed_iff]
    intro j b
    rw [entries_step, step, updateStake_some hget, hkeyed id operator hget, count_pushStake,
      count_dropStake, stakeIndexed_iff.mp h]
    by_cases hj : j = id
    · subst hj
      by_cases hb : b = operator.stake / 1000 <;>
        simp [hb, entries, hget, RegistryOp.target, RegistryOp.entry, RegistryOp.update]
    · simp [hj, RegistryOp.target]

theorem stakeIndexed_slash (id : Bytes 32) (amount : UInt64) (hkeyed : Keyed r)
    (h : StakeIndexed r) :
    StakeIndexed (r.step (.slash id amount)) ↔
      ∀ operator, r.get id = some operator → operator.stake < amount := by
  rcases slash_cases r id amount with ⟨hsame, hrefused⟩ | ⟨operator, hget, hlt, heq⟩
  · rw [step, hsame]
    exact iff_of_true h hrefused
  · refine iff_of_false (fun hnew => ?_) fun hrefused => hlt (hrefused operator hget)
    -- the bucket of the stake that is left has just lost the id
    have hleft := stakeIndexed_iff.mp hnew id ((operator.slash amount).stake / 1000)
    rw [entries_step, step, heq, hkeyed id operator hget, count_dropStake] at hleft
    simp [RegistryOp.target, RegistryOp.entry, RegistryOp.update, hget, hlt] at hleft

/-- In a right index a call leaves the index right just when it registers a new
id, is a slash that fails, or is no registration and no slash. -/
theorem stakeIndexed_step (op : RegistryOp) (hkeyed : Keyed r) (h : StakeIndexed r) :
    StakeIndexed (r.step op) ↔ KeepsIndex r op := by
  cases op with
  | register operator => exact stakeIndexed_register operator h
  | updateStake id newStake =>
    exact iff_of_true (stakeIndexed_updateStake id newStake hkeyed h) trivial
  | slash id amount => exact stakeIndexed_slash id amount hkeyed h
  | deactivate id =>
    exact iff_of_true (stakeIndexed_of_same trivial rfl (fun _ => rfl) h) trivial
  | increaseReputation id delta =>
    refine iff_of_true (stakeIndexed_of_same trivial rfl (fun operator => ?_) h) trivial
    exact (operator.increaseReputation_keeps delta).2
  | decreaseReputation id delta =>
    refine iff_of_true (stakeIndexed_of_same trivial rfl (fun operator => ?_) h) trivial
    exact (operator.decreaseReputation_keeps delta).2

-- ---------------------------------------------------------------------------
-- Runs
-- ---------------------------------------------------------------------------

theorem stakeIndexed_new : StakeIndexed new :=
  stakeIndexed_iff.mpr fun id b => by simp [bucket, entries, new, get]

/-- The index is right in every state of a run just when every call of it
registers a new id, is refused as a slash, or is of another method. -/
theorem stake_index_iff (ops : List RegistryOp) :
    (∀ before, before <+: ops → StakeIndexed (Trace.exec step new before)) ↔
      Trace.Always step KeepsIndex new ops :=
  Trace.prefixes_iff_always (J := Keyed) (fun _ op h => keyed_step op h)
    (fun _ op hkeyed h => stakeIndexed_step op hkeyed h) keyed_new stakeIndexed_new

/-- An operator slashed from 10000 to 5000 is still listed at 10000. -/
theorem stake_index_fails :
    ¬ ∀ ops : List RegistryOp, StakeIndexed (Trace.exec step new ops) := by
  intro h
  let operator : OperatorState :=
    { id := .fill 32 1, pubkey := .fill 32 2, stake := 10000, reputation := 5000, status := .active,
      region := "us-east", capabilities := [], slashedCount := 0, totalJobsCompleted := 0,
      totalComputeUnits := 0, lastUpdateBlock := 100 }
  have honly := (h [.register operator, .slash operator.id 5000]).only operator.id
    (operator.slash 5000) 10 (by decide) (by decide)
  revert honly
  decide

end OperatorRegistry

end LiteVision.Truth
