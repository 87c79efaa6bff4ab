import LiteVision.Truth.ValidatorSet

/-!
# The validator table

The power of a validator is kept next to the stake it comes from. `table_invariant`: after any
calls, sorting included, the ids are distinct, the table has room for no more validators
than the limit, and every power is that of the stake.
-/

namespace LiteVision.Truth

open Lib

namespace Validator

/-- The power is that of the stake. -/
def Powered (v : Validator) : Prop := v.power = calculatePower v.totalStake

theorem powered_new (id : Bytes 32) (stake : UInt64) (pubkey : Bytes 32) :
    (new id stake pubkey).Powered := by
  rw [Powered, totalStake_new]
  rfl

theorem powered_updateStake (v : Validator) (newStake : UInt64) :
    (v.updateStake newStake).Powered := rfl

theorem powered_addDelegation (v : Validator) (amount : UInt64) :
    (v.addDelegation amount).Powered := rfl

theorem powered_jail (v : Validator) (currentEpoch slashAmount : UInt64) :
    (v.jail currentEpoch slashAmount).Powered := rfl

theorem Powered.toNat {v : Validator} (h : v.Powered)
    (hfits : v.stake.toNat + v.delegatedStake.toNat < 2 ^ 64) :
    v.power.toNat = (v.stake.toNat + v.delegatedStake.toNat) / 1000 := by
  rw [h, calculatePower, UInt64.toNat_div, totalStake, toNat_add_of_lt hfits]
  rfl

end Validator

namespace ValidatorSet

/-- What the list of validators keeps. -/
structure Table (l : List Validator) : Prop where
  nodup : (l.map Validator.id).Nodup
  room : l.length ≤ maxValidators
  powered : ∀ v ∈ l, v.Powered

variable {l : List Validator} {s : ValidatorSet} {id : Bytes 32} {f : Validator → Validator}

theorem Table.sublist {l' : List Validator} (h : Table l) (hsub : l'.Sublist l) : Table l' where
  nodup := (hsub.map Validator.id).nodup h.nodup
  room := hsub.length_le.trans h.room
  powered := fun v hv => h.powered v (hsub.subset hv)

theorem Table.perm {l' : List Validator} (h : Table l) (hperm : l'.Perm l) : Table l' where
  nodup := (hperm.map Validator.id).nodup_iff.mpr h.nodup
  room := hperm.length_eq.le.trans h.room
  powered := fun v hv => h.powered v (hperm.mem_iff.mp hv)

theorem Table.of_ids {l' : List Validator} (h : Table l)
    (hids : l'.map Validator.id = l.map Validator.id) (hpowered : ∀ v ∈ l', v.Powered) :
    Table l' where
  nodup := hids ▸ h.nodup
  room := by
    have hlength := congrArg List.length hids
    rw [List.length_map, List.length_map] at hlength
    exact hlength.le.trans h.room
  powered := hpowered

theorem Table.concat (h : Table l) (hroom : l.length < maxValidators) {v : Validator}
    (hnew : Keyed.find Validator.id l v.id = none) (hv : v.Powered) : Table (l ++ [v]) where
  nodup := Keyed.nodup_concat h.nodup hnew
  room := by
    rw [List.length_append]
    exact hroom
  powered := by
    intro w hw
    rcases List.mem_append.mp hw with hmem | hlast
    · exact h.powered w hmem
    · rw [List.mem_singleton.mp hlast]
      exact hv

theorem Table.update (h : Table l) (id : Bytes 32) (hid : ∀ v, (f v).id = v.id)
    (hf : ∀ v, v.Powered → (f v).Powered) : Table (Keyed.update Validator.id id f l) := by
  refine h.of_ids (Keyed.map_key_update hid) fun w hw => ?_
  rcases Keyed.mem_update hw with hmem | ⟨v, hfind, rfl⟩
  · exact h.powered w hmem
  · exact hf v (h.powered v (Keyed.mem_of_find hfind))

theorem Table.foldl_pay (h : Table l) (entries : List (Bytes 32 × UInt64)) :
    Table (entries.foldl pay l) := by
  induction entries generalizing l with
  | nil => exact h
  | cons entry entries ih =>
    exact ih (h.update entry.1 (fun v => v.id_updateStake _) fun v _ => v.powered_updateStake _)

theorem Table.epoch (h : Table l) (newEpoch : UInt64) : Table (l.map (released newEpoch)) := by
  refine h.of_ids (map_id_released newEpoch l) fun w hw => ?_
  obtain ⟨v, hv, rfl⟩ := List.mem_map.mp hw
  rcases released_cases newEpoch v with heq | ⟨-, heq⟩
  · rw [heq]
    exact h.powered v hv
  · rw [heq]
    exact h.powered v hv

-- ---------------------------------------------------------------------------
-- Runs
-- ---------------------------------------------------------------------------

/-- A call of the set, or a sort of its list. -/
inductive Call
  | op (op : Op)
  | sortByPower

def call (it : Map.Iteration (Bytes 32) UInt64) (s : ValidatorSet) : Call → ValidatorSet
  | .op op => s.step it op
  | .sortByPower => s.sortByPower

variable (it : Map.Iteration (Bytes 32) UInt64)

theorem table_step (h : Table s.validators) (op : Op) : Table (s.step it op).validators := by
  rcases step_cases it s op with hmove | ⟨heq, -⟩
  · generalize s.step it op = s' at hmove ⊢
    cases hmove with
    | added hroom _ hnew => exact h.concat hroom hnew (Validator.powered_new _ _ _)
    | erased => exact h.sublist (Keyed.erase_sublist Validator.id _ _)
    | bonded => exact h.update _ (fun v => v.id_updateStake _) fun v _ => v.powered_updateStake _
    | unbonding => exact h.update _ (fun v => v.id_startUnbonding _) fun _ hv => hv
    | exited => exact h.update _ Validator.id_remove fun _ hv => hv
    | delegated =>
      exact h.update _ (fun v => v.id_addDelegation _) fun v _ => v.powered_addDelegation _
    | slashed => exact h.update _ (fun v => v.id_jail _ _) fun v _ => v.powered_jail _ _
    | epoch => exact h.epoch _
    | rewarded => exact h.foldl_pay _
  · rw [heq]
    exact h

theorem table_call (h : Table s.validators) (c : Call) : Table (s.call it c).validators := by
  cases c with
  | op op => exact table_step it h op
  | sortByPower => exact h.perm (List.mergeSort_perm _ _)

/-- In every state that calls reach from a new set, ids are distinct, there are no more
validators than the limit, and every power is a thousandth of the stake. -/
theorem table_invariant (run : List Call) :
    let s := Trace.exec (call it) new run
    (s.validators.map Validator.id).Nodup ∧ s.validators.length ≤ maxValidators ∧
      ∀ v ∈ s.validators, v.power = (v.stake + v.delegatedStake) / 1000 ∧
        (v.stake.toNat + v.delegatedStake.toNat < 2 ^ 64 →
          v.power.toNat = (v.stake.toNat + v.delegatedStake.toNat) / 1000) := by
  have hnew : Table new.validators :=
    ⟨List.nodup_nil, Nat.zero_le _, fun v hv => by cases hv⟩
  have htable := Trace.invariant (I := fun s : ValidatorSet => Table s.validators)
    (fun _ c h => table_call it h c) hnew run
  intro s
  exact ⟨htable.nodup, htable.room, fun v hv =>
    ⟨htable.powered v hv, (htable.powered v hv).toNat⟩⟩

end ValidatorSet

end LiteVision.Truth
