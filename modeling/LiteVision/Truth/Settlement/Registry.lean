import LiteVision.Lib.Trace
import LiteVision.Truth.Settlement

/-!
# Calls on the operator registry

The methods that change the registry, as one step function. Each changes the
operator it names and no other; `register` is the only one that brings in an id.
-/

namespace LiteVision.Truth

open Lib

namespace OperatorRegistry

inductive RegistryOp
  | register (operator : OperatorState)
  | updateStake (id : Bytes 32) (newStake : UInt64)
  | slash (id : Bytes 32) (amount : UInt64)
  | deactivate (id : Bytes 32)
  | increaseReputation (id : Bytes 32) (delta : UInt64)
  | decreaseReputation (id : Bytes 32) (delta : UInt64)

def step (r : OperatorRegistry) : RegistryOp → OperatorRegistry
  | .register operator => r.register operator
  | .updateStake id newStake => (r.updateStake id newStake).2
  | .slash id amount => (r.slash id amount).2
  | .deactivate id => r.deactivate id
  | .increaseReputation id delta => r.increaseReputation id delta
  | .decreaseReputation id delta => r.decreaseReputation id delta

namespace RegistryOp

def target : RegistryOp → Bytes 32
  | .register operator => operator.id
  | .updateStake id _ | .slash id _ | .deactivate id | .increaseReputation id _
  | .decreaseReputation id _ => id

/-- The calls on operators that are registered already. -/
def IsUpdate : RegistryOp → Prop
  | .register _ => False
  | .updateStake .. | .slash .. | .deactivate _ | .increaseReputation ..
  | .decreaseReputation .. => True

def update (operator : OperatorState) : RegistryOp → OperatorState
  | .register _ => operator
  | .updateStake _ newStake => { operator with stake := newStake }
  | .slash _ amount => if operator.stake < amount then operator else operator.slash amount
  | .deactivate _ => { operator with status := .deregistered }
  | .increaseReputation _ delta => operator.increaseReputation delta
  | .decreaseReputation _ delta => operator.decreaseReputation delta

def entry (op : RegistryOp) (old : Option OperatorState) : Option OperatorState :=
  match op with
  | .register operator => some operator
  | _ => old.map fun operator => op.update operator

theorem entry_eq_some (op : RegistryOp) {old : Option OperatorState} {operator : OperatorState}
    (h : op.entry old = some operator) :
    (op = .register operator ∧ ¬ op.IsUpdate) ∨
      (op.IsUpdate ∧ ∃ before, old = some before ∧ op.update before = operator) := by
  cases op with
  | register new =>
    obtain rfl := Option.some.inj h
    exact .inl ⟨rfl, fun hop => hop⟩
  | _ => exact .inr ⟨trivial, Option.map_eq_some_iff.mp h⟩

theorem entry_eq_map {op : RegistryOp} (hop : op.IsUpdate) (old : Option OperatorState) :
    op.entry old = old.map fun operator => op.update operator := by
  cases op with
  | register new => exact hop.elim
  | _ => rfl

theorem update_id (op : RegistryOp) (operator : OperatorState) :
    (op.update operator).id = operator.id := by
  cases op with
  | slash id amount => exact apply_ite OperatorState.id _ _ _ |>.trans (ite_self _)
  | increaseReputation id delta => exact (operator.increaseReputation_keeps delta).1
  | decreaseReputation id delta => exact (operator.decreaseReputation_keeps delta).1
  | register _ | updateStake _ _ | deactivate _ => rfl

end RegistryOp

variable {r : OperatorRegistry} {id : Bytes 32}

theorem updateStake_none (hget : r.get id = none) (newStake : UInt64) :
    (r.updateStake id newStake).2 = r := by
  rw [get] at hget
  simp [updateStake, hget]

theorem updateStake_some {operator : OperatorState} (hget : r.get id = some operator)
    (newStake : UInt64) :
    (r.updateStake id newStake).2 =
      { operators := r.operators.insert id { operator with stake := newStake }
        stakeIndex := pushStake (dropStake r.stakeIndex (operator.stake / 1000) operator.id)
          (newStake / 1000) operator.id } := by
  rw [get] at hget
  simp [updateStake, hget]

theorem slash_cases (r : OperatorRegistry) (id : Bytes 32) (amount : UInt64) :
    ((r.slash id amount).2 = r ∧ ∀ operator, r.get id = some operator → operator.stake < amount) ∨
    ∃ operator, r.get id = some operator ∧ ¬ operator.stake < amount ∧
      (r.slash id amount).2 =
        { operators := r.operators.insert id (operator.slash amount)
          stakeIndex := dropStake r.stakeIndex ((operator.slash amount).stake / 1000) operator.id } := by
  unfold get
  cases hget : r.operators.get id with
  | none => exact .inl ⟨by simp [slash, hget], by simp⟩
  | some operator =>
    by_cases hlt : operator.stake < amount
    · refine .inl ⟨by simp [slash, hget, hlt], ?_⟩
      rintro _ ⟨⟩
      exact hlt
    · exact .inr ⟨operator, rfl, hlt, by simp [slash, hget, hlt, OperatorState.slash]⟩

theorem get_step (r : OperatorRegistry) (op : RegistryOp) (id : Bytes 32) :
    (r.step op).get id = if id = op.target then op.entry (r.get id) else r.get id := by
  cases op with
  | register operator => exact Map.get_insert _ _ _ _
  | updateStake target newStake =>
    cases hget : r.get target with
    | none =>
      rw [step, updateStake_none hget]
      by_cases hid : id = target
      · simp [hid, hget, RegistryOp.entry]
      · simp [hid, RegistryOp.target]
    | some operator =>
      rw [step, updateStake_some hget, get, Map.get_insert]
      by_cases hid : id = target
      · simp [hid, hget, RegistryOp.target, RegistryOp.entry, RegistryOp.update]
      · simp [hid, RegistryOp.target, get]
  | slash target amount =>
    rcases slash_cases r target amount with ⟨hsame, hlt⟩ | ⟨operator, hget, hlt, heq⟩
    · rw [step, hsame]
      by_cases hid : id = target
      · subst hid
        cases hget : r.get id with
        | none => simp [RegistryOp.entry]
        | some operator => simp [RegistryOp.entry, RegistryOp.update, hlt operator hget]
      · simp [hid, RegistryOp.target]
    · rw [step, heq, get, Map.get_insert]
      by_cases hid : id = target
      · simp [hid, hget, hlt, RegistryOp.target, RegistryOp.entry, RegistryOp.update]
      · simp [hid, RegistryOp.target, get]
  | deactivate target | increaseReputation target delta | decreaseReputation target delta =>
    refine (Map.get_modify _ _ _ _).trans ?_
    by_cases hid : id = target
    · simp [hid, RegistryOp.target, RegistryOp.entry, RegistryOp.update, get]
    · simp [hid, RegistryOp.target, get]

-- ---------------------------------------------------------------------------
-- Ids
-- ---------------------------------------------------------------------------

/-- Operators are stored under their own ids. -/
def Keyed (r : OperatorRegistry) : Prop := ∀ id operator, r.get id = some operator → operator.id = id

theorem keyed_new : Keyed new := by
  intro id operator hget
  simp [new, get] at hget

theorem keyed_step (op : RegistryOp) (h : Keyed r) : Keyed (r.step op) := by
  intro id operator hget
  rw [get_step] at hget
  split at hget
  · rename_i hid
    rcases op.entry_eq_some hget with ⟨hop, -⟩ | ⟨-, old, hold, rfl⟩
    · rw [hid, hop]
      rfl
    · exact (op.update_id old).trans (h id old hold)
  · exact h id operator hget

end OperatorRegistry

end LiteVision.Truth
