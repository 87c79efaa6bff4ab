import Mathlib.Data.List.Infix
import Mathlib.Data.List.Induction
import Mathlib.Tactic.Common

/-!
# Rewriting a place

A place holds a value or none. A step fills the place, whatever it held, or changes the value
that is there. What a run of steps leaves is the value of the last step that fills, with the
changes after it; `run_eq_self_iff`: when that is what was there before.
-/

namespace LiteVision.Lib

structure Rewrite (α : Type) where
  fill : Option α
  /-- Of a value that is there, if the step does not fill. -/
  change : α → α

namespace Rewrite

variable {α : Type} {w : Rewrite α} {ws after : List (Rewrite α)} {old : Option α} {a : α}

def apply (old : Option α) (w : Rewrite α) : Option α := w.fill.or (old.map w.change)

def run (old : Option α) (ws : List (Rewrite α)) : Option α := ws.foldl apply old

/-- What the changes of a run make of a value. -/
def changed (ws : List (Rewrite α)) (a : α) : α := ws.foldl (fun a w => w.change a) a

theorem apply_fill (h : w.fill = some a) : apply old w = some a := by
  rw [apply, h, Option.some_or]

theorem apply_change (h : w.fill = none) : apply old w = old.map w.change := by
  rw [apply, h, Option.none_or]

theorem run_of_changes (h : ∀ w ∈ ws, w.fill = none) : run old ws = old.map (changed ws) := by
  induction ws generalizing old with
  | nil => exact Option.map_id'.symm
  | cons w ws ih =>
    obtain ⟨hfirst, hrest⟩ := List.forall_mem_cons.mp h
    rw [run, List.foldl_cons, apply_change hfirst, ← run, ih hrest, Option.map_map]
    rfl

theorem run_of_fill (before : List (Rewrite α)) (hw : w.fill = some a)
    (h : ∀ w ∈ after, w.fill = none) :
    run old (before ++ w :: after) = some (changed after a) := by
  rw [run, List.foldl_append, List.foldl_cons, apply_fill hw, ← run, run_of_changes h,
    Option.map_some]

theorem fill_cases (ws : List (Rewrite α)) : (∀ w ∈ ws, w.fill = none) ∨
    ∃ before w after a, ws = before ++ w :: after ∧ w.fill = some a ∧
      ∀ w ∈ after, w.fill = none := by
  induction ws with
  | nil => exact .inl (by simp)
  | cons first ws ih =>
    rcases ih with hnone | ⟨before, w, after, a, rfl, hw, hafter⟩
    · cases hfill : first.fill with
      | none => exact .inl (List.forall_mem_cons.mpr ⟨hfill, hnone⟩)
      | some a => exact .inr ⟨[], first, ws, a, rfl, hfill, hnone⟩
    · exact .inr ⟨first :: before, w, after, a, rfl, hw, hafter⟩

/-- The value last filled in becomes what was there, or nothing is filled in and what was there
stays as it is. -/
structure Restores (ws : List (Rewrite α)) (old : Option α) : Prop where
  filled : ∀ before w after a, ws = before ++ w :: after → w.fill = some a →
    (∀ w ∈ after, w.fill = none) → old = some (changed after a)
  kept : (∀ w ∈ ws, w.fill = none) → ∀ a, old = some a → changed ws a = a

theorem run_eq_self_iff : run old ws = old ↔ Restores ws old := by
  constructor
  · intro h
    constructor
    · rintro before w after a rfl hw hafter
      rw [← run_of_fill before hw hafter, h]
    · rintro hnone a rfl
      rw [run_of_changes hnone] at h
      exact Option.some.inj h
  · intro h
    rcases fill_cases ws with hnone | ⟨before, w, after, a, rfl, hw, hafter⟩
    · rw [run_of_changes hnone]
      cases old with
      | none => rfl
      | some a => exact congrArg some (h.kept hnone a rfl)
    · rw [run_of_fill before hw hafter, ← h.filled before w after a rfl hw hafter]

end Rewrite

end LiteVision.Lib
