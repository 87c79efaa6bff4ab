import Mathlib.Data.Fintype.EquivFin
import Mathlib.Data.Fintype.Sets
import Mathlib.Order.WellFounded

/-!
# Cycles of a relation

A list in which everything comes after what leads to it shows that nothing in it is on a
cycle. And where everything in a finite set is led to from the set, the set has a cycle.
-/

namespace LiteVision.Lib.Acyclic

variable {α : Type} {r : α → α → Prop}

/-- Each element is appended after all that leads to it. -/
inductive Topological (r : α → α → Prop) : List α → Prop
  | nil : Topological r []
  | concat {order : List α} {a : α} (h : Topological r order) (ha : ∀ b, r b a → b ∈ order) :
    Topological r (order ++ [a])

theorem Topological.acc {order : List α} (h : Topological r order) {a : α} (ha : a ∈ order) :
    Acc r a := by
  induction h generalizing a with
  | nil => exact absurd ha List.not_mem_nil
  | concat h hlead ih =>
    rcases List.mem_append.mp ha with hold | hnew
    · exact ih hold
    · obtain rfl := List.mem_singleton.mp hnew
      exact ⟨_, fun b hb => ih (hlead b hb)⟩

theorem not_self_of_acc {a : α} (h : Acc r a) : ¬ r a a := by
  induction h with
  | intro a _ ih => exact fun haa => ih a haa haa

/-- No cycle goes through an element of the list, wherever else it goes. -/
theorem Topological.not_transGen {order : List α} (h : Topological r order) {a : α}
    (ha : a ∈ order) : ¬ Relation.TransGen r a a :=
  not_self_of_acc (h.acc ha).transGen

/-- A set that can always be gone back in has a cycle, being finite. -/
theorem exists_transGen {s : Finset α} (hne : s.Nonempty)
    (hback : ∀ a ∈ s, ∃ b ∈ s, r b a) : ∃ a ∈ s, Relation.TransGen r a a := by
  by_contra hcycle
  have hacyclic (a : s) : ¬ Relation.TransGen r a.val a.val := fun h => hcycle ⟨a, a.property, h⟩
  have htrans : IsTrans s fun a b => Relation.TransGen r a.val b.val := ⟨fun _ _ _ => .trans⟩
  have hirrefl : Std.Irrefl fun a b : s => Relation.TransGen r a.val b.val := ⟨hacyclic⟩
  obtain ⟨first, hfirst⟩ := hne
  obtain ⟨⟨a, ha⟩, -, hmin⟩ := (Finite.wellFounded_of_trans_of_irrefl
    fun a b : s => Relation.TransGen r a.val b.val).has_min Set.univ ⟨⟨first, hfirst⟩, trivial⟩
  obtain ⟨b, hb, hlead⟩ := hback a ha
  exact hmin ⟨b, hb⟩ trivial (.single hlead)

end LiteVision.Lib.Acyclic
