import Mathlib.Data.List.Basic
import Mathlib.Data.List.Infix

/-!
# Which of two entries came last

A list of uses, the newest at its end. `Since l x y` says that `y` was used after the last
use of `x`. Appending a use, dropping old ones and filtering change it as expected, so that
a queue can stand for a longer history.
-/

namespace LiteVision.Lib.Recency

variable {α : Type} {l front : List α} {x y a : α}

/-- A part of the list up to its end has `y` and not `x`. -/
def Since (l : List α) (x y : α) : Prop := ∃ later, later <:+ l ∧ y ∈ later ∧ x ∉ later

theorem since_concat (l : List α) (hne : x ≠ y) :
    Since (l ++ [a]) x y ↔ a ≠ x ∧ (a = y ∨ Since l x y) := by
  constructor
  · rintro ⟨later, hsuffix, hy, hx⟩
    rcases List.suffix_concat_iff.mp hsuffix with rfl | ⟨later, rfl, hlater⟩
    · exact absurd hy List.not_mem_nil
    · rw [List.mem_append, List.mem_singleton] at hx hy
      refine ⟨fun h => hx (.inr h.symm), ?_⟩
      rcases hy with hy | rfl
      · exact .inr ⟨later, hlater, hy, fun h => hx (.inl h)⟩
      · exact .inl rfl
  · rintro ⟨hax, rfl | ⟨later, hsuffix, hy, hx⟩⟩
    · exact ⟨[a], List.suffix_append l [a], List.mem_singleton_self a,
        fun h => hne (List.mem_singleton.mp h)⟩
    · refine ⟨later ++ [a], ?_, List.mem_append_left _ hy, fun h => ?_⟩
      · exact List.suffix_concat_iff.mpr (.inr ⟨later, rfl, hsuffix⟩)
      · rcases List.mem_append.mp h with h | h
        · exact hx h
        · exact hax (List.mem_singleton.mp h).symm

theorem since_append_left (hy : y ∉ front) : Since (front ++ l) x y ↔ Since l x y := by
  constructor
  · rintro ⟨later, hsuffix, hmem, hx⟩
    rcases List.suffix_or_suffix_of_suffix hsuffix (List.suffix_append front l) with
      hlater | ⟨rest, rfl⟩
    · exact ⟨later, hlater, hmem, hx⟩
    · -- the part reaches into the front, where there is no `y`
      obtain ⟨older, holder⟩ := hsuffix
      rw [← List.append_assoc] at holder
      obtain rfl := List.append_cancel_right holder
      rcases List.mem_append.mp hmem with hmem | hmem
      · exact absurd (List.mem_append_right older hmem) hy
      · exact ⟨l, List.suffix_refl l, hmem, fun h => hx (List.mem_append_right rest h)⟩
  · rintro ⟨later, hsuffix, hmem, hx⟩
    exact ⟨later, List.suffix_append_of_suffix hsuffix, hmem, hx⟩

theorem since_filter {p : α → Bool} (hx : p x) (hy : p y) :
    Since (l.filter p) x y ↔ Since l x y := by
  constructor
  · rintro ⟨later, hsuffix, hmem, hnot⟩
    obtain ⟨later, hlater, rfl⟩ := List.suffix_filter_iff.mp hsuffix
    exact ⟨later, hlater, (List.mem_filter.mp hmem).1,
      fun h => hnot (List.mem_filter.mpr ⟨h, hx⟩)⟩
  · rintro ⟨later, hsuffix, hmem, hnot⟩
    exact ⟨later.filter p, hsuffix.filter p, List.mem_filter.mpr ⟨hmem, hy⟩,
      fun h => hnot (List.mem_filter.mp h).1⟩

theorem since_of_nodup {back : List α} (hnodup : (front ++ back).Nodup) (hx : x ∈ front)
    (hy : y ∈ back) : Since (front ++ back) x y :=
  ⟨back, List.suffix_append front back, hy,
    fun h => (List.nodup_append.mp hnodup).2.2 x hx x h rfl⟩

end LiteVision.Lib.Recency
