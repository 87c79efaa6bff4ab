import Mathlib.Data.Nat.ModEq
import Mathlib.Data.Set.Function
import Mathlib.Order.Interval.Set.Defs

/-!
# Rotations

Taking the members of a list in turn, from any place on and around its end: as many turns
as there are members give each of them one.
-/

namespace LiteVision.Lib.Rotation

theorem bijOn_add_mod (a n : Nat) : Set.BijOn (fun i => (a + i) % n) (Set.Iio n) (Set.Iio n) := by
  refine ⟨fun i hi => Nat.mod_lt _ (Nat.zero_lt_of_lt hi), ?_, ?_⟩
  · intro i hi j hj h
    exact Nat.ModEq.eq_of_lt_of_lt (Nat.ModEq.add_left_cancel' a h) hi hj
  · intro k hk
    have hpos : 0 < n := Nat.zero_lt_of_lt hk
    have hplace := Nat.mod_lt a hpos
    have hsplit := Nat.div_add_mod a n
    have haround : a + (k + n - a % n) = k + n * (a / n + 1) := by
      rw [Nat.mul_add_one]
      omega
    refine ⟨(k + n - a % n) % n, Nat.mod_lt _ hpos, ?_⟩
    simp only [Nat.add_mod_mod, haround, Nat.add_mul_mod_self_left]
    exact Nat.mod_eq_of_lt hk

variable {α : Type} {l : List α} {f : Nat → α} {a : Nat}

theorem bijOn_turns (hnodup : l.Nodup)
    (hf : ∀ i < l.length, l[(a + i) % l.length]? = some (f i)) :
    Set.BijOn f (Set.Iio l.length) {x | x ∈ l} := by
  obtain ⟨hmaps, hinj, hsurj⟩ := bijOn_add_mod a l.length
  refine ⟨fun i hi => List.mem_of_getElem? (hf i hi), ?_, ?_⟩
  · intro i hi j hj h
    have hsame : l[(a + i) % l.length]? = l[(a + j) % l.length]? := by rw [hf i hi, hf j hj, h]
    exact hinj hi hj ((List.getElem?_inj (hmaps hi) hnodup).mp hsame)
  · intro x hx
    obtain ⟨k, hk⟩ := List.getElem?_of_mem hx
    obtain ⟨i, hi, rfl⟩ := hsurj (List.getElem?_eq_some_iff.mp hk).1
    exact ⟨i, hi, Option.some.inj ((hf i hi).symm.trans hk)⟩

end LiteVision.Lib.Rotation
