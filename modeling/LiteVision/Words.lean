import LiteVision.Bytes
import Mathlib.Algebra.BigOperators.Group.List.Basic
import Mathlib.Algebra.Ring.Nat
import Mathlib.Data.UInt

/-!
# Sums of words

A sum of words wraps as each addition in it does. It is the sum of the numbers where that
fits in a word. A checked operation has a result just where the number fits.
-/

namespace LiteVision

theorem toNat_foldl_add {α : Type} (f : α → UInt64) (l : List α) (start : UInt64) :
    (l.foldl (fun total a => total + f a) start).toNat =
      (start.toNat + (l.map fun a => (f a).toNat).sum) % 2 ^ 64 := by
  induction l generalizing start with
  | nil => exact (Nat.mod_eq_of_lt start.toNat_lt).symm
  | cons a l ih =>
    rw [List.foldl_cons, ih, UInt64.toNat_add, Nat.mod_add_mod, List.map_cons, List.sum_cons,
      Nat.add_assoc]

theorem toNat_sum_of_lt {l : List UInt64} (h : (l.map UInt64.toNat).sum < 2 ^ 64) :
    l.sum.toNat = (l.map UInt64.toNat).sum := by
  induction l with
  | nil => rfl
  | cons x l ih =>
    rw [List.map_cons, List.sum_cons] at h ⊢
    have hrest : l.sum.toNat = (l.map UInt64.toNat).sum := ih (by omega)
    rw [List.sum_cons, toNat_add_of_lt (by omega), hrest]

theorem checkedAdd_eq_some {a b c : UInt64} :
    checkedAdd a b = some c ↔ c.toNat = a.toNat + b.toNat := by
  have hc := c.toNat_lt
  unfold checkedAdd
  split
  · rename_i h
    rw [Option.some.injEq, ← UInt64.toNat_inj, toNat_add_of_lt h, eq_comm]
  · exact iff_of_false nofun (by omega)

theorem eq_add_of_checkedAdd {a b c : UInt64} (h : checkedAdd a b = some c) : c = a + b := by
  unfold checkedAdd at h
  split at h
  · exact (Option.some.inj h).symm
  · cases h

theorem eq_mul_of_checkedMul {a b c : UInt64} (h : checkedMul a b = some c) : c = a * b := by
  unfold checkedMul at h
  split at h
  · exact (Option.some.inj h).symm
  · cases h

theorem checkedMul_of_lt {a b : UInt64} (h : a.toNat * b.toNat < 2 ^ 64) :
    checkedMul a b = some (a * b) := if_pos h

theorem lt_of_checkedMul {a b c : UInt64} (h : checkedMul a b = some c) :
    a.toNat * b.toNat < 2 ^ 64 := by
  unfold checkedMul at h
  split at h
  · assumption
  · cases h

theorem toNat_mul_of_lt {a b : UInt64} (h : a.toNat * b.toNat < 2 ^ 64) :
    (a * b).toNat = a.toNat * b.toNat := by
  rw [UInt64.toNat_mul, Nat.mod_eq_of_lt h]

theorem toNat_max (a b : UInt64) : (max a b).toNat = max a.toNat b.toNat := by
  change (if a ≤ b then b else a).toNat = _
  split
  · rename_i h
    exact (Nat.max_eq_right (UInt64.le_iff_toNat_le.mp h)).symm
  · rename_i h
    exact (Nat.max_eq_left (Nat.le_of_not_le (mt UInt64.le_iff_toNat_le.mpr h))).symm

-- ---------------------------------------------------------------------------
-- Half words
-- ---------------------------------------------------------------------------

def checkedAddU32 (a b : UInt32) : Option UInt32 :=
  if a.toNat + b.toNat < 2 ^ 32 then some (a + b) else none

def checkedSubU32 (a b : UInt32) : Option UInt32 := if b ≤ a then some (a - b) else none

def checkedMulU32 (a b : UInt32) : Option UInt32 :=
  if a.toNat * b.toNat < 2 ^ 32 then some (a * b) else none

theorem toNat_minU32 (a b : UInt32) : (min a b).toNat = min a.toNat b.toNat := by
  change (if a ≤ b then a else b).toNat = _
  split
  · rename_i h
    exact (Nat.min_eq_left (UInt32.le_iff_toNat_le.mp h)).symm
  · rename_i h
    exact (Nat.min_eq_right (Nat.le_of_not_le (mt UInt32.le_iff_toNat_le.mpr h))).symm

theorem toNat_addU32_of_lt {a b : UInt32} (h : a.toNat + b.toNat < 2 ^ 32) :
    (a + b).toNat = a.toNat + b.toNat := by
  rw [UInt32.toNat_add, Nat.mod_eq_of_lt h]

theorem toNat_mulU32_of_lt {a b : UInt32} (h : a.toNat * b.toNat < 2 ^ 32) :
    (a * b).toNat = a.toNat * b.toNat := by
  rw [UInt32.toNat_mul, Nat.mod_eq_of_lt h]

end LiteVision
