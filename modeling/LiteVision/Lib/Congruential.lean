import Mathlib.Algebra.BigOperators.ModEq
import Mathlib.LinearAlgebra.Matrix.Nondegenerate
import Mathlib.Tactic.Ring

/-!
# Truncated congruential generators

A generator that steps by `a * s + c` modulo `M` and gives out the quotient of its state by
`B`. Two states that give out the same numbers differ by less than `B` after every step, and
these differences are multiples of the first by powers of `a`. Integers that are orthogonal
to the powers of `a` modulo `M` and small beside `M / B` are then orthogonal to the
differences, and enough of them leave no difference.
-/

namespace LiteVision.Lib.Congruential

variable {M a c B : ℤ} {s t : ℕ → ℤ} {k : ℕ}

def Steps (M a c : ℤ) (s : ℕ → ℤ) : Prop := ∀ n, s (n + 1) ≡ a * s n + c [ZMOD M]

theorem Steps.sub_modEq (hs : Steps M a c s) (ht : Steps M a c t) (n : ℕ) :
    s n - t n ≡ a ^ n * (s 0 - t 0) [ZMOD M] := by
  induction n with
  | zero => simp
  | succ n ih =>
    calc s (n + 1) - t (n + 1) ≡ (a * s n + c) - (a * t n + c) [ZMOD M] := (hs n).sub (ht n)
      _ = a * (s n - t n) := by ring
      _ ≡ a * (a ^ n * (s 0 - t 0)) [ZMOD M] := ih.mul_left a
      _ = a ^ (n + 1) * (s 0 - t 0) := by ring

/-- Small numbers in a relation modulo `M` are in it without `M`. -/
theorem sum_eq_zero_of_dvd {ι : Type*} [Fintype ι] {u d : ι → ℤ} (hd : ∀ i, |d i| ≤ B)
    (hsmall : (∑ i, |u i|) * B < M) (hdvd : M ∣ ∑ i, u i * d i) : ∑ i, u i * d i = 0 := by
  apply Int.eq_zero_of_abs_lt_dvd hdvd
  calc |∑ i, u i * d i| ≤ ∑ i, |u i * d i| := Finset.abs_sum_le_sum_abs _ _
    _ = ∑ i, |u i| * |d i| := by simp [abs_mul]
    _ ≤ ∑ i, |u i| * B :=
      Finset.sum_le_sum fun i _ => mul_le_mul_of_nonneg_left (hd i) (abs_nonneg _)
    _ = (∑ i, |u i|) * B := (Finset.sum_mul ..).symm
    _ < M := hsmall

theorem abs_sub_lt_of_ediv_eq {x y : ℤ} (hB : 0 < B) (h : x / B = y / B) : |x - y| ≤ B - 1 := by
  have hx := Int.mul_ediv_add_emod x B
  have hy := Int.mul_ediv_add_emod y B
  have hx₀ := Int.emod_nonneg x hB.ne'
  have hy₀ := Int.emod_nonneg y hB.ne'
  have hx₁ := Int.emod_lt_of_pos x hB
  have hy₁ := Int.emod_lt_of_pos y hB
  rw [h] at hx
  rw [abs_le]
  constructor <;> omega

/-- With `k` such relations that are independent, `k` numbers given out tell the state. -/
theorem Steps.eq_of_ediv_eq (hs : Steps M a c s) (ht : Steps M a c t) (hB : 0 < B)
    (relations : Matrix (Fin (k + 1)) (Fin (k + 1)) ℤ) (hdet : relations.det ≠ 0)
    (hsmall : ∀ i, (∑ j, |relations i j|) * (B - 1) < M)
    (hpowers : ∀ i, M ∣ ∑ j, relations i j * a ^ (j : ℕ))
    (hsame : ∀ n, n ≤ k → s n / B = t n / B) : s 0 = t 0 := by
  let d : Fin (k + 1) → ℤ := fun j => s j - t j
  have hzero : relations.mulVec d = 0 := by
    funext i
    change ∑ j, relations i j * d j = 0
    apply sum_eq_zero_of_dvd (B := B - 1)
    · exact fun j => abs_sub_lt_of_ediv_eq hB (hsame j (Nat.lt_succ_iff.mp j.isLt))
    · exact hsmall i
    · have hmod : ∑ j, relations i j * d j ≡
          ∑ j, relations i j * (a ^ (j : ℕ) * d 0) [ZMOD M] :=
        Int.ModEq.sum fun j _ => (hs.sub_modEq ht j).mul_left _
      have hfactor : ∑ j, relations i j * (a ^ (j : ℕ) * d 0) =
          (∑ j, relations i j * a ^ (j : ℕ)) * d 0 := by
        rw [Finset.sum_mul]
        exact Finset.sum_congr rfl fun j _ => (mul_assoc ..).symm
      have hmultiple : M ∣ (∑ j, relations i j * a ^ (j : ℕ)) * d 0 := (hpowers i).mul_right _
      rw [hfactor] at hmod
      exact Int.modEq_zero_iff_dvd.mp (hmod.trans (Int.modEq_zero_iff_dvd.mpr hmultiple))
  have hd := congrFun (Matrix.eq_zero_of_mulVec_eq_zero hdet hzero) 0
  exact sub_eq_zero.mp hd

end LiteVision.Lib.Congruential
