import Mathlib.Algebra.Order.Ring.Nat
import Mathlib.Tactic.Ring

/-!
# Groups of seven bits

A number in groups of seven bits, the lowest first, all but the last marked by the
highest bit of their byte. Zero groups at the end leave the number as it is; without
them there is one way to write it.
-/

namespace LiteVision.Lib.Leb128

inductive Groups : List UInt8 → Prop
  | last {b : UInt8} : b.toNat < 128 → Groups [b]
  | more {b : UInt8} {bs : List UInt8} : 128 ≤ b.toNat → Groups bs → Groups (b :: bs)

def value : List UInt8 → Nat
  | [] => 0
  | b :: bs => b.toNat % 128 + 128 * value bs

/-- The last group is not zero, unless it is the only one. -/
def Shortest (groups : List UInt8) : Prop := 1 < groups.length → groups.getLast? ≠ some 0

variable {b : UInt8} {bs groups others : List UInt8}

theorem Groups.ne_nil (h : Groups groups) : groups ≠ [] := by
  cases h <;> simp

theorem getLast?_more (h : Groups bs) : (b :: bs).getLast? = bs.getLast? := by
  cases bs with
  | nil => exact absurd rfl h.ne_nil
  | cons c cs => exact List.getLast?_cons_cons

theorem shortest_more (h : Groups bs) : Shortest (b :: bs) ↔ bs.getLast? ≠ some 0 := by
  have hlength : 1 < (b :: bs).length := by
    have hpos := List.length_pos_iff.mpr h.ne_nil
    rw [List.length_cons]
    omega
  rw [Shortest, getLast?_more h]
  exact ⟨fun hlast => hlast hlength, fun hlast _ => hlast⟩

theorem value_bounds (h : Groups groups) :
    ∃ last : UInt8, groups.getLast? = some last ∧ last.toNat < 128 ∧
      last.toNat * 128 ^ (groups.length - 1) ≤ value groups ∧
      value groups < (last.toNat + 1) * 128 ^ (groups.length - 1) := by
  induction h with
  | @last b hb =>
    refine ⟨b, rfl, hb, ?_, ?_⟩
    · simp [value, Nat.mod_eq_of_lt hb]
    · simp [value, Nat.mod_eq_of_lt hb]
  | @more b bs hb hbs ih =>
    obtain ⟨last, hlast, hsmall, hlow, hhigh⟩ := ih
    have hlength : (b :: bs).length - 1 = (bs.length - 1) + 1 := by
      have hpos := List.length_pos_iff.mpr hbs.ne_nil
      rw [List.length_cons]
      omega
    have hgroup : b.toNat % 128 < 128 := Nat.mod_lt _ (by decide)
    refine ⟨last, (getLast?_more hbs).trans hlast, hsmall, ?_, ?_⟩
    · rw [hlength, Nat.pow_succ, value, ← Nat.mul_assoc]
      omega
    · rw [hlength, Nat.pow_succ, value, ← Nat.mul_assoc]
      omega

theorem value_pos (h : Groups groups) (hlast : groups.getLast? ≠ some 0) : 0 < value groups := by
  obtain ⟨last, heq, -, hlow, -⟩ := value_bounds h
  have hne : last.toNat ≠ 0 := fun hz => hlast (heq.trans (congrArg some (UInt8.toNat_inj.mp hz)))
  have hpow : 0 < 128 ^ (groups.length - 1) := Nat.pow_pos (by decide)
  exact (Nat.mul_pos (Nat.pos_of_ne_zero hne) hpow).trans_le hlow

theorem Shortest.getLast?_ne (hshort : Shortest groups) (h : Groups groups)
    (hpos : 0 < value groups) : groups.getLast? ≠ some 0 := by
  by_cases hlength : 1 < groups.length
  · exact hshort hlength
  · obtain ⟨last, heq, -, -, hhigh⟩ := value_bounds h
    intro hzero
    obtain rfl := Option.some.inj (heq.symm.trans hzero)
    rw [Nat.sub_eq_zero_of_le (Nat.le_of_not_lt hlength)] at hhigh
    exact absurd (Nat.lt_one_iff.mp hhigh) (Nat.ne_of_gt hpos)

/-- A number is written without zero groups at the end in one way only. -/
theorem Groups.unique (hgroups : Groups groups) (hshort : Shortest groups) (hothers : Groups others)
    (hshort' : Shortest others) (h : value groups = value others) : groups = others := by
  induction hgroups generalizing others with
  | @last b hb =>
    cases hothers with
    | @last c hc =>
      have hbyte : b = c := UInt8.toNat_inj.mp (by simp only [value] at h; omega)
      rw [hbyte]
    | @more c cs hc hcs =>
      have hpos := value_pos hcs ((shortest_more hcs).mp hshort')
      simp only [value] at h
      omega
  | @more b bs hb hbs ih =>
    have hlast := (shortest_more hbs).mp hshort
    cases hothers with
    | @last c hc =>
      have hpos := value_pos hbs hlast
      simp only [value] at h
      omega
    | @more c cs hc hcs =>
      have hlast' := (shortest_more hcs).mp hshort'
      have hbLt := b.toNat_lt
      have hcLt := c.toNat_lt
      simp only [value] at h
      have hbyte : b = c := UInt8.toNat_inj.mp (by omega)
      rw [hbyte, ih (fun _ => hlast) hcs (fun _ => hlast') (by omega)]

end LiteVision.Lib.Leb128
