import Mathlib.Algebra.Order.BigOperators.Group.List
import Mathlib.Algebra.Order.Ring.Nat
import Mathlib.Data.Finset.Card
import Mathlib.Data.List.Nodup

/-!
# Weighted tallies

Votes carry a choice and a weight. The tally of a choice is the sum of the weights
of the votes for it; it does not ask who cast them.
-/

namespace LiteVision.Lib.Tally

variable {V ι κ : Type} [DecidableEq κ] (choice : V → κ) (weight : V → Nat)

def weightFor (o : κ) (votes : List V) : Nat :=
  (votes.map fun v => if choice v = o then weight v else 0).sum

variable {choice weight} {o : κ} {votes counted : List V}

theorem weightFor_cons (v : V) (votes : List V) :
    weightFor choice weight o (v :: votes) =
      (if choice v = o then weight v else 0) + weightFor choice weight o votes := by
  simp [weightFor]

theorem weightFor_mono (h : counted.Sublist votes) :
    weightFor choice weight o counted ≤ weightFor choice weight o votes :=
  (h.map _).sum_le_sum fun _ _ => Nat.zero_le _

theorem weightFor_filter (votes : List V) :
    weightFor choice weight o (votes.filter fun v => weight v ≠ 0) =
      weightFor choice weight o votes := by
  induction votes with
  | nil => rfl
  | cons v votes ih =>
    rw [weightFor_cons, ← ih]
    by_cases hv : weight v = 0
    · simp [hv]
    · simp [hv, weightFor_cons]

theorem filter_eq_of_weightFor_eq (h : counted.Sublist votes)
    (heq : ∀ o, weightFor choice weight o counted = weightFor choice weight o votes) :
    (counted.filter fun v => weight v ≠ 0) = votes.filter fun v => weight v ≠ 0 := by
  induction h with
  | slnil => rfl
  | @cons counted votes v hsub ih =>
    have hnone : weight v = 0 := by
      have htotal := heq (choice v)
      rw [weightFor_cons, if_pos rfl] at htotal
      have hless : weightFor choice weight (choice v) counted ≤
        weightFor choice weight (choice v) votes := weightFor_mono hsub
      omega
    have hrest : ∀ o, weightFor choice weight o counted = weightFor choice weight o votes := by
      intro o
      simpa [weightFor_cons, hnone] using heq o
    simpa [hnone] using ih hrest
  | @cons_cons counted votes v hsub ih =>
    have hrest : ∀ o, weightFor choice weight o counted = weightFor choice weight o votes := by
      intro o
      simpa [weightFor_cons] using heq o
    rw [List.filter_cons, List.filter_cons, ih hrest]

theorem one_each_iff (voter : V → ι) :
    (∃ counted, counted.Sublist votes ∧ (counted.map voter).Nodup ∧
      ∀ o, weightFor choice weight o counted = weightFor choice weight o votes) ↔
    ((votes.filter fun v => weight v ≠ 0).map voter).Nodup := by
  constructor
  · rintro ⟨counted, hsub, hnodup, heq⟩
    rw [← filter_eq_of_weightFor_eq hsub heq]
    exact (List.filter_sublist.map voter).nodup hnodup
  · intro hnodup
    exact ⟨_, List.filter_sublist, hnodup, fun _ => weightFor_filter votes⟩

-- ---------------------------------------------------------------------------
-- Counting entries and counting names
-- ---------------------------------------------------------------------------

/-- The entries whose name comes again. -/
def repeats [DecidableEq ι] : List ι → Nat
  | [] => 0
  | name :: names => (if name ∈ names then 1 else 0) + repeats names

theorem repeats_add_card [DecidableEq ι] (names : List ι) :
    repeats names + names.toFinset.card = names.length := by
  induction names with
  | nil => rfl
  | cons name names ih =>
    rw [repeats, List.toFinset_cons, List.length_cons, ← ih]
    by_cases h : name ∈ names
    · rw [if_pos h, Finset.insert_eq_of_mem (List.mem_toFinset.mpr h)]
      omega
    · rw [if_neg h, Finset.card_insert_of_notMem (mt List.mem_toFinset.mp h)]
      omega

-- ---------------------------------------------------------------------------
-- Majorities
-- ---------------------------------------------------------------------------

section Majority

variable {α : Type} [BEq α] [LawfulBEq α] {a b : α} {l : List α}

theorem count_add_count_le (hne : a ≠ b) (l : List α) : l.count a + l.count b ≤ l.length := by
  induction l with
  | nil => exact Nat.le_refl 0
  | cons x l ih =>
    rw [List.count_cons, List.count_cons, List.length_cons]
    by_cases hxa : x = a
    · have hxb : x ≠ b := fun h => hne (hxa.symm.trans h)
      rw [if_pos (beq_iff_eq.mpr hxa), if_neg (by simpa using hxb)]
      omega
    · rw [if_neg (by simpa using hxa)]
      split <;> omega

theorem majority_unique (ha : l.length < 2 * l.count a) (hb : l.length < 2 * l.count b) :
    a = b := by
  by_contra hne
  have hle := count_add_count_le hne l
  omega

end Majority

end LiteVision.Lib.Tally
