import Mathlib.Data.Finset.Card

/-!
# Quorums

What a voting protocol needs of its quorums: when each voter backs at most one
value and any two quorums share a voter, at most one value has a quorum.
-/

namespace LiteVision.Lib

/-- Voters and the values they back, each voter at most one. -/
structure Ballot (ι β : Type) where
  voters : Finset ι
  backs : ι → β → Prop
  single : ∀ i x y, backs i x → backs i y → x = y

namespace Ballot

variable {ι β : Type} [DecidableEq ι] {b : Ballot ι β} {t : Nat} {x y : β}

/-- At least `t` voters back `x`. -/
def Chosen (b : Ballot ι β) (t : Nat) (x : β) : Prop :=
  ∃ quorum ⊆ b.voters, t ≤ quorum.card ∧ ∀ i ∈ quorum, b.backs i x

theorem chosen_unique (hsize : b.voters.card < 2 * t) (hx : b.Chosen t x) (hy : b.Chosen t y) :
    x = y := by
  obtain ⟨q, hqv, hq, hqx⟩ := hx
  obtain ⟨r, hrv, hr, hry⟩ := hy
  have hcommon : (q ∩ r).Nonempty :=
    Finset.inter_nonempty_of_card_lt_card_add_card hqv hrv (by omega)
  obtain ⟨i, hi⟩ := hcommon
  have hboth := Finset.mem_inter.mp hi
  exact b.single i x y (hqx i hboth.1) (hry i hboth.2)

end Ballot

/-- More than two thirds of `n` voters: two such quorums always meet. -/
def superMajority (n : Nat) : Nat := n * 2 / 3 + 1

theorem superMajority_pos (n : Nat) : 0 < superMajority n := Nat.succ_pos _

theorem superMajority_meets (n : Nat) : n < 2 * superMajority n := by
  unfold superMajority
  omega

theorem superMajority_le_iff {n k : Nat} : superMajority n ≤ k ↔ 2 * n < 3 * k := by
  unfold superMajority
  omega

theorem superMajority_inter {ι : Type} [DecidableEq ι] {voters q r : Finset ι} (hq : q ⊆ voters)
    (hr : r ⊆ voters) (hqcard : superMajority voters.card ≤ q.card)
    (hrcard : superMajority voters.card ≤ r.card) :
    (voters.card - 1) / 3 + 1 ≤ (q ∩ r).card := by
  have hunion : (q ∪ r).card ≤ voters.card := Finset.card_le_card (Finset.union_subset hq hr)
  have hboth := Finset.card_union_add_card_inter q r
  rw [superMajority_le_iff] at hqcard hrcard
  omega

theorem superMajority_le_sub {n : Nat} (hn : 0 < n) : superMajority n ≤ n - (n - 1) / 3 := by
  rw [superMajority_le_iff]
  omega

end LiteVision.Lib
