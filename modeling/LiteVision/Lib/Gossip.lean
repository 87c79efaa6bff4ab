import Mathlib.Order.Bounds.Basic
import Mathlib.Order.Lattice.Nat

/-!
# States that clocks sum up

Replicas hold states of a join semilattice, and each a clock with a count for every replica.
A replica that goes up by an update of its own counts it, and one that takes in another
replica's state takes in its counts. Where all start alike a state is the least one above
the updates that its clock counts, so a clock that is ahead of another tells that the state
is, too.
-/

namespace LiteVision.Lib.Gossip

variable {ι S : Type} [SemilatticeSup S] {base : S} {history : ι → ℕ → S} {state : ι → S}
  {clock : ι → ι → ℕ} {i j : ι} {s : S}

/-- The first state and those after the updates that `counts` counts. -/
def covered (base : S) (history : ι → ℕ → S) (counts : ι → ℕ) : Set S :=
  {x | x = base ∨ ∃ i k, k < counts i ∧ history i k = x}

omit [SemilatticeSup S] in
theorem covered_mono {counts counts' : ι → ℕ} (h : counts ≤ counts') :
    covered base history counts ⊆ covered base history counts' := by
  rintro x (hbase | ⟨i, k, hk, hx⟩)
  · exact .inl hbase
  · exact .inr ⟨i, k, hk.trans_le (h i), hx⟩

omit [SemilatticeSup S] in
theorem covered_sup (counts counts' : ι → ℕ) :
    covered base history (counts ⊔ counts') =
      covered base history counts ∪ covered base history counts' := by
  apply Set.Subset.antisymm
  · rintro x (hbase | ⟨i, k, hk, hx⟩)
    · exact .inl (.inl hbase)
    · rcases lt_sup_iff.mp hk with hk | hk
      · exact .inl (.inr ⟨i, k, hk, hx⟩)
      · exact .inr (.inr ⟨i, k, hk, hx⟩)
  · exact Set.union_subset (covered_mono le_sup_left) (covered_mono le_sup_right)

/-- `history i k` is the state of replica `i` after the update it counted as its `k`th. -/
structure Tracked (base : S) (history : ι → ℕ → S) (state : ι → S) (clock : ι → ι → ℕ) :
    Prop where
  least : ∀ i, IsLUB (covered base history (clock i)) (state i)
  own : ∀ i j, clock j i ≤ clock i i

theorem tracked_start (base : S) (history : ι → ℕ → S) :
    Tracked base history (fun _ => base) fun _ _ => 0 where
  least _ := by
    have hcovered : covered base history (fun _ => 0) = {base} := by
      ext x
      simp [covered]
    rw [hcovered]
    exact isLUB_singleton
  own _ _ := le_refl 0

theorem Tracked.le (h : Tracked base history state clock) (hclock : clock j ≤ clock i) :
    state j ≤ state i :=
  isLUB_le_iff (h.least j) |>.mpr fun _ hx => (h.least i).1 (covered_mono hclock hx)

variable [DecidableEq ι]

omit [SemilatticeSup S] [DecidableEq ι] in
theorem covered_congr {history' : ι → ℕ → S} {counts : ι → ℕ}
    (h : ∀ i k, k < counts i → history' i k = history i k) :
    covered base history' counts = covered base history counts := by
  ext x
  constructor
  · rintro (hbase | ⟨i, k, hk, hx⟩)
    · exact .inl hbase
    · exact .inr ⟨i, k, hk, (h i k hk).symm.trans hx⟩
  · rintro (hbase | ⟨i, k, hk, hx⟩)
    · exact .inl hbase
    · exact .inr ⟨i, k, hk, (h i k hk).trans hx⟩

theorem Tracked.update (h : Tracked base history state clock) (hs : state i ≤ s) :
    ∃ history', Tracked base history' (Function.update state i s)
      (Function.update clock i (Function.update (clock i) i (clock i i + 1))) := by
  let history' := Function.update history i (Function.update (history i) (clock i i) s)
  let counts := Function.update (clock i) i (clock i i + 1)
  have hold : ∀ j l k, k < clock j l → history' l k = history l k := by
    intro j l k hk
    by_cases hl : l = i
    · subst hl
      have hne : k ≠ clock l l := (hk.trans_le (h.own l j)).ne
      simp [history', hne]
    · simp [history', hl]
  have hnew : history' i (clock i i) = s := by simp [history']
  have hup : clock i ≤ counts := by
    intro l
    by_cases hl : l = i
    · subst hl
      simp [counts]
    · simp [counts, hl]
  have hcovered : covered base history' counts = insert s (covered base history (clock i)) := by
    apply Set.Subset.antisymm
    · rintro x (hbase | ⟨l, k, hk, hx⟩)
      · exact .inr (.inl hbase)
      · by_cases hlast : l = i ∧ k = clock i i
        · obtain ⟨rfl, rfl⟩ := hlast
          exact .inl (hx.symm.trans hnew)
        · have hk : k < clock i l := by
            by_cases hl : l = i
            · subst hl
              have hne : k ≠ clock l l := fun hk => hlast ⟨rfl, hk⟩
              simp only [counts, Function.update_self] at hk
              omega
            · simpa [counts, hl] using hk
          exact .inr (.inr ⟨l, k, hk, (hold i l k hk).symm.trans hx⟩)
    · rintro x (rfl | hx)
      · exact .inr ⟨i, clock i i, by simp [counts], hnew⟩
      · rw [← covered_congr (hold i)] at hx
        exact covered_mono hup hx
  refine ⟨history', ?_, ?_⟩
  · intro j
    by_cases hj : j = i
    · subst hj
      rw [Function.update_self, Function.update_self, hcovered]
      have hinsert := (h.least j).insert s
      rwa [sup_eq_left.mpr hs] at hinsert
    · rw [Function.update_of_ne hj, Function.update_of_ne hj, covered_congr (hold j)]
      exact h.least j
  · intro k j
    have hle : clock k k ≤ Function.update clock i counts k k := by
      by_cases hk : k = i
      · subst hk
        rw [Function.update_self]
        exact hup k
      · rw [Function.update_of_ne hk]
    by_cases hj : j = i
    · subst hj
      by_cases hk : k = j
      · rw [hk]
      · rw [Function.update_self, Function.update_of_ne hk]
        exact (h.own k j).trans hle
    · rw [Function.update_of_ne hj]
      exact (h.own k j).trans hle

theorem Tracked.receive (h : Tracked base history state clock) (i j : ι) :
    Tracked base history (Function.update state i (state i ⊔ state j))
      (Function.update clock i (clock i ⊔ clock j)) where
  least k := by
    by_cases hk : k = i
    · subst hk
      rw [Function.update_self, Function.update_self, covered_sup]
      exact (h.least k).union (h.least j)
    · rw [Function.update_of_ne hk, Function.update_of_ne hk]
      exact h.least k
  own k l := by
    have hle : clock k k ≤ Function.update clock i (clock i ⊔ clock j) k k := by
      by_cases hk : k = i
      · subst hk
        rw [Function.update_self]
        exact le_sup_left
      · rw [Function.update_of_ne hk]
    by_cases hl : l = i
    · subst hl
      by_cases hk : k = l
      · rw [hk]
      · rw [Function.update_self, Function.update_of_ne hk]
        exact sup_le (h.own k l) (h.own k j)
    · rw [Function.update_of_ne hl]
      exact (h.own k l).trans hle

end LiteVision.Lib.Gossip
