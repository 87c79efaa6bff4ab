import Mathlib.Data.Finset.Card
import Mathlib.Tactic.Common

/-!
# A limited store that frees nothing

Items come one after the other, each under its key. One is let in as long as there are fewer
keys in the store than it has room for, also when its key is there already. Nothing leaves,
so an item is let in just when fewer distinct keys than that came before it.
-/

namespace LiteVision.Lib.Admission

variable {K V : Type} [DecidableEq K] (key : V → K) (capacity : Nat)

def keys (l : List V) : Finset K := (l.map key).toFinset

/-- What was let in of what came. -/
def admitted (l : List V) : List V :=
  l.foldl (fun inside v => if (keys key inside).card < capacity then inside ++ [v] else inside) []

/-- What came in last under a key. -/
def last? (l : List V) (k : K) : Option V := (admitted key capacity l).reverse.find? (key · = k)

variable {key capacity} {l : List V} {v : V} {k : K}

theorem keys_concat (l : List V) (v : V) : keys key (l ++ [v]) = insert (key v) (keys key l) := by
  ext k
  simp [keys]

theorem admitted_concat (l : List V) (v : V) :
    admitted key capacity (l ++ [v]) =
      if (keys key (admitted key capacity l)).card < capacity then admitted key capacity l ++ [v]
      else admitted key capacity l := by
  rw [admitted, List.foldl_append]
  rfl

theorem card_keys_le (l : List V) : (keys key (admitted key capacity l)).card ≤ capacity := by
  induction l using List.reverseRecOn with
  | nil => simp [admitted, keys]
  | append_singleton l v ih =>
    rw [admitted_concat]
    split
    · rename_i hroom
      rw [keys_concat]
      exact (Finset.card_insert_le _ _).trans hroom
    · exact ih

theorem keys_admitted (l : List V) :
    keys key (admitted key capacity l) = keys key l ∨
      (capacity ≤ (keys key (admitted key capacity l)).card ∧
        keys key (admitted key capacity l) ⊆ keys key l) := by
  induction l using List.reverseRecOn with
  | nil => exact .inl rfl
  | append_singleton l v ih =>
    rw [admitted_concat, keys_concat]
    split
    · rename_i hroom
      rw [keys_concat]
      rcases ih with hall | ⟨hfull, -⟩
      · exact .inl (by rw [hall])
      · exact absurd hroom (Nat.not_lt.mpr hfull)
    · rename_i hfull
      refine .inr ⟨Nat.le_of_not_lt hfull, ?_⟩
      rcases ih with hall | ⟨-, hsub⟩
      · exact hall ▸ Finset.subset_insert _ _
      · exact hsub.trans (Finset.subset_insert _ _)

theorem card_keys_lt_iff (l : List V) :
    (keys key (admitted key capacity l)).card < capacity ↔ (keys key l).card < capacity := by
  rcases @keys_admitted K V _ key capacity l with hall | ⟨hfull, hsub⟩
  · rw [hall]
  · have hcard := Finset.card_le_card hsub
    omega

theorem last?_concat (l : List V) (v : V) (k : K) :
    last? key capacity (l ++ [v]) k =
      if (keys key l).card < capacity ∧ k = key v then some v else last? key capacity l k := by
  rw [last?, admitted_concat]
  simp only [← card_keys_lt_iff l]
  by_cases hroom : (keys key (admitted key capacity l)).card < capacity
  · by_cases hk : k = key v
    · simp [hroom, hk]
    · simp [hroom, hk, Ne.symm hk, last?]
  · simp [hroom, last?]

theorem isSome_last? :
    (last? key capacity l k).isSome ↔ k ∈ keys key (admitted key capacity l) := by
  simp [last?, keys]

end LiteVision.Lib.Admission
