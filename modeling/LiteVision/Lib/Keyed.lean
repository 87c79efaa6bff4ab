import Mathlib.Algebra.BigOperators.Group.List.Basic
import Mathlib.Algebra.Ring.Nat
import Mathlib.Data.List.Nodup
import Mathlib.Order.Lattice

/-!
# Lists searched by key

A list whose entries carry a key, read and written at the first entry that has
it. Sums over the list follow the entry that changes; only the last two sections
ask that the keys be distinct.
-/

namespace LiteVision.Lib.Keyed

variable {K V : Type} [DecidableEq K] (key : V → K)

def find (l : List V) (k : K) : Option V := l.find? fun v => key v = k

/-- Change the first entry with the key, if there is one. -/
def update (k : K) (f : V → V) : List V → List V
  | [] => []
  | v :: l => if key v = k then f v :: l else v :: update k f l

def erase (l : List V) (k : K) : List V := l.eraseP fun v => key v = k

theorem erase_sublist (l : List V) (k : K) : (erase key l k).Sublist l := List.eraseP_sublist

variable {key} {l : List V} {k : K} {v : V} {f : V → V}

@[simp] theorem find_nil : find key [] k = none := rfl

theorem find_cons (v : V) (l : List V) (k : K) :
    find key (v :: l) k = if key v = k then some v else find key l k := by
  by_cases h : key v = k <;> simp [find, h]

theorem key_of_find (h : find key l k = some v) : key v = k := by
  simpa using List.find?_some h

theorem mem_of_find (h : find key l k = some v) : v ∈ l := List.mem_of_find?_eq_some h

theorem find_eq_none : find key l k = none ↔ k ∉ l.map key := by
  simp only [find, List.find?_eq_none, decide_eq_true_eq, List.mem_map, not_exists, not_and]

theorem nodup_concat (hnodup : (l.map key).Nodup) (h : find key l (key v) = none) :
    ((l ++ [v]).map key).Nodup := by
  rw [List.map_append, List.map_singleton, ← List.concat_eq_append]
  exact hnodup.concat (find_eq_none.mp h)

theorem find_concat (h : find key l (key v) = none) (j : K) :
    find key (l ++ [v]) j = if j = key v then some v else find key l j := by
  induction l with
  | nil => simp [find_cons, eq_comm]
  | cons w l ih =>
    rw [find_cons] at h
    split at h
    · cases h
    · rename_i hw
      rw [List.cons_append, find_cons, ih h, find_cons]
      by_cases hj : j = key v
      · simp [hj, hw]
      · simp [hj]

-- ---------------------------------------------------------------------------
-- Changing an entry
-- ---------------------------------------------------------------------------

theorem map_key_update (hf : ∀ v, key (f v) = key v) :
    (update key k f l).map key = l.map key := by
  induction l with
  | nil => rfl
  | cons w l ih =>
    rw [update]
    split
    · simp [hf]
    · simp [ih]

theorem find_update (hf : ∀ v, key (f v) = key v) (j : K) :
    find key (update key k f l) j = if j = k then (find key l k).map f else find key l j := by
  induction l with
  | nil => simp [update]
  | cons w l ih =>
    rw [update]
    by_cases hw : key w = k
    · rw [if_pos hw, find_cons, find_cons, find_cons, hf, hw, if_pos rfl]
      by_cases hj : j = k
      · simp [hj]
      · simp [hj, Ne.symm hj]
    · rw [if_neg hw, find_cons, ih, find_cons, find_cons, if_neg hw]
      by_cases hj : j = k
      · rw [if_pos hj, if_pos hj, hj, if_neg hw]
      · rw [if_neg hj, if_neg hj]

theorem mem_update {w : V} (h : w ∈ update key k f l) :
    w ∈ l ∨ ∃ v, find key l k = some v ∧ w = f v := by
  induction l with
  | nil => cases h
  | cons x l ih =>
    rw [update] at h
    by_cases hx : key x = k
    · rw [if_pos hx] at h
      rcases List.mem_cons.mp h with rfl | hmem
      · exact .inr ⟨x, by rw [find_cons, if_pos hx], rfl⟩
      · exact .inl (List.mem_cons_of_mem x hmem)
    · rw [if_neg hx] at h
      rcases List.mem_cons.mp h with rfl | hmem
      · exact .inl List.mem_cons_self
      · rcases ih hmem with hl | ⟨v, hv, hw⟩
        · exact .inl (List.mem_cons_of_mem x hl)
        · exact .inr ⟨v, by rw [find_cons, if_neg hx, hv], hw⟩

theorem find_map (hf : ∀ v, key (f v) = key v) (k : K) :
    find key (l.map f) k = (find key l k).map f := by
  induction l with
  | nil => rfl
  | cons w l ih =>
    rw [List.map_cons, find_cons, find_cons, hf, ih]
    split <;> rfl

-- ---------------------------------------------------------------------------
-- Sums
-- ---------------------------------------------------------------------------

variable (g : V → Nat)

theorem sum_update (h : find key l k = some v) :
    ((update key k f l).map g).sum + g v = (l.map g).sum + g (f v) := by
  induction l with
  | nil => cases h
  | cons w l ih =>
    rw [find_cons] at h
    rw [update]
    split at h
    · rename_i hw
      obtain rfl := Option.some.inj h
      rw [if_pos hw, List.map_cons, List.map_cons, List.sum_cons, List.sum_cons]
      omega
    · rename_i hw
      have hrest := ih h
      rw [if_neg hw, List.map_cons, List.map_cons, List.sum_cons, List.sum_cons]
      omega

theorem sum_erase (h : find key l k = some v) :
    ((erase key l k).map g).sum + g v = (l.map g).sum := by
  induction l with
  | nil => cases h
  | cons w l ih =>
    rw [find_cons] at h
    split at h
    · rename_i hw
      obtain rfl := Option.some.inj h
      rw [erase, List.eraseP_cons_of_pos (by simpa using hw), List.map_cons, List.sum_cons]
      omega
    · rename_i hw
      have hrest := ih h
      rw [erase] at hrest
      rw [erase, List.eraseP_cons_of_neg (by simpa using hw), List.map_cons, List.map_cons,
        List.sum_cons, List.sum_cons]
      omega

theorem le_sum (h : find key l k = some v) : g v ≤ (l.map g).sum := by
  have hsplit := sum_erase g h
  omega

-- ---------------------------------------------------------------------------
-- Distinct keys
-- ---------------------------------------------------------------------------

theorem find_of_mem (hnodup : (l.map key).Nodup) (hv : v ∈ l) : find key l (key v) = some v := by
  induction l with
  | nil => cases hv
  | cons w l ih =>
    rw [List.map_cons, List.nodup_cons] at hnodup
    rw [find_cons]
    rcases List.mem_cons.mp hv with rfl | hmem
    · rw [if_pos rfl]
    · have hne : key w ≠ key v := fun heq =>
        hnodup.1 (List.mem_map.mpr ⟨v, hmem, heq.symm⟩)
      rw [if_neg hne]
      exact ih hnodup.2 hmem

-- ---------------------------------------------------------------------------
-- Sorting by key
-- ---------------------------------------------------------------------------

theorem find_eq_some_iff (hnodup : (l.map key).Nodup) :
    find key l k = some v ↔ v ∈ l ∧ key v = k := by
  constructor
  · exact fun h => ⟨mem_of_find h, key_of_find h⟩
  · rintro ⟨hv, rfl⟩
    exact find_of_mem hnodup hv

theorem find_perm {l' : List V} (hnodup : (l.map key).Nodup) (hperm : l.Perm l') (k : K) :
    find key l k = find key l' k := by
  have hnodup' := (hperm.map key).nodup_iff.mp hnodup
  apply Option.ext
  intro v
  rw [find_eq_some_iff hnodup, find_eq_some_iff hnodup', hperm.mem_iff]

theorem find_through {W : Type} {key' : W → K} {g : V → W} (hg : ∀ v, key' (g v) = key v)
    (l : List V) (k : K) : find key' (l.map g) k = (find key l k).map g := by
  induction l with
  | nil => rfl
  | cons v l ih =>
    rw [List.map_cons, find_cons, find_cons, hg, ih]
    split <;> rfl

theorem mergeSort_eq_iff [LinearOrder K] {l' : List V} (hnodup : (l.map key).Nodup)
    (hnodup' : (l'.map key).Nodup) :
    (l.mergeSort fun a b => key a ≤ key b) = (l'.mergeSort fun a b => key a ≤ key b) ↔
      ∀ k, find key l k = find key l' k := by
  have hsorted (l : List V) :
      (l.mergeSort fun a b => key a ≤ key b).Pairwise fun a b => key a ≤ key b :=
    (List.pairwise_mergeSort (fun a b d hab hbd => by
        simp only [decide_eq_true_eq] at *
        exact hab.trans hbd)
      (fun a b => by simpa using le_total (key a) (key b)) l).imp of_decide_eq_true
  constructor
  · intro heq k
    have hperm := (List.mergeSort_perm l fun a b => key a ≤ key b).symm.trans
      (heq ▸ List.mergeSort_perm l' fun a b => key a ≤ key b)
    exact find_perm hnodup hperm k
  · intro h
    have hperm : l.Perm l' := by
      refine (List.perm_ext_iff_of_nodup hnodup.of_map hnodup'.of_map).mpr fun v => ?_
      have hv := find_eq_some_iff hnodup (k := key v) (v := v)
      rw [h, find_eq_some_iff hnodup'] at hv
      simpa using hv.symm
    refine List.Perm.eq_of_pairwise (fun a b ha hb hab hba => ?_) (hsorted l) (hsorted l')
      ((List.mergeSort_perm l _).trans (hperm.trans (List.mergeSort_perm l' _).symm))
    have hfound := find_of_mem hnodup (List.mem_mergeSort.mp ha)
    rw [h, le_antisymm hab hba, find_of_mem hnodup' (List.mem_mergeSort.mp hb)] at hfound
    exact (Option.some.inj hfound).symm

end LiteVision.Lib.Keyed
