import Mathlib.Data.List.Basic
import Mathlib.Tactic.Common

/-!
# The first of a stable sort

A stable sort by a total preorder `le`, of which the first `k` are kept. An entry
stands behind those that are strictly before it and those of its own rank that come
earlier in the list. So the first `k` depend on the order of the list just when one of
them is tied.
-/

namespace LiteVision.Lib.Ranking

variable {α : Type} {le : α → α → Bool} {l l' : List α} {k : Nat}

-- ---------------------------------------------------------------------------
-- Lists in a strict order
-- ---------------------------------------------------------------------------

section Strict

variable {B : α → α → Prop} [DecidableRel B]

theorem countP_split (hasymm : ∀ a b, B a b → ¬ B b a) {front back : List α} {a : α}
    (hsorted : (front ++ a :: back).Pairwise B) :
    (front ++ a :: back).countP (fun b => B b a) = front.length := by
  obtain ⟨-, hback, hcross⟩ := List.pairwise_append.mp hsorted
  have hfront : front.countP (fun b => B b a) = front.length :=
    List.countP_eq_length.mpr fun b hb => decide_eq_true (hcross b hb a List.mem_cons_self)
  have hself : ¬ B a a := fun h => hasymm a a h h
  have hnone : back.countP (fun b => B b a) = 0 := by
    refine List.countP_eq_zero.mpr fun b hb => ?_
    have hnot := hasymm a b ((List.pairwise_cons.mp hback).1 b hb)
    simpa using hnot
  rw [List.countP_append, hfront, List.countP_cons_of_neg (by simpa using hself), hnone,
    Nat.add_zero]

theorem mem_take_iff (hasymm : ∀ a b, B a b → ¬ B b a) (hsorted : l.Pairwise B) {a : α} :
    a ∈ l.take k ↔ a ∈ l ∧ l.countP (fun b => B b a) < k := by
  constructor
  · intro ha
    obtain ⟨front, back, hsplit⟩ := List.append_of_mem ha
    have hl : l = front ++ a :: (back ++ l.drop k) := by
      conv_lhs => rw [← List.take_append_drop k l, hsplit]
      simp
    have hlength := congrArg List.length hsplit
    rw [List.length_take, List.length_append, List.length_cons] at hlength
    have hcount : l.countP (fun b => B b a) = front.length := by
      rw [hl] at hsorted ⊢
      exact countP_split hasymm hsorted
    exact ⟨List.mem_of_mem_take ha, by omega⟩
  · rintro ⟨ha, hcount⟩
    obtain ⟨front, back, rfl⟩ := List.append_of_mem ha
    rw [countP_split hasymm hsorted] at hcount
    obtain ⟨more, hmore⟩ := Nat.exists_eq_add_of_lt hcount
    have hrest : k - front.length = more + 1 := by omega
    rw [List.take_append, hrest, List.take_succ_cons]
    exact List.mem_append_right _ List.mem_cons_self

theorem forall_split_iff (hasymm : ∀ a b, B a b → ¬ B b a) (hsorted : l.Pairwise B)
    (Q : α → α → Prop) :
    (∀ front a back, l = front ++ a :: back → front.length < k → ∀ b ∈ back, Q a b) ↔
      ∀ a ∈ l, l.countP (fun b => B b a) < k → ∀ b ∈ l, B a b → Q a b := by
  constructor
  · intro h a ha hcount b hb hab
    obtain ⟨front, back, rfl⟩ := List.append_of_mem ha
    rw [countP_split hasymm hsorted] at hcount
    refine h front a back rfl hcount b ?_
    rcases List.mem_append.mp hb with hfront | hrest
    · have hba := (List.pairwise_append.mp hsorted).2.2 b hfront a List.mem_cons_self
      exact absurd hba (hasymm a b hab)
    · rcases List.mem_cons.mp hrest with rfl | hback
      · exact absurd hab (hasymm b b hab)
      · exact hback
  · rintro h front a back rfl hlength b hb
    have hcount := countP_split hasymm hsorted
    have hab := (List.pairwise_cons.mp (List.pairwise_append.mp hsorted).2.1).1 b hb
    exact h a (List.mem_append_right _ List.mem_cons_self) (hcount ▸ hlength) b
      (List.mem_append_right _ (List.mem_cons_of_mem a hb)) hab

omit [DecidableRel B] in
theorem take_drop_iff (Q : α → α → Prop) :
    ((∀ a ∈ l.take k, ∀ b ∈ l.drop k, Q a b) ∧ (l.take k).Pairwise Q) ↔
      ∀ front a back, l = front ++ a :: back → front.length < k → ∀ b ∈ back, Q a b := by
  induction l generalizing k with
  | nil => simp
  | cons c l ih =>
    cases k with
    | zero => simp
    | succ k =>
      have hhead : (∀ b ∈ l, Q c b) ↔ (∀ b ∈ l.take k, Q c b) ∧ ∀ b ∈ l.drop k, Q c b := by
        conv_lhs => rw [← List.take_append_drop k l]
        rw [List.forall_mem_append]
      have hfirst : ((∀ a ∈ (c :: l).take (k + 1), ∀ b ∈ (c :: l).drop (k + 1), Q a b) ∧
          ((c :: l).take (k + 1)).Pairwise Q) ↔ (∀ b ∈ l, Q c b) ∧
            (∀ a ∈ l.take k, ∀ b ∈ l.drop k, Q a b) ∧ (l.take k).Pairwise Q := by
        rw [List.take_succ_cons, List.drop_succ_cons, List.forall_mem_cons, List.pairwise_cons,
          hhead]
        tauto
      rw [hfirst, ih]
      constructor
      · rintro ⟨hc, hl⟩ front a back heq hlength
        rcases List.cons_eq_append_iff.mp heq with ⟨rfl, hback⟩ | ⟨front, rfl, hl'⟩
        · obtain ⟨rfl, rfl⟩ := List.cons.inj hback
          exact hc
        · exact hl front a back hl' (Nat.lt_of_succ_lt_succ hlength)
      · intro h
        refine ⟨h [] c l rfl k.succ_pos, fun front a back heq hlength => ?_⟩
        exact h (c :: front) a back (by rw [heq]; rfl) (Nat.succ_lt_succ hlength)

end Strict

-- ---------------------------------------------------------------------------
-- The stable sort
-- ---------------------------------------------------------------------------

/-- An entry and its place come before another: by rank, or with the same rank at an
earlier place. -/
def Before (le : α → α → Bool) (x y : α × Nat) : Prop :=
  le x.1 y.1 = true ∧ (le y.1 x.1 = true → x.2 < y.2)

instance : DecidableRel (Before le) := fun _ _ => inferInstanceAs (Decidable (_ ∧ _))

theorem Before.asymm (x y : α × Nat) (h : Before le x y) : ¬ Before le y x := by
  intro h'
  have hxy := h.2 h'.1
  have hyx := h'.2 h.1
  omega

section Stable

variable (trans : ∀ a b c, le a b = true → le b c = true → le a c = true)
  (total : ∀ a b, (le a b || le b a) = true)

include trans total

theorem pairwise_before (l : List α) :
    (l.zipIdx.mergeSort (List.zipIdxLE le)).Pairwise (Before le) := by
  have hsorted := List.pairwise_mergeSort (List.zipIdxLE_trans trans)
    (List.zipIdxLE_total total) l.zipIdx
  have hplaces : ((l.zipIdx.mergeSort (List.zipIdxLE le)).map Prod.snd).Nodup := by
    rw [((List.mergeSort_perm _ _).map Prod.snd).nodup_iff, List.zipIdx_map_snd]
    exact List.nodup_range'
  refine (hsorted.and (List.pairwise_map.mp hplaces)).imp ?_
  rintro x y ⟨hle, hne⟩
  unfold List.zipIdxLE at hle
  split at hle
  · rename_i hxy
    refine ⟨hxy, fun hyx => ?_⟩
    rw [if_pos hyx, decide_eq_true_eq] at hle
    exact Nat.lt_of_le_of_ne hle hne
  · cases hle

theorem pairwise_mergeSort_stable {B : α → α → Prop} (hl : l.Pairwise B) :
    (l.mergeSort le).Pairwise fun a b => le a b = true ∧ (le b a = true → B a b) := by
  rw [← List.mergeSort_zipIdx, List.pairwise_map]
  refine (pairwise_before trans total l).imp_of_mem fun {x y} hx hy hbefore => ?_
  refine ⟨hbefore.1, fun hyx => ?_⟩
  have hx' := List.mem_zipIdx_iff_getElem?.mp ((List.mergeSort_perm _ _).subset hx)
  have hy' := List.mem_zipIdx_iff_getElem?.mp ((List.mergeSort_perm _ _).subset hy)
  obtain ⟨hi, hxi⟩ := List.getElem?_eq_some_iff.mp hx'
  obtain ⟨hj, hyj⟩ := List.getElem?_eq_some_iff.mp hy'
  rw [← hxi, ← hyj]
  exact List.pairwise_iff_getElem.mp hl _ _ hi hj (hbefore.2 hyx)

/-- A relation from the first `k` of a stable sort to one another in order and to all
others, said of the entries of the list with their places. -/
theorem take_mergeSort_iff (Q : α → α → Prop) :
    ((∀ a ∈ (l.mergeSort le).take k, ∀ b ∈ (l.mergeSort le).drop k, Q a b) ∧
        ((l.mergeSort le).take k).Pairwise Q) ↔
      ∀ x ∈ l.zipIdx, l.zipIdx.countP (fun y => Before le y x) < k →
        ∀ y ∈ l.zipIdx, Before le x y → Q x.1 y.1 := by
  have hperm := List.mergeSort_perm l.zipIdx (List.zipIdxLE le)
  rw [← List.mergeSort_zipIdx, ← List.map_take, ← List.map_drop, List.pairwise_map]
  simp only [List.forall_mem_map]
  refine (take_drop_iff fun x y : α × Nat => Q x.1 y.1).trans ?_
  rw [forall_split_iff Before.asymm (pairwise_before trans total l)]
  simp only [hperm.mem_iff, hperm.countP_eq]

theorem getElem?_mergeSort_cons (a : α) (l : List α) :
    ((a :: l).mergeSort le)[(a :: l).countP fun b => !le a b]? = some a := by
  have hsorted := List.pairwise_mergeSort trans total (a :: l)
  have hperm := List.mergeSort_perm (a :: l) le
  obtain ⟨front, back, heq, -, hfront⟩ := List.mergeSort_cons trans total a l
  rw [heq] at hsorted hperm ⊢
  have hback := (List.pairwise_cons.mp (List.pairwise_append.mp hsorted).2.1).1
  have hself : le a a = true := by simpa using total a a
  have hcount : (a :: l).countP (fun b => !le a b) = front.length := by
    rw [← hperm.countP_eq, List.countP_append, List.countP_eq_length.mpr hfront,
      List.countP_eq_zero.mpr, Nat.add_zero]
    intro b hb
    rcases List.mem_cons.mp hb with rfl | hb
    · simp [hself]
    · simp [hback b hb]
  rw [hcount, List.getElem?_append_right (Nat.le_refl _), Nat.sub_self]
  rfl

omit trans in
theorem take_eq_of_sorted (hl : l.Pairwise fun a b => le a b) (hl' : l'.Pairwise fun a b => le a b)
    (hperm : l.Perm l')
    (hties : ∀ a ∈ l, ∀ b ∈ l, a ≠ b → le a b = true → le b a = true →
      k ≤ l.countP fun c => !le a c) : l.take k = l'.take k := by
  induction l generalizing l' k with
  | nil => rw [hperm.nil_eq]
  | cons a l ih =>
    cases l' with
    | nil => exact absurd hperm.symm.nil_eq (List.cons_ne_nil a l).symm
    | cons b l' =>
      cases k with
      | zero => rfl
      | succ k =>
        obtain ⟨ha, htail⟩ := List.pairwise_cons.mp hl
        obtain ⟨hb, htail'⟩ := List.pairwise_cons.mp hl'
        by_cases hab : a = b
        · subst hab
          rw [List.take_succ_cons, List.take_succ_cons,
            ih htail htail' ((List.perm_cons a).mp hperm) fun c hc d hd hne hcd hdc => ?_]
          have hcount := hties c (List.mem_cons_of_mem a hc) d (List.mem_cons_of_mem a hd) hne
            hcd hdc
          rw [List.countP_cons] at hcount
          split at hcount <;> omega
        · -- both are first, so tied, and nothing is strictly before them
          have hmem := hperm.symm.subset List.mem_cons_self
          have hmem' := hperm.subset List.mem_cons_self
          have hle := ha b ((List.mem_cons.mp hmem).resolve_left (Ne.symm hab))
          have hge := hb a ((List.mem_cons.mp hmem').resolve_left hab)
          have hcount := hties a List.mem_cons_self b hmem hab hle hge
          have hzero : (a :: l).countP (fun c => !le a c) = 0 := by
            refine List.countP_eq_zero.mpr fun c hc => ?_
            rcases List.mem_cons.mp hc with rfl | hc
            · simpa using total c c
            · simpa using ha c hc
          omega

/-- The first `k` of a stable sort, seen through `f`, do not depend on the order of the
list just when `k` entries are strictly before any two that are tied. -/
theorem take_mergeSort_perm_iff {β : Type} (f : α → β)
    (hf : ∀ a ∈ l, ∀ b ∈ l, f a = f b → a = b) :
    (∀ l' : List α, l'.Perm l → ((l'.mergeSort le).take k).map f = ((l.mergeSort le).take k).map f) ↔
      ∀ a ∈ l, ∀ b ∈ l, a ≠ b → le a b = true → le b a = true →
        k ≤ l.countP fun c => !le a c := by
  constructor
  · intro h a ha b hb hne hab hba
    by_contra hk
    have hplace : ∀ x ∈ l, le x a = true → le a x = true →
        (((l.mergeSort le).take k).map f)[l.countP fun c => !le a c]? = some (f x) := by
      intro x hx hxa hax
      obtain ⟨front, back, rfl⟩ := List.append_of_mem hx
      have hperm : (x :: (front ++ back)).Perm (front ++ x :: back) := List.perm_middle.symm
      have hsame : (fun c => !le a c) = fun c => !le x c := by
        funext c
        rw [Bool.not_inj_iff, Bool.eq_iff_iff]
        exact ⟨trans x a c hxa, trans a x c hax⟩
      have hget := getElem?_mergeSort_cons trans total x (front ++ back)
      rw [hperm.countP_eq, ← hsame] at hget
      rw [← h _ hperm, List.getElem?_map, List.getElem?_take_of_lt (by omega), hget]
      rfl
    have hself : le a a = true := by simpa using total a a
    have heq := (hplace a ha hself hself).symm.trans (hplace b hb hba hab)
    exact hne (hf a ha b hb (Option.some.inj heq))
  · intro hties l' hperm
    have hsame := (List.mergeSort_perm l' le).trans (hperm.trans (List.mergeSort_perm l le).symm)
    congr 1
    refine (take_eq_of_sorted total (List.pairwise_mergeSort trans total l)
      (List.pairwise_mergeSort trans total l') hsame.symm fun a ha b hb hne hab hba => ?_).symm
    rw [(List.mergeSort_perm l le).countP_eq]
    exact hties a (List.mem_mergeSort.mp ha) b (List.mem_mergeSort.mp hb) hne hab hba

omit trans total in
theorem cut_unique {p : α → Bool} {front back front' back' : List α}
    (h : front ++ back = front' ++ back') (hfront : ∀ b ∈ front, !p b) (hback : ∀ b ∈ back, p b)
    (hfront' : ∀ b ∈ front', !p b) (hback' : ∀ b ∈ back', p b) :
    front = front' ∧ back = back' := by
  have hcut : ∀ {front back : List α}, (∀ b ∈ front, !p b) → (∀ b ∈ back, p b) →
      (front ++ back).filter p = back ∧ (front ++ back).filter (fun b => !p b) = front := by
    intro front back hfront hback
    rw [List.filter_append, List.filter_append, List.filter_eq_self.mpr hback,
      List.filter_eq_self.mpr hfront]
    rw [List.filter_eq_nil_iff.mpr fun b hb => by simpa using hfront b hb,
      List.filter_eq_nil_iff.mpr fun b hb => by simpa using hback b hb]
    simp
  obtain ⟨hb, hf⟩ := hcut hfront hback
  obtain ⟨hb', hf'⟩ := hcut hfront' hback'
  exact ⟨hf.symm.trans (h ▸ hf'), hb.symm.trans (h ▸ hb')⟩

theorem filter_mergeSort (p : α → Bool) (l : List α) :
    (l.mergeSort le).filter p = (l.filter p).mergeSort le := by
  induction l with
  | nil => simp
  | cons a l ih =>
    obtain ⟨front, back, heq, hrest, hfront⟩ := List.mergeSort_cons trans total a l
    have hsorted := List.pairwise_mergeSort trans total (a :: l)
    rw [heq] at hsorted
    have hback := (List.pairwise_cons.mp (List.pairwise_append.mp hsorted).2.1).1
    rw [hrest, List.filter_append] at ih
    rw [heq, List.filter_append, List.filter_cons, List.filter_cons]
    split
    · obtain ⟨front', back', heq', hrest', hfront'⟩ :=
        List.mergeSort_cons trans total a (l.filter p)
      have hsorted' := List.pairwise_mergeSort trans total (a :: l.filter p)
      rw [heq'] at hsorted'
      have hback' := (List.pairwise_cons.mp (List.pairwise_append.mp hsorted').2.1).1
      -- both cut the same list where `a` goes before what comes next
      obtain ⟨hfronts, hbacks⟩ := cut_unique (ih.trans hrest')
        (fun b hb => hfront b (List.mem_filter.mp hb).1)
        (fun b hb => hback b (List.mem_filter.mp hb).1) hfront' hback'
      rw [heq', hfronts, hbacks]
    · exact ih

end Stable

end LiteVision.Lib.Ranking
