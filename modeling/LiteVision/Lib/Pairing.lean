import Mathlib.Data.Nat.Log
import Mathlib.Data.Set.Function
import Mathlib.Logic.Function.Iterate
import Mathlib.Tactic.Common

/-!
# Reduction by pairs

A list is halved by combining neighbours, the last value of an odd number with
itself, until one value is left. `level f l k` is the list after `k` rounds. A
value of one level is combined with its `partner` into the value above it.
-/

namespace LiteVision.Lib.Pairing

variable {α : Type}

/-- Neighbours two by two; the last of an odd number stands with itself. -/
def pairs : List α → List (α × α)
  | [] => []
  | [a] => [(a, a)]
  | a :: b :: rest => (a, b) :: pairs rest

theorem length_pairs (l : List α) : (pairs l).length = (l.length + 1) / 2 := by
  induction l using pairs.induct with
  | case1 => simp [pairs]
  | case2 a => simp [pairs]
  | case3 a b rest ih =>
    simp only [pairs, List.length_cons, ih]
    omega

theorem mem_of_mem_pairs {l : List α} {p : α × α} (h : p ∈ pairs l) : p.1 ∈ l ∧ p.2 ∈ l := by
  induction l using pairs.induct with
  | case1 => simp [pairs] at h
  | case2 a =>
    obtain rfl := List.mem_singleton.mp h
    simp
  | case3 a b rest ih =>
    rcases List.mem_cons.mp h with rfl | h
    · simp
    · have hrest := ih h
      simp [hrest.1, hrest.2]

-- ---------------------------------------------------------------------------
-- Partners
-- ---------------------------------------------------------------------------

/-- A value and its neighbour, which stands left or right of it. -/
def orient (left : Bool) (x sibling : α) : α × α := if left then (sibling, x) else (x, sibling)

theorem orient_inj {left : Bool} {x sibling y other : α} :
    orient left x sibling = orient left y other ↔ x = y ∧ sibling = other := by
  cases left
  · simp [orient]
  · simp [orient, and_comm]

/-- The value that the one at `i` stands with. -/
def partner (l : List α) (i : Nat) (h : i < l.length) : α :=
  if i % 2 = 1 then l[i - 1]
  else if _ : i + 1 < l.length then l[i + 1]
  else l[i]

theorem getElem?_pairs {l : List α} {i : Nat} (h : i < l.length) :
    (pairs l)[i / 2]? = some (orient (i % 2 = 1) l[i] (partner l i h)) := by
  induction l using pairs.induct generalizing i with
  | case1 => simp at h
  | case2 a =>
    obtain rfl : i = 0 := by simpa using h
    simp [pairs, orient, partner]
  | case3 a b rest ih =>
    match i, h with
    | 0, _ => simp [pairs, orient, partner]
    | 1, _ => simp [pairs, orient, partner]
    | j + 2, h =>
      have hj : j < rest.length := by simpa using h
      have hpartner : partner (a :: b :: rest) (j + 2) h = partner rest j hj := by
        simp only [partner, Nat.add_mod_right, List.length_cons, Nat.add_lt_add_iff_right,
          show j + 2 + 1 = j + 1 + 2 from rfl, List.getElem_cons_succ]
        split
        · rename_i hodd
          obtain ⟨k, rfl⟩ : ∃ k, j = k + 1 := ⟨j - 1, by omega⟩
          rfl
        · rfl
      rw [Nat.add_div_right j Nat.two_pos, hpartner]
      simpa [pairs] using ih hj

-- ---------------------------------------------------------------------------
-- Levels
-- ---------------------------------------------------------------------------

variable (f : α → α → α)

def pairUp (l : List α) : List α := (pairs l).map (Function.uncurry f)

theorem length_pairUp (l : List α) : (pairUp f l).length = (l.length + 1) / 2 := by
  rw [pairUp, List.length_map, length_pairs]

theorem getElem?_pairUp {l : List α} {i : Nat} (h : i < l.length) :
    (pairUp f l)[i / 2]? =
      some (Function.uncurry f (orient (i % 2 = 1) l[i] (partner l i h))) := by
  rw [pairUp, List.getElem?_map, getElem?_pairs h, Option.map_some]

def level (l : List α) (k : Nat) : List α := (pairUp f)^[k] l

@[simp] theorem level_zero (l : List α) : level f l 0 = l := rfl

theorem level_succ (l : List α) (k : Nat) : level f l (k + 1) = level f (pairUp f l) k := rfl

theorem level_succ' (l : List α) (k : Nat) : level f l (k + 1) = pairUp f (level f l k) :=
  Function.iterate_succ_apply' (pairUp f) k l

theorem clog_pairUp {l : List α} (h : 1 < l.length) :
    Nat.clog 2 l.length = Nat.clog 2 (pairUp f l).length + 1 := by
  rw [Nat.clog_of_two_le Nat.one_lt_two h, length_pairUp]
  rfl

theorem one_lt_length_level {l : List α} {k : Nat} :
    1 < (level f l k).length ↔ k < Nat.clog 2 l.length := by
  induction k generalizing l with
  | zero =>
    by_cases h : 1 < l.length
    · simp [h, Nat.clog_pos Nat.one_lt_two h]
    · simp [h, Nat.clog_of_right_le_one (not_lt.mp h)]
  | succ k ih =>
    rw [level_succ, ih]
    by_cases h : 1 < l.length
    · rw [clog_pairUp f h, Nat.add_lt_add_iff_right]
    · have hnext : (pairUp f l).length ≤ 1 := by rw [length_pairUp]; omega
      rw [Nat.clog_of_right_le_one hnext, Nat.clog_of_right_le_one (not_lt.mp h)]
      simp

theorem level_ne_nil {l : List α} (h : l ≠ []) (k : Nat) : level f l k ≠ [] := by
  induction k generalizing l with
  | zero => exact h
  | succ k ih =>
    rw [level_succ]
    refine ih fun hnil => h ?_
    have hlen := length_pairUp f l
    rw [hnil, List.length_nil] at hlen
    exact List.length_eq_zero_iff.mp (by omega)

/-- The pairs combined on the way to the last value. -/
def Combined (l : List α) (p : α × α) : Prop :=
  ∃ k < Nat.clog 2 l.length, p ∈ pairs (level f l k)

variable {f}

theorem Combined.of_mem_pairs {l : List α} {p : α × α} (hl : 1 < l.length) (h : p ∈ pairs l) :
    Combined f l p := ⟨0, Nat.clog_pos Nat.one_lt_two hl, h⟩

theorem Combined.of_pairUp {l : List α} {p : α × α} (hl : 1 < l.length)
    (h : Combined f (pairUp f l) p) : Combined f l p := by
  obtain ⟨k, hk, hp⟩ := h
  exact ⟨k + 1, by rw [clog_pairUp f hl]; omega, hp⟩

-- ---------------------------------------------------------------------------
-- Reduction to one value
-- ---------------------------------------------------------------------------

variable (f)

/-- The value left in the end, if there is any at all. -/
def reduce : List α → Option α
  | [] => none
  | [a] => some a
  | a :: b :: rest => reduce (pairUp f (a :: b :: rest))
termination_by l => l.length
decreasing_by
  rw [length_pairUp]
  simp only [List.length_cons]
  omega

theorem reduce_pairUp {l : List α} (h : 1 < l.length) : reduce f (pairUp f l) = reduce f l := by
  match l, h with
  | a :: b :: rest, _ => rw [reduce.eq_3]

theorem reduce_eq (l : List α) : reduce f l = (level f l (Nat.clog 2 l.length)).head? := by
  induction l using reduce.induct f with
  | case1 => rw [reduce, List.length_nil, Nat.clog_zero_right, level_zero, List.head?_nil]
  | case2 a => rw [reduce, List.length_singleton, Nat.clog_one_right, level_zero, List.head?_cons]
  | case3 a b rest ih =>
    have hlen : 1 < (a :: b :: rest).length := by simp
    rw [← reduce_pairUp f hlen, ih, clog_pairUp f hlen, level_succ]

theorem pairs_inj {l m : List α} (hlen : l.length = m.length) (h : pairs l = pairs m) : l = m := by
  induction l using pairs.induct generalizing m with
  | case1 => exact (List.length_eq_zero_iff.mp hlen.symm).symm
  | case2 a =>
    obtain ⟨b, rfl⟩ := List.length_eq_one_iff.mp hlen.symm
    have hpair : (a, a) = (b, b) := List.singleton_inj.mp h
    rw [(Prod.mk.inj hpair).1]
  | case3 a b rest ih =>
    match m, hlen with
    | c :: d :: other, hlen =>
      obtain ⟨hpair, hrest⟩ := List.cons.inj h
      obtain ⟨rfl, rfl⟩ := Prod.mk.inj hpair
      rw [ih (Nat.succ.inj (Nat.succ.inj hlen)) hrest]

variable {f}

theorem pairUp_inj {l m : List α} (hlen : l.length = m.length)
    (hinj : Set.InjOn (Function.uncurry f) {p | p ∈ pairs l ∨ p ∈ pairs m})
    (h : pairUp f l = pairUp f m) : l = m := by
  refine pairs_inj hlen ?_
  have hsize : (pairs l).length = (pairs m).length := by rw [length_pairs, length_pairs, hlen]
  refine List.ext_getElem hsize fun i hi hj => ?_
  refine hinj (.inl (List.getElem_mem hi)) (.inr (List.getElem_mem hj)) ?_
  have hvalue := congrArg (fun values : List α => values[i]?) h
  simpa [pairUp, List.getElem?_eq_getElem hi, List.getElem?_eq_getElem hj] using hvalue

/-- Lists of one length that reduce to the same value are the same, if no two of the
pairs combined on the way collide. -/
theorem reduce_inj {l m : List α} (hlen : l.length = m.length)
    (hinj : Set.InjOn (Function.uncurry f) {p | Combined f l p ∨ Combined f m p})
    (h : reduce f l = reduce f m) : l = m := by
  induction l using reduce.induct f generalizing m with
  | case1 => exact (List.length_eq_zero_iff.mp hlen.symm).symm
  | case2 a =>
    obtain ⟨b, rfl⟩ := List.length_eq_one_iff.mp hlen.symm
    rw [reduce, reduce, Option.some.injEq] at h
    rw [h]
  | case3 a b rest ih =>
    have hl : 1 < (a :: b :: rest).length := by simp
    have hm : 1 < m.length := hlen ▸ hl
    refine pairUp_inj hlen (hinj.mono fun p hp => ?_) (ih ?_ (hinj.mono fun p hp => ?_) ?_)
    · rcases hp with hp | hp
      · exact .inl (.of_mem_pairs hl hp)
      · exact .inr (.of_mem_pairs hm hp)
    · rw [length_pairUp, length_pairUp, hlen]
    · rcases hp with hp | hp
      · exact .inl (.of_pairUp hl hp)
      · exact .inr (.of_pairUp hm hp)
    · rw [reduce_pairUp f hl, reduce_pairUp f hm, h]

end LiteVision.Lib.Pairing
