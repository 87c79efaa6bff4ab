import Mathlib.Data.Finmap
import Mathlib.Data.Finset.Sort
import Mathlib.Algebra.BigOperators.Group.Finset.Piecewise
import Mathlib.Algebra.Ring.Nat
import Mathlib.Tactic.Tauto

/-!
# Finite maps with an open iteration order

A hash map is a finite map from keys to values. Two maps with the same
bindings are equal, so nothing can depend on how one was built. What a loop
over the entries sees is left to an `Iteration`: any enumeration that lists
every binding once.
-/

namespace LiteVision.Lib

def Map (K V : Type) := Finmap fun _ : K => V

namespace Map

variable {K V : Type}

instance [DecidableEq K] [DecidableEq V] : DecidableEq (Map K V) :=
  inferInstanceAs (DecidableEq (Finmap fun _ : K => V))

def empty : Map K V := (∅ : Finmap fun _ : K => V)

def keys (m : Map K V) : Finset K := Finmap.keys m

variable [DecidableEq K]

def get (m : Map K V) (k : K) : Option V := Finmap.lookup k m

def insert (m : Map K V) (k : K) (v : V) : Map K V := Finmap.insert k v m

theorem ext {m n : Map K V} (h : ∀ k, m.get k = n.get k) : m = n := Finmap.ext_lookup h

@[simp] theorem get_empty (k : K) : (empty : Map K V).get k = none := Finmap.lookup_empty k

theorem get_insert (m : Map K V) (k j : K) (v : V) :
    (m.insert k v).get j = if j = k then some v else m.get j := by
  by_cases h : j = k
  · subst h; rw [if_pos rfl]; exact Finmap.lookup_insert m
  · rw [if_neg h]; exact Finmap.lookup_insert_of_ne m h

@[simp] theorem get_insert_self (m : Map K V) (k : K) (v : V) : (m.insert k v).get k = some v := by
  simp [get_insert]

theorem get_insert_ne (m : Map K V) {k j : K} (v : V) (h : j ≠ k) :
    (m.insert k v).get j = m.get j := by
  simp [get_insert, h]

theorem of_get_insert {m : Map K V} {k j : K} {v w : V} (h : (m.insert k v).get j = some w) :
    (j = k ∧ w = v) ∨ (j ≠ k ∧ m.get j = some w) := by
  rw [get_insert] at h
  split at h
  · rename_i hj
    exact .inl ⟨hj, (Option.some.inj h).symm⟩
  · rename_i hj
    exact .inr ⟨hj, h⟩

theorem exists_get_insert {m : Map K V} {j : K} (k : K) (v : V) (h : ∃ w, m.get j = some w) :
    ∃ w, (m.insert k v).get j = some w := by
  rw [get_insert]
  split
  · exact ⟨v, rfl⟩
  · exact h

theorem mem_keys {m : Map K V} {k : K} : k ∈ m.keys ↔ ∃ v, m.get k = some v :=
  Finmap.mem_keys.trans Finmap.mem_iff

omit [DecidableEq K] in
@[simp] theorem keys_empty : (empty : Map K V).keys = ∅ := Finmap.keys_empty

def erase (m : Map K V) (k : K) : Map K V := Finmap.erase k m

theorem get_erase (m : Map K V) (k j : K) :
    (m.erase k).get j = if j = k then none else m.get j := by
  by_cases h : j = k
  · subst h; rw [if_pos rfl]; exact Finmap.lookup_erase j m
  · rw [if_neg h]; exact Finmap.lookup_erase_ne h

@[simp] theorem get_erase_self (m : Map K V) (k : K) : (m.erase k).get k = none := by
  simp [get_erase]

theorem get_erase_ne (m : Map K V) {k j : K} (h : j ≠ k) : (m.erase k).get j = m.get j := by
  simp [get_erase, h]

theorem keys_erase (m : Map K V) (k : K) : (m.erase k).keys = m.keys.erase k :=
  Finmap.keys_erase k m

theorem keys_insert (m : Map K V) (k : K) (v : V) : (m.insert k v).keys = Insert.insert k m.keys := by
  ext j
  rw [Finset.mem_insert, mem_keys, mem_keys, get_insert]
  by_cases hj : j = k <;> simp [hj]

theorem erase_insert (m : Map K V) (k : K) (v : V) : (m.insert k v).erase k = m.erase k := by
  apply ext
  intro j
  rw [get_erase, get_erase]
  split
  · rfl
  · rename_i h; exact get_insert_ne m v h

theorem insert_eq_self {m : Map K V} {k : K} {v : V} : m.insert k v = m ↔ m.get k = some v := by
  constructor
  · intro h
    rw [← h, get_insert_self]
  · intro h
    apply ext
    intro j
    rw [get_insert]
    split
    · rename_i hj; rw [hj, h]
    · rfl

theorem insert_eq_insert {m : Map K V} {k j : K} {v w : V} :
    m.insert k v = m.insert j w ↔
      (k = j ∧ v = w) ∨ (k ≠ j ∧ m.get k = some v ∧ m.get j = some w) := by
  by_cases hkj : k = j
  · subst hkj
    constructor
    · intro h
      have hget := congrArg (fun n => n.get k) h
      simp only [get_insert_self] at hget
      exact .inl ⟨rfl, Option.some.inj hget⟩
    · rintro (⟨-, rfl⟩ | ⟨hne, -⟩)
      · rfl
      · exact absurd rfl hne
  · constructor
    · intro h
      have hk := congrArg (fun n => n.get k) h
      have hj := congrArg (fun n => n.get j) h
      simp only [get_insert_self, get_insert_ne m _ hkj, get_insert_ne m _ (Ne.symm hkj)] at hk hj
      exact .inr ⟨hkj, hk.symm, hj⟩
    · rintro (⟨heq, -⟩ | ⟨-, hk, hj⟩)
      · exact absurd heq hkj
      · rw [insert_eq_self.mpr hk, insert_eq_self.mpr hj]

-- ---------------------------------------------------------------------------
-- Updates in place
-- ---------------------------------------------------------------------------

/-- Change the value at `k`, if there is one. -/
def modify (m : Map K V) (k : K) (f : V → V) : Map K V :=
  match m.get k with
  | some v => m.insert k (f v)
  | none => m

theorem modify_some {m : Map K V} {k : K} {v : V} (h : m.get k = some v) (f : V → V) :
    m.modify k f = m.insert k (f v) := by
  simp [modify, h]

theorem modify_none {m : Map K V} {k : K} (h : m.get k = none) (f : V → V) :
    m.modify k f = m := by
  simp [modify, h]

theorem get_modify (m : Map K V) (k j : K) (f : V → V) :
    (m.modify k f).get j = if j = k then (m.get k).map f else m.get j := by
  cases h : m.get k with
  | none =>
    rw [modify_none h]
    split
    · rename_i hj
      rw [hj, h]
      rfl
    · rfl
  | some v =>
    rw [modify_some h, get_insert]
    rfl

theorem of_get_modify {m : Map K V} {k j : K} {f : V → V} {w : V}
    (h : (m.modify k f).get j = some w) :
    (j = k ∧ ∃ v, m.get k = some v ∧ w = f v) ∨ (j ≠ k ∧ m.get j = some w) := by
  rw [get_modify] at h
  split at h
  · rename_i hj
    obtain ⟨v, hv, rfl⟩ := Option.map_eq_some_iff.mp h
    exact .inl ⟨hj, v, hv, rfl⟩
  · rename_i hj
    exact .inr ⟨hj, h⟩

theorem exists_get_modify {m : Map K V} {j : K} (k : K) (f : V → V) (h : ∃ w, m.get j = some w) :
    ∃ w, (m.modify k f).get j = some w := by
  cases hk : m.get k with
  | none => rwa [modify_none hk]
  | some v =>
    rw [modify_some hk]
    exact exists_get_insert k (f v) h

-- ---------------------------------------------------------------------------
-- Counting values
-- ---------------------------------------------------------------------------

def holders (m : Map K V) (p : V → Bool) : Finset K :=
  m.keys.filter fun k => (m.get k).any p

def count (m : Map K V) (p : V → Bool) : Nat := (m.holders p).card

theorem mem_holders {m : Map K V} {p : V → Bool} {k : K} :
    k ∈ m.holders p ↔ ∃ v, m.get k = some v ∧ p v = true := by
  simp only [holders, Finset.mem_filter, mem_keys, Option.any_eq_true]
  constructor
  · rintro ⟨-, v, hv, hp⟩; exact ⟨v, hv, hp⟩
  · rintro ⟨v, hv, hp⟩; exact ⟨⟨v, hv⟩, v, hv, hp⟩

@[simp] theorem holders_empty (p : V → Bool) : (empty : Map K V).holders p = ∅ := by
  ext k
  simp [mem_holders]

@[simp] theorem count_empty (p : V → Bool) : (empty : Map K V).count p = 0 := by
  simp [count]

theorem holders_insert_of_pos (m : Map K V) (k : K) {v : V} {p : V → Bool} (h : p v = true) :
    (m.insert k v).holders p = Insert.insert k (m.holders p) := by
  ext j
  rw [mem_holders, get_insert, Finset.mem_insert, mem_holders]
  by_cases hj : j = k <;> simp [hj, h]

theorem holders_insert_of_neg (m : Map K V) (k : K) {v : V} {p : V → Bool} (h : p v = false) :
    (m.insert k v).holders p = (m.holders p).erase k := by
  ext j
  rw [mem_holders, get_insert, Finset.mem_erase, mem_holders]
  by_cases hj : j = k <;> simp [hj, h]

-- ---------------------------------------------------------------------------
-- Adding up values
-- ---------------------------------------------------------------------------

/-- What `f` gives for the value at `k`; zero when there is none. -/
def weightAt (m : Map K V) (f : V → Nat) (k : K) : Nat := (m.get k).elim 0 f

def total (m : Map K V) (f : V → Nat) : Nat := ∑ k ∈ m.keys, m.weightAt f k

@[simp] theorem total_empty (f : V → Nat) : (empty : Map K V).total f = 0 := by
  simp [total]

theorem total_erase (m : Map K V) (f : V → Nat) (k : K) :
    (m.erase k).total f + m.weightAt f k = m.total f := by
  have hrest : ∀ j ∈ m.keys.erase k, (m.erase k).weightAt f j = m.weightAt f j := by
    intro j hj
    simp [weightAt, get_erase_ne m (Finset.mem_erase.mp hj).1]
  rw [total, keys_erase, Finset.sum_congr rfl hrest]
  by_cases hk : k ∈ m.keys
  · rw [total, Finset.sum_erase_add _ _ hk]
  · have hz : m.weightAt f k = 0 := by
      cases hg : m.get k with
      | none => simp [weightAt, hg]
      | some v => exact absurd (mem_keys.mpr ⟨v, hg⟩) hk
    rw [total, hz, Finset.erase_eq_of_notMem hk, Nat.add_zero]

theorem total_insert (m : Map K V) (f : V → Nat) (k : K) (v : V) :
    (m.insert k v).total f + m.weightAt f k = m.total f + f v := by
  have hnew := total_erase (m.insert k v) f k
  have hold := total_erase m f k
  have hself : (m.insert k v).weightAt f k = f v := by simp [weightAt]
  rw [erase_insert, hself] at hnew
  omega

theorem weightAt_some {m : Map K V} {k : K} {v : V} (h : m.get k = some v) (f : V → Nat) :
    m.weightAt f k = f v := by
  simp [weightAt, h]

theorem weightAt_none {m : Map K V} {k : K} (h : m.get k = none) (f : V → Nat) :
    m.weightAt f k = 0 := by
  simp [weightAt, h]

theorem weightAt_insert (m : Map K V) (f : V → Nat) (k j : K) (v : V) :
    (m.insert k v).weightAt f j = if j = k then f v else m.weightAt f j := by
  rw [weightAt, get_insert]
  split <;> rfl

theorem le_total {m : Map K V} {k : K} {v : V} (h : m.get k = some v) (f : V → Nat) :
    f v ≤ m.total f := by
  have hsplit := total_erase m f k
  rw [weightAt_some h] at hsplit
  omega

theorem total_eq_zero {m : Map K V} {f : V → Nat} :
    m.total f = 0 ↔ ∀ k v, m.get k = some v → f v = 0 := by
  constructor
  · intro h k v hv
    exact Nat.le_zero.mp (h ▸ le_total hv f)
  · intro h
    refine Finset.sum_eq_zero fun k hk => ?_
    obtain ⟨v, hv⟩ := mem_keys.mp hk
    rw [weightAt_some hv, h k v hv]

theorem total_eq_weightAt {m : Map K V} {f : V → Nat} {k : K} :
    m.total f = m.weightAt f k ↔ ∀ j v, m.get j = some v → f v ≠ 0 → j = k := by
  have hsplit := total_erase m f k
  have hrest : (m.erase k).total f = 0 ↔ m.total f = m.weightAt f k := by omega
  rw [← hrest, total_eq_zero]
  constructor
  · intro h j v hget hne
    by_contra hj
    exact hne (h j v (by rw [get_erase_ne m hj, hget]))
  · intro h j v hget
    by_contra hne
    by_cases hj : j = k
    · rw [hj, get_erase_self] at hget
      cases hget
    · rw [get_erase_ne m hj] at hget
      exact hj (h j v hget hne)

theorem count_eq_total (m : Map K V) (p : V → Bool) :
    m.count p = m.total fun v => if p v then 1 else 0 := by
  rw [count, holders, Finset.card_filter, total]
  refine Finset.sum_congr rfl fun k hk => ?_
  obtain ⟨v, hv⟩ := mem_keys.mp hk
  simp [weightAt, hv]

-- ---------------------------------------------------------------------------
-- Maps built from a list
-- ---------------------------------------------------------------------------

variable {A : Type} (key : A → K) (value : A → V)

theorem get_foldl_insert {l : List A} {m : Map K V} {k : K} {v : V}
    (h : (l.foldl (fun m a => m.insert (key a) (value a)) m).get k = some v) :
    (∃ a ∈ l, key a = k ∧ value a = v) ∨ m.get k = some v := by
  induction l generalizing m with
  | nil => exact .inr h
  | cons a l ih =>
    rcases ih h with ⟨b, hb, hkey, hvalue⟩ | hinsert
    · exact .inl ⟨b, List.mem_cons_of_mem a hb, hkey, hvalue⟩
    · rcases of_get_insert hinsert with ⟨rfl, rfl⟩ | ⟨-, hold⟩
      · exact .inl ⟨a, List.mem_cons_self, rfl, rfl⟩
      · exact .inr hold

theorem total_foldl_insert {l : List A} {m : Map K V} (f : V → Nat) (hnodup : (l.map key).Nodup)
    (hnew : ∀ a ∈ l, m.get (key a) = none) :
    (l.foldl (fun m a => m.insert (key a) (value a)) m).total f =
      m.total f + (l.map fun a => f (value a)).sum := by
  induction l generalizing m with
  | nil => simp
  | cons a l ih =>
    rw [List.map_cons, List.nodup_cons] at hnodup
    have hfirst := total_insert m f (key a) (value a)
    rw [weightAt_none (hnew a List.mem_cons_self)] at hfirst
    have hrest : ∀ b ∈ l, (m.insert (key a) (value a)).get (key b) = none := by
      intro b hb
      have hne : key b ≠ key a := fun heq => hnodup.1 (List.mem_map.mpr ⟨b, hb, heq⟩)
      rw [get_insert_ne m _ hne]
      exact hnew b (List.mem_cons_of_mem a hb)
    rw [List.foldl_cons, ih hnodup.2 hrest, List.map_cons, List.sum_cons]
    omega

-- ---------------------------------------------------------------------------
-- Keys in order
-- ---------------------------------------------------------------------------

omit [DecidableEq K] in
theorem sort_inj [LinearOrder K] {s t : Finset K} (h : s.sort (· ≤ ·) = t.sort (· ≤ ·)) : s = t := by
  rw [← s.sort_toFinset (· ≤ ·), h, t.sort_toFinset (· ≤ ·)]

-- ---------------------------------------------------------------------------
-- Iteration
-- ---------------------------------------------------------------------------

/-- The order in which a loop visits the entries of each map. -/
structure Iteration (K V : Type) [DecidableEq K] where
  entries : Map K V → List (K × V)
  nodup : ∀ m, ((entries m).map Prod.fst).Nodup
  mem : ∀ m k v, (k, v) ∈ entries m ↔ m.get k = some v

theorem Iteration.mem_map_fst (it : Iteration K V) (m : Map K V) (k : K) :
    k ∈ (it.entries m).map Prod.fst ↔ k ∈ m.keys := by
  simp [mem_keys, ← it.mem m k]

theorem Iteration.entries_single (it : Iteration K V) (k : K) (v : V) :
    it.entries (empty.insert k v) = [(k, v)] := by
  have hmem (e : K × V) : e ∈ it.entries (empty.insert k v) ↔ e = (k, v) := by
    rw [it.mem, get_insert, get_empty]
    split
    · rename_i heq
      simp [Prod.ext_iff, heq, eq_comm]
    · rename_i hne
      simp [Prod.ext_iff, hne]
  have hnodup := (it.nodup (empty.insert k v)).of_map
  rw [← List.perm_singleton, List.perm_ext_iff_of_nodup hnodup (List.nodup_singleton _)]
  simpa using hmem

theorem Iteration.perm (it it' : Iteration K V) (m : Map K V) :
    ((it.entries m).map Prod.fst).Perm ((it'.entries m).map Prod.fst) := by
  rw [List.perm_ext_iff_of_nodup (it.nodup m) (it'.nodup m)]
  exact fun k => (it.mem_map_fst m k).trans (it'.mem_map_fst m k).symm

theorem Iteration.length_filter (it : Iteration K V) (m : Map K V) (p : V → Bool) :
    ((it.entries m).filter fun e => p e.2).length = m.count p := by
  have hnodup : (((it.entries m).filter fun e => p e.2).map Prod.fst).Nodup :=
    (List.filter_sublist.map Prod.fst).nodup (it.nodup m)
  have hmem : (((it.entries m).filter fun e => p e.2).map Prod.fst).toFinset = m.holders p := by
    ext k
    simp only [List.mem_toFinset, List.mem_map, List.mem_filter, mem_holders, Prod.exists]
    constructor
    · rintro ⟨j, v, ⟨hv, hp⟩, rfl⟩; exact ⟨v, (it.mem m j v).mp hv, hp⟩
    · rintro ⟨v, hv, hp⟩; exact ⟨k, v, ⟨(it.mem m k v).mpr hv, hp⟩, rfl⟩
  rw [count, ← hmem, List.toFinset_card_of_nodup hnodup, List.length_map]

theorem Iteration.filter_perm (it : Iteration K V) {m n : Map K V} (p : V → Bool)
    (h : ∀ k, (m.get k).filter p = (n.get k).filter p) :
    ((it.entries m).filter fun e => p e.2).Perm ((it.entries n).filter fun e => p e.2) := by
  have hnodup (m : Map K V) : ((it.entries m).filter fun e => p e.2).Nodup :=
    (List.Nodup.of_map Prod.fst (it.nodup m)).filter _
  rw [List.perm_ext_iff_of_nodup (hnodup m) (hnodup n)]
  intro e
  have hmem (m : Map K V) : (e ∈ (it.entries m).filter fun e => p e.2) ↔
      (m.get e.1).filter p = some e.2 := by
    rw [List.mem_filter, it.mem, Option.filter_eq_some_iff]
  rw [hmem, hmem, h]

theorem Iteration.sum_entries (it : Iteration K V) (m : Map K V) (f : V → Nat) :
    ((it.entries m).map fun e => f e.2).sum = m.total f := by
  have hkeys : ((it.entries m).map Prod.fst).toFinset = m.keys := by
    ext k
    rw [List.mem_toFinset, it.mem_map_fst]
  rw [total, ← hkeys, List.sum_toFinset _ (it.nodup m), List.map_map]
  refine congrArg List.sum (List.map_congr_left fun e he => ?_)
  exact (weightAt_some ((it.mem m e.1 e.2).mp he) f).symm

def Iteration.ascending [LinearOrder K] : Iteration K V where
  entries m := (m.keys.sort (· ≤ ·)).filterMap fun k => (m.get k).map fun v => (k, v)
  nodup m := by
    have hsub : (((m.keys.sort (· ≤ ·)).filterMap fun k =>
        (m.get k).map fun v => (k, v)).map Prod.fst).Sublist (m.keys.sort (· ≤ ·)) := by
      induction m.keys.sort (· ≤ ·) with
      | nil => simp
      | cons k ks ih =>
        cases hk : m.get k with
        | none => simpa [hk] using ih.cons k
        | some v => simpa [hk] using ih.cons_cons k
    exact hsub.nodup (Finset.sort_nodup _ _)
  mem m k v := by
    simp only [List.mem_filterMap, Finset.mem_sort, Option.map_eq_some_iff, Prod.mk.injEq]
    constructor
    · rintro ⟨j, -, w, hw, rfl, rfl⟩; exact hw
    · intro h; exact ⟨k, mem_keys.mpr ⟨v, h⟩, v, h, rfl, rfl⟩

theorem Iteration.map_fst_ascending [LinearOrder K] (m : Map K V) :
    (Iteration.ascending.entries m).map Prod.fst = m.keys.sort (· ≤ ·) := by
  have hval : ∀ k ∈ m.keys.sort (· ≤ ·), ∃ v, m.get k = some v := by
    intro k hk
    exact mem_keys.mp ((Finset.mem_sort (· ≤ ·)).mp hk)
  change ((m.keys.sort (· ≤ ·)).filterMap fun k => (m.get k).map fun v => (k, v)).map Prod.fst = _
  generalize m.keys.sort (· ≤ ·) = ks at hval
  induction ks with
  | nil => rfl
  | cons k ks ih =>
    obtain ⟨v, hv⟩ := hval k List.mem_cons_self
    have hrest := ih fun j hj => hval j (List.mem_cons_of_mem k hj)
    simp only [List.filterMap_cons, hv, Option.map_some, List.map_cons, hrest]

theorem Iteration.map_fst_filter_ascending [LinearOrder K] (m : Map K V) (p : K × V → Bool)
    (s : Finset K) (h : ∀ k, k ∈ s ↔ ∃ v, m.get k = some v ∧ p (k, v) = true) :
    ((Iteration.ascending.entries m).filter p).map Prod.fst = s.sort (· ≤ ·) := by
  have hsub : (((Iteration.ascending.entries m).filter p).map Prod.fst).Sublist
      (m.keys.sort (· ≤ ·)) := by
    rw [← map_fst_ascending]
    exact List.filter_sublist.map Prod.fst
  have hset : (((Iteration.ascending.entries m).filter p).map Prod.fst).toFinset = s := by
    ext k
    simp only [List.mem_toFinset, List.mem_map, List.mem_filter, Prod.exists, h]
    constructor
    · rintro ⟨j, v, ⟨hv, hp⟩, rfl⟩; exact ⟨v, (Iteration.ascending.mem m j v).mp hv, hp⟩
    · rintro ⟨v, hv, hp⟩; exact ⟨k, v, ⟨(Iteration.ascending.mem m k v).mpr hv, hp⟩, rfl⟩
  rw [← hset, eq_comm, List.toFinset_sort (· ≤ ·) (hsub.nodup (Finset.sort_nodup _ _))]
  exact (Finset.pairwise_sort m.keys (· ≤ ·)).sublist hsub

-- ---------------------------------------------------------------------------
-- Merging
-- ---------------------------------------------------------------------------

/-- Visit the entries of `other`; from the value `m` has there and the one seen, `f`
says what to write, if anything. -/
def mergeWith (it : Iteration K V) (f : K → Option V → V → Option V) (m other : Map K V) :
    Map K V :=
  (it.entries other).foldl
    (fun m e =>
      match f e.1 (m.get e.1) e.2 with
      | some v => m.insert e.1 v
      | none => m) m

theorem get_foldl_mergeWith {f : K → Option V → V → Option V} {l : List (K × V)}
    (hnodup : (l.map Prod.fst).Nodup) (m : Map K V) (k : K) :
    (l.foldl
      (fun m e =>
        match f e.1 (m.get e.1) e.2 with
        | some v => m.insert e.1 v
        | none => m) m).get k =
      (l.find? fun e => e.1 = k).elim (m.get k) fun e => (f k (m.get k) e.2).or (m.get k) := by
  induction l generalizing m with
  | nil => rfl
  | cons e l ih =>
    obtain ⟨j, w⟩ := e
    obtain ⟨hj, hrest⟩ := List.nodup_cons.mp hnodup
    rw [List.foldl_cons, ih hrest]
    by_cases hjk : j = k
    · subst hjk
      -- the key of the first entry does not come again
      have hnone : (l.find? fun e => e.1 = j) = none := by
        rw [List.find?_eq_none]
        intro e he heq
        exact hj (List.mem_map.mpr ⟨e, he, of_decide_eq_true heq⟩)
      simp only [hnone, List.find?_cons, decide_true, Option.elim_none, Option.elim_some]
      cases f j (m.get j) w <;> simp
    · have hkeep : (match f j (m.get j) w with
          | some v => m.insert j v
          | none => m).get k = m.get k := by
        cases f j (m.get j) w with
        | none => rfl
        | some v => exact get_insert_ne m v (Ne.symm hjk)
      simp only [List.find?_cons, hjk, decide_false, hkeep]

theorem get_mergeWith (it : Iteration K V) (f : K → Option V → V → Option V) (m other : Map K V)
    (k : K) :
    (mergeWith it f m other).get k =
      (other.get k).elim (m.get k) fun w => (f k (m.get k) w).or (m.get k) := by
  rw [mergeWith, get_foldl_mergeWith (it.nodup other)]
  cases hk : other.get k with
  | none =>
    have hnone : ((it.entries other).find? fun e => e.1 = k) = none := by
      rw [List.find?_eq_none]
      rintro ⟨j, w⟩ he heq
      obtain rfl := of_decide_eq_true heq
      rw [(it.mem other j w).mp he] at hk
      cases hk
    rw [hnone]
    rfl
  | some w =>
    have hmem := (it.mem other k w).mpr hk
    cases hfind : (it.entries other).find? fun e => e.1 = k with
    | none => exact absurd (decide_eq_true rfl) (List.find?_eq_none.mp hfind _ hmem)
    | some e =>
      obtain ⟨j, w'⟩ := e
      obtain rfl : j = k := by simpa using List.find?_some hfind
      have hw := (it.mem other j w').mp (List.mem_of_find?_eq_some hfind)
      obtain rfl := Option.some.inj (hk.symm.trans hw)
      rfl

end Map

end LiteVision.Lib
