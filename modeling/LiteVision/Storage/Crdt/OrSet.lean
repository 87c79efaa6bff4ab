import LiteVision.Storage.Crdt

/-!
# Elements and their ids

What the set answers about an element depends on the ids recorded for it and on
its tombstones. A merge skips the ids of every element that has a tombstone here,
and a remove buries one id only, so neither does what it is for in every run.
-/

namespace LiteVision.Storage

open Lib Replication
open Map (Iteration)

namespace ORSet

variable {T : Type} [LinearOrder T]

def ids (s : ORSet T) (x : T) : Finset OperationId := (s.elements.get x).getD ∅

def buried (s : ORSet T) (x : T) : Finset OperationId := (s.tombstones.get x).getD ∅

variable {s a b : ORSet T} {x y : T}

theorem anyActive_iff {ids tombstones : Finset OperationId} :
    anyActive ids tombstones = true ↔ ∃ id ∈ ids, id ∉ tombstones :=
  decide_eq_true_iff

theorem contains_iff : s.contains x = true ↔ ∃ id ∈ s.ids x, id ∉ s.buried x := by
  unfold contains ids buried
  cases s.elements.get x with
  | none => simp
  | some ids =>
    cases s.tombstones.get x with
    | none => exact decide_eq_true_iff.trans (by simp [Finset.Nonempty])
    | some tombstones => simp [anyActive_iff]

theorem not_contains_iff : s.contains x = false ↔ ∀ id ∈ s.ids x, id ∈ s.buried x := by
  rw [← Bool.not_eq_true, contains_iff]
  push Not
  rfl

theorem contains_congr (hids : a.ids x = b.ids x) (hburied : a.buried x = b.buried x) :
    a.contains x = b.contains x := by
  rw [Bool.eq_iff_iff, contains_iff, contains_iff, hids, hburied]

theorem get_eq (s : ORSet T) :
    s.get = (s.elements.keys.filter fun x => s.contains x = true).sort (· ≤ ·) := by
  refine Iteration.map_fst_filter_ascending _ _ _ fun x => ?_
  rw [Finset.mem_filter, Map.mem_keys]
  constructor
  · rintro ⟨⟨ids, hx⟩, hin⟩
    refine ⟨ids, hx, ?_⟩
    simp only [contains, hx] at hin
    cases htomb : s.tombstones.get x with
    | none => simpa [htomb] using hin
    | some tombstones => simpa [htomb] using hin
  · rintro ⟨ids, hx, hin⟩
    refine ⟨⟨ids, hx⟩, ?_⟩
    simp only [contains, hx]
    cases htomb : s.tombstones.get x with
    | none => simpa [htomb] using hin
    | some tombstones => simpa [htomb] using hin

theorem mem_keys_of_contains (h : s.contains x = true) : x ∈ s.elements.keys := by
  cases hx : s.elements.get x with
  | none => simp [contains, hx] at h
  | some ids => exact Map.mem_keys.mpr ⟨ids, hx⟩

theorem mem_get : x ∈ s.get ↔ s.contains x = true := by
  rw [get_eq, Finset.mem_sort, Finset.mem_filter, and_iff_right_iff_imp]
  exact mem_keys_of_contains

theorem get_congr (h : ∀ x, a.contains x = b.contains x) : a.get = b.get := by
  rw [get_eq, get_eq]
  refine congrArg (fun f => Finset.sort f (· ≤ ·)) (Finset.ext fun x => ?_)
  rw [Finset.mem_filter, Finset.mem_filter, h]
  constructor
  · rintro ⟨-, hx⟩
    exact ⟨mem_keys_of_contains hx, hx⟩
  · rintro ⟨-, hx⟩
    exact ⟨mem_keys_of_contains ((h x).trans hx), hx⟩

-- ---------------------------------------------------------------------------
-- Ids and tombstones after each call
-- ---------------------------------------------------------------------------

@[simp] theorem ids_new (r : UInt64) (x : T) : (new r : ORSet T).ids x = ∅ := rfl

@[simp] theorem buried_new (r : UInt64) (x : T) : (new r : ORSet T).buried x = ∅ := rfl

theorem ids_add (s : ORSet T) (x y : T) :
    (s.add x).ids y = if y = x then insert s.nextOpId.1 (s.ids x) else s.ids y := by
  simp only [ids, add, nextOpId, Map.get_insert]
  split <;> rfl

@[simp] theorem buried_add (s : ORSet T) (x y : T) : (s.add x).buried y = s.buried y := rfl

theorem remove_cases (s : ORSet T) (x : T) :
    (∃ h : (s.ids x).Nonempty, s.remove x = (true, { s with
      tombstones := s.tombstones.insert x (insert ((s.ids x).max' h) (s.buried x)) })) ∨
    (s.ids x = ∅ ∧ s.remove x = (false, s)) := by
  cases hx : s.elements.get x with
  | none => exact .inr ⟨by simp [ids, hx], by simp [remove, hx]⟩
  | some ids =>
    have hids : s.ids x = ids := by simp [ORSet.ids, hx]
    subst hids
    by_cases h : (s.ids x).Nonempty
    · exact .inl ⟨h, by simp [remove, hx, h, buried]⟩
    · exact .inr ⟨Finset.not_nonempty_iff_eq_empty.mp h, by simp [remove, hx, h]⟩

@[simp] theorem ids_remove (s : ORSet T) (x y : T) : (s.remove x).2.ids y = s.ids y := by
  rcases s.remove_cases x with ⟨h, heq⟩ | ⟨-, heq⟩
  · rw [heq]
    rfl
  · rw [heq]

theorem buried_remove_of_ne (s : ORSet T) (h : y ≠ x) :
    (s.remove x).2.buried y = s.buried y := by
  rcases s.remove_cases x with ⟨hne, heq⟩ | ⟨-, heq⟩
  · rw [heq]
    simp only [buried, Map.get_insert_ne _ _ h]
  · rw [heq]

theorem buried_remove_self (h : (s.ids x).Nonempty) :
    (s.remove x).2.buried x = insert ((s.ids x).max' h) (s.buried x) := by
  rcases s.remove_cases x with ⟨hne, heq⟩ | ⟨hempty, -⟩
  · rw [heq]
    simp only [buried, Map.get_insert_self, Option.getD_some]
  · exact absurd hempty h.ne_empty

theorem buried_subset_remove (s : ORSet T) (x y : T) : s.buried y ⊆ (s.remove x).2.buried y := by
  by_cases hy : y = x
  · subst hy
    rcases s.remove_cases y with ⟨h, -⟩ | ⟨-, heq⟩
    · rw [buried_remove_self h]
      exact Finset.subset_insert _ _
    · rw [heq]
  · rw [buried_remove_of_ne s hy]

theorem mergeIds_eq (s : ORSet T) (x : T) (selfIds : Option (Finset OperationId))
    (otherIds : Finset OperationId) :
    mergeIds s.tombstones x selfIds otherIds =
      if s.buried x = ∅ then some (selfIds.getD ∅ ∪ otherIds) else none := by
  unfold buried
  cases hx : s.tombstones.get x with
  | none => simp [mergeIds, hx]
  | some t =>
    by_cases ht : t = ∅
    · simp [mergeIds, hx, ht]
    · simp [mergeIds, hx, ht, Finset.nonempty_iff_ne_empty.mpr ht]

theorem ids_merge (a b : ORSet T) (x : T) :
    (a.merge b).ids x = if a.buried x = ∅ then a.ids x ∪ b.ids x else a.ids x := by
  simp only [ids, merge, Map.get_mergeWith, mergeIds_eq]
  cases b.elements.get x with
  | none => simp
  | some otherIds =>
    simp only [Option.elim_some, Option.getD_some]
    split <;> simp

theorem buried_merge (a b : ORSet T) (x : T) :
    (a.merge b).buried x = a.buried x ∪ b.buried x := by
  simp only [buried, merge, Map.get_mergeWith]
  cases b.tombstones.get x <;> simp

-- ---------------------------------------------------------------------------
-- Merging both ways
-- ---------------------------------------------------------------------------

/-- `a` holds an id of `x` that neither set has buried. -/
def Survives (a b : ORSet T) (x : T) : Prop := ∃ id ∈ a.ids x, id ∉ a.buried x ∧ id ∉ b.buried x

/-- If an id of `x` survives in one of the sets only, the other has no tombstone for `x`. -/
def MergesAlike (a b : ORSet T) (x : T) : Prop :=
  (Survives a b x ∧ ¬ Survives b a x → b.buried x = ∅) ∧
    (Survives b a x ∧ ¬ Survives a b x → a.buried x = ∅)

instance (a b : ORSet T) (x : T) : Decidable (Survives a b x) :=
  inferInstanceAs (Decidable (∃ id ∈ a.ids x, id ∉ a.buried x ∧ id ∉ b.buried x))

instance (a b : ORSet T) (x : T) : Decidable (MergesAlike a b x) :=
  inferInstanceAs (Decidable (_ ∧ _))

def Converge (a b : ORSet T) : Prop :=
  (a.merge b).get = (b.merge a).get ∧ ∀ x, (a.merge b).contains x = (b.merge a).contains x

theorem contains_merge (a b : ORSet T) (x : T) :
    (a.merge b).contains x = true ↔
      Survives a b x ∨ (a.buried x = ∅ ∧ Survives b a x) := by
  rw [contains_iff, ids_merge, buried_merge]
  constructor
  · rintro ⟨id, hin, hlive⟩
    rw [Finset.mem_union, not_or] at hlive
    split at hin
    · rename_i hempty
      rcases Finset.mem_union.mp hin with ha | hb
      · exact .inl ⟨id, ha, hlive⟩
      · exact .inr ⟨hempty, id, hb, hlive.symm⟩
    · exact .inl ⟨id, hin, hlive⟩
  · rintro (⟨id, hin, ha, hb⟩ | ⟨hempty, id, hin, hb, ha⟩)
    · refine ⟨id, ?_, by simp [ha, hb]⟩
      split
      · exact Finset.mem_union_left _ hin
      · exact hin
    · refine ⟨id, ?_, by simp [ha, hb]⟩
      rw [if_pos hempty]
      exact Finset.mem_union_right _ hin

theorem contains_merge_iff (a b : ORSet T) (x : T) :
    (a.merge b).contains x = (b.merge a).contains x ↔ MergesAlike a b x := by
  rw [Bool.eq_iff_iff, contains_merge, contains_merge, MergesAlike]
  tauto

theorem converge_iff (a b : ORSet T) : Converge a b ↔ ∀ x, MergesAlike a b x := by
  constructor
  · rintro ⟨-, hcontains⟩ x
    exact (contains_merge_iff a b x).mp (hcontains x)
  · intro h
    have hcontains := fun x => (contains_merge_iff a b x).mpr (h x)
    exact ⟨get_congr hcontains, hcontains⟩

variable {ι : Type} [DecidableEq ι]

/-- Two replicas of a run converge exactly if no id survives where the other replica
has a tombstone for its element. -/
theorem or_set_converges_iff (ids : ι → UInt64) (ops : List (Op ι (Call T))) (i j : ι) :
    let net := object.run (fun i => (new (ids i) : ORSet T)) ops
    Converge (net.now i).state (net.now j).state ↔
      ∀ x, MergesAlike (net.now i).state (net.now j).state x :=
  converge_iff _ _

/-- One replica adds an element and removes it, another one adds it. -/
theorem or_set_convergence_fails :
    let ids : Bool → UInt64 := fun i => if i then 1 else 2
    let net := object.run (fun i => (new (ids i) : ORSet UInt64))
      [.update true (.add 42), .update true (.remove 42), .update false (.add 42)]
    Function.Injective ids ∧ ¬ Converge (net.now true).state (net.now false).state := by
  intro ids net
  refine ⟨by decide, fun h => ?_⟩
  have halike := (converge_iff _ _).mp h 42
  revert halike
  decide

end ORSet

end LiteVision.Storage
