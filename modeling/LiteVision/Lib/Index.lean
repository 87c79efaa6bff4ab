import LiteVision.Lib.Map

/-!
# A map with an index

Next to a map a program keeps, for a property `f` of the values, the keys whose value has
it, in a list for each. `Indexes` says that these lists are in step with the map. A key that
is new may be appended to the list of its value; one that is there may not.
-/

namespace LiteVision.Lib

namespace Map

variable {K V H : Type} [DecidableEq H]

def bucket (index : Map H (List K)) (h : H) : List K := (index.get h).getD []

@[simp] theorem bucket_empty (h : H) : (empty : Map H (List K)).bucket h = [] := by
  rw [bucket, get_empty]
  rfl

theorem bucket_insert (index : Map H (List K)) (h j : H) (l : List K) :
    (index.insert h l).bucket j = if j = h then l else index.bucket j := by
  rw [bucket, get_insert]
  split <;> rfl

theorem bucket_filter (index : Map H (List K)) (h j : H) (p : K → Bool) :
    (index.modify h (List.filter p)).bucket j =
      if j = h then (index.bucket h).filter p else index.bucket j := by
  rw [bucket, get_modify]
  split
  · rw [bucket]
    cases index.get h <;> rfl
  · rfl

variable [DecidableEq K] (f : V → H) {index : Map H (List K)} {m : Map K V} {k : K} {v : V}

/-- Every key is listed once under its value, and nowhere else. -/
structure Indexes (index : Map H (List K)) (m : Map K V) : Prop where
  nodup : ∀ h, (index.bucket h).Nodup
  mem : ∀ h k, k ∈ index.bucket h ↔ ∃ v, m.get k = some v ∧ f v = h

/-- The values of the map with `f v = h`, each of them once. -/
structure Finds (m : Map K V) (h : H) (found : List V) : Prop where
  once : found.Nodup
  mem : ∀ v, v ∈ found ↔ (∃ k, m.get k = some v) ∧ f v = h

variable {f}

theorem indexes_empty : Indexes f empty (empty : Map K V) :=
  ⟨fun h => by simp, fun h k => by simp⟩

theorem Indexes.insert (hindex : Indexes f index m) (hnew : m.get k = none) (v : V) :
    Indexes f (index.insert (f v) (index.bucket (f v) ++ [k])) (m.insert k v) := by
  have hunlisted : ∀ h, k ∉ index.bucket h := by
    intro h hk
    obtain ⟨w, hw, -⟩ := (hindex.mem h k).mp hk
    cases hnew.symm.trans hw
  constructor
  case nodup =>
    intro h
    rw [bucket_insert]
    split
    · rw [← List.concat_eq_append]
      exact (hindex.nodup (f v)).concat (hunlisted (f v))
    · exact hindex.nodup h
  case mem =>
    intro h j
    rw [bucket_insert, get_insert]
    by_cases hj : j = k
    · subst hj
      by_cases hh : h = f v
      · simp [hh]
      · simp [hh, hunlisted h, Ne.symm hh]
    · by_cases hh : h = f v
      · simp [hh, hj, hindex.mem]
      · simp [hh, hj, hindex.mem]

theorem Indexes.erase (hindex : Indexes f index m) (hk : m.get k = some v) :
    Indexes f (index.modify (f v) (List.filter (· ≠ k))) (m.erase k) := by
  constructor
  case nodup =>
    intro h
    rw [bucket_filter]
    split
    · exact (hindex.nodup (f v)).filter _
    · exact hindex.nodup h
  case mem =>
    intro h j
    rw [bucket_filter, get_erase]
    by_cases hj : j = k
    · subst hj
      by_cases hh : h = f v
      · simp [hh]
      · simp [hh, hindex.mem, hk, Ne.symm hh]
    · by_cases hh : h = f v
      · simp [hh, hj, hindex.mem]
      · simp [hh, hj, hindex.mem]

theorem Indexes.change (hindex : Indexes f index m) {old new : V} (hk : m.get k = some old)
    (hf : f new = f old) : Indexes f index (m.insert k new) := by
  refine ⟨hindex.nodup, fun h j => ?_⟩
  rw [hindex.mem, get_insert]
  by_cases hj : j = k
  · subst hj
    simp [hk, hf]
  · simp [hj]

theorem Indexes.finds (hindex : Indexes f index m)
    (hkeys : ∀ j k v, m.get j = some v → m.get k = some v → j = k) (h : H) :
    Finds f m h ((index.bucket h).filterMap m.get) := by
  constructor
  case once => exact (hindex.nodup h).filterMap fun j k v => hkeys j k v
  case mem =>
    intro v
    rw [List.mem_filterMap]
    constructor
    · rintro ⟨k, hk, hv⟩
      obtain ⟨w, hw, hfw⟩ := (hindex.mem h k).mp hk
      obtain rfl := Option.some.inj (hv.symm.trans hw)
      exact ⟨⟨k, hv⟩, hfw⟩
    · rintro ⟨⟨k, hv⟩, hfv⟩
      exact ⟨k, (hindex.mem h k).mpr ⟨v, hv, hfv⟩, hv⟩

theorem Indexes.get_of_finds (hindex : Indexes f index m)
    (hfinds : ∀ h, Finds f (m.insert k v) h
      (((index.insert (f v) (index.bucket (f v) ++ [k])).bucket h).filterMap (m.insert k v).get)) :
    m.get k = none := by
  cases hk : m.get k with
  | none => rfl
  | some old =>
    have hlisted : k ∈ index.bucket (f old) := (hindex.mem (f old) k).mpr ⟨old, hk, rfl⟩
    have hfound : v ∈ (index.bucket (f old)).filterMap (m.insert k v).get :=
      List.mem_filterMap.mpr ⟨k, hlisted, get_insert_self m k v⟩
    by_cases hsame : f old = f v
    · have honce := (hfinds (f v)).once
      rw [bucket_insert, if_pos rfl, List.filterMap_append, List.nodup_append] at honce
      have hlast : v ∈ [k].filterMap (m.insert k v).get := by simp
      exact absurd rfl (honce.2.2 v (hsame ▸ hfound) v hlast)
    · have hmem := (hfinds (f old)).mem v
      rw [bucket_insert, if_neg hsame] at hmem
      exact absurd (hmem.mp hfound).2.symm hsame

end Map

end LiteVision.Lib
