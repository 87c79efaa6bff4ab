import LiteVision.Lib.History
import LiteVision.Lib.Ranking
import LiteVision.Storage.Artifact
import LiteVision.Words

/-!
# Eviction candidates

The candidates are the hot artifacts that nobody pinned, the longest unused first. A map
gives them to the sort in no particular order, so which of several that were last used in
the same second come first is open, but not when those that come were used.
-/

namespace LiteVision.Storage.ArtifactStore

open Lib

variable {s : ArtifactStore} {it : Map.Iteration (Bytes 32) Artifact} {count : Nat}

def evictable (artifact : Artifact) : Bool := !artifact.pinned && artifact.storageTier = .hot

/-- The tuples that are sorted: the id, the last access and the number of accesses. -/
def candidates (s : ArtifactStore) (it : Map.Iteration (Bytes 32) Artifact) :
    List (Bytes 32 × UInt64 × UInt64) :=
  ((it.entries s.artifacts).filter fun e => evictable e.2).map fun e =>
    (e.1, e.2.lastAccessed, e.2.accessCount)

def byLastAccess (a b : Bytes 32 × UInt64 × UInt64) : Bool := a.2.1 ≤ b.2.1

def getEvictionCandidates (s : ArtifactStore) (it : Map.Iteration (Bytes 32) Artifact)
    (count : Nat) : List (Bytes 32) :=
  (((s.candidates it).mergeSort byLastAccess).take count).map Prod.fst

def totalSize (s : ArtifactStore) (it : Map.Iteration (Bytes 32) Artifact) : UInt64 :=
  (it.entries s.artifacts).foldl (fun total e => total + e.2.size) 0

def lastAccess (s : ArtifactStore) (id : Bytes 32) : Option UInt64 :=
  (s.get id).map Artifact.lastAccessed

-- ---------------------------------------------------------------------------
-- The candidates
-- ---------------------------------------------------------------------------

theorem byLastAccess_trans (a b c : Bytes 32 × UInt64 × UInt64) (hab : byLastAccess a b)
    (hbc : byLastAccess b c) : byLastAccess a c := by
  simp only [byLastAccess, decide_eq_true_eq] at *
  exact UInt64.le_trans hab hbc

theorem byLastAccess_total (a b : Bytes 32 × UInt64 × UInt64) :
    byLastAccess a b || byLastAccess b a := by
  simp only [byLastAccess, Bool.or_eq_true, decide_eq_true_eq]
  exact UInt64.le_total _ _

theorem mem_candidates {e : Bytes 32 × UInt64 × UInt64} :
    e ∈ s.candidates it ↔ ∃ artifact, s.get e.1 = some artifact ∧ evictable artifact ∧
      e.2 = (artifact.lastAccessed, artifact.accessCount) := by
  simp only [candidates, List.mem_map, List.mem_filter, Prod.exists]
  constructor
  · rintro ⟨id, artifact, ⟨hmem, hevictable⟩, rfl⟩
    exact ⟨artifact, (it.mem _ _ _).mp hmem, hevictable, rfl⟩
  · rintro ⟨artifact, hget, hevictable, he⟩
    exact ⟨e.1, artifact, ⟨(it.mem _ _ _).mpr hget, hevictable⟩, Prod.ext rfl he.symm⟩

theorem nodup_candidates : ((s.candidates it).map Prod.fst).Nodup := by
  have hsub : ((it.entries s.artifacts).filter fun e => evictable e.2).Sublist
      (it.entries s.artifacts) := List.filter_sublist
  simp only [candidates, List.map_map]
  exact (hsub.map Prod.fst).nodup (it.nodup s.artifacts)

theorem candidates_perm (it it' : Map.Iteration (Bytes 32) Artifact) :
    (s.candidates it).Perm (s.candidates it') := by
  rw [List.perm_ext_iff_of_nodup (List.Nodup.of_map _ nodup_candidates)
    (List.Nodup.of_map _ nodup_candidates)]
  intro e
  rw [mem_candidates, mem_candidates]

theorem sorted_candidates (s : ArtifactStore) (it : Map.Iteration (Bytes 32) Artifact) :
    ((s.candidates it).mergeSort byLastAccess).Pairwise fun a b => byLastAccess a b :=
  List.pairwise_mergeSort byLastAccess_trans byLastAccess_total _

theorem mem_sorted {e : Bytes 32 × UInt64 × UInt64} :
    e ∈ (s.candidates it).mergeSort byLastAccess ↔ e ∈ s.candidates it :=
  (List.mergeSort_perm _ _).mem_iff

theorem lastAccess_of_mem {e : Bytes 32 × UInt64 × UInt64}
    (he : e ∈ (s.candidates it).mergeSort byLastAccess) : s.lastAccess e.1 = some e.2.1 := by
  obtain ⟨artifact, hget, -, htuple⟩ := mem_candidates.mp (mem_sorted.mp he)
  rw [lastAccess, hget, htuple]
  rfl

theorem mem_getEvictionCandidates {id : Bytes 32} (h : id ∈ s.getEvictionCandidates it count) :
    ∃ artifact, s.get id = some artifact ∧ evictable artifact := by
  obtain ⟨e, he, rfl⟩ := List.mem_map.mp h
  obtain ⟨artifact, hget, hevictable, -⟩ :=
    mem_candidates.mp (mem_sorted.mp (List.mem_of_mem_take he))
  exact ⟨artifact, hget, hevictable⟩

theorem nodup_getEvictionCandidates : (s.getEvictionCandidates it count).Nodup := by
  have hsorted : (((s.candidates it).mergeSort byLastAccess).map Prod.fst).Nodup :=
    ((List.mergeSort_perm _ _).map Prod.fst).nodup_iff.mpr nodup_candidates
  exact ((List.take_sublist _ _).map Prod.fst).nodup hsorted

theorem length_getEvictionCandidates :
    (s.getEvictionCandidates it count).length = min count (s.artifacts.count evictable) := by
  have hlength : (s.candidates it).length = s.artifacts.count evictable := by
    rw [candidates, List.length_map, it.length_filter]
  rw [getEvictionCandidates, List.length_map, List.length_take, List.length_mergeSort, hlength]

theorem lastAccess_le {id other : Bytes 32} {artifact : Artifact}
    (hid : id ∈ s.getEvictionCandidates it count) (hother : s.get other = some artifact)
    (hevictable : evictable artifact) (hnot : other ∉ s.getEvictionCandidates it count) :
    ∃ t, s.lastAccess id = some t ∧ t ≤ artifact.lastAccessed := by
  obtain ⟨e, he, rfl⟩ := List.mem_map.mp hid
  let rest : Bytes 32 × UInt64 × UInt64 := (other, artifact.lastAccessed, artifact.accessCount)
  have hrest : rest ∈ (s.candidates it).mergeSort byLastAccess :=
    mem_sorted.mpr (mem_candidates.mpr ⟨artifact, hother, hevictable, rfl⟩)
  refine ⟨e.2.1, lastAccess_of_mem (List.mem_of_mem_take he), ?_⟩
  have hsplit := List.take_append_drop count ((s.candidates it).mergeSort byLastAccess)
  have hsorted := s.sorted_candidates it
  rw [← hsplit] at hrest hsorted
  rcases List.mem_append.mp hrest with hfront | hback
  · exact absurd (List.mem_map_of_mem hfront) hnot
  · have hle := (List.pairwise_append.mp hsorted).2.2 e he rest hback
    simpa [byLastAccess] using hle

theorem map_lastAccess (s : ArtifactStore) (it : Map.Iteration (Bytes 32) Artifact) (count : Nat) :
    (s.getEvictionCandidates it count).map s.lastAccess =
      ((((s.candidates it).mergeSort byLastAccess).map fun e => e.2.1).take count).map some := by
  rw [getEvictionCandidates, List.map_map, ← List.map_take, List.map_map]
  apply List.map_congr_left
  intro e he
  exact lastAccess_of_mem (List.mem_of_mem_take he)

theorem sorted_times (s : ArtifactStore) (it : Map.Iteration (Bytes 32) Artifact) :
    (((s.candidates it).mergeSort byLastAccess).map fun e => e.2.1).Pairwise (· ≤ ·) := by
  rw [List.pairwise_map]
  refine (s.sorted_candidates it).imp fun h => ?_
  simpa [byLastAccess] using h

theorem map_lastAccess_eq (it it' : Map.Iteration (Bytes 32) Artifact) (count : Nat) :
    (s.getEvictionCandidates it count).map s.lastAccess =
      (s.getEvictionCandidates it' count).map s.lastAccess := by
  have hperm : (((s.candidates it).mergeSort byLastAccess).map fun e => e.2.1).Perm
      (((s.candidates it').mergeSort byLastAccess).map fun e => e.2.1) := by
    apply List.Perm.map
    exact (List.mergeSort_perm _ _).trans
      ((candidates_perm it it').trans (List.mergeSort_perm _ _).symm)
  have heq := hperm.eq_of_pairwise (fun a b _ _ => UInt64.le_antisymm) (s.sorted_times it)
    (s.sorted_times it')
  rw [map_lastAccess, map_lastAccess, heq]

-- ---------------------------------------------------------------------------
-- Evicting them
-- ---------------------------------------------------------------------------

theorem artifacts_evict (s : ArtifactStore) (id : Bytes 32) :
    (s.step (.evict id)).artifacts = s.artifacts.erase id := by
  simp only [step, evict]
  cases hget : s.artifacts.get id with
  | none => exact (Map.erase_eq_self hget).symm
  | some artifact => rfl

theorem get_evictions (s : ArtifactStore) (ids : List (Bytes 32)) (j : Bytes 32) :
    (Trace.exec step s (ids.map .evict)).get j = if j ∈ ids then none else s.get j := by
  induction ids generalizing s with
  | nil => simp
  | cons id ids ih =>
    rw [List.map_cons, Trace.exec_cons, ih, get, artifacts_evict, Map.get_erase]
    by_cases hj : j = id <;> simp [hj, get]

theorem total_evictions (s : ArtifactStore) {ids : List (Bytes 32)} (hnodup : ids.Nodup)
    (f : Artifact → Nat) :
    (Trace.exec step s (ids.map .evict)).artifacts.total f +
      (ids.map (s.artifacts.weightAt f)).sum = s.artifacts.total f := by
  induction ids generalizing s with
  | nil => simp
  | cons id ids ih =>
    obtain ⟨hid, hnodup⟩ := List.nodup_cons.mp hnodup
    have herase := Map.total_erase s.artifacts f id
    have hrest : ids.map ((s.step (.evict id)).artifacts.weightAt f) =
        ids.map (s.artifacts.weightAt f) := by
      apply List.map_congr_left
      intro j hj
      have hne : j ≠ id := fun h => hid (h ▸ hj)
      rw [artifacts_evict, Map.weightAt, Map.get_erase_ne _ hne, Map.weightAt]
    have htotal := ih (s.step (.evict id)) hnodup
    rw [hrest, artifacts_evict] at htotal
    rw [List.map_cons, Trace.exec_cons, List.map_cons, List.sum_cons]
    omega

theorem totalSize_eq (s : ArtifactStore) (it : Map.Iteration (Bytes 32) Artifact) :
    s.totalSize it = .ofNat (s.artifacts.total fun artifact => artifact.size.toNat) := by
  rw [← UInt64.toNat_inj, totalSize, toNat_foldl_add, UInt64.toNat_ofNat',
    it.sum_entries s.artifacts fun artifact => artifact.size.toNat]
  simp

/-- The candidates are distinct hot artifacts that are not pinned, as many as were asked for
or all there are, from the longest unused on, and used at the same times whatever the order
of the map. Evicting them all succeeds, leaves what could have been a candidate only where
it was used no earlier, changes nothing else and takes their sizes out of the total. -/
theorem evict_candidates (s : ArtifactStore) (it : Map.Iteration (Bytes 32) Artifact)
    (count : Nat) :
    let ids := s.getEvictionCandidates it count
    let left := Trace.exec step s (ids.map .evict)
    ids.Nodup ∧ ids.length = min count (s.artifacts.count evictable) ∧
    (∃ times : List UInt64, times.Pairwise (· ≤ ·) ∧
      ∀ it', (s.getEvictionCandidates it' count).map s.lastAccess = times.map some) ∧
    (∀ before id after, ids = before ++ id :: after → ∃ artifact, s.get id = some artifact ∧
      evictable artifact ∧
      ((Trace.exec step s (before.map .evict)).evict id).1.toOption = some artifact) ∧
    (∀ j, left.get j = if j ∈ ids then none else s.get j) ∧
    (∀ other artifact, left.get other = some artifact → evictable artifact →
      ∀ id ∈ ids, ∃ t, s.lastAccess id = some t ∧ t ≤ artifact.lastAccessed) ∧
    left.totalSize it = s.totalSize it -
      .ofNat (ids.map (s.artifacts.weightAt fun artifact => artifact.size.toNat)).sum := by
  intro ids left
  have hnodup : ids.Nodup := nodup_getEvictionCandidates
  have hleft : ∀ j, left.get j = if j ∈ ids then none else s.get j := s.get_evictions ids
  refine ⟨hnodup, length_getEvictionCandidates, ?_, ?_, hleft, ?_, ?_⟩
  · refine ⟨(((s.candidates it).mergeSort byLastAccess).map fun e => e.2.1).take count, ?_, ?_⟩
    · exact (s.sorted_times it).sublist (List.take_sublist _ _)
    · intro it'
      rw [map_lastAccess_eq it' it, map_lastAccess]
  · intro before id after hids
    have hin : id ∈ ids := hids ▸ List.mem_append_right before List.mem_cons_self
    obtain ⟨artifact, hget, hevictable⟩ := mem_getEvictionCandidates hin
    have hfront : id ∉ before := by
      intro hbefore
      rw [hids] at hnodup
      exact (List.nodup_append.mp hnodup).2.2 id hbefore id List.mem_cons_self rfl
    have hstill : (Trace.exec step s (before.map .evict)).artifacts.get id = some artifact := by
      have hafter := s.get_evictions before id
      rwa [if_neg hfront, hget] at hafter
    refine ⟨artifact, hget, hevictable, ?_⟩
    rw [evict, hstill]
    rfl
  · intro other artifact hother hevictable id hid
    rw [hleft] at hother
    split at hother
    · cases hother
    · rename_i hnot
      exact lastAccess_le hid hother hevictable hnot
  · rw [totalSize_eq, totalSize_eq,
      ← s.total_evictions hnodup fun artifact => artifact.size.toNat, UInt64.ofNat_add,
      UInt64.add_sub_cancel]

end LiteVision.Storage.ArtifactStore
