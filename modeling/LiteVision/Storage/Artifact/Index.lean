import LiteVision.Lib.Trace
import LiteVision.Storage.Artifact

/-!
# What is found by its hash

Storing appends the id to the list of its hash, and only evicting takes it out. So the
artifacts that are found by a hash are the stored ones in every state of a run exactly if
no id is stored while it is there.
-/

namespace LiteVision.Storage.ArtifactStore

open Lib

variable {s : ArtifactStore}

/-- By every hash the stored artifacts with it are found, each of them once. -/
def Exact (s : ArtifactStore) : Prop :=
  ∀ contentHash, Map.Finds Artifact.contentHash s.artifacts contentHash (s.findByHash contentHash)

def Call.stored : Call → Option (Bytes 32)
  | .store id .. => some id
  | .storeWithMetadata id .. => some id
  | _ => none

/-- A call that stores an id stores one that is not there. -/
def Fresh (s : ArtifactStore) (call : Call) : Prop :=
  ∀ id, call.stored = some id → s.artifacts.get id = none

structure Indexed (s : ArtifactStore) : Prop where
  keyed : ∀ id artifact, s.artifacts.get id = some artifact → artifact.id = id
  index : Map.Indexes Artifact.contentHash s.index s.artifacts

theorem findByHash_eq (s : ArtifactStore) (contentHash : Bytes 32) :
    s.findByHash contentHash = (s.index.bucket contentHash).filterMap s.artifacts.get := by
  rw [findByHash, Map.bucket]
  cases s.index.get contentHash <;> rfl

-- ---------------------------------------------------------------------------
-- One call
-- ---------------------------------------------------------------------------

theorem changeArtifact_cases (s : ArtifactStore) (id : Bytes 32) (change : Artifact → Artifact)
    (hchange : ∀ old, (change old).id = old.id ∧ (change old).contentHash = old.contentHash) :
    (∃ j old new, s.artifacts.get j = some old ∧ new.id = old.id ∧
      new.contentHash = old.contentHash ∧
      (s.changeArtifact id change).2.artifacts = s.artifacts.insert j new ∧
      (s.changeArtifact id change).2.index = s.index) ∨
    (s.changeArtifact id change).2 = s := by
  unfold changeArtifact
  cases hget : s.artifacts.get id with
  | none => exact .inr rfl
  | some old =>
    obtain ⟨hid, hhash⟩ := hchange old
    exact .inl ⟨id, old, change old, hget, hid, hhash, rfl, rfl⟩

theorem step_cases (s : ArtifactStore) (call : Call) :
    (∃ artifact : Artifact, call.stored = some artifact.id ∧
      (s.step call).artifacts = s.artifacts.insert artifact.id artifact ∧
      (s.step call).index = s.index.insert artifact.contentHash
        (s.index.bucket artifact.contentHash ++ [artifact.id])) ∨
    call.stored = none ∧
      ((∃ id old new, s.artifacts.get id = some old ∧ new.id = old.id ∧
        new.contentHash = old.contentHash ∧
        (s.step call).artifacts = s.artifacts.insert id new ∧ (s.step call).index = s.index) ∨
      (∃ id artifact, s.artifacts.get id = some artifact ∧
        (s.step call).artifacts = s.artifacts.erase id ∧
        (s.step call).index = s.index.modify artifact.contentHash (List.filter (· ≠ id))) ∨
      s.step call = s) := by
  cases call with
  | store id contentHash size now => exact .inl ⟨_, rfl, rfl, rfl⟩
  | storeWithMetadata id contentHash size metadata now => exact .inl ⟨_, rfl, rfl, rfl⟩
  | pin id =>
    have hcases := s.changeArtifact_cases id (fun artifact => { artifact with pinned := true })
      fun _ => ⟨rfl, rfl⟩
    exact .inr ⟨rfl, hcases.imp_right .inr⟩
  | unpin id =>
    have hcases := s.changeArtifact_cases id (fun artifact => { artifact with pinned := false })
      fun _ => ⟨rfl, rfl⟩
    exact .inr ⟨rfl, hcases.imp_right .inr⟩
  | setStorageTier id tier =>
    have hcases := s.changeArtifact_cases id (fun artifact => { artifact with storageTier := tier })
      fun _ => ⟨rfl, rfl⟩
    exact .inr ⟨rfl, hcases.imp_right .inr⟩
  | evict id =>
    refine .inr ⟨rfl, .inr ?_⟩
    simp only [step, evict]
    cases hget : s.artifacts.get id with
    | none => exact .inr rfl
    | some artifact => exact .inl ⟨id, artifact, hget, rfl, rfl⟩

theorem indexed_new : Indexed new where
  keyed id _ h := nomatch (Map.get_empty id).symm.trans h
  index := Map.indexes_empty

theorem Indexed.step (hs : Indexed s) {call : Call} (hfresh : Fresh s call) :
    Indexed (s.step call) := by
  rcases s.step_cases call with ⟨artifact, hid, hartifacts, hindex⟩ |
    ⟨-, ⟨id, old, new, hold, hnew, hhash, hartifacts, hindex⟩ |
      ⟨id, artifact, hget, hartifacts, hindex⟩ | heq⟩
  · constructor
    case keyed =>
      intro j found hj
      rw [hartifacts] at hj
      rcases Map.of_get_insert hj with ⟨rfl, rfl⟩ | ⟨-, hold⟩
      · rfl
      · exact hs.keyed j found hold
    case index =>
      rw [hartifacts, hindex]
      exact hs.index.insert (hfresh artifact.id hid) artifact
  · constructor
    case keyed =>
      intro j found hj
      rw [hartifacts] at hj
      rcases Map.of_get_insert hj with ⟨rfl, rfl⟩ | ⟨-, hfound⟩
      · exact hnew.trans (hs.keyed j old hold)
      · exact hs.keyed j found hfound
    case index =>
      rw [hartifacts, hindex]
      exact hs.index.change hold hhash
  · constructor
    case keyed =>
      intro j found hj
      rw [hartifacts, Map.get_erase] at hj
      split at hj
      · cases hj
      · exact hs.keyed j found hj
    case index =>
      rw [hartifacts, hindex]
      exact hs.index.erase hget
  · rwa [heq]

theorem Indexed.exact (hs : Indexed s) : Exact s := by
  intro contentHash
  rw [findByHash_eq]
  refine hs.index.finds (fun id id' artifact hid hid' => ?_) contentHash
  exact (hs.keyed id artifact hid).symm.trans (hs.keyed id' artifact hid')

theorem Indexed.fresh (hs : Indexed s) {call : Call} (hexact : Exact (s.step call)) :
    Fresh s call := by
  intro id hid
  rcases s.step_cases call with ⟨artifact, hstored, hartifacts, hindex⟩ | ⟨hnone, -⟩
  · obtain rfl := Option.some.inj (hid.symm.trans hstored)
    refine hs.index.get_of_finds (v := artifact) fun contentHash => ?_
    have hfinds := hexact contentHash
    rwa [findByHash_eq, hartifacts, hindex] at hfinds
  · cases hid.symm.trans hnone

-- ---------------------------------------------------------------------------
-- Every run
-- ---------------------------------------------------------------------------

/-- In every state of a run the index finds exactly what is stored, just when every call
that stores an id finds it not stored. -/
theorem index_exact_iff (calls : List Call) :
    (∀ before, before <+: calls → Exact (Trace.exec step new before)) ↔
      Trace.Always step Fresh new calls :=
  Trace.prefixes_iff_of_invariant (fun _ hs => hs.exact) (fun _ _ hs hfresh => hs.step hfresh)
    (fun _ _ hs hexact => hs.fresh hexact) indexed_new

/-- One artifact, stored twice. -/
theorem index_exact_fails :
    ¬ ∀ calls : List Call, Exact (Trace.exec step new calls) := by
  intro h
  let call : Call := .store (.fill 32 1) (.fill 32 2) 100 0
  have hexact : Exact (step (step new call) call) := h [call, call]
  have hfresh := (indexed_new.step fun _ _ => rfl).fresh hexact (.fill 32 1) rfl
  cases hfresh

end LiteVision.Storage.ArtifactStore
