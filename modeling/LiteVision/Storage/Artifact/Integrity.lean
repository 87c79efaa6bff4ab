import LiteVision.Lib.History
import LiteVision.Storage.Artifact

/-!
# Integrity proofs

An artifact that is stored with its metadata gets an integrity proof whose data is eight
zero bytes. Only storing it so again, or evicting it, touches the metadata and the proof:
`store` leaves those of the artifact it replaces.
-/

namespace LiteVision.Storage

open Lib

/-- `none` is a panic: the data is shorter than eight bytes. -/
def IntegrityProof.verify (c : Crypto) (proof : IntegrityProof) : Option Bool :=
  let computed := c.blake3
    (proof.artifactId.val ++ proof.contentHash.val ++ (Bytes.ofU64 proof.size).val)
  (Bytes.slice? proof.proofData 0 8).map fun data => computed.val.take 8 = data.val

namespace ArtifactStore

/-- A write through the reference that `get_mut` returns. -/
def getMut (s : ArtifactStore) (id : Bytes 32) (change : Artifact → Artifact) : ArtifactStore :=
  (s.changeArtifact id change).2

def updateAccess (s : ArtifactStore) (id : Bytes 32) (now : UInt64) :
    Except String Unit × ArtifactStore :=
  s.changeArtifact id fun artifact =>
    { artifact with accessCount := artifact.accessCount + 1, lastAccessed := now }

def getMetadata (s : ArtifactStore) (id : Bytes 32) : Option ArtifactMetadata := s.metadata.get id

def getIntegrityProof (s : ArtifactStore) (id : Bytes 32) : Option IntegrityProof :=
  s.integrityProofs.get id

def verifyIntegrity (c : Crypto) (s : ArtifactStore) (id : Bytes 32) : Option Bool :=
  match s.artifacts.get id with
  | some artifact =>
    match s.integrityProofs.get id with
    | some proof =>
      (proof.verify c).map fun verified => verified && proof.contentHash = artifact.contentHash
    | none => some false
  | none => some false

inductive Op where
  | call (call : Call)
  | getMut (id : Bytes 32) (change : Artifact → Artifact)
  | updateAccess (id : Bytes 32) (now : UInt64)

def stepOp (s : ArtifactStore) : Op → ArtifactStore
  | .call call => s.step call
  | .getMut id change => s.getMut id change
  | .updateAccess id now => (s.updateAccess id now).2

/-- The last time `id` was stored with metadata, since it was last evicted. -/
def LastStored (ops : List Op) (id contentHash : Bytes 32) (size : UInt64)
    (metadata : ArtifactMetadata) (now : UInt64) : Prop :=
  ∃ before after,
    ops = before ++ .call (.storeWithMetadata id contentHash size metadata now) :: after ∧
      ∀ op ∈ after, (∀ contentHash size metadata now,
        op ≠ .call (.storeWithMetadata id contentHash size metadata now)) ∧ op ≠ .call (.evict id)

variable {s : ArtifactStore} {id : Bytes 32} {V : Type}

-- ---------------------------------------------------------------------------
-- What an operation does to the records
-- ---------------------------------------------------------------------------

/-- The effect on a map with an entry for each artifact that is stored with metadata. -/
def Op.effect (entry : Bytes 32 → Bytes 32 → UInt64 → ArtifactMetadata → UInt64 → V) :
    Op → History.Effect (Bytes 32) V
  | .call (.storeWithMetadata id contentHash size metadata now) =>
    .put id (entry id contentHash size metadata now)
  | .call (.evict id) => .sweep fun j _ => j ≠ id
  | _ => .skip

def metadataOf (_ _ : Bytes 32) (_ : UInt64) (metadata : ArtifactMetadata) (_ : UInt64) :
    ArtifactMetadata := metadata

def proofOf (id contentHash : Bytes 32) (size : UInt64) (_ : ArtifactMetadata) (now : UInt64) :
    IntegrityProof :=
  { artifactId := id, contentHash, size
    proofData := List.replicate 8 0
    timestamp := now }

/-- Only stored artifacts have records. -/
def Recorded (s : ArtifactStore) : Prop :=
  ∀ id, s.artifacts.get id = none → s.metadata.get id = none ∧ s.integrityProofs.get id = none

theorem changeArtifact_records (s : ArtifactStore) (id : Bytes 32) (change : Artifact → Artifact) :
    (s.changeArtifact id change).2.metadata = s.metadata ∧
      (s.changeArtifact id change).2.integrityProofs = s.integrityProofs := by
  unfold changeArtifact
  cases s.artifacts.get id <;> exact ⟨rfl, rfl⟩

theorem stepOp_records (hs : Recorded s) (op : Op) :
    (s.stepOp op).metadata = (op.effect metadataOf).apply s.metadata ∧
      (s.stepOp op).integrityProofs = (op.effect proofOf).apply s.integrityProofs := by
  cases op with
  | call call =>
    cases call with
    | store id contentHash size now => exact ⟨rfl, rfl⟩
    | storeWithMetadata id contentHash size metadata now => exact ⟨rfl, rfl⟩
    | pin id => exact s.changeArtifact_records id _
    | unpin id => exact s.changeArtifact_records id _
    | setStorageTier id tier => exact s.changeArtifact_records id _
    | evict id =>
      simp only [stepOp, step, evict, Op.effect, History.Effect.apply, Map.retain_ne]
      cases hget : s.artifacts.get id with
      | none =>
        obtain ⟨hmetadata, hproof⟩ := hs id hget
        exact ⟨(Map.erase_eq_self hmetadata).symm, (Map.erase_eq_self hproof).symm⟩
      | some artifact => exact ⟨rfl, rfl⟩
  | getMut id change => exact s.changeArtifact_records id change
  | updateAccess id now => exact s.changeArtifact_records id _

theorem changeArtifact_get_none {change : Artifact → Artifact} {j : Bytes 32}
    (h : (s.changeArtifact id change).2.artifacts.get j = none) : s.artifacts.get j = none := by
  unfold changeArtifact at h
  cases hget : s.artifacts.get id with
  | none => simpa [hget] using h
  | some artifact =>
    simp only [hget, Map.get_insert] at h
    split at h
    · cases h
    · exact h

theorem Recorded.change (hs : Recorded s) (id : Bytes 32) (change : Artifact → Artifact) :
    Recorded (s.changeArtifact id change).2 := by
  obtain ⟨hmetadata, hproofs⟩ := s.changeArtifact_records id change
  intro j hj
  rw [hmetadata, hproofs]
  exact hs j (changeArtifact_get_none hj)

theorem Recorded.step (hs : Recorded s) (op : Op) : Recorded (s.stepOp op) := by
  cases op with
  | call call =>
    cases call with
    | store id contentHash size now =>
      intro j hj
      simp only [stepOp, ArtifactStore.step, store, insertArtifact, Map.get_insert] at hj ⊢
      split at hj
      · cases hj
      · exact hs j hj
    | storeWithMetadata id contentHash size metadata now =>
      intro j hj
      simp only [stepOp, ArtifactStore.step, storeWithMetadata, insertArtifact,
        Map.get_insert] at hj ⊢
      split at hj
      · cases hj
      · rename_i hne
        simpa [hne] using hs j hj
    | pin id => exact hs.change id _
    | unpin id => exact hs.change id _
    | setStorageTier id tier => exact hs.change id _
    | evict id =>
      simp only [stepOp, ArtifactStore.step, evict]
      cases hget : s.artifacts.get id with
      | none => exact hs
      | some artifact =>
        intro j hj
        simp only [Map.get_erase] at hj ⊢
        split at hj
        · rename_i hjid
          simp [hjid]
        · rename_i hne
          simpa [hne] using hs j hj
  | getMut id change => exact hs.change id change
  | updateAccess id now => exact hs.change id _

-- ---------------------------------------------------------------------------
-- Every run
-- ---------------------------------------------------------------------------

theorem recorded_new : Recorded new := fun _ _ => ⟨Map.get_empty _, Map.get_empty _⟩

theorem stands_effect_iff {ops : List Op}
    {entry : Bytes 32 → Bytes 32 → UInt64 → ArtifactMetadata → UInt64 → V} {v : V} :
    History.Stands (Op.effect entry) ops id v ↔ ∃ contentHash size metadata now,
      LastStored ops id contentHash size metadata now ∧
        entry id contentHash size metadata now = v := by
  have hput (op : Op) : op.effect entry = .put id v ↔ ∃ contentHash size metadata now,
      op = .call (.storeWithMetadata id contentHash size metadata now) ∧
        entry id contentHash size metadata now = v := by
    rcases op with call | _ | _ <;> try cases call
    all_goals simp [Op.effect]
    all_goals grind
  have hspares (op : Op) : (op.effect entry).Spares id v ↔ (∀ contentHash size metadata now,
      op ≠ .call (.storeWithMetadata id contentHash size metadata now)) ∧
        op ≠ .call (.evict id) := by
    rcases op with call | _ | _ <;> try cases call
    all_goals simp [Op.effect, History.Effect.Spares]
    all_goals grind
  constructor
  · rintro ⟨before, op, after, rfl, hop, hafter⟩
    obtain ⟨contentHash, size, metadata, now, rfl, hv⟩ := (hput op).mp hop
    exact ⟨contentHash, size, metadata, now,
      ⟨before, after, rfl, fun op hop => (hspares op).mp (hafter op hop)⟩, hv⟩
  · rintro ⟨contentHash, size, metadata, now, ⟨before, after, rfl, hafter⟩, hv⟩
    exact ⟨before, _, after, rfl, (hput _).mpr ⟨contentHash, size, metadata, now, rfl, hv⟩,
      fun op hop => (hspares op).mpr (hafter op hop)⟩

theorem metadata_exec_iff (ops : List Op) (id : Bytes 32) (metadata : ArtifactMetadata) :
    (Trace.exec stepOp new ops).metadata.get id = some metadata ↔
      ∃ contentHash size now, LastStored ops id contentHash size metadata now := by
  have hstands : (Trace.exec stepOp new ops).metadata.get id = some metadata ↔
      History.Stands (Op.effect metadataOf) ops id metadata :=
    History.get_exec_iff_of_invariant ArtifactStore.metadata (fun _ op hs => Recorded.step hs op)
      (fun _ op hs => (stepOp_records hs op).1) recorded_new rfl
  rw [hstands, stands_effect_iff]
  constructor
  · rintro ⟨contentHash, size, stored, now, hlast, rfl⟩
    exact ⟨contentHash, size, now, hlast⟩
  · rintro ⟨contentHash, size, now, hlast⟩
    exact ⟨contentHash, size, metadata, now, hlast, rfl⟩

theorem integrityProofs_exec_iff (ops : List Op) (id : Bytes 32) (proof : IntegrityProof) :
    (Trace.exec stepOp new ops).integrityProofs.get id = some proof ↔
      ∃ contentHash size metadata now, LastStored ops id contentHash size metadata now ∧
        proofOf id contentHash size metadata now = proof := by
  have hstands : (Trace.exec stepOp new ops).integrityProofs.get id = some proof ↔
      History.Stands (Op.effect proofOf) ops id proof :=
    History.get_exec_iff_of_invariant ArtifactStore.integrityProofs
      (fun _ op hs => Recorded.step hs op) (fun _ op hs => (stepOp_records hs op).2)
      recorded_new rfl
  rw [hstands, stands_effect_iff]

theorem verify_proofOf (c : Crypto) (contentHash : Bytes 32) (size : UInt64)
    (metadata : ArtifactMetadata) (now : UInt64) :
    (proofOf id contentHash size metadata now).verify c = some (decide
      ((c.blake3 (id.val ++ contentHash.val ++ (Bytes.ofU64 size).val)).val.take 8 =
        List.replicate 8 0)) := by
  have hdata : Bytes.slice? (List.replicate 8 0) 0 8 =
      some (Bytes.slice (List.replicate 8 0) 0 8 (by simp)) := Bytes.slice?_eq_some _
  unfold IntegrityProof.verify proofOf
  rw [hdata]
  rfl

/-- After any run the metadata of an artifact are those it was last stored with, and it
verifies exactly if it has the hash it was stored with then and blake3 of its id, that hash
and the size of then begins with eight zero bytes. -/
theorem verifyIntegrity_run (c : Crypto) (ops : List Op) (id : Bytes 32) :
    (∀ metadata, (Trace.exec stepOp new ops).getMetadata id = some metadata ↔
      ∃ contentHash size now, LastStored ops id contentHash size metadata now) ∧
    ∃ verdict, (Trace.exec stepOp new ops).verifyIntegrity c id = some verdict ∧
      (verdict = true ↔ ∃ artifact size metadata now,
        (Trace.exec stepOp new ops).get id = some artifact ∧
        LastStored ops id artifact.contentHash size metadata now ∧
        (c.blake3 (id.val ++ artifact.contentHash.val ++ (Bytes.ofU64 size).val)).val.take 8 =
          List.replicate 8 0) := by
  refine ⟨metadata_exec_iff ops id, ?_⟩
  have hproof := integrityProofs_exec_iff ops id
  simp only [verifyIntegrity, get]
  cases hget : (Trace.exec stepOp new ops).artifacts.get id with
  | none => exact ⟨false, rfl, by simp⟩
  | some artifact =>
    cases hheld : (Trace.exec stepOp new ops).integrityProofs.get id with
    | none =>
      refine ⟨false, rfl, iff_of_false Bool.false_ne_true ?_⟩
      rintro ⟨found, size, metadata, now, -, hlast, -⟩
      have hsome := (hproof _).mpr ⟨found.contentHash, size, metadata, now, hlast, rfl⟩
      cases hheld.symm.trans hsome
    | some proof =>
      obtain ⟨contentHash, size, metadata, now, hlast, rfl⟩ := (hproof proof).mp hheld
      simp only [verify_proofOf, Option.map_some]
      refine ⟨_, rfl, ?_⟩
      rw [Bool.and_eq_true, decide_eq_true_eq, decide_eq_true_eq]
      constructor
      · rintro ⟨hzero, hsame⟩
        obtain rfl : contentHash = artifact.contentHash := hsame
        exact ⟨artifact, size, metadata, now, rfl, hlast, hzero⟩
      · rintro ⟨found, size', metadata', now', hfound, hlast', hzero⟩
        obtain rfl := Option.some.inj hfound
        have hsome := (hproof _).mpr ⟨artifact.contentHash, size', metadata', now', hlast', rfl⟩
        have hsame := Option.some.inj (hheld.symm.trans hsome)
        obtain rfl : contentHash = artifact.contentHash := congrArg IntegrityProof.contentHash hsame
        obtain rfl : size = size' := congrArg IntegrityProof.size hsame
        exact ⟨hzero, rfl⟩

end ArtifactStore

end LiteVision.Storage
