import LiteVision.Bytes
import LiteVision.Lib.Index

/-!
# Artifacts

`artifact.rs`: a store of artifacts by id, with an index from content hashes to the ids
that were stored with them. The time of the clock is an argument.
-/

namespace LiteVision.Storage

open Lib

inductive StorageTier where
  | hot
  | warm
  | cold
  | archived
  deriving DecidableEq

structure Artifact where
  id : Bytes 32
  contentHash : Bytes 32
  size : UInt64
  createdAt : UInt64
  pinned : Bool
  replicationFactor : UInt32
  storageTier : StorageTier
  accessCount : UInt64
  lastAccessed : UInt64
  deriving DecidableEq

structure ArtifactMetadata where
  contentType : String
  description : Option String
  tags : List String
  custom : Map String String
  deriving DecidableEq

structure IntegrityProof where
  artifactId : Bytes 32
  contentHash : Bytes 32
  size : UInt64
  proofData : List UInt8
  timestamp : UInt64
  deriving DecidableEq

structure ArtifactStore where
  artifacts : Map (Bytes 32) Artifact
  index : Map (Bytes 32) (List (Bytes 32))
  metadata : Map (Bytes 32) ArtifactMetadata
  integrityProofs : Map (Bytes 32) IntegrityProof
  deriving DecidableEq

namespace ArtifactStore

def new : ArtifactStore where
  artifacts := .empty
  index := .empty
  metadata := .empty
  integrityProofs := .empty

/-- What both ways to store do first: `index.entry(content_hash).or_default().push(id)`. -/
def insertArtifact (s : ArtifactStore) (artifact : Artifact) : ArtifactStore :=
  { s with
    artifacts := s.artifacts.insert artifact.id artifact
    index := s.index.insert artifact.contentHash
      (s.index.bucket artifact.contentHash ++ [artifact.id]) }

def store (s : ArtifactStore) (id contentHash : Bytes 32) (size now : UInt64) :
    Artifact × ArtifactStore :=
  let artifact : Artifact :=
    { id, contentHash, size
      createdAt := now
      pinned := false
      replicationFactor := 3
      storageTier := .hot
      accessCount := 0
      lastAccessed := 0 }
  (artifact, s.insertArtifact artifact)

def storeWithMetadata (s : ArtifactStore) (id contentHash : Bytes 32) (size : UInt64)
    (metadata : ArtifactMetadata) (now : UInt64) : Except String Artifact × ArtifactStore :=
  let artifact : Artifact :=
    { id, contentHash, size
      createdAt := now
      pinned := false
      replicationFactor := 3
      storageTier := .hot
      accessCount := 0
      lastAccessed := now }
  let s := s.insertArtifact artifact
  let s := { s with
    metadata := s.metadata.insert id metadata
    integrityProofs := s.integrityProofs.insert id
      { artifactId := id, contentHash, size
        proofData := List.replicate 8 0
        timestamp := now } }
  (match s.artifacts.get id with
    | some artifact => .ok artifact
    | none => .error "Artifact not found", s)

def get (s : ArtifactStore) (id : Bytes 32) : Option Artifact := s.artifacts.get id

def findByHash (s : ArtifactStore) (contentHash : Bytes 32) : List Artifact :=
  ((s.index.get contentHash).map fun ids => ids.filterMap s.artifacts.get).getD []

/-- `if let Some(artifact) = self.artifacts.get_mut(id)`. -/
def changeArtifact (s : ArtifactStore) (id : Bytes 32) (change : Artifact → Artifact) :
    Except String Unit × ArtifactStore :=
  match s.artifacts.get id with
  | some artifact => (.ok (), { s with artifacts := s.artifacts.insert id (change artifact) })
  | none => (.error "Artifact not found", s)

def pin (s : ArtifactStore) (id : Bytes 32) : Except String Unit × ArtifactStore :=
  s.changeArtifact id fun artifact => { artifact with pinned := true }

def unpin (s : ArtifactStore) (id : Bytes 32) : Except String Unit × ArtifactStore :=
  s.changeArtifact id fun artifact => { artifact with pinned := false }

def setStorageTier (s : ArtifactStore) (id : Bytes 32) (tier : StorageTier) :
    Except String Unit × ArtifactStore :=
  s.changeArtifact id fun artifact => { artifact with storageTier := tier }

/-- Only the list of the current hash is cleaned. -/
def evict (s : ArtifactStore) (id : Bytes 32) : Except String Artifact × ArtifactStore :=
  match s.artifacts.get id with
  | some artifact =>
    (.ok artifact,
      { artifacts := s.artifacts.erase id
        index := s.index.modify artifact.contentHash (List.filter (· ≠ id))
        metadata := s.metadata.erase id
        integrityProofs := s.integrityProofs.erase id })
  | none => (.error "Artifact not found", s)

/-- A change of the store, with the time it is made at. -/
inductive Call where
  | store (id contentHash : Bytes 32) (size now : UInt64)
  | storeWithMetadata (id contentHash : Bytes 32) (size : UInt64) (metadata : ArtifactMetadata)
    (now : UInt64)
  | pin (id : Bytes 32)
  | unpin (id : Bytes 32)
  | setStorageTier (id : Bytes 32) (tier : StorageTier)
  | evict (id : Bytes 32)

def step (s : ArtifactStore) : Call → ArtifactStore
  | .store id contentHash size now => (s.store id contentHash size now).2
  | .storeWithMetadata id contentHash size metadata now =>
    (s.storeWithMetadata id contentHash size metadata now).2
  | .pin id => (s.pin id).2
  | .unpin id => (s.unpin id).2
  | .setStorageTier id tier => (s.setStorageTier id tier).2
  | .evict id => (s.evict id).2

end ArtifactStore

end LiteVision.Storage
