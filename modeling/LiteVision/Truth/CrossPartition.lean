import LiteVision.Truth.Cryptography
import LiteVision.Lib.Map
import LiteVision.Lib.Trace

/-!
# Partitions and messages between them

The partition manager of `cross_partition.rs`: the partitions with their roots,
the messages it has accepted and the receipts committed to it. A set of `u64` or
of hashes is a finite set.
-/

namespace LiteVision.Truth

open Lib

abbrev PartitionId := UInt32

-- ---------------------------------------------------------------------------
-- Roots
-- ---------------------------------------------------------------------------

structure GlobalStateRoot where
  partitionRoots : Map PartitionId (Bytes 32)
  version : UInt32
  deriving DecidableEq

namespace GlobalStateRoot

def new : GlobalStateRoot where
  partitionRoots := .empty
  version := 0

def updatePartition (g : GlobalStateRoot) (partitionId : PartitionId) (root : Bytes 32) :
    GlobalStateRoot :=
  { g with partitionRoots := g.partitionRoots.insert partitionId root }

def getPartitionRoot (g : GlobalStateRoot) (partitionId : PartitionId) : Option (Bytes 32) :=
  g.partitionRoots.get partitionId

/-- What `hash` feeds to the hasher: the version, and each partition by ascending id.
`none` is the panic of a key without a root. -/
def hashInput (it : Map.Iteration PartitionId (Bytes 32)) (g : GlobalStateRoot) :
    Option (List UInt8) :=
  let keys := ((it.entries g.partitionRoots).map Prod.fst).mergeSort
  let entries := keys.mapM fun key =>
    (g.partitionRoots.get key).map fun root => (Bytes.ofU32 key).val ++ root.val
  entries.map fun entries => (Bytes.ofU32 g.version).val ++ entries.flatten

def hash (c : Crypto) (it : Map.Iteration PartitionId (Bytes 32)) (g : GlobalStateRoot) :
    Option (Bytes 32) := (g.hashInput it).map c.blake3

end GlobalStateRoot

-- ---------------------------------------------------------------------------
-- Messages and proofs
-- ---------------------------------------------------------------------------

structure CrossPartitionMessage where
  messageId : Bytes 32
  sourcePartitionId : PartitionId
  targetPartitionId : PartitionId
  sourceBlockHeight : UInt64
  payloadHash : Bytes 32
  nonce : UInt64
  deriving DecidableEq

/-- The id is the hash of the other fields. -/
def CrossPartitionMessage.new (c : Crypto) (source target : PartitionId) (sourceHeight : UInt64)
    (payloadHash : Bytes 32) (nonce : UInt64) : CrossPartitionMessage where
  messageId := c.blake3 ((Bytes.ofU32 source).val ++ (Bytes.ofU32 target).val ++
    (Bytes.ofU64 sourceHeight).val ++ payloadHash.val ++ (Bytes.ofU64 nonce).val)
  sourcePartitionId := source
  targetPartitionId := target
  sourceBlockHeight := sourceHeight
  payloadHash
  nonce

inductive CrossPartitionError
  | invalidQC
  | qcVerificationFailed
  | partitionRootMismatch
  | partitionNotFound
  | merkleProofInvalid
  | messageAlreadyConsumed
  | sourceHeightTooOld
  deriving DecidableEq, Repr

structure CrossPartitionProof where
  sourceBlockHash : Bytes 32
  sourcePartitionRoot : Bytes 32
  merkleProof : List (Bytes 32)
  partitionInclusionProof : List (Bytes 32)
  qcValidatorCount : UInt32
  qcSignatures : List (Bytes 32 × List UInt8)
  deriving DecidableEq

namespace CrossPartitionProof

variable (c : Crypto)

/-- The loop of `verify_merkle_proof`: the smaller of the two hashes goes first. -/
def climb (leaf : Bytes 32) (merkleProof : List (Bytes 32)) : Bytes 32 :=
  merkleProof.foldl (fun current proofElement =>
    if current.val < proofElement.val then combineHashes c current proofElement
    else combineHashes c proofElement current) leaf

def verifyMerkleProof (proof : CrossPartitionProof) (leaf : Bytes 32) : Bool :=
  climb c leaf proof.merkleProof = proof.sourcePartitionRoot

def verify (proof : CrossPartitionProof) (globalStateRoot : GlobalStateRoot)
    (message : CrossPartitionMessage) : Except CrossPartitionError Unit :=
  match globalStateRoot.getPartitionRoot message.sourcePartitionId with
  | none => .error .partitionNotFound
  | some expectedPartitionRoot =>
    if proof.sourcePartitionRoot ≠ expectedPartitionRoot then .error .partitionRootMismatch
    else if ¬ proof.verifyMerkleProof c message.payloadHash then .error .merkleProofInvalid
    else if proof.qcValidatorCount < 2 then .error .invalidQC
    else .ok ()

theorem verify_ok {proof : CrossPartitionProof} {globalStateRoot : GlobalStateRoot}
    {message : CrossPartitionMessage} :
    proof.verify c globalStateRoot message = .ok () ↔
      globalStateRoot.getPartitionRoot message.sourcePartitionId = some proof.sourcePartitionRoot ∧
        climb c message.payloadHash proof.merkleProof = proof.sourcePartitionRoot ∧
        2 ≤ proof.qcValidatorCount := by
  unfold verify
  cases hroot : globalStateRoot.getPartitionRoot message.sourcePartitionId with
  | none => simp
  | some root =>
    dsimp only
    split_ifs with hne hpath hcount
    · simp [Ne.symm hne]
    · refine iff_of_false (by simp) ?_
      rintro ⟨-, -, hle⟩
      exact UInt32.not_lt.mpr hle hcount
    · refine iff_of_true rfl ⟨congrArg some (not_not.mp hne).symm, ?_, UInt32.not_lt.mp hcount⟩
      exact of_decide_eq_true hpath
    · refine iff_of_false (by simp) ?_
      rintro ⟨-, hclimb, -⟩
      exact hpath (decide_eq_true hclimb)

end CrossPartitionProof

structure ConsumedMessageRegistry where
  consumed : Finset (Bytes 32)
  minValidHeight : UInt64
  deriving DecidableEq

namespace ConsumedMessageRegistry

def new : ConsumedMessageRegistry where
  consumed := ∅
  minValidHeight := 0

def markConsumed (r : ConsumedMessageRegistry) (messageId : Bytes 32) : ConsumedMessageRegistry :=
  { r with consumed := insert messageId r.consumed }

def isConsumed (r : ConsumedMessageRegistry) (messageId : Bytes 32) : Bool :=
  messageId ∈ r.consumed

/-- Only the height moves: an id that was consumed stays. -/
def prune (r : ConsumedMessageRegistry) (currentHeight window : UInt64) : ConsumedMessageRegistry :=
  { r with minValidHeight := saturatingSub currentHeight window }

@[simp] theorem consumed_prune (r : ConsumedMessageRegistry) (currentHeight window : UInt64) :
    (r.prune currentHeight window).consumed = r.consumed := rfl

end ConsumedMessageRegistry

-- ---------------------------------------------------------------------------
-- Receipts
-- ---------------------------------------------------------------------------

structure ArtifactCommit where
  operatorId : Bytes 32
  jobId : Bytes 32
  inputHash : Bytes 32
  outputHash : Bytes 32
  resourceHash : Bytes 32
  receiptSignature : List UInt8
  executionNonce : UInt64
  blockHeight : UInt64
  deriving DecidableEq

structure ReceiptEntry where
  outputHash : Bytes 32
  operatorId : Bytes 32
  blockHeight : UInt64
  deriving DecidableEq

inductive ReceiptError
  | duplicateReceipt
  | nonceReused
  | jobClosed
  deriving DecidableEq, Repr

/-- Both maps are keyed by a job and an operator. -/
structure ReceiptRegistry where
  receipts : Map (Bytes 32 × Bytes 32) ReceiptEntry
  executionNonces : Map (Bytes 32 × Bytes 32) (Finset UInt64)
  deriving DecidableEq

namespace ReceiptRegistry

def new : ReceiptRegistry where
  receipts := .empty
  executionNonces := .empty

/-- A nonce that is reused leaves the set of nonces behind that `or_insert_with` made. -/
def registerReceipt (r : ReceiptRegistry) (commit : ArtifactCommit) :
    Except ReceiptError Unit × ReceiptRegistry :=
  let key := (commit.jobId, commit.operatorId)
  if (r.receipts.get key).isSome then (.error .duplicateReceipt, r)
  else
    let nonces := (r.executionNonces.get key).getD ∅
    if commit.executionNonce ∈ nonces then
      (.error .nonceReused, { r with executionNonces := r.executionNonces.insert key nonces })
    else
      (.ok (), {
        executionNonces := r.executionNonces.insert key (insert commit.executionNonce nonces)
        receipts := r.receipts.insert key {
          outputHash := commit.outputHash
          operatorId := commit.operatorId
          blockHeight := commit.blockHeight } })

end ReceiptRegistry

-- ---------------------------------------------------------------------------
-- The manager
-- ---------------------------------------------------------------------------

structure Partition where
  id : PartitionId
  merkleRoot : Bytes 32
  blockHeight : UInt64
  validators : List (Bytes 32)
  deriving DecidableEq

structure PartitionManager where
  partitions : Map PartitionId Partition
  globalStateRoot : GlobalStateRoot
  messageRegistry : ConsumedMessageRegistry
  receiptRegistry : ReceiptRegistry
  deriving DecidableEq

namespace PartitionManager

def new : PartitionManager where
  partitions := .empty
  globalStateRoot := .new
  messageRegistry := .new
  receiptRegistry := .new

/-- A partition that is there already starts again from the zero root. -/
def addPartition (s : PartitionManager) (partitionId : PartitionId) : PartitionManager :=
  { s with
    partitions := s.partitions.insert partitionId
      { id := partitionId, merkleRoot := .fill 32 0, blockHeight := 0, validators := [] }
    globalStateRoot := s.globalStateRoot.updatePartition partitionId (.fill 32 0) }

def removePartition (s : PartitionManager) (partitionId : PartitionId) :
    Option Partition × PartitionManager :=
  (s.partitions.get partitionId, { s with
    globalStateRoot := { s.globalStateRoot with
      partitionRoots := s.globalStateRoot.partitionRoots.erase partitionId }
    partitions := s.partitions.erase partitionId })

/-- The partition is changed if it is there, the global root in any case. -/
def updatePartitionRoot (s : PartitionManager) (partitionId : PartitionId) (root : Bytes 32) :
    PartitionManager :=
  { s with
    partitions := s.partitions.modify partitionId fun partition =>
      { partition with merkleRoot := root }
    globalStateRoot := s.globalStateRoot.updatePartition partitionId root }

variable (c : Crypto)

def processCrossPartitionMessage (s : PartitionManager) (message : CrossPartitionMessage)
    (proof : CrossPartitionProof) : Except CrossPartitionError Unit × PartitionManager :=
  if s.messageRegistry.isConsumed message.messageId then (.error .messageAlreadyConsumed, s)
  else if message.sourceBlockHeight < s.messageRegistry.minValidHeight then
    (.error .sourceHeightTooOld, s)
  else
    match proof.verify c s.globalStateRoot message with
    | .error err => (.error err, s)
    | .ok () =>
      (.ok (), { s with messageRegistry := s.messageRegistry.markConsumed message.messageId })

def commitArtifact (s : PartitionManager) (commit : ArtifactCommit) :
    Except ReceiptError Unit × PartitionManager :=
  let (result, receiptRegistry) := s.receiptRegistry.registerReceipt commit
  (result, { s with receiptRegistry })

def pruneWindow : UInt64 := 10000

def prune (s : PartitionManager) (currentHeight : UInt64) : PartitionManager :=
  { s with messageRegistry := s.messageRegistry.prune currentHeight pruneWindow }

inductive Op
  | addPartition (partitionId : PartitionId)
  | removePartition (partitionId : PartitionId)
  | updatePartitionRoot (partitionId : PartitionId) (root : Bytes 32)
  | processCrossPartitionMessage (message : CrossPartitionMessage) (proof : CrossPartitionProof)
  | commitArtifact (commit : ArtifactCommit)
  | prune (currentHeight : UInt64)
  deriving DecidableEq

def step (s : PartitionManager) : Op → PartitionManager
  | .addPartition partitionId => s.addPartition partitionId
  | .removePartition partitionId => (s.removePartition partitionId).2
  | .updatePartitionRoot partitionId root => s.updatePartitionRoot partitionId root
  | .processCrossPartitionMessage message proof => (s.processCrossPartitionMessage c message proof).2
  | .commitArtifact commit => (s.commitArtifact commit).2
  | .prune currentHeight => s.prune currentHeight

-- ---------------------------------------------------------------------------
-- What a call finds and leaves
-- ---------------------------------------------------------------------------

/-- The checks that `process_cross_partition_message` makes. -/
def Passes (s : PartitionManager) (message : CrossPartitionMessage) (proof : CrossPartitionProof) :
    Prop :=
  message.messageId ∉ s.messageRegistry.consumed ∧
    s.messageRegistry.minValidHeight ≤ message.sourceBlockHeight ∧
    proof.verify c s.globalStateRoot message = .ok ()

instance (s : PartitionManager) (message : CrossPartitionMessage) (proof : CrossPartitionProof) :
    Decidable (s.Passes c message proof) :=
  inferInstanceAs (Decidable (_ ∧ _ ∧ _))

theorem process_cases (s : PartitionManager) (message : CrossPartitionMessage)
    (proof : CrossPartitionProof) :
    (s.Passes c message proof ∧ s.processCrossPartitionMessage c message proof = (.ok (), { s with
      messageRegistry := s.messageRegistry.markConsumed message.messageId })) ∨
    (¬ s.Passes c message proof ∧
      ∃ err, s.processCrossPartitionMessage c message proof = (.error err, s)) := by
  unfold processCrossPartitionMessage Passes
  by_cases hconsumed : message.messageId ∈ s.messageRegistry.consumed
  · exact .inr ⟨fun h => h.1 hconsumed, .messageAlreadyConsumed, by
      simp [ConsumedMessageRegistry.isConsumed, hconsumed]⟩
  · rw [if_neg (by simpa [ConsumedMessageRegistry.isConsumed] using hconsumed)]
    by_cases hheight : message.sourceBlockHeight < s.messageRegistry.minValidHeight
    · exact .inr ⟨fun h => absurd h.2.1 (UInt64.not_le.mpr hheight), .sourceHeightTooOld, by
        rw [if_pos hheight]⟩
    · rw [if_neg hheight]
      cases hverify : proof.verify c s.globalStateRoot message with
      | error err => exact .inr ⟨fun h => (nomatch h.2.2), err, rfl⟩
      | ok u => exact .inl ⟨⟨hconsumed, UInt64.not_lt.mp hheight, rfl⟩, rfl⟩

theorem process_ok {s : PartitionManager} {message : CrossPartitionMessage}
    {proof : CrossPartitionProof} :
    (s.processCrossPartitionMessage c message proof).1 = .ok () ↔ s.Passes c message proof := by
  rcases process_cases c s message proof with ⟨hpass, heq⟩ | ⟨hfail, err, heq⟩
  · simp [heq, hpass]
  · simp [heq, hfail]

end PartitionManager

end LiteVision.Truth
