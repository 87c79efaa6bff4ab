import LiteVision.Bytes
import LiteVision.Lib.Map
import LiteVision.Lib.Trace

/-!
# Partitions of the store

The partition manager of `partition_manager.rs`: partitions with a status and a
root, the operations accepted so far, and a hash of all roots that is kept beside
them. `partitions` is a B-tree, so its loops run over ascending ids.
-/

namespace LiteVision.Storage

open Lib
open Map (Iteration)

scoped instance linearOrderUInt32 : LinearOrder UInt32 where
  le_refl := UInt32.le_refl
  le_trans _ _ _ := UInt32.le_trans
  lt_iff_le_not_ge a b := by
    rw [UInt32.lt_iff_toNat_lt, UInt32.le_iff_toNat_le, UInt32.le_iff_toNat_le]
    exact lt_iff_le_not_ge
  le_antisymm _ _ := UInt32.le_antisymm
  le_total := UInt32.le_total
  toDecidableLE := inferInstance

-- ---------------------------------------------------------------------------
-- Partitions
-- ---------------------------------------------------------------------------

inductive PartitionStatus where
  | pending
  | active
  | migrating
  | frozen
  | deleted
  deriving DecidableEq

structure Partition where
  partitionId : UInt32
  stateRoot : Bytes 32
  validatorSubset : Option (List (Bytes 32))
  regionalMemoryRoot : Option (Bytes 32)
  status : PartitionStatus
  createdAt : UInt64
  epoch : UInt64
  deriving DecidableEq

namespace Partition

/-- A new partition has the zero root, whatever it was created with. -/
def new (partitionId : UInt32) (createdAt : UInt64) : Partition where
  partitionId := partitionId
  stateRoot := .fill 32 0
  validatorSubset := none
  regionalMemoryRoot := none
  status := .pending
  createdAt := createdAt
  epoch := 0

def activate (p : Partition) (epoch : UInt64) : Partition :=
  { p with status := .active, epoch := epoch }

def freeze (p : Partition) : Partition := { p with status := .frozen }

def markMigrating (p : Partition) : Partition := { p with status := .migrating }

def delete (p : Partition) : Partition := { p with status := .deleted }

end Partition

-- ---------------------------------------------------------------------------
-- Signed operations
-- ---------------------------------------------------------------------------

/-- The signature has its length and verifies the message. -/
def verifies (c : Crypto) (message : Bytes 32) (publicKeyBytes : Bytes 32)
    (signatureBytes : List UInt8) : Bool :=
  if h : signatureBytes.length = 64 then
    c.ed25519Verify publicKeyBytes message ⟨signatureBytes, h⟩
  else false

structure PartitionCreate where
  newPartitionId : UInt32
  initialStateRoot : Bytes 32
  configurationHash : Bytes 32
  governanceProposalId : Bytes 32
  signatures : List (Bytes 32 × List UInt8)
  deriving DecidableEq

namespace PartitionCreate

def messageToSign (c : Crypto) (create : PartitionCreate) : Bytes 32 :=
  c.blake3 ((Bytes.ofU32 create.newPartitionId).val ++ create.initialStateRoot.val ++
    create.configurationHash.val ++ create.governanceProposalId.val)

/-- Signers are not told apart, and the quorum is two thirds rounded down. -/
def verifySignatures (c : Crypto) (create : PartitionCreate) (validators : List (Bytes 32)) :
    Bool :=
  let quorumRequired := validators.length * 2 / 3
  if create.signatures.length < quorumRequired then false
  else
    let message := create.messageToSign c
    let verifiedCount := create.signatures.foldl (fun count (publicKeyBytes, signatureBytes) =>
      if publicKeyBytes ∉ validators then count
      else if verifies c message publicKeyBytes signatureBytes then count + 1
      else count) 0
    decide (quorumRequired ≤ verifiedCount)

end PartitionCreate

structure MigrationProof where
  sourceStateRoot : Bytes 32
  targetStateRoot : Bytes 32
  migrationMerkleRoot : Bytes 32
  validatorSignatures : List (Bytes 32 × List UInt8)
  deriving DecidableEq

namespace MigrationProof

def messageToSign (c : Crypto) (proof : MigrationProof) : Bytes 32 :=
  c.blake3 (proof.sourceStateRoot.val ++ proof.targetStateRoot.val ++ proof.migrationMerkleRoot.val)

/-- There is a signature, and each of them verifies. -/
def verify (c : Crypto) (proof : MigrationProof) : Bool :=
  !proof.validatorSignatures.isEmpty &&
    proof.validatorSignatures.all fun (publicKeyBytes, signatureBytes) =>
      verifies c (proof.messageToSign c) publicKeyBytes signatureBytes

end MigrationProof

structure PartitionMigration where
  sourcePartitionId : UInt32
  targetPartitionId : UInt32
  migrationKey : Bytes 32
  keys : List (Bytes 32)
  proof : MigrationProof
  epoch : UInt64
  deriving DecidableEq

structure PartitionDelete where
  partitionId : UInt32
  finalStateRoot : Bytes 32
  tombstoneRoot : Bytes 32
  governanceProposalId : Bytes 32
  epoch : UInt64
  deriving DecidableEq

inductive RebalanceReason where
  | load
  | locality
  | cost
  | validatorChange
  | governance
  deriving DecidableEq

structure PartitionRebalance where
  partitionId : UInt32
  newValidatorSubset : List (Bytes 32)
  reason : RebalanceReason
  epoch : UInt64
  deriving DecidableEq

inductive PartitionOperation where
  | create (create : PartitionCreate)
  | migrate (migration : PartitionMigration)
  | delete (delete : PartitionDelete)
  | rebalance (rebalance : PartitionRebalance)
  deriving DecidableEq

inductive PartitionError where
  | partitionExists
  | partitionNotFound
  | invalidStateTransition
  | insufficientSignatures
  | migrationInProgress
  | dataLoss
  deriving DecidableEq

-- ---------------------------------------------------------------------------
-- The manager
-- ---------------------------------------------------------------------------

structure PartitionManager where
  partitions : Map UInt32 Partition
  pendingOperations : List PartitionOperation
  globalStateRoot : Bytes 32
  currentEpoch : UInt64
  deriving DecidableEq

namespace PartitionManager

def new : PartitionManager where
  partitions := .empty
  pendingOperations := []
  globalStateRoot := .fill 32 0
  currentEpoch := 0

/-- What the hash of all roots is taken of. -/
def rootPreimage (m : PartitionManager) : List UInt8 :=
  (Iteration.ascending.entries m.partitions).flatMap fun (id, partition) =>
    if partition.status ≠ .deleted then (Bytes.ofU32 id).val ++ partition.stateRoot.val else []

def updateGlobalStateRoot (c : Crypto) (m : PartitionManager) : PartitionManager :=
  { m with globalStateRoot := c.blake3 m.rootPreimage }

def pushOperation (m : PartitionManager) (op : PartitionOperation) : PartitionManager :=
  { m with pendingOperations := m.pendingOperations ++ [op] }

def createPartition (c : Crypto) (m : PartitionManager) (create : PartitionCreate)
    (validators : List (Bytes 32)) : Except PartitionError Partition × PartitionManager :=
  if (m.partitions.get create.newPartitionId).isSome then (.error .partitionExists, m)
  else if !create.verifySignatures c validators then (.error .insufficientSignatures, m)
  else
    let partition := Partition.new create.newPartitionId m.currentEpoch
    let m := { m with partitions := m.partitions.insert create.newPartitionId partition }
    (.ok partition, m.pushOperation (.create create))

/-- The common part of the other operations: find the partition, check its status and
change it; then `rest`. -/
def withPartition (m : PartitionManager) (partitionId : UInt32) (allowed : PartitionStatus → Bool)
    (change : Partition → Partition) (rest : PartitionManager → PartitionManager) :
    Except PartitionError Unit × PartitionManager :=
  match m.partitions.get partitionId with
  | none => (.error .partitionNotFound, m)
  | some partition =>
    if !allowed partition.status then (.error .invalidStateTransition, m)
    else (.ok (), rest { m with partitions := m.partitions.insert partitionId (change partition) })

def activatePartition (c : Crypto) (m : PartitionManager) (partitionId : UInt32) (epoch : UInt64) :
    Except PartitionError Unit × PartitionManager :=
  m.withPartition partitionId (· = .pending) (·.activate epoch) fun m =>
    { m with currentEpoch := epoch }.updateGlobalStateRoot c

/-- What a migration does to the partition at `targetId`. -/
def receive (migration : PartitionMigration) (target : Partition) : Partition :=
  if target.status = .active then { target with stateRoot := migration.proof.targetStateRoot }
  else target

/-- The proof is not verified, and its target need not be `targetId`. -/
def migratePartition (m : PartitionManager) (sourceId targetId : UInt32)
    (migration : PartitionMigration) : Except PartitionError Unit × PartitionManager :=
  m.withPartition sourceId (· = .active) (·.markMigrating) fun m =>
    { m with partitions := m.partitions.modify targetId (receive migration) }.pushOperation
      (.migrate migration)

def completeMigration (c : Crypto) (m : PartitionManager) (partitionId : UInt32) (epoch : UInt64) :
    Except PartitionError Unit × PartitionManager :=
  m.withPartition partitionId (· = .migrating) (·.activate epoch) fun m =>
    { m with currentEpoch := epoch }.updateGlobalStateRoot c

def deletePartition (c : Crypto) (m : PartitionManager) (delete : PartitionDelete) :
    Except PartitionError Unit × PartitionManager :=
  m.withPartition delete.partitionId (fun status => status = .frozen ∨ status = .active) (·.delete)
    fun m => (m.pushOperation (.delete delete)).updateGlobalStateRoot c

def freezePartition (c : Crypto) (m : PartitionManager) (partitionId : UInt32) :
    Except PartitionError Unit × PartitionManager :=
  m.withPartition partitionId (· = .active) (·.freeze) (·.updateGlobalStateRoot c)

def rebalancePartition (m : PartitionManager) (rebalance : PartitionRebalance) :
    Except PartitionError Unit × PartitionManager :=
  m.withPartition rebalance.partitionId (· = .active)
    (fun partition => { partition with
      validatorSubset := some rebalance.newValidatorSubset, epoch := rebalance.epoch })
    (·.pushOperation (.rebalance rebalance))

def advanceEpoch (m : PartitionManager) (newEpoch : UInt64) : PartitionManager :=
  { m with currentEpoch := newEpoch }

-- ---------------------------------------------------------------------------
-- Runs
-- ---------------------------------------------------------------------------

inductive Op where
  | createPartition (create : PartitionCreate) (validators : List (Bytes 32))
  | activatePartition (partitionId : UInt32) (epoch : UInt64)
  | migratePartition (sourceId targetId : UInt32) (migration : PartitionMigration)
  | completeMigration (partitionId : UInt32) (epoch : UInt64)
  | deletePartition (delete : PartitionDelete)
  | freezePartition (partitionId : UInt32)
  | rebalancePartition (rebalance : PartitionRebalance)
  | advanceEpoch (newEpoch : UInt64)
  deriving DecidableEq

def call (c : Crypto) (m : PartitionManager) : Op → Except PartitionError Unit × PartitionManager
  | .createPartition create validators =>
    let (result, m) := m.createPartition c create validators
    (result.map fun _ => (), m)
  | .activatePartition partitionId epoch => m.activatePartition c partitionId epoch
  | .migratePartition sourceId targetId migration => m.migratePartition sourceId targetId migration
  | .completeMigration partitionId epoch => m.completeMigration c partitionId epoch
  | .deletePartition delete => m.deletePartition c delete
  | .freezePartition partitionId => m.freezePartition c partitionId
  | .rebalancePartition rebalance => m.rebalancePartition rebalance
  | .advanceEpoch newEpoch => (.ok (), m.advanceEpoch newEpoch)

def step (c : Crypto) (m : PartitionManager) (op : Op) : PartitionManager := (m.call c op).2

def Succeeds (c : Crypto) (m : PartitionManager) (op : Op) : Prop := (m.call c op).1 = .ok ()

instance (c : Crypto) (m : PartitionManager) (op : Op) : Decidable (Succeeds c m op) :=
  decidable_of_iff ((m.call c op).1.toOption = some ()) <| by
    unfold Succeeds
    cases (m.call c op).1 <;> simp [Except.toOption]

def run (c : Crypto) (ops : List Op) : PartitionManager := Trace.exec (step c) new ops

-- ---------------------------------------------------------------------------
-- What a call writes
-- ---------------------------------------------------------------------------

namespace Op

/-- The one partition that the call changes. -/
def inPlace : Op → Option UInt32
  | .activatePartition partitionId _ => some partitionId
  | .completeMigration partitionId _ => some partitionId
  | .deletePartition delete => some delete.partitionId
  | .freezePartition partitionId => some partitionId
  | .rebalancePartition rebalance => some rebalance.partitionId
  | _ => none

/-- What an accepted call adds to the pending operations. -/
def logged : Op → List PartitionOperation
  | .createPartition create _ => [.create create]
  | .migratePartition _ _ migration => [.migrate migration]
  | .deletePartition delete => [.delete delete]
  | .rebalancePartition rebalance => [.rebalance rebalance]
  | _ => []

/-- The calls that compute the hash of all roots anew. -/
def refreshes : Op → Bool
  | .activatePartition _ _ | .completeMigration _ _ | .deletePartition _ | .freezePartition _ =>
    true
  | _ => false

end Op

inductive Transition : PartitionStatus → PartitionStatus → Prop
  | activate : Transition .pending .active
  | migrate : Transition .active .migrating
  | complete : Transition .migrating .active
  | freeze : Transition .active .frozen
  | delete : Transition .active .deleted
  | deleteFrozen : Transition .frozen .deleted

/-- The partitions after a call that succeeds. -/
inductive Writes (c : Crypto) (m : PartitionManager) : Op → Map UInt32 Partition → Prop
  | created {create : PartitionCreate} {validators : List (Bytes 32)}
      (hnew : m.partitions.get create.newPartitionId = none)
      (hverified : create.verifySignatures c validators = true) :
      Writes c m (.createPartition create validators)
        (m.partitions.insert create.newPartitionId (.new create.newPartitionId m.currentEpoch))
  | migrated {source target : UInt32} {migration : PartitionMigration} {p : Partition}
      (hget : m.partitions.get source = some p) (hactive : p.status = .active) :
      Writes c m (.migratePartition source target migration)
        ((m.partitions.insert source p.markMigrating).modify target (receive migration))
  | changed {op : Op} {id : UInt32} {p q : Partition} (hop : op.inPlace = some id)
      (hget : m.partitions.get id = some p)
      (hstatus : q.status = p.status ∨ Transition p.status q.status)
      (hroot : q.stateRoot = p.stateRoot) : Writes c m op (m.partitions.insert id q)
  | advanced {newEpoch : UInt64} : Writes c m (.advanceEpoch newEpoch) m.partitions

variable {c : Crypto} {m : PartitionManager}

theorem withPartition_cases (m : PartitionManager) (id : UInt32) (allowed : PartitionStatus → Bool)
    (change : Partition → Partition) (rest : PartitionManager → PartitionManager) :
    ((∀ p, m.partitions.get id = some p → allowed p.status = false) ∧
      ∃ e, m.withPartition id allowed change rest = (.error e, m)) ∨
    ∃ p, m.partitions.get id = some p ∧ allowed p.status = true ∧
      m.withPartition id allowed change rest =
        (.ok (), rest { m with partitions := m.partitions.insert id (change p) }) := by
  unfold withPartition
  cases m.partitions.get id with
  | none => exact .inl ⟨fun _ hp => (nomatch hp), _, rfl⟩
  | some p =>
    cases hallowed : allowed p.status with
    | false =>
      refine .inl ⟨?_, .invalidStateTransition, by simp [hallowed]⟩
      rintro _ ⟨⟩
      exact hallowed
    | true => exact .inr ⟨p, rfl, hallowed, by simp [hallowed]⟩

theorem createPartition_cases (c : Crypto) (m : PartitionManager) (create : PartitionCreate)
    (validators : List (Bytes 32)) :
    (∃ e, m.createPartition c create validators = (.error e, m) ∧
      (m.partitions.get create.newPartitionId = none →
        create.verifySignatures c validators = false)) ∨
    (m.partitions.get create.newPartitionId = none ∧
      create.verifySignatures c validators = true ∧
      m.createPartition c create validators =
        (.ok (.new create.newPartitionId m.currentEpoch),
          { m with
            partitions := m.partitions.insert create.newPartitionId
              (.new create.newPartitionId m.currentEpoch)
            pendingOperations := m.pendingOperations ++ [.create create] })) := by
  unfold createPartition pushOperation
  cases m.partitions.get create.newPartitionId with
  | some p => exact .inl ⟨.partitionExists, rfl, by rintro ⟨⟩⟩
  | none =>
    cases create.verifySignatures c validators with
    | false => exact .inl ⟨.insufficientSignatures, rfl, fun _ => rfl⟩
    | true => exact .inr ⟨rfl, rfl, rfl⟩

/-- A call is refused and changes nothing, or it writes some partitions, logs itself and
keeps the hash of all roots or computes it anew. -/
theorem call_cases (c : Crypto) (m : PartitionManager) (op : Op) :
    (∃ e, m.call c op = (.error e, m)) ∨
    ∃ m', m.call c op = (.ok (), m') ∧ Writes c m op m'.partitions ∧
      m'.pendingOperations = m.pendingOperations ++ op.logged ∧
      m'.globalStateRoot =
        if op.refreshes then c.blake3 m'.rootPreimage else m.globalStateRoot := by
  cases op with
  | createPartition create validators =>
    have hcall : m.call c (.createPartition create validators) =
      ((m.createPartition c create validators).1.map fun _ => (),
        (m.createPartition c create validators).2) := rfl
    rcases createPartition_cases c m create validators with ⟨e, heq, -⟩ | ⟨hnew, hverified, heq⟩
    · rw [heq] at hcall
      exact .inl ⟨e, hcall⟩
    · rw [heq] at hcall
      exact .inr ⟨_, hcall, .created hnew hverified, rfl, rfl⟩
  | activatePartition partitionId epoch =>
    rcases m.withPartition_cases partitionId (· = .pending) (·.activate epoch) fun m =>
      { m with currentEpoch := epoch }.updateGlobalStateRoot c with ⟨-, e, heq⟩ | ⟨p, hget, hst, heq⟩
    · exact .inl ⟨e, heq⟩
    · have hpending : p.status = .pending := of_decide_eq_true hst
      refine .inr ⟨_, heq, .changed rfl hget (.inr ?_) rfl, (List.append_nil _).symm, rfl⟩
      rw [hpending]
      exact .activate
  | migratePartition sourceId targetId migration =>
    rcases m.withPartition_cases sourceId (· = .active) (·.markMigrating) fun m =>
      { m with partitions := m.partitions.modify targetId (receive migration) }.pushOperation
        (.migrate migration) with ⟨-, e, heq⟩ | ⟨p, hget, hst, heq⟩
    · exact .inl ⟨e, heq⟩
    · exact .inr ⟨_, heq, .migrated hget (of_decide_eq_true hst), rfl, rfl⟩
  | completeMigration partitionId epoch =>
    rcases m.withPartition_cases partitionId (· = .migrating) (·.activate epoch) fun m =>
      { m with currentEpoch := epoch }.updateGlobalStateRoot c with ⟨-, e, heq⟩ | ⟨p, hget, hst, heq⟩
    · exact .inl ⟨e, heq⟩
    · have hmigrating : p.status = .migrating := of_decide_eq_true hst
      refine .inr ⟨_, heq, .changed rfl hget (.inr ?_) rfl, (List.append_nil _).symm, rfl⟩
      rw [hmigrating]
      exact .complete
  | deletePartition delete =>
    rcases m.withPartition_cases delete.partitionId (fun st => st = .frozen ∨ st = .active)
      (·.delete) fun m => (m.pushOperation (.delete delete)).updateGlobalStateRoot c
      with ⟨-, e, heq⟩ | ⟨p, hget, hst, heq⟩
    · exact .inl ⟨e, heq⟩
    · refine .inr ⟨_, heq, .changed rfl hget (.inr ?_) rfl, rfl, rfl⟩
      rcases of_decide_eq_true hst with hfrozen | hactive
      · rw [hfrozen]
        exact .deleteFrozen
      · rw [hactive]
        exact .delete
  | freezePartition partitionId =>
    rcases m.withPartition_cases partitionId (· = .active) (·.freeze) (·.updateGlobalStateRoot c)
      with ⟨-, e, heq⟩ | ⟨p, hget, hst, heq⟩
    · exact .inl ⟨e, heq⟩
    · have hactive : p.status = .active := of_decide_eq_true hst
      refine .inr ⟨_, heq, .changed rfl hget (.inr ?_) rfl, (List.append_nil _).symm, rfl⟩
      rw [hactive]
      exact .freeze
  | rebalancePartition rebalance =>
    rcases m.withPartition_cases rebalance.partitionId (· = .active)
      (fun partition => { partition with
        validatorSubset := some rebalance.newValidatorSubset, epoch := rebalance.epoch })
      (·.pushOperation (.rebalance rebalance)) with ⟨-, e, heq⟩ | ⟨p, hget, -, heq⟩
    · exact .inl ⟨e, heq⟩
    · exact .inr ⟨_, heq, .changed rfl hget (.inl rfl) rfl, rfl, rfl⟩
  | advanceEpoch newEpoch =>
    exact .inr ⟨_, rfl, .advanced, (List.append_nil _).symm, rfl⟩

theorem step_cases (c : Crypto) (m : PartitionManager) (op : Op) :
    (¬ Succeeds c m op ∧ step c m op = m) ∨
    (Succeeds c m op ∧ Writes c m op (step c m op).partitions ∧
      (step c m op).pendingOperations = m.pendingOperations ++ op.logged ∧
      (step c m op).globalStateRoot =
        if op.refreshes then c.blake3 (step c m op).rootPreimage else m.globalStateRoot) := by
  unfold Succeeds step
  rcases call_cases c m op with ⟨e, heq⟩ | ⟨m', heq, hwrites, hpending, hroot⟩
  · rw [heq]
    exact .inl ⟨by rintro ⟨⟩, rfl⟩
  · rw [heq]
    exact .inr ⟨rfl, hwrites, hpending, hroot⟩

theorem get_migrated {source target id : UInt32} {migration : PartitionMigration} {p : Partition} :
    ((m.partitions.insert source p.markMigrating).modify target (receive migration)).get id =
      if id = source then some p.markMigrating
      else if id = target then (m.partitions.get id).map (receive migration)
      else m.partitions.get id := by
  rw [Map.get_modify]
  by_cases hs : id = source
  · subst hs
    rw [if_pos rfl, Map.get_insert_self]
    split
    · rename_i ht
      subst ht
      rw [Map.get_insert_self]
      rfl
    · rfl
  · rw [if_neg hs, Map.get_insert_ne _ _ hs]
    split
    · rename_i ht
      subst ht
      rw [Map.get_insert_ne _ _ hs]
    · rfl

end PartitionManager

end LiteVision.Storage
