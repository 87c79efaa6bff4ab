import LiteVision.Bytes
import LiteVision.Lib.Map

/-!
# Settlement

Escrows, the operator registry and the anchored receipts of `settlement.rs`.
A method on `&mut self` returns the new value; one that can fail returns its
error together with the value it leaves.
-/

namespace LiteVision.Truth

open Lib

inductive StateError
  | accountNotFound
  | insufficientBalance
  | invalidNonce
  | invalidTransaction
  | invalidReceiver
  | invalidSender
  | operatorNotFound
  | operatorNotActive
  | escrowNotFound
  | escrowNotActive
  | insufficientStake
  | receiptNotFound
  | outsideChallengeWindow
  deriving DecidableEq, Repr

def StateError.display : StateError → String
  | .accountNotFound => "Account not found"
  | .insufficientBalance => "Insufficient balance"
  | .invalidNonce => "Invalid nonce"
  | .invalidTransaction => "Invalid transaction"
  | .invalidReceiver => "Invalid receiver"
  | .invalidSender => "Invalid sender"
  | .operatorNotFound => "Operator not found"
  | .operatorNotActive => "Operator not active"
  | .escrowNotFound => "Escrow not found"
  | .escrowNotActive => "Escrow not active"
  | .insufficientStake => "Insufficient stake"
  | .receiptNotFound => "Receipt not found"
  | .outsideChallengeWindow => "Outside challenge window"

-- ---------------------------------------------------------------------------
-- Escrows
-- ---------------------------------------------------------------------------

inductive EscrowStatus
  | active
  | frozen
  | released
  | refunded
  | partiallyReleased
  deriving DecidableEq, Repr

structure JobEscrow where
  jobId : Bytes 32
  clientId : Bytes 32
  amount : UInt64
  reservedForVerification : UInt64
  status : EscrowStatus
  createdAtBlock : UInt64
  deadlineBlock : UInt64
  deriving DecidableEq

namespace JobEscrow

def new (jobId clientId : Bytes 32) (amount verifierReservePercent currentBlock
    deadlineBlocks : UInt64) : JobEscrow where
  jobId
  clientId
  amount
  reservedForVerification := saturatingMul amount verifierReservePercent / 10000
  status := .active
  createdAtBlock := currentBlock
  deadlineBlock := saturatingAdd currentBlock deadlineBlocks

/-- The amount an active escrow gives out, and the escrow after. -/
def close (escrow : JobEscrow) (status : EscrowStatus) : UInt64 × JobEscrow :=
  if escrow.status ≠ .active then (0, escrow)
  else (escrow.amount, { escrow with status })

theorem close_active {escrow : JobEscrow} (h : escrow.status = .active)
    (status : EscrowStatus) : escrow.close status = (escrow.amount, { escrow with status }) := by
  simp [close, h]

theorem close_inactive {escrow : JobEscrow} (h : escrow.status ≠ .active)
    (status : EscrowStatus) : escrow.close status = (0, escrow) := by
  simp [close, h]

/-- The recipient is not looked at. -/
def release (escrow : JobEscrow) (_recipient : Bytes 32) : UInt64 × JobEscrow :=
  escrow.close .released

def refund (escrow : JobEscrow) : UInt64 × JobEscrow := escrow.close .refunded

def freeze (escrow : JobEscrow) : JobEscrow :=
  if escrow.status = .active then { escrow with status := .frozen } else escrow

def unfreeze (escrow : JobEscrow) : JobEscrow :=
  if escrow.status = .frozen then { escrow with status := .active } else escrow

end JobEscrow

-- ---------------------------------------------------------------------------
-- Operators
-- ---------------------------------------------------------------------------

inductive OperatorRegistrationStatus
  | registered
  | active
  | suspended
  | slashed
  | deregistered
  deriving DecidableEq, Repr

structure OperatorState where
  id : Bytes 32
  pubkey : Bytes 32
  stake : UInt64
  reputation : UInt64
  status : OperatorRegistrationStatus
  region : String
  capabilities : List (Bytes 32)
  slashedCount : UInt32
  totalJobsCompleted : UInt64
  totalComputeUnits : UInt64
  lastUpdateBlock : UInt64
  deriving DecidableEq

namespace OperatorState

def increaseReputation (operator : OperatorState) (delta : UInt64) : OperatorState :=
  let operator := { operator with reputation := min (operator.reputation + delta) 10000 }
  if operator.status = .suspended ∧ 1000 ≤ operator.reputation then
    { operator with status := .active }
  else operator

def decreaseReputation (operator : OperatorState) (delta : UInt64) : OperatorState :=
  let operator := { operator with reputation := saturatingSub operator.reputation delta }
  if operator.status = .active ∧ operator.reputation < 500 then
    { operator with status := .suspended }
  else operator

theorem increaseReputation_keeps (operator : OperatorState) (delta : UInt64) :
    (operator.increaseReputation delta).id = operator.id ∧
      (operator.increaseReputation delta).stake = operator.stake := by
  unfold increaseReputation
  dsimp only
  split <;> exact ⟨rfl, rfl⟩

theorem decreaseReputation_keeps (operator : OperatorState) (delta : UInt64) :
    (operator.decreaseReputation delta).id = operator.id ∧
      (operator.decreaseReputation delta).stake = operator.stake := by
  unfold decreaseReputation
  dsimp only
  split <;> exact ⟨rfl, rfl⟩

def slash (operator : OperatorState) (amount : UInt64) : OperatorState :=
  { operator with
    stake := saturatingSub operator.stake amount
    slashedCount := operator.slashedCount + 1
    status := .slashed }

end OperatorState

/-- `stakeIndex` maps a thousand of stake to the operators in it. -/
structure OperatorRegistry where
  operators : Map (Bytes 32) OperatorState
  stakeIndex : Map UInt64 (List (Bytes 32))
  deriving DecidableEq

namespace OperatorRegistry

def new : OperatorRegistry where
  operators := .empty
  stakeIndex := .empty

/-- `stake_index.entry(bucket).or_insert_with(Vec::new).push(id)`. -/
def pushStake (index : Map UInt64 (List (Bytes 32))) (bucket : UInt64) (id : Bytes 32) :
    Map UInt64 (List (Bytes 32)) :=
  index.insert bucket ((index.get bucket).getD [] ++ [id])

/-- `ids.retain(|i| *i != id)` on the bucket, if there is one. -/
def dropStake (index : Map UInt64 (List (Bytes 32))) (bucket : UInt64) (id : Bytes 32) :
    Map UInt64 (List (Bytes 32)) :=
  index.modify bucket fun ids => ids.filter (· ≠ id)

def register (r : OperatorRegistry) (operator : OperatorState) : OperatorRegistry where
  stakeIndex := pushStake r.stakeIndex (operator.stake / 1000) operator.id
  operators := r.operators.insert operator.id operator

def get (r : OperatorRegistry) (id : Bytes 32) : Option OperatorState := r.operators.get id

def isActive (r : OperatorRegistry) (id : Bytes 32) : Bool :=
  match r.operators.get id with
  | some operator => operator.status = .active
  | none => false

def updateStake (r : OperatorRegistry) (id : Bytes 32) (newStake : UInt64) :
    Except StateError Unit × OperatorRegistry :=
  match r.operators.get id with
  | none => (.error .operatorNotFound, r)
  | some operator =>
    let index := dropStake r.stakeIndex (operator.stake / 1000) operator.id
    (.ok (), {
      operators := r.operators.insert id { operator with stake := newStake }
      stakeIndex := pushStake index (newStake / 1000) operator.id })

def deactivate (r : OperatorRegistry) (id : Bytes 32) : OperatorRegistry :=
  { r with operators := r.operators.modify id fun operator =>
      { operator with status := .deregistered } }

/-- The bucket the id is taken out of is that of the stake that is left. -/
def slash (r : OperatorRegistry) (id : Bytes 32) (amount : UInt64) :
    Except StateError UInt64 × OperatorRegistry :=
  match r.operators.get id with
  | none => (.error .operatorNotFound, r)
  | some operator =>
    if operator.stake < amount then (.error .insufficientStake, r)
    else
      let operator := operator.slash amount
      let oldBucket := operator.stake / 1000
      (.ok amount, {
        operators := r.operators.insert id operator
        stakeIndex := dropStake r.stakeIndex oldBucket operator.id })

def increaseReputation (r : OperatorRegistry) (id : Bytes 32) (delta : UInt64) : OperatorRegistry :=
  { r with operators := r.operators.modify id fun operator => operator.increaseReputation delta }

def decreaseReputation (r : OperatorRegistry) (id : Bytes 32) (delta : UInt64) : OperatorRegistry :=
  { r with operators := r.operators.modify id fun operator => operator.decreaseReputation delta }

end OperatorRegistry

-- ---------------------------------------------------------------------------
-- Receipts and artifacts
-- ---------------------------------------------------------------------------

inductive ReceiptStatus
  | submitted
  | pendingVerification
  | verified
  | challenged
  | disputed
  | settled
  | rejected
  deriving DecidableEq, Repr

structure ReceiptAnchor where
  receiptId : Bytes 32
  jobId : Bytes 32
  operatorId : Bytes 32
  outputHash : Bytes 32
  inputHash : Bytes 32
  computeUsed : UInt64
  status : ReceiptStatus
  createdAtBlock : UInt64
  settledAtBlock : Option UInt64
  challengerId : Option (Bytes 32)
  deriving DecidableEq

def ReceiptAnchor.new (c : Crypto) (jobId operatorId outputHash inputHash : Bytes 32)
    (computeUsed currentBlock : UInt64) : ReceiptAnchor where
  receiptId := c.blake3
    (jobId.val ++ operatorId.val ++ outputHash.val ++ (Bytes.ofU64 currentBlock).val)
  jobId
  operatorId
  outputHash
  inputHash
  computeUsed
  status := .submitted
  createdAtBlock := currentBlock
  settledAtBlock := none
  challengerId := none

structure ArtifactCommitment where
  artifactId : Bytes 32
  contentHash : Bytes 32
  sizeBytes : UInt64
  creator : Bytes 32
  commitmentBlock : UInt64
  sealed : Bool
  deriving DecidableEq

structure SlashingConditions where
  minStake : UInt64
  slashPercentage : UInt64
  challengeWindowBlocks : UInt64
  doubleSigningWindowBlocks : UInt64
  maxChallengesBeforeSlash : UInt32
  deriving DecidableEq

/-- `SlashingConditions::default`. -/
def SlashingConditions.initial : SlashingConditions where
  minStake := 1000
  slashPercentage := 5000
  challengeWindowBlocks := 100
  doubleSigningWindowBlocks := 10
  maxChallengesBeforeSlash := 3

-- ---------------------------------------------------------------------------
-- The settlement state
-- ---------------------------------------------------------------------------

structure SettlementState where
  jobEscrows : Map (Bytes 32) JobEscrow
  operatorRegistry : OperatorRegistry
  receiptAnchors : Map (Bytes 32) ReceiptAnchor
  artifacts : Map (Bytes 32) ArtifactCommitment
  slashingConditions : SlashingConditions
  slashingPool : UInt64
  verifierRewards : Map (Bytes 32) UInt64
  deriving DecidableEq

namespace SettlementState

def new : SettlementState where
  jobEscrows := .empty
  operatorRegistry := .new
  receiptAnchors := .empty
  artifacts := .empty
  slashingConditions := .initial
  slashingPool := 0
  verifierRewards := .empty

/-- An escrow that is already there is replaced. -/
def createEscrow (s : SettlementState) (jobId clientId : Bytes 32)
    (amount currentBlock deadlineBlocks : UInt64) : SettlementState :=
  let escrow := JobEscrow.new jobId clientId amount 10 currentBlock deadlineBlocks
  { s with jobEscrows := s.jobEscrows.insert jobId escrow }

def getEscrow (s : SettlementState) (jobId : Bytes 32) : Option JobEscrow := s.jobEscrows.get jobId

/-- `release_escrow` and `refund_escrow` differ in the method they call. -/
def closeEscrow (s : SettlementState) (jobId : Bytes 32)
    (method : JobEscrow → UInt64 × JobEscrow) : Except StateError UInt64 × SettlementState :=
  match s.jobEscrows.get jobId with
  | none => (.error .escrowNotFound, s)
  | some escrow =>
    if escrow.status ≠ .active then (.error .escrowNotActive, s)
    else
      let (amount, escrow) := method escrow
      (.ok amount, { s with jobEscrows := s.jobEscrows.insert jobId escrow })

theorem closeEscrow_active {s : SettlementState} {jobId : Bytes 32} {escrow : JobEscrow}
    (hget : s.jobEscrows.get jobId = some escrow) (ha : escrow.status = .active)
    (method : JobEscrow → UInt64 × JobEscrow) :
    s.closeEscrow jobId method = (.ok (method escrow).1,
      { s with jobEscrows := s.jobEscrows.insert jobId (method escrow).2 }) := by
  simp [closeEscrow, hget, ha]

theorem closeEscrow_cases (s : SettlementState) (jobId : Bytes 32)
    (method : JobEscrow → UInt64 × JobEscrow) :
    (∃ err, s.closeEscrow jobId method = (.error err, s)) ∨
    ∃ escrow, s.jobEscrows.get jobId = some escrow ∧ escrow.status = .active := by
  cases he : s.jobEscrows.get jobId with
  | none => exact .inl ⟨.escrowNotFound, by simp [closeEscrow, he]⟩
  | some escrow =>
    by_cases ha : escrow.status = .active
    · exact .inr ⟨escrow, rfl, ha⟩
    · exact .inl ⟨.escrowNotActive, by simp [closeEscrow, he, ha]⟩

def releaseEscrow (s : SettlementState) (jobId recipient : Bytes 32) :
    Except StateError UInt64 × SettlementState :=
  s.closeEscrow jobId fun escrow => escrow.release recipient

def refundEscrow (s : SettlementState) (jobId : Bytes 32) :
    Except StateError UInt64 × SettlementState :=
  s.closeEscrow jobId JobEscrow.refund

def anchorReceipt (s : SettlementState) (receipt : ReceiptAnchor) : SettlementState :=
  { s with receiptAnchors := s.receiptAnchors.insert receipt.receiptId receipt }

def addSlashedToPool (s : SettlementState) (amount : UInt64) : SettlementState :=
  { s with slashingPool := s.slashingPool + amount }

/-- `*self.verifier_rewards.entry(*v).or_insert(0) += per_verifier`. -/
def credit (perVerifier : UInt64) (rewards : Map (Bytes 32) UInt64) (v : Bytes 32) :
    Map (Bytes 32) UInt64 :=
  rewards.insert v ((rewards.get v).getD 0 + perVerifier)

/-- The pool is debited before the division, whose remainder goes nowhere. No result stands
for the panic of a division by zero. -/
def distributeVerifierRewards (s : SettlementState) (verifiers : List (Bytes 32))
    (amount : UInt64) : Option (Except StateError Unit) × SettlementState :=
  if s.slashingPool < amount then (some (.error .insufficientBalance), s)
  else
    let s := { s with slashingPool := s.slashingPool - amount }
    if verifiers.length = 0 then (none, s)
    else
      let perVerifier := UInt64.ofNat (amount.toNat / verifiers.length)
      (some (.ok ()), { s with
        verifierRewards := verifiers.foldl (credit perVerifier) s.verifierRewards })

end SettlementState

end LiteVision.Truth
