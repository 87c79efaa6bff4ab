import LiteVision.Truth.Block
import LiteVision.Truth.Settlement
import Mathlib.Data.Finset.Sort

/-!
# The chain state

`State` of `state.rs` and the transactions applied to it. A handler returns its
result with the state it leaves, so that what an error leaves behind is a matter
of proof. Payload fields are read at fixed offsets, once the payload is known to
be long enough.
-/

namespace LiteVision.Truth

open Lib

structure Receipt where
  id : Bytes 32
  jobId : Bytes 32
  operatorId : Bytes 32
  outputHash : Bytes 32
  computeUsed : UInt64
  fee : UInt64
  settled : Bool
  deriving DecidableEq

namespace Receipt

def new (c : Crypto) (jobId operatorId outputHash : Bytes 32) (computeUsed fee : UInt64) :
    Receipt where
  id := c.blake3 (jobId.val ++ operatorId.val)
  jobId
  operatorId
  outputHash
  computeUsed
  fee
  settled := false

def settle (receipt : Receipt) : Receipt := { receipt with settled := true }

end Receipt

structure State where
  version : UInt64
  height : UInt64
  stateRoot : Bytes 32
  validatorSetRoot : Bytes 32
  settlement : SettlementState
  intelligenceReceipts : Map (Bytes 32) Receipt
  deriving DecidableEq

namespace State

/-- `STATE_VERSION`. -/
def stateVersion : UInt64 := 2

def new : State where
  version := stateVersion
  height := 0
  stateRoot := .fill 32 0
  validatorSetRoot := .fill 32 0
  settlement := .new
  intelligenceReceipts := .empty

-- ---------------------------------------------------------------------------
-- Handlers
-- ---------------------------------------------------------------------------

/-- Payload: job id, kernel id, budget, deadline. -/
def applyJobSubmit (tx : Transaction) (s : State) : Except StateError Unit × State :=
  if h : tx.payload.length < 80 then (.error .invalidTransaction, s)
  else
    let jobId := Bytes.slice tx.payload 0 32 (by omega)
    let budget := Bytes.toU64 (Bytes.slice tx.payload 64 8 (by omega))
    (.ok (), { s with settlement := s.settlement.createEscrow jobId tx.sender budget s.height 500 })

/-- Payload: receipt id, output hash. The sender stands in for the job id. -/
def applyJobSettle (c : Crypto) (tx : Transaction) (s : State) : Except StateError Unit × State :=
  if h : tx.payload.length < 64 then (.error .invalidTransaction, s)
  else
    let jobId := tx.sender
    let settlement := { s.settlement with
      jobEscrows := s.settlement.jobEscrows.modify jobId fun escrow =>
        (escrow.release tx.sender).2 }
    let outputHash := Bytes.slice tx.payload 32 32 (by omega)
    let receipt := ReceiptAnchor.new c jobId tx.sender outputHash (.fill 32 0) 0 s.height
    (.ok (), { s with settlement := settlement.anchorReceipt receipt })

/-- Payload: content hash, size. Nothing is stored. -/
def applyArtifactCommit (tx : Transaction) (s : State) : Except StateError Unit × State :=
  if tx.payload.length < 40 then (.error .invalidTransaction, s) else (.ok (), s)

/-- Payload: operator id, public key, stake, region. -/
def applyOperatorRegister (tx : Transaction) (s : State) : Except StateError Unit × State :=
  if h : tx.payload.length < 72 then (.error .invalidTransaction, s)
  else
    let stake := Bytes.toU64 (Bytes.slice tx.payload 64 8 (by omega))
    let operator : OperatorState :=
      { id := Bytes.slice tx.payload 0 32 (by omega)
        pubkey := Bytes.slice tx.payload 32 32 (by omega)
        stake := max tx.fee stake
        reputation := 1000
        status := .active
        region := "global"
        capabilities := []
        slashedCount := 0
        totalJobsCompleted := 0
        totalComputeUnits := 0
        lastUpdateBlock := s.height }
    let registry := s.settlement.operatorRegistry.register operator
    (.ok (), { s with settlement := { s.settlement with operatorRegistry := registry } })

/-- Payload: operator id. Nothing is stored. -/
def applyOperatorUpdate (tx : Transaction) (s : State) : Except StateError Unit × State :=
  if h : tx.payload.length < 32 then (.error .invalidTransaction, s)
  else
    let operatorId := Bytes.slice tx.payload 0 32 (by omega)
    if s.settlement.operatorRegistry.isActive operatorId then (.ok (), s)
    else (.error .operatorNotActive, s)

/-- Payload: target operator, delta. -/
def applyReputationUpdate (tx : Transaction) (s : State) : Except StateError Unit × State :=
  if h : tx.payload.length < 40 then (.error .invalidTransaction, s)
  else
    let target := Bytes.slice tx.payload 0 32 (by omega)
    let delta := Bytes.toI64 (Bytes.slice tx.payload 32 8 (by omega))
    let registry :=
      if 0 ≤ delta then s.settlement.operatorRegistry.increaseReputation target delta.toUInt64
      else s.settlement.operatorRegistry.decreaseReputation target (-delta).toUInt64
    (.ok (), { s with settlement := { s.settlement with operatorRegistry := registry } })

/-- Payload: job id, amount. -/
def applyEscrowDeposit (tx : Transaction) (s : State) : Except StateError Unit × State :=
  if h : tx.payload.length < 40 then (.error .invalidTransaction, s)
  else
    let jobId := Bytes.slice tx.payload 0 32 (by omega)
    let amount := Bytes.toU64 (Bytes.slice tx.payload 32 8 (by omega))
    (.ok (), { s with settlement := s.settlement.createEscrow jobId tx.sender amount s.height 500 })

/-- Payload: job id, recipient. -/
def applyEscrowRelease (tx : Transaction) (s : State) : Except StateError Unit × State :=
  if h : tx.payload.length < 64 then (.error .invalidTransaction, s)
  else
    let jobId := Bytes.slice tx.payload 0 32 (by omega)
    let recipient := Bytes.slice tx.payload 32 32 (by omega)
    let (paid, settlement) := s.settlement.releaseEscrow jobId recipient
    (paid.map fun _ => (), { s with settlement })

/-- Payload: job id. -/
def applyEscrowRefund (tx : Transaction) (s : State) : Except StateError Unit × State :=
  if h : tx.payload.length < 32 then (.error .invalidTransaction, s)
  else
    let jobId := Bytes.slice tx.payload 0 32 (by omega)
    let (refunded, settlement) := s.settlement.refundEscrow jobId
    (refunded.map fun _ => (), { s with settlement })

/-- Payload: operator id, compute used, output hash; what is missing is zero. -/
def applyIntelligenceSubmit (c : Crypto) (tx : Transaction) (s : State) :
    Except StateError Unit × State :=
  let operatorId := (Bytes.slice? tx.payload 0 32).getD (.fill 32 0)
  let computeUsed := ((Bytes.slice? tx.payload 32 8).map Bytes.toU64).getD 0
  let outputHash := (Bytes.slice? tx.payload 40 32).getD (.fill 32 0)
  let receipt := Receipt.new c tx.sender operatorId outputHash computeUsed tx.fee
  (.ok (), { s with intelligenceReceipts := s.intelligenceReceipts.insert receipt.id receipt })

/-- Payload: receipt id. -/
def applyIntelligenceSettle (tx : Transaction) (s : State) : Except StateError Unit × State :=
  match Bytes.slice? tx.payload 0 32 with
  | none => (.error .invalidTransaction, s)
  | some receiptId =>
    match s.intelligenceReceipts.get receiptId with
    | none => (.error .invalidTransaction, s)
    | some receipt =>
      if receipt.settled then (.ok (), s)
      else
        (.ok (), { s with
          intelligenceReceipts := s.intelligenceReceipts.insert receiptId receipt.settle })

-- ---------------------------------------------------------------------------
-- Transactions and blocks
-- ---------------------------------------------------------------------------

/-- The signature check. A sender that is not registered, or registered with the
zero key, passes it, and so does an empty signature. -/
def authorize (c : Crypto) (tx : Transaction) (s : State) : Except StateError Unit :=
  match tx.txType with
  | .governanceVote | .transfer => .ok ()
  | _ =>
    let senderPubkey := match s.settlement.operatorRegistry.get tx.sender with
      | some operator => operator.pubkey
      | none => .fill 32 0
    if tx.signature.isEmpty then .ok ()
    else if senderPubkey = .fill 32 0 then .ok ()
    else (tx.verifyAuthorization c senderPubkey).mapError fun _ => .invalidTransaction

def handle (c : Crypto) (tx : Transaction) (s : State) : Except StateError Unit × State :=
  match tx.txType with
  | .jobSubmit => applyJobSubmit tx s
  | .jobSettle => applyJobSettle c tx s
  | .artifactCommit => applyArtifactCommit tx s
  | .operatorRegister => applyOperatorRegister tx s
  | .operatorUpdate => applyOperatorUpdate tx s
  | .reputationUpdate => applyReputationUpdate tx s
  | .escrowDeposit => applyEscrowDeposit tx s
  | .escrowRelease => applyEscrowRelease tx s
  | .escrowRefund => applyEscrowRefund tx s
  | .governanceVote | .transfer | .contractDeploy | .contractCall => (.ok (), s)
  | .intelligenceSubmit => applyIntelligenceSubmit c tx s
  | .intelligenceSettle => applyIntelligenceSettle tx s

def applyTransaction (c : Crypto) (tx : Transaction) (s : State) :
    Except StateError (Option Receipt) × State :=
  match tx.verify with
  | .error _ => (.error .invalidTransaction, s)
  | .ok () =>
    match authorize c tx s with
    | .error err => (.error err, s)
    | .ok () =>
      match handle c tx s with
      | (.error err, s) => (.error err, s)
      | (.ok (), s) => (.ok none, s)

def applyBlockTransactions.loop (c : Crypto) (results : List (Option Receipt)) :
    List Transaction → State → Except StateError (List (Option Receipt)) × State
  | [], s => (.ok results, s)
  | tx :: txs, s =>
    match applyTransaction c tx s with
    | (.ok receipt, s) => loop c (results ++ [receipt]) txs s
    | (.error err, s) => (.error err, s)

def applyBlockTransactions (c : Crypto) (txs : List Transaction) (s : State) :
    Except StateError (List (Option Receipt)) × State :=
  applyBlockTransactions.loop c [] txs s

/-- The bytes hashed into the root: counts and keys, but none of the values. -/
def rootPreimage (s : State) : List UInt8 :=
  let escrows := s.settlement.jobEscrows.keys
  let operators := s.settlement.operatorRegistry.operators.keys
  let anchors := s.settlement.receiptAnchors.keys
  (Bytes.ofU64 s.version).val ++ (Bytes.ofU64 s.height).val ++ s.validatorSetRoot.val ++
    (Bytes.ofU64 (.ofNat escrows.card)).val ++ (Bytes.ofU64 (.ofNat operators.card)).val ++
    (Bytes.ofU64 (.ofNat anchors.card)).val ++
    (escrows.sort (· ≤ ·)).flatMap Subtype.val ++ (operators.sort (· ≤ ·)).flatMap Subtype.val

def rootHash (c : Crypto) (s : State) : Bytes 32 := c.blake3 s.rootPreimage

def computeStateRoot (c : Crypto) (s : State) : State := { s with stateRoot := s.rootHash c }

def incrementHeight (s : State) : State := { s with height := s.height + 1 }

end State

end LiteVision.Truth
