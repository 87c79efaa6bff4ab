import LiteVision.Bytes

/-!
# Transactions

The transaction record, its format check and its authorization check, as in
`transaction.rs`.
-/

namespace LiteVision.Truth

inductive TransactionType
  | jobSubmit
  | jobSettle
  | artifactCommit
  | operatorRegister
  | operatorUpdate
  | reputationUpdate
  | escrowDeposit
  | escrowRelease
  | escrowRefund
  | governanceVote
  | transfer
  | contractDeploy
  | contractCall
  | intelligenceSubmit
  | intelligenceSettle
  deriving DecidableEq, Repr

inductive TxError
  | invalidFormat
  | unsupportedTxType
  | invalidSignature
  | invalidSender
  | invalidPayload
  | expired
  deriving DecidableEq, Repr

structure Transaction where
  id : Bytes 32
  sender : Bytes 32
  txType : TransactionType
  payload : List UInt8
  nonce : UInt64
  fee : UInt64
  signature : List UInt8
  deriving DecidableEq

namespace Transaction

-- ---------------------------------------------------------------------------
-- Builders
-- ---------------------------------------------------------------------------

/-- The common part of the builders: the id is the hash of the payload. -/
def build (c : Crypto) (sender : Bytes 32) (txType : TransactionType) (payload : List UInt8)
    (fee : UInt64) : Transaction where
  id := c.blake3 payload
  sender
  txType
  payload
  nonce := 0
  fee
  signature := []

def newJobSubmit (c : Crypto) (jobId kernelId : Bytes 32) (budget deadline : UInt64) : Transaction :=
  build c (.fill 32 0) .jobSubmit
    (jobId.val ++ kernelId.val ++ (Bytes.ofU64 budget).val ++ (Bytes.ofU64 deadline).val) 0

def newJobSettle (c : Crypto) (receiptId outputHash : Bytes 32) : Transaction :=
  build c (.fill 32 0) .jobSettle (receiptId.val ++ outputHash.val) 0

def newArtifactCommit (c : Crypto) (contentHash : Bytes 32) (sizeBytes : UInt64) : Transaction :=
  build c (.fill 32 0) .artifactCommit (contentHash.val ++ (Bytes.ofU64 sizeBytes).val) 0

/-- The stake is also the fee. -/
def newOperatorRegister (c : Crypto) (operatorId pubkey : Bytes 32) (stake : UInt64)
    (region : String) : Transaction :=
  build c operatorId .operatorRegister
    (operatorId.val ++ pubkey.val ++ (Bytes.ofU64 stake).val ++ region.toUTF8.toList) stake

def newReputationUpdate (c : Crypto) (target : Bytes 32) (delta : Int64) : Transaction :=
  build c (.fill 32 0) .reputationUpdate (target.val ++ (Bytes.ofU64 delta.toUInt64).val) 0

/-- The amount is also the fee. -/
def newEscrowDeposit (c : Crypto) (jobId : Bytes 32) (amount : UInt64) : Transaction :=
  build c (.fill 32 0) .escrowDeposit (jobId.val ++ (Bytes.ofU64 amount).val) amount

def newEscrowRelease (c : Crypto) (jobId recipient : Bytes 32) : Transaction :=
  build c (.fill 32 0) .escrowRelease (jobId.val ++ recipient.val) 0

def newEscrowRefund (c : Crypto) (jobId : Bytes 32) : Transaction :=
  build c (.fill 32 0) .escrowRefund jobId.val 0

-- ---------------------------------------------------------------------------
-- Checks
-- ---------------------------------------------------------------------------

/-- The format check: every type but `Transfer` needs a payload. -/
def verify (tx : Transaction) : Except TxError Unit :=
  match tx.txType with
  | .jobSubmit | .jobSettle | .artifactCommit | .operatorRegister | .operatorUpdate
  | .reputationUpdate | .escrowDeposit | .escrowRelease | .escrowRefund | .governanceVote =>
    if tx.payload.isEmpty then .error .invalidPayload else .ok ()
  | .transfer | .contractDeploy | .contractCall | .intelligenceSubmit | .intelligenceSettle =>
    if tx.payload.isEmpty ∧ tx.txType ≠ .transfer then .error .invalidFormat else .ok ()

/-- What the signature is over: sender, nonce and payload. -/
def message (c : Crypto) (tx : Transaction) : Bytes 32 :=
  c.blake3 (tx.sender.val ++ (Bytes.ofU64 tx.nonce).val ++ tx.payload)

def messagePreimage (tx : Transaction) : List UInt8 :=
  tx.sender.val ++ (Bytes.ofU64 tx.nonce).val ++ tx.payload

theorem messagePreimage_inj {tx tx' : Transaction} (h : tx.messagePreimage = tx'.messagePreimage) :
    tx.sender = tx'.sender ∧ tx.nonce = tx'.nonce ∧ tx.payload = tx'.payload := by
  unfold messagePreimage at h
  rw [List.append_assoc, List.append_assoc] at h
  obtain ⟨hsender, hrest⟩ := Bytes.append_inj h
  obtain ⟨hnonce, hpayload⟩ := Bytes.append_inj hrest
  exact ⟨hsender, Bytes.ofU64_inj hnonce, hpayload⟩

def verifyAuthorization (c : Crypto) (tx : Transaction) (pubkey : Bytes 32) : Except TxError Unit :=
  if tx.signature.isEmpty then .error .invalidSignature
  else if h : tx.signature.length = 64 then
    if c.ed25519Verify pubkey (tx.message c) ⟨tx.signature, h⟩ then .ok ()
    else .error .invalidSignature
  else .error .invalidSignature

end Transaction

end LiteVision.Truth
