import LiteVision.Bincode
import LiteVision.Lib.Map
import LiteVision.Lib.Trace

/-!
# Disputes

The engine of `dispute.rs`: a challenger disputes the receipt of a job with a fraud
proof and a bond, the dispute is escalated, verified, resolved and perhaps appealed.
The engine also keeps the escrows of the jobs, the bonds frozen for each challenger
and the disputes of each job.
-/

namespace LiteVision.Intelligence

open Lib

-- ---------------------------------------------------------------------------
-- Records
-- ---------------------------------------------------------------------------

structure ResourceMetricsSnapshot where
  gpuCycles : UInt64
  vramBytes : UInt64
  cpuCycles : UInt64
  memoryBytes : UInt64
  bandwidthBytes : UInt64
  executionTimeMs : UInt64

structure EvidenceBundle where
  kernelBinaryHash : Bytes 32
  inputDataSnapshot : List UInt8
  executionLogs : List UInt8
  resourceMetrics : ResourceMetricsSnapshot

structure FraudProof where
  receiptHash : Bytes 32
  operatorId : Bytes 32
  recomputedOutputHash : Bytes 32
  originalOutputHash : Bytes 32
  kernelId : Bytes 32
  inputHash : Bytes 32
  deterministicSeed : Option (Bytes 32)
  evidenceBundle : EvidenceBundle
  challengerSignature : List UInt8

inductive DisputeStatus where
  | pending
  | validationPhase
  | verificationEscalation
  | adjudicating
  | resolved
  | appealed
  | canceled
  deriving DecidableEq

inductive DisputeOutcome where
  | fraudConfirmed
  | fraudRejected
  | inconclusive
  deriving DecidableEq

structure DisputeResolution where
  outcome : DisputeOutcome
  slashedAmount : UInt64
  challengerShare : UInt64
  verifierShare : UInt64
  treasuryShare : UInt64
  operatorPenalty : UInt64
  resolutionBlock : UInt64
  deriving DecidableEq

inductive AppealReason where
  | proceduralError
  | evidenceCorruption
  | governanceReview
  deriving DecidableEq

structure Appeal where
  reason : AppealReason
  newEvidence : Option EvidenceBundle
  appealBond : UInt64
  createdAtBlock : UInt64
  windowBlocks : UInt64

structure Dispute where
  id : Bytes 32
  jobId : Bytes 32
  receiptHash : Bytes 32
  fraudProof : FraudProof
  challengerId : Bytes 32
  challengerBond : UInt64
  status : DisputeStatus
  createdAtBlock : UInt64
  verificationWindowBlocks : UInt64
  resolution : Option DisputeResolution
  appeal : Option Appeal
  verificationLevel : UInt8

structure VerifierSignature where
  verifierId : Bytes 32
  signature : List UInt8
  deriving DecidableEq

structure VerificationResult where
  jobId : Bytes 32
  receiptHash : Bytes 32
  recomputedOutputHash : Bytes 32
  verificationSignatures : List VerifierSignature
  verificationLevel : UInt8
  deriving DecidableEq

structure SlashDistribution where
  challengerShareRatio : UInt64
  verifierShareRatio : UInt64
  treasuryShareRatio : UInt64
  deriving DecidableEq

def SlashDistribution.initial : SlashDistribution where
  challengerShareRatio := 3000
  verifierShareRatio := 3000
  treasuryShareRatio := 4000

inductive EscrowStatus where
  | active
  | frozen
  | released
  | refunded
  | partiallyRefunded
  deriving DecidableEq

structure EscrowState where
  jobId : Bytes 32
  amount : UInt64
  status : EscrowStatus
  recipient : Option (Bytes 32)
  deriving DecidableEq

inductive DisputeError where
  | insufficientBond
  | outsideDisputeWindow
  | disputeAlreadyExists
  | disputeNotFound
  | invalidDisputeState
  | serializationError
  | outsideAppealWindow
  deriving DecidableEq

structure DisputeEngine where
  minChallengerBond : UInt64
  governanceMinSlash : UInt64
  slashAlphaRatio : UInt64
  slashBetaRatio : UInt64
  slashDistribution : SlashDistribution
  disputes : Map (Bytes 32) Dispute
  jobEscrow : Map (Bytes 32) EscrowState
  frozenBonds : Map (Bytes 32) UInt64
  disputesByJob : Map (Bytes 32) (List (Bytes 32))

/-- `bincode::serialize` of the parts of an id comes from outside as well. -/
structure DisputeCrypto extends Crypto where
  serialize : Bytes 32 × Bytes 32 × Bytes 32 × UInt64 → List UInt8

-- ---------------------------------------------------------------------------
-- The states of a dispute
-- ---------------------------------------------------------------------------

/-- What decides a dispute: the two hashes the challenger has put in the proof. -/
def FraudProof.FraudConfirmed (proof : FraudProof) : Prop :=
  proof.recomputedOutputHash ≠ proof.originalOutputHash

instance (proof : FraudProof) : Decidable proof.FraudConfirmed :=
  inferInstanceAs (Decidable (proof.recomputedOutputHash ≠ proof.originalOutputHash))

namespace DisputeStatus

def next : DisputeStatus → Option DisputeStatus
  | .validationPhase => some .verificationEscalation
  | .verificationEscalation => some .adjudicating
  | .adjudicating => some .resolved
  | .resolved => some .appealed
  | _ => none

def Settled (status : DisputeStatus) : Prop := status = .resolved ∨ status = .appealed

instance : DecidablePred Settled := fun status =>
  inferInstanceAs (Decidable (status = .resolved ∨ status = .appealed))

end DisputeStatus

namespace Dispute

def preimage (c : DisputeCrypto) (jobId receiptHash challengerId : Bytes 32)
    (currentBlock : UInt64) : List UInt8 :=
  c.serialize (jobId, receiptHash, challengerId, currentBlock)

open Bincode in
def parts : Codec UInt8 (Bytes 32 × Bytes 32 × Bytes 32 × UInt64) :=
  (bytes 32).pair ((bytes 32).pair ((bytes 32).pair u64))

theorem injective_parts : Function.Injective parts.write := fun _ _ =>
  (Codec.write_eq_write_iff (by simp [parts]) (by simp [parts])).mp

def initiated (c : DisputeCrypto) (jobId receiptHash : Bytes 32) (fraudProof : FraudProof)
    (challengerId : Bytes 32) (challengerBond currentBlock verificationWindowBlocks : UInt64) :
    Dispute where
  id := c.blake3 (preimage c jobId receiptHash challengerId currentBlock)
  jobId := jobId
  receiptHash := receiptHash
  fraudProof := fraudProof
  challengerId := challengerId
  challengerBond := challengerBond
  status := .validationPhase
  createdAtBlock := currentBlock
  verificationWindowBlocks := verificationWindowBlocks
  resolution := none
  appeal := none
  verificationLevel := 0

def escalate (dispute : Dispute) (verificationLevel : UInt8) : Dispute :=
  { dispute with status := .verificationEscalation, verificationLevel }

def adjudicate (dispute : Dispute) : Dispute := { dispute with status := .adjudicating }

def resolve (dispute : Dispute) (resolution : DisputeResolution) : Dispute :=
  { dispute with status := .resolved, resolution := some resolution }

def submitAppeal (dispute : Dispute) (appeal : Appeal) : Dispute :=
  { dispute with appeal := some appeal, status := .appealed }

/-- A dispute and what one call can make of it. -/
inductive Moves (dispute : Dispute) : Dispute → Prop
  | escalate {verificationLevel : UInt8} (hstatus : dispute.status = .validationPhase) :
      Moves dispute (dispute.escalate verificationLevel)
  | adjudicate (hstatus : dispute.status = .verificationEscalation) :
      Moves dispute dispute.adjudicate
  | resolve {resolution : DisputeResolution} (hstatus : dispute.status = .adjudicating) :
      Moves dispute (dispute.resolve resolution)
  | submitAppeal {appeal : Appeal} (hstatus : dispute.status = .resolved) :
      Moves dispute (dispute.submitAppeal appeal)

variable {dispute moved : Dispute}

theorem Moves.next (h : dispute.Moves moved) : dispute.status.next = some moved.status := by
  cases h with
  | escalate hstatus => rw [hstatus]; rfl
  | adjudicate hstatus => rw [hstatus]; rfl
  | resolve hstatus => rw [hstatus]; rfl
  | submitAppeal hstatus => rw [hstatus]; rfl

theorem Moves.jobId (h : dispute.Moves moved) : moved.jobId = dispute.jobId := by
  cases h <;> rfl

theorem Moves.settled (h : dispute.Moves moved) (hsettled : dispute.status.Settled) :
    moved.status.Settled := by
  cases h with
  | escalate hstatus =>
    rw [hstatus] at hsettled
    exact absurd hsettled (by decide)
  | adjudicate hstatus =>
    rw [hstatus] at hsettled
    exact absurd hsettled (by decide)
  | resolve => exact .inl rfl
  | submitAppeal => exact .inr rfl

theorem Moves.preimage (c : DisputeCrypto) (h : dispute.Moves moved) :
    Dispute.preimage c moved.jobId moved.receiptHash moved.challengerId moved.createdAtBlock =
      Dispute.preimage c dispute.jobId dispute.receiptHash dispute.challengerId
        dispute.createdAtBlock := by
  cases h <;> rfl

end Dispute

-- ---------------------------------------------------------------------------
-- The engine
-- ---------------------------------------------------------------------------

namespace DisputeEngine

def new (minChallengerBond governanceMinSlash slashAlphaRatio slashBetaRatio : UInt64) :
    DisputeEngine where
  minChallengerBond := minChallengerBond
  governanceMinSlash := governanceMinSlash
  slashAlphaRatio := slashAlphaRatio
  slashBetaRatio := slashBetaRatio
  slashDistribution := .initial
  disputes := .empty
  jobEscrow := .empty
  frozenBonds := .empty
  disputesByJob := .empty

def disputesOf (engine : DisputeEngine) (jobId : Bytes 32) : List (Bytes 32) :=
  (engine.disputesByJob.get jobId).getD []

def setDispute (engine : DisputeEngine) (disputeId : Bytes 32) (dispute : Dispute) :
    DisputeEngine :=
  { engine with disputes := engine.disputes.insert disputeId dispute }

/-- An entry that is there is replaced. -/
def initEscrow (engine : DisputeEngine) (jobId : Bytes 32) (amount : UInt64)
    (recipient : Bytes 32) : DisputeEngine :=
  { engine with
    jobEscrow := engine.jobEscrow.insert jobId
      { jobId, amount, status := .active, recipient := some recipient } }

/-- The writes of `initiate_dispute`: the bond replaces what is frozen already. -/
def insertDispute (engine : DisputeEngine) (dispute : Dispute) : DisputeEngine :=
  { engine with
    disputes := engine.disputes.insert dispute.id dispute
    disputesByJob := engine.disputesByJob.insert dispute.jobId
      (engine.disputesOf dispute.jobId ++ [dispute.id])
    jobEscrow := engine.jobEscrow.modify dispute.jobId ({ · with status := .frozen })
    frozenBonds := engine.frozenBonds.insert dispute.challengerId dispute.challengerBond }

/-- The fraud proof can always be serialized, and its hash is not used. -/
def initiateDispute (engine : DisputeEngine) (c : DisputeCrypto) (jobId receiptHash : Bytes 32)
    (fraudProof : FraudProof) (challengerId : Bytes 32)
    (challengerBond currentBlock receiptBlock verificationWindowBlocks : UInt64) :
    Except DisputeError (Bytes 32) × DisputeEngine :=
  if challengerBond < engine.minChallengerBond then (.error .insufficientBond, engine)
  else if currentBlock > receiptBlock + verificationWindowBlocks then
    (.error .outsideDisputeWindow, engine)
  else if engine.disputesOf jobId ≠ [] then (.error .disputeAlreadyExists, engine)
  else
    let dispute := Dispute.initiated c jobId receiptHash fraudProof challengerId challengerBond
      currentBlock verificationWindowBlocks
    (.ok dispute.id, engine.insertDispute dispute)

/-- Every later call starts the same way: the dispute is looked up and has to be in
one status. -/
def withDispute {A : Type} (engine : DisputeEngine) (disputeId : Bytes 32) (status : DisputeStatus)
    (act : Dispute → Except DisputeError A × DisputeEngine) :
    Except DisputeError A × DisputeEngine :=
  match engine.disputes.get disputeId with
  | none => (.error .disputeNotFound, engine)
  | some dispute =>
    if dispute.status ≠ status then (.error .invalidDisputeState, engine) else act dispute

def escalateToVerification (engine : DisputeEngine) (disputeId : Bytes 32)
    (verificationLevel : UInt8) : Except DisputeError Unit × DisputeEngine :=
  engine.withDispute disputeId .validationPhase fun dispute =>
    (.ok (), engine.setDispute disputeId (dispute.escalate verificationLevel))

/-- Nothing of the result is looked at or kept. -/
def submitVerificationResult (engine : DisputeEngine) (disputeId : Bytes 32)
    (_result : VerificationResult) : Except DisputeError Unit × DisputeEngine :=
  engine.withDispute disputeId .verificationEscalation fun dispute =>
    (.ok (), engine.setDispute disputeId dispute.adjudicate)

def resolution (engine : DisputeEngine) (dispute : Dispute)
    (jobBudget verificationCost currentBlock : UInt64) : DisputeResolution :=
  let slashAmount := max (max engine.governanceMinSlash
    (jobBudget * engine.slashAlphaRatio / 10000))
    (verificationCost * engine.slashBetaRatio / 10000)
  let slashedAmount :=
    if dispute.fraudProof.FraudConfirmed then slashAmount else dispute.challengerBond
  let dist := engine.slashDistribution
  { outcome := if dispute.fraudProof.FraudConfirmed then .fraudConfirmed else .fraudRejected
    slashedAmount := slashedAmount
    challengerShare := slashedAmount * dist.challengerShareRatio / 10000
    verifierShare := slashedAmount * dist.verifierShareRatio / 10000
    treasuryShare := slashedAmount * dist.treasuryShareRatio / 10000
    operatorPenalty := if dispute.fraudProof.FraudConfirmed then slashAmount else 0
    resolutionBlock := currentBlock }

/-- The writes of `resolve_dispute`: all that is frozen for the challenger is removed
when the fraud is confirmed, and the bond of this dispute when it is not. -/
def settle (engine : DisputeEngine) (disputeId : Bytes 32) (dispute : Dispute)
    (resolution : DisputeResolution) : DisputeEngine :=
  let escrowAction := if dispute.fraudProof.FraudConfirmed then EscrowStatus.refunded else .released
  { engine with
    jobEscrow := engine.jobEscrow.modify dispute.jobId ({ · with status := escrowAction })
    disputes := engine.disputes.insert disputeId (dispute.resolve resolution)
    frozenBonds :=
      if dispute.fraudProof.FraudConfirmed then engine.frozenBonds.erase dispute.challengerId
      else engine.frozenBonds.modify dispute.challengerId
        (saturatingSub · resolution.slashedAmount) }

def resolveDispute (engine : DisputeEngine) (disputeId : Bytes 32)
    (jobBudget verificationCost currentBlock : UInt64) :
    Except DisputeError DisputeResolution × DisputeEngine :=
  engine.withDispute disputeId .adjudicating fun dispute =>
    let resolution := engine.resolution dispute jobBudget verificationCost currentBlock
    (.ok resolution, engine.settle disputeId dispute resolution)

def submitAppeal (engine : DisputeEngine) (disputeId : Bytes 32) (reason : AppealReason)
    (newEvidence : Option EvidenceBundle) (appealBond currentBlock : UInt64) :
    Except DisputeError Unit × DisputeEngine :=
  engine.withDispute disputeId .resolved fun dispute =>
    let appealWindow : UInt64 := 50
    if dispute.resolution.any fun r => currentBlock > r.resolutionBlock + appealWindow then
      (.error .outsideAppealWindow, engine)
    else
      (.ok (), engine.setDispute disputeId (dispute.submitAppeal
        { reason, newEvidence, appealBond, createdAtBlock := currentBlock, windowBlocks := 50 }))

-- ---------------------------------------------------------------------------
-- Runs
-- ---------------------------------------------------------------------------

inductive Op where
  | initEscrow (jobId : Bytes 32) (amount : UInt64) (recipient : Bytes 32)
  | initiateDispute (jobId receiptHash : Bytes 32) (fraudProof : FraudProof)
      (challengerId : Bytes 32)
      (challengerBond currentBlock receiptBlock verificationWindowBlocks : UInt64)
  | escalateToVerification (disputeId : Bytes 32) (verificationLevel : UInt8)
  | submitVerificationResult (disputeId : Bytes 32) (result : VerificationResult)
  | resolveDispute (disputeId : Bytes 32) (jobBudget verificationCost currentBlock : UInt64)
  | submitAppeal (disputeId : Bytes 32) (reason : AppealReason)
      (newEvidence : Option EvidenceBundle) (appealBond currentBlock : UInt64)

def Op.initiated (c : DisputeCrypto) : Op → Option Dispute
  | .initiateDispute jobId receiptHash fraudProof challengerId challengerBond currentBlock _
      verificationWindowBlocks =>
    some (.initiated c jobId receiptHash fraudProof challengerId challengerBond currentBlock
      verificationWindowBlocks)
  | _ => none

def call (c : DisputeCrypto) (engine : DisputeEngine) :
    Op → Except DisputeError Unit × DisputeEngine
  | .initEscrow jobId amount recipient => (.ok (), engine.initEscrow jobId amount recipient)
  | .initiateDispute jobId receiptHash fraudProof challengerId challengerBond currentBlock
      receiptBlock verificationWindowBlocks =>
    let result := engine.initiateDispute c jobId receiptHash fraudProof challengerId challengerBond
      currentBlock receiptBlock verificationWindowBlocks
    (result.1.map fun _ => (), result.2)
  | .escalateToVerification disputeId verificationLevel =>
    engine.escalateToVerification disputeId verificationLevel
  | .submitVerificationResult disputeId result => engine.submitVerificationResult disputeId result
  | .resolveDispute disputeId jobBudget verificationCost currentBlock =>
    let result := engine.resolveDispute disputeId jobBudget verificationCost currentBlock
    (result.1.map fun _ => (), result.2)
  | .submitAppeal disputeId reason newEvidence appealBond currentBlock =>
    engine.submitAppeal disputeId reason newEvidence appealBond currentBlock

def step (c : DisputeCrypto) (engine : DisputeEngine) (op : Op) : DisputeEngine :=
  (call c engine op).2

-- ---------------------------------------------------------------------------
-- What a call does
-- ---------------------------------------------------------------------------

variable {c : DisputeCrypto} {engine : DisputeEngine} {op : Op}

/-- What `initiate_dispute` checks. -/
def CanInitiate (engine : DisputeEngine) (jobId : Bytes 32)
    (challengerBond currentBlock receiptBlock verificationWindowBlocks : UInt64) : Prop :=
  ¬ challengerBond < engine.minChallengerBond ∧
    ¬ currentBlock > receiptBlock + verificationWindowBlocks ∧ engine.disputesOf jobId = []

instance (engine : DisputeEngine) (jobId : Bytes 32)
    (challengerBond currentBlock receiptBlock verificationWindowBlocks : UInt64) :
    Decidable (engine.CanInitiate jobId challengerBond currentBlock receiptBlock
      verificationWindowBlocks) :=
  inferInstanceAs (Decidable (_ ∧ _ ∧ _))

/-- What an accepted call writes, and what it has checked. -/
inductive Writes (c : DisputeCrypto) (engine : DisputeEngine) : Op → DisputeEngine → Prop
  | initEscrow {jobId recipient : Bytes 32} {amount : UInt64} :
      Writes c engine (.initEscrow jobId amount recipient)
        (engine.initEscrow jobId amount recipient)
  | initiate {jobId receiptHash challengerId : Bytes 32} {fraudProof : FraudProof}
      {challengerBond currentBlock receiptBlock verificationWindowBlocks : UInt64}
      (hcan : engine.CanInitiate jobId challengerBond currentBlock receiptBlock
        verificationWindowBlocks) :
      Writes c engine
        (.initiateDispute jobId receiptHash fraudProof challengerId challengerBond currentBlock
          receiptBlock verificationWindowBlocks)
        (engine.insertDispute (.initiated c jobId receiptHash fraudProof challengerId
          challengerBond currentBlock verificationWindowBlocks))
  | escalate {disputeId : Bytes 32} {verificationLevel : UInt8} {dispute : Dispute}
      (hget : engine.disputes.get disputeId = some dispute)
      (hstatus : dispute.status = .validationPhase) :
      Writes c engine (.escalateToVerification disputeId verificationLevel)
        (engine.setDispute disputeId (dispute.escalate verificationLevel))
  | submit {disputeId : Bytes 32} {result : VerificationResult} {dispute : Dispute}
      (hget : engine.disputes.get disputeId = some dispute)
      (hstatus : dispute.status = .verificationEscalation) :
      Writes c engine (.submitVerificationResult disputeId result)
        (engine.setDispute disputeId dispute.adjudicate)
  | resolve {disputeId : Bytes 32} {jobBudget verificationCost currentBlock : UInt64}
      {dispute : Dispute} (hget : engine.disputes.get disputeId = some dispute)
      (hstatus : dispute.status = .adjudicating) :
      Writes c engine (.resolveDispute disputeId jobBudget verificationCost currentBlock)
        (engine.settle disputeId dispute
          (engine.resolution dispute jobBudget verificationCost currentBlock))
  | appeal {disputeId : Bytes 32} {reason : AppealReason} {newEvidence : Option EvidenceBundle}
      {appealBond currentBlock : UInt64} {appeal : Appeal} {dispute : Dispute}
      (hget : engine.disputes.get disputeId = some dispute)
      (hstatus : dispute.status = .resolved) :
      Writes c engine (.submitAppeal disputeId reason newEvidence appealBond currentBlock)
        (engine.setDispute disputeId (dispute.submitAppeal appeal))

theorem withDispute_cases {A : Type} (engine : DisputeEngine) (disputeId : Bytes 32)
    (status : DisputeStatus) (act : Dispute → Except DisputeError A × DisputeEngine) :
    ((∀ dispute, engine.disputes.get disputeId = some dispute → dispute.status ≠ status) ∧
        ∃ e, engine.withDispute disputeId status act = (.error e, engine)) ∨
      ∃ dispute, engine.disputes.get disputeId = some dispute ∧ dispute.status = status ∧
        engine.withDispute disputeId status act = act dispute := by
  unfold withDispute
  cases hget : engine.disputes.get disputeId with
  | none =>
    refine .inl ⟨fun dispute h => ?_, .disputeNotFound, rfl⟩
    cases h
  | some dispute =>
    by_cases hstatus : dispute.status = status
    · exact .inr ⟨dispute, rfl, hstatus, if_neg (not_not.mpr hstatus)⟩
    · refine .inl ⟨fun dispute' h => ?_, _, if_pos hstatus⟩
      obtain rfl := Option.some.inj h
      exact hstatus

/-- A call is refused and leaves the engine as it is, or writes what `Writes` says. -/
theorem call_cases (c : DisputeCrypto) (engine : DisputeEngine) (op : Op) :
    (∃ e, call c engine op = (.error e, engine)) ∨
      ∃ after, call c engine op = (.ok (), after) ∧ Writes c engine op after := by
  cases op with
  | initEscrow jobId amount recipient => exact .inr ⟨_, rfl, .initEscrow⟩
  | initiateDispute jobId receiptHash fraudProof challengerId challengerBond currentBlock
      receiptBlock verificationWindowBlocks =>
    rw [call, initiateDispute]
    by_cases hbond : challengerBond < engine.minChallengerBond
    · exact .inl ⟨.insufficientBond, by rw [if_pos hbond]; rfl⟩
    rw [if_neg hbond]
    by_cases hwindow : currentBlock > receiptBlock + verificationWindowBlocks
    · exact .inl ⟨.outsideDisputeWindow, by rw [if_pos hwindow]; rfl⟩
    rw [if_neg hwindow]
    by_cases hnone : engine.disputesOf jobId = []
    · rw [if_neg (not_not.mpr hnone)]
      exact .inr ⟨_, rfl, .initiate ⟨hbond, hwindow, hnone⟩⟩
    · exact .inl ⟨.disputeAlreadyExists, by rw [if_pos hnone]; rfl⟩
  | escalateToVerification disputeId verificationLevel =>
    rw [call, escalateToVerification]
    rcases withDispute_cases engine disputeId .validationPhase _ with
      ⟨-, e, heq⟩ | ⟨dispute, hget, hstatus, heq⟩
    · exact .inl ⟨e, heq⟩
    · exact .inr ⟨_, heq, .escalate hget hstatus⟩
  | submitVerificationResult disputeId result =>
    rw [call, submitVerificationResult]
    rcases withDispute_cases engine disputeId .verificationEscalation _ with
      ⟨-, e, heq⟩ | ⟨dispute, hget, hstatus, heq⟩
    · exact .inl ⟨e, heq⟩
    · exact .inr ⟨_, heq, .submit hget hstatus⟩
  | resolveDispute disputeId jobBudget verificationCost currentBlock =>
    rw [call, resolveDispute]
    rcases withDispute_cases engine disputeId .adjudicating _ with
      ⟨-, e, heq⟩ | ⟨dispute, hget, hstatus, heq⟩
    · exact .inl ⟨e, by rw [heq]; rfl⟩
    · exact .inr ⟨_, by rw [heq]; rfl, .resolve hget hstatus⟩
  | submitAppeal disputeId reason newEvidence appealBond currentBlock =>
    rw [call, submitAppeal]
    rcases withDispute_cases engine disputeId .resolved _ with
      ⟨-, e, heq⟩ | ⟨dispute, hget, hstatus, heq⟩
    · exact .inl ⟨e, heq⟩
    · dsimp only at heq
      split at heq
      · exact .inl ⟨_, heq⟩
      · exact .inr ⟨_, heq, .appeal hget hstatus⟩

theorem step_of_error {e : DisputeError} (h : (call c engine op).1 = .error e) :
    step c engine op = engine := by
  rcases call_cases c engine op with ⟨e', heq⟩ | ⟨after, heq, -⟩
  · exact congrArg Prod.snd heq
  · rw [heq] at h
    cases h

theorem step_cases (c : DisputeCrypto) (engine : DisputeEngine) (op : Op) :
    step c engine op = engine ∨ Writes c engine op (step c engine op) := by
  rcases call_cases c engine op with ⟨e, heq⟩ | ⟨after, heq, hwrites⟩
  · exact .inl (congrArg Prod.snd heq)
  · rw [step, heq]
    exact .inr hwrites

theorem step_initiateDispute (c : DisputeCrypto) (engine : DisputeEngine)
    (jobId receiptHash : Bytes 32) (fraudProof : FraudProof) (challengerId : Bytes 32)
    (challengerBond currentBlock receiptBlock verificationWindowBlocks : UInt64) :
    step c engine (.initiateDispute jobId receiptHash fraudProof challengerId challengerBond
        currentBlock receiptBlock verificationWindowBlocks) =
      if engine.CanInitiate jobId challengerBond currentBlock receiptBlock verificationWindowBlocks
      then engine.insertDispute (.initiated c jobId receiptHash fraudProof challengerId
        challengerBond currentBlock verificationWindowBlocks)
      else engine := by
  split
  · rename_i hcan
    rw [step, call, initiateDispute, if_neg hcan.1, if_neg hcan.2.1, if_neg (not_not.mpr hcan.2.2)]
  · rename_i hcan
    rcases step_cases c engine (.initiateDispute jobId receiptHash fraudProof challengerId
      challengerBond currentBlock receiptBlock verificationWindowBlocks) with hsame | hwrites
    · exact hsame
    · generalize step c engine _ = after at hwrites ⊢
      cases hwrites with
      | initiate h => exact absurd h hcan

theorem step_resolveDispute {disputeId : Bytes 32} {dispute : Dispute}
    (hget : engine.disputes.get disputeId = some dispute) (hstatus : dispute.status = .adjudicating)
    (jobBudget verificationCost currentBlock : UInt64) :
    step c engine (.resolveDispute disputeId jobBudget verificationCost currentBlock) =
      engine.settle disputeId dispute
        (engine.resolution dispute jobBudget verificationCost currentBlock) := by
  rw [step, call, resolveDispute, withDispute, hget]
  exact congrArg Prod.snd (if_neg (not_not.mpr hstatus))

theorem step_resolveDispute_of_not {disputeId : Bytes 32}
    (h : ¬ ∃ dispute, engine.disputes.get disputeId = some dispute ∧
      dispute.status = .adjudicating)
    (jobBudget verificationCost currentBlock : UInt64) :
    step c engine (.resolveDispute disputeId jobBudget verificationCost currentBlock) = engine := by
  rw [step, call, resolveDispute]
  rcases withDispute_cases engine disputeId .adjudicating _ with
    ⟨-, e, heq⟩ | ⟨dispute, hget, hstatus, -⟩
  · rw [heq]
  · exact absurd ⟨dispute, hget, hstatus⟩ h

theorem of_initiated {dispute : Dispute} (hdispute : op.initiated c = some dispute)
    (hok : (call c engine op).1.isOk) :
    engine.disputesOf dispute.jobId = [] ∧ step c engine op = engine.insertDispute dispute := by
  rcases call_cases c engine op with ⟨e, heq⟩ | ⟨after, heq, hwrites⟩
  · rw [heq] at hok
    cases hok
  · rw [step, heq]
    cases hwrites with
    | initiate hcan =>
      obtain rfl := Option.some.inj hdispute
      exact ⟨hcan.2.2, rfl⟩
    | _ => cases hdispute

theorem disputes_step (c : DisputeCrypto) (engine : DisputeEngine) (op : Op) :
    ((step c engine op).disputes = engine.disputes ∧
        (step c engine op).disputesByJob = engine.disputesByJob) ∨
      (∃ dispute, op.initiated c = some dispute ∧ engine.disputesOf dispute.jobId = [] ∧
        step c engine op = engine.insertDispute dispute) ∨
      ∃ id dispute moved, engine.disputes.get id = some dispute ∧ dispute.Moves moved ∧
        (step c engine op).disputes = engine.disputes.insert id moved ∧
        (step c engine op).disputesByJob = engine.disputesByJob := by
  rcases step_cases c engine op with hsame | hwrites
  · rw [hsame]
    exact .inl ⟨rfl, rfl⟩
  · generalize step c engine op = after at hwrites ⊢
    cases hwrites with
    | initEscrow => exact .inl ⟨rfl, rfl⟩
    | initiate hcan => exact .inr (.inl ⟨_, rfl, hcan.2.2, rfl⟩)
    | escalate hget hstatus => exact .inr (.inr ⟨_, _, _, hget, .escalate hstatus, rfl, rfl⟩)
    | submit hget hstatus => exact .inr (.inr ⟨_, _, _, hget, .adjudicate hstatus, rfl, rfl⟩)
    | resolve hget hstatus => exact .inr (.inr ⟨_, _, _, hget, .resolve hstatus, rfl, rfl⟩)
    | appeal hget hstatus => exact .inr (.inr ⟨_, _, _, hget, .submitAppeal hstatus, rfl, rfl⟩)

theorem get_disputes_step {id : Bytes 32} {dispute : Dispute}
    (h : (step c engine op).disputes.get id = some dispute) :
    engine.disputes.get id = some dispute ∨
      (op.initiated c = some dispute ∧ id = dispute.id ∧ engine.disputesOf dispute.jobId = [] ∧
        step c engine op = engine.insertDispute dispute) ∨
      ∃ old, engine.disputes.get id = some old ∧ old.Moves dispute := by
  rcases disputes_step c engine op with
    ⟨hdisputes, -⟩ | ⟨new, hnew, hnone, heq⟩ | ⟨id', old, moved, hold, hmoves, hdisputes, -⟩
  · exact .inl (hdisputes ▸ h)
  · rw [heq] at h
    rcases Map.of_get_insert h with ⟨hid, rfl⟩ | ⟨-, hsame⟩
    · exact .inr (.inl ⟨hnew, hid, hnone, heq⟩)
    · exact .inl hsame
  · rw [hdisputes] at h
    rcases Map.of_get_insert h with ⟨rfl, rfl⟩ | ⟨-, hsame⟩
    · exact .inr (.inr ⟨old, hold, hmoves⟩)
    · exact .inl hsame

theorem disputesOf_insertDispute (engine : DisputeEngine) (dispute : Dispute) (jobId : Bytes 32) :
    (engine.insertDispute dispute).disputesOf jobId =
      if jobId = dispute.jobId then engine.disputesOf jobId ++ [dispute.id]
      else engine.disputesOf jobId := by
  rw [disputesOf, insertDispute, Map.get_insert]
  split
  · rename_i hjob
    rw [hjob, Option.getD_some]
  · rfl

theorem disputesOf_ne_nil {jobId : Bytes 32} (h : engine.disputesOf jobId ≠ []) :
    (step c engine op).disputesOf jobId ≠ [] := by
  rcases disputes_step c engine op with ⟨-, hlists⟩ | ⟨new, -, -, heq⟩ | ⟨-, -, -, -, -, -, hlists⟩
  · rwa [disputesOf, hlists]
  · rw [heq, disputesOf_insertDispute]
    split
    · exact List.append_ne_nil_of_left_ne_nil h _
    · exact h
  · rwa [disputesOf, hlists]

end DisputeEngine

end LiteVision.Intelligence
