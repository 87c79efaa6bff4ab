import LiteVision.Bytes
import LiteVision.Lib.Map
import LiteVision.Lib.Trace

/-!
# Verification of results

The engine of `verification.rs`: results of jobs are verified, a mismatch is challenged
or escalated, and a dispute about a job is resolved or rejected. The times that the
source takes from the system clock are arguments here.
-/

namespace LiteVision.Intelligence.Verification

open Lib

-- ---------------------------------------------------------------------------
-- Records
-- ---------------------------------------------------------------------------

inductive VerificationMode where
  | none
  | probabilistic
  | deterministic
  deriving DecidableEq

inductive SamplingStrategy where
  | random
  | weighted
  | deterministic
  | targeted
  deriving DecidableEq

structure VerificationPolicy where
  mode : VerificationMode
  redundancyFactor : UInt32
  verificationRate : Float
  escalationThreshold : UInt32
  challengeWindowBlocks : UInt32
  samplingStrategy : SamplingStrategy

def VerificationPolicy.initial : VerificationPolicy where
  mode := .probabilistic
  redundancyFactor := 1
  verificationRate := 0.1
  escalationThreshold := 2
  challengeWindowBlocks := 100
  samplingStrategy := .random

inductive VerificationStatus where
  | pending
  | inProgress
  | completed
  | challenged
  | escalated
  | resolved
  deriving DecidableEq

inductive EvidenceType where
  | outputMismatch
  | executionDiff
  | timeout
  | invalidState
  | signatureInvalid
  deriving DecidableEq

structure VerificationEvidence where
  evidenceType : EvidenceType
  data : List UInt8
  timestamp : UInt64
  deriving DecidableEq

/-- `isMatch` is the `matches` of the source, a keyword here. -/
structure VerificationResult where
  isMatch : Bool
  computedHash : Bytes 32
  executionTimeMs : UInt64
  verifierId : Bytes 32
  confidence : Float
  evidence : List VerificationEvidence

structure VerificationJob where
  jobId : Bytes 32
  operatorId : Bytes 32
  inputHash : Bytes 32
  outputHash : Bytes 32
  expectedHash : Option (Bytes 32)
  verificationMode : VerificationMode
  status : VerificationStatus
  createdAt : UInt64
  completedAt : Option UInt64
  result : Option VerificationResult

inductive DisputeStatus where
  | pending
  | voting
  | resolved
  | rejected
  | expired
  deriving DecidableEq

structure Dispute where
  disputeId : Bytes 32
  jobId : Bytes 32
  challengerId : Bytes 32
  accusedOperatorId : Bytes 32
  evidence : List VerificationEvidence
  status : DisputeStatus
  createdAt : UInt64
  resolvedAt : Option UInt64
  slashAmount : Option UInt64
  deriving DecidableEq

inductive VerificationError where
  | jobNotFound
  | disputeNotFound
  | invalidState
  | insufficientEvidence
  deriving DecidableEq

-- ---------------------------------------------------------------------------
-- Disputes
-- ---------------------------------------------------------------------------

namespace Dispute

/-- The same for every dispute of a job between the same two parties. -/
def idOf (c : Crypto) (jobId challengerId accusedOperatorId : Bytes 32) : Bytes 32 :=
  c.blake3 (jobId.val ++ challengerId.val ++ accusedOperatorId.val)

def new (c : Crypto) (jobId challengerId accusedOperatorId : Bytes 32)
    (evidence : List VerificationEvidence) (createdAt : UInt64) : Dispute where
  disputeId := idOf c jobId challengerId accusedOperatorId
  jobId := jobId
  challengerId := challengerId
  accusedOperatorId := accusedOperatorId
  evidence := evidence
  status := .pending
  createdAt := createdAt
  resolvedAt := none
  slashAmount := none

def resolve (dispute : Dispute) (slashAmount now : UInt64) : Dispute :=
  { dispute with status := .resolved, resolvedAt := some now, slashAmount := some slashAmount }

def reject (dispute : Dispute) (now : UInt64) : Dispute :=
  { dispute with status := .rejected, resolvedAt := some now }

end Dispute

-- ---------------------------------------------------------------------------
-- The engine
-- ---------------------------------------------------------------------------

structure VerificationEngine where
  verifications : Map (Bytes 32) VerificationJob
  disputes : Map (Bytes 32) Dispute
  verificationQueue : List (Bytes 32)
  policy : VerificationPolicy
  challengeCounter : Map (Bytes 32) UInt32

namespace VerificationEngine

def new (policy : VerificationPolicy) : VerificationEngine where
  verifications := .empty
  disputes := .empty
  verificationQueue := []
  policy := policy
  challengeCounter := .empty

def scheduleVerification (engine : VerificationEngine) (job : VerificationJob) :
    VerificationEngine :=
  { engine with
    verifications := engine.verifications.insert job.jobId job
    verificationQueue := engine.verificationQueue ++ [job.jobId] }

def incrementChallengeCounter (engine : VerificationEngine) (jobId : Bytes 32) :
    VerificationEngine :=
  { engine with
    challengeCounter := engine.challengeCounter.insert jobId
      ((engine.challengeCounter.get jobId).getD 0 + 1) }

def shouldEscalate (engine : VerificationEngine) (jobId : Bytes 32) : Bool :=
  engine.policy.escalationThreshold ≤ (engine.challengeCounter.get jobId).getD 0

/-- A mismatch is counted before the job is looked up. -/
def completeVerification (engine : VerificationEngine) (jobId : Bytes 32)
    (result : VerificationResult) (now : UInt64) :
    Except VerificationError VerificationStatus × VerificationEngine :=
  let counted := if !result.isMatch then engine.incrementChallengeCounter jobId else engine
  let escalate := !result.isMatch && counted.shouldEscalate jobId
  match counted.verifications.get jobId with
  | none => (.error .jobNotFound, counted)
  | some job =>
    let status :=
      if escalate then VerificationStatus.escalated
      else if !result.isMatch then .challenged
      else .completed
    let job := { job with status, result := some result, completedAt := some now }
    (.ok status, { counted with verifications := counted.verifications.insert jobId job })

/-- A dispute that is there under the same id is replaced. The clock is read for the
evidence and again for the dispute. -/
def createDispute (engine : VerificationEngine) (c : Crypto)
    (jobId challengerId accusedOperatorId : Bytes 32) (evidenceTime createdAt : UInt64) :
    Except VerificationError Dispute × VerificationEngine :=
  match engine.verifications.get jobId with
  | none => (.error .jobNotFound, engine)
  | some job =>
    let evidence := match job.result with
      | some result => [⟨.outputMismatch, result.computedHash.val, evidenceTime⟩]
      | none => []
    let dispute := Dispute.new c jobId challengerId accusedOperatorId evidence createdAt
    (.ok dispute, { engine with
      disputes := engine.disputes.insert dispute.disputeId dispute
      verifications := engine.verifications.modify jobId ({ · with status := .challenged }) })

/-- Both verdicts, whatever the status: the dispute is written, and its job resolved. -/
def decideDispute (engine : VerificationEngine) (disputeId : Bytes 32)
    (verdict : Dispute → Dispute) : Except VerificationError DisputeStatus × VerificationEngine :=
  match engine.disputes.get disputeId with
  | none => (.error .disputeNotFound, engine)
  | some dispute =>
    (.ok (verdict dispute).status, { engine with
      disputes := engine.disputes.insert disputeId (verdict dispute)
      verifications := engine.verifications.modify dispute.jobId ({ · with status := .resolved }) })

def resolveDispute (engine : VerificationEngine) (disputeId : Bytes 32)
    (slashAmount now : UInt64) : Except VerificationError DisputeStatus × VerificationEngine :=
  engine.decideDispute disputeId (·.resolve slashAmount now)

def rejectDispute (engine : VerificationEngine) (disputeId : Bytes 32) (now : UInt64) :
    Except VerificationError DisputeStatus × VerificationEngine :=
  engine.decideDispute disputeId (·.reject now)

-- ---------------------------------------------------------------------------
-- Sampling and metrics
-- ---------------------------------------------------------------------------

/-- `randVal` is drawn from the system clock, a fraction of the greatest word. -/
def shouldVerify (engine : VerificationEngine) (randVal : Float) : Bool :=
  randVal < engine.policy.verificationRate

def nextVerification (engine : VerificationEngine) :
    Option VerificationJob × VerificationEngine :=
  match engine.verificationQueue with
  | [] => (none, engine)
  | id :: queue => (engine.verifications.get id, { engine with verificationQueue := queue })

end VerificationEngine

/-- The engine together with its metrics. No call counts a dispute. -/
structure MeteredEngine extends VerificationEngine where
  totalSampled : UInt64
  totalPassed : UInt64
  totalFailed : UInt64
  totalDisputes : UInt64

namespace MeteredEngine

def new (policy : VerificationPolicy) : MeteredEngine where
  toVerificationEngine := .new policy
  totalSampled := 0
  totalPassed := 0
  totalFailed := 0
  totalDisputes := 0

def sampleJob (engine : MeteredEngine) (jobId operatorId inputHash outputHash : Bytes 32)
    (randVal : Float) (createdAt : UInt64) : Bool × MeteredEngine :=
  if !engine.shouldVerify randVal then (false, engine)
  else
    let verificationJob : VerificationJob :=
      { jobId, operatorId, inputHash, outputHash
        expectedHash := none
        verificationMode := engine.policy.mode
        status := .pending
        createdAt
        completedAt := none
        result := none }
    (true, { engine with
      toVerificationEngine := engine.scheduleVerification verificationJob
      totalSampled := engine.totalSampled + 1 })

def completeVerification (engine : MeteredEngine) (jobId : Bytes 32) (result : VerificationResult)
    (now : UInt64) : Except VerificationError VerificationStatus × MeteredEngine :=
  let completed := engine.toVerificationEngine.completeVerification jobId result now
  (completed.1, { engine with toVerificationEngine := completed.2 })

def recordVerificationResult (engine : MeteredEngine) (jobId : Bytes 32)
    (result : VerificationResult) (now : UInt64) :
    Except VerificationError VerificationStatus × MeteredEngine :=
  match engine.completeVerification jobId result now with
  | (.error e, engine) => (.error e, engine)
  | (.ok status, engine) =>
    (.ok status,
      if result.isMatch then { engine with totalPassed := engine.totalPassed + 1 }
      else { engine with totalFailed := engine.totalFailed + 1 })

end MeteredEngine

-- ---------------------------------------------------------------------------
-- Runs
-- ---------------------------------------------------------------------------

namespace VerificationEngine

inductive Op where
  | scheduleVerification (job : VerificationJob)
  | completeVerification (jobId : Bytes 32) (result : VerificationResult) (now : UInt64)
  | createDispute (jobId challengerId accusedOperatorId : Bytes 32)
      (evidenceTime createdAt : UInt64)
  | resolveDispute (disputeId : Bytes 32) (slashAmount now : UInt64)
  | rejectDispute (disputeId : Bytes 32) (now : UInt64)

def step (c : Crypto) (engine : VerificationEngine) : Op → VerificationEngine
  | .scheduleVerification job => engine.scheduleVerification job
  | .completeVerification jobId result now => (engine.completeVerification jobId result now).2
  | .createDispute jobId challengerId accusedOperatorId evidenceTime createdAt =>
    (engine.createDispute c jobId challengerId accusedOperatorId evidenceTime createdAt).2
  | .resolveDispute disputeId slashAmount now => (engine.resolveDispute disputeId slashAmount now).2
  | .rejectDispute disputeId now => (engine.rejectDispute disputeId now).2

end VerificationEngine

namespace MeteredEngine

inductive Call where
  | op (op : VerificationEngine.Op)
  | sampleJob (jobId operatorId inputHash outputHash : Bytes 32) (randVal : Float)
      (createdAt : UInt64)
  | nextVerification
  | recordVerificationResult (jobId : Bytes 32) (result : VerificationResult) (now : UInt64)

def step (c : Crypto) (engine : MeteredEngine) : Call → MeteredEngine
  | .op op =>
    { engine with toVerificationEngine := VerificationEngine.step c engine.toVerificationEngine op }
  | .sampleJob jobId operatorId inputHash outputHash randVal createdAt =>
    (engine.sampleJob jobId operatorId inputHash outputHash randVal createdAt).2
  | .nextVerification => { engine with toVerificationEngine := engine.nextVerification.2 }
  | .recordVerificationResult jobId result now =>
    (engine.recordVerificationResult jobId result now).2

end MeteredEngine

namespace VerificationEngine

-- ---------------------------------------------------------------------------
-- What a call does to the disputes
-- ---------------------------------------------------------------------------

theorem disputes_completeVerification (engine : VerificationEngine) (jobId : Bytes 32)
    (result : VerificationResult) (now : UInt64) :
    (engine.completeVerification jobId result now).2.disputes = engine.disputes := by
  have hcounted : (if !result.isMatch then engine.incrementChallengeCounter jobId
      else engine).disputes = engine.disputes := by
    split <;> rfl
  unfold completeVerification
  dsimp only
  split
  · exact hcounted
  · exact hcounted

theorem disputes_decideDispute (engine : VerificationEngine) (disputeId : Bytes 32)
    (verdict : Dispute → Dispute) :
    (engine.decideDispute disputeId verdict).2.disputes =
      engine.disputes.modify disputeId verdict := by
  unfold decideDispute
  cases hget : engine.disputes.get disputeId with
  | none => exact (Map.modify_none hget verdict).symm
  | some dispute => exact (Map.modify_some hget verdict).symm

theorem createDispute_cases (engine : VerificationEngine) (c : Crypto)
    (jobId challengerId accusedOperatorId : Bytes 32) (evidenceTime createdAt : UInt64) :
    (engine.verifications.get jobId = none ∧
        engine.createDispute c jobId challengerId accusedOperatorId evidenceTime createdAt =
          (.error .jobNotFound, engine)) ∨
      ((engine.verifications.get jobId).isSome ∧ ∃ dispute : Dispute,
        dispute.disputeId = Dispute.idOf c jobId challengerId accusedOperatorId ∧
        dispute.status = .pending ∧
        (engine.createDispute c jobId challengerId accusedOperatorId evidenceTime
          createdAt).2.disputes = engine.disputes.insert dispute.disputeId dispute) := by
  unfold createDispute
  cases engine.verifications.get jobId with
  | none => exact .inl ⟨rfl, rfl⟩
  | some job => exact .inr ⟨rfl, _, rfl, rfl, rfl⟩

end VerificationEngine

end LiteVision.Intelligence.Verification
