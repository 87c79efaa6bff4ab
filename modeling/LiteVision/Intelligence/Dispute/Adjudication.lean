import LiteVision.Intelligence.Dispute

/-!
# What a dispute is decided from

A verification result should decide the dispute it is accepted for. The engine drops
the result and decides from the fraud proof of the challenger, so the verdict is right
just when the two agree.
-/

namespace LiteVision.Intelligence

open Lib

/-- The result is of the dispute's own receipt and contradicts the original output. -/
def Dispute.RefutedBy (dispute : Dispute) (result : VerificationResult) : Prop :=
  result.jobId = dispute.jobId ∧ result.receiptHash = dispute.receiptHash ∧
    result.recomputedOutputHash ≠ dispute.fraudProof.originalOutputHash

/-- The engine with what it drops: the last result accepted under each id. -/
structure RecordedEngine where
  engine : DisputeEngine
  accepted : Map (Bytes 32) VerificationResult

namespace RecordedEngine

open DisputeEngine

variable {c : DisputeCrypto} {s : RecordedEngine} {op : Op} {id : Bytes 32} {dispute : Dispute}

def new (minChallengerBond governanceMinSlash slashAlphaRatio slashBetaRatio : UInt64) :
    RecordedEngine where
  engine := .new minChallengerBond governanceMinSlash slashAlphaRatio slashBetaRatio
  accepted := .empty

def accept (s : RecordedEngine) : Op → Map (Bytes 32) VerificationResult
  | .submitVerificationResult disputeId result =>
    if (s.engine.submitVerificationResult disputeId result).1.isOk then
      s.accepted.insert disputeId result
    else s.accepted
  | _ => s.accepted

def record (c : DisputeCrypto) (s : RecordedEngine) (op : Op) : RecordedEngine where
  engine := DisputeEngine.step c s.engine op
  accepted := s.accept op

theorem engine_exec (s : RecordedEngine) (run : List Op) :
    (Trace.exec (record c) s run).engine = Trace.exec (DisputeEngine.step c) s.engine run := by
  induction run generalizing s with
  | nil => rfl
  | cons op run ih => exact ih (record c s op)

/-- Whenever a dispute is resolved here, the fraud is confirmed just when the accepted
result says so. -/
def Adjudicates (s : RecordedEngine) : Prop :=
  ∀ disputeId jobBudget verificationCost currentBlock resolution,
    (s.engine.resolveDispute disputeId jobBudget verificationCost currentBlock).1 =
      .ok resolution →
    ∃ dispute, s.engine.disputes.get disputeId = some dispute ∧
      (resolution.outcome = .fraudConfirmed ↔
        ∃ result, s.accepted.get disputeId = some result ∧ dispute.RefutedBy result)

/-- An accepted result says what the fraud proof of the challenger says. -/
def Agrees (s : RecordedEngine) : Op → Prop
  | .submitVerificationResult disputeId result => ∀ dispute,
    s.engine.disputes.get disputeId = some dispute → dispute.status = .verificationEscalation →
    (dispute.RefutedBy result ↔ dispute.fraudProof.FraudConfirmed)
  | _ => True

-- ---------------------------------------------------------------------------
-- One call
-- ---------------------------------------------------------------------------

theorem outcome_resolution (engine : DisputeEngine) (dispute : Dispute)
    (jobBudget verificationCost currentBlock : UInt64) :
    (engine.resolution dispute jobBudget verificationCost currentBlock).outcome =
      .fraudConfirmed ↔ dispute.fraudProof.FraudConfirmed := by
  dsimp only [resolution]
  split
  · rename_i hfraud
    exact iff_of_true rfl hfraud
  · rename_i hfraud
    exact iff_of_false (by decide) hfraud

theorem adjudicates_iff :
    Adjudicates s ↔ ∀ id dispute, s.engine.disputes.get id = some dispute →
      dispute.status = .adjudicating →
      (dispute.fraudProof.FraudConfirmed ↔
        ∃ result, s.accepted.get id = some result ∧ dispute.RefutedBy result) := by
  constructor
  · intro h id dispute hget hstatus
    have hok : (s.engine.resolveDispute id 0 0 0).1 =
        .ok (s.engine.resolution dispute 0 0 0) := by
      rw [resolveDispute, withDispute, hget]
      exact congrArg Prod.fst (if_neg (not_not.mpr hstatus))
    obtain ⟨dispute', hget', hiff⟩ := h id 0 0 0 _ hok
    obtain rfl := Option.some.inj (hget.symm.trans hget')
    rwa [outcome_resolution] at hiff
  · intro h disputeId jobBudget verificationCost currentBlock resolution hok
    rw [resolveDispute] at hok
    rcases withDispute_cases s.engine disputeId .adjudicating _ with
      ⟨-, e, heq⟩ | ⟨dispute, hget, hstatus, heq⟩
    · rw [heq] at hok
      cases hok
    · rw [heq] at hok
      obtain rfl := Except.ok.inj hok
      exact ⟨dispute, hget, (outcome_resolution ..).trans (h disputeId dispute hget hstatus)⟩

/-- Only an accepted result leads to adjudication. -/
theorem adjudicating_step {engine : DisputeEngine}
    (hop : ∀ disputeId result, op ≠ .submitVerificationResult disputeId result)
    (hget : (DisputeEngine.step c engine op).disputes.get id = some dispute)
    (hstatus : dispute.status = .adjudicating) : engine.disputes.get id = some dispute := by
  have hinsert : ∀ {id' : Bytes 32} {written : Dispute},
      (engine.disputes.insert id' written).get id = some dispute →
      written.status ≠ .adjudicating → engine.disputes.get id = some dispute := by
    intro id' written hinserted hne
    rcases Map.of_get_insert hinserted with ⟨-, rfl⟩ | ⟨-, hold⟩
    · exact absurd hstatus hne
    · exact hold
  rcases step_cases c engine op with hsame | hwrites
  · rwa [hsame] at hget
  · generalize DisputeEngine.step c engine op = after at hwrites hget
    cases hwrites with
    | initEscrow => exact hget
    | initiate => exact hinsert hget nofun
    | escalate => exact hinsert hget nofun
    | submit => exact absurd rfl (hop _ _)
    | resolve => exact hinsert hget nofun
    | appeal => exact hinsert hget nofun

theorem record_of_error {disputeId : Bytes 32} {result : VerificationResult} {e : DisputeError}
    (h : s.engine.submitVerificationResult disputeId result = (.error e, s.engine)) :
    record c s (.submitVerificationResult disputeId result) = s := by
  rw [record, accept, DisputeEngine.step, call, h]
  rfl

theorem record_of_ok {disputeId : Bytes 32} {result : VerificationResult} {after : DisputeEngine}
    (h : s.engine.submitVerificationResult disputeId result = (.ok (), after)) :
    record c s (.submitVerificationResult disputeId result) =
      ⟨after, s.accepted.insert disputeId result⟩ := by
  rw [record, accept, DisputeEngine.step, call, h]
  rfl

theorem adjudicates_step (h : Adjudicates s) (op : Op) :
    Adjudicates (record c s op) ↔ Agrees s op := by
  rw [adjudicates_iff] at h ⊢
  cases op with
  | submitVerificationResult disputeId result =>
    rcases withDispute_cases s.engine disputeId .verificationEscalation
      (fun dispute => (.ok (), s.engine.setDispute disputeId dispute.adjudicate)) with
      ⟨hnot, e, heq⟩ | ⟨dispute, hget, hstatus, heq⟩
    · rw [record_of_error heq]
      exact iff_of_true h fun dispute hget hstatus => absurd hstatus (hnot dispute hget)
    · rw [record_of_ok heq]
      constructor
      · intro hafter dispute' hget' _
        obtain rfl := Option.some.inj (hget.symm.trans hget')
        have hiff := hafter disputeId dispute.adjudicate (Map.get_insert_self ..) rfl
        simp only [Map.get_insert_self, Option.some.injEq, exists_eq_left'] at hiff
        exact hiff.symm
      · intro hagrees id adjudicated hadjudicated hstatus'
        change (s.engine.disputes.insert disputeId dispute.adjudicate).get id = _ at hadjudicated
        rw [Map.get_insert]
        rcases Map.of_get_insert hadjudicated with ⟨hid, rfl⟩ | ⟨hid, hold⟩
        · simp only [if_pos hid, Option.some.injEq, exists_eq_left']
          exact (hagrees dispute hget hstatus).symm
        · rw [if_neg hid]
          exact h id adjudicated hold hstatus'
  | _ =>
    refine iff_of_true (fun id dispute hget hstatus => ?_) trivial
    exact h id dispute (adjudicating_step (by simp) hget hstatus) hstatus

/-- Every verdict of a run is the one of the accepted result just when every accepted
result says what the fraud proof of the challenger says. -/
theorem adjudication_iff (c : DisputeCrypto) (minChallengerBond governanceMinSlash slashAlphaRatio
    slashBetaRatio : UInt64) (run : List Op) :
    (∀ before, before <+: run → Adjudicates (Trace.exec (record c)
      (new minChallengerBond governanceMinSlash slashAlphaRatio slashBetaRatio) before)) ↔
    Trace.Always (record c) Agrees
      (new minChallengerBond governanceMinSlash slashAlphaRatio slashBetaRatio) run := by
  refine Trace.prefixes_iff_always (J := fun _ => True) (fun _ _ _ => trivial)
    (fun _ op _ h => adjudicates_step h op) trivial (adjudicates_iff.mpr ?_)
  intro id dispute hget
  cases (Map.get_empty id).symm.trans hget

/-- A result that clears the operator, and a fraud proof that does not. -/
theorem adjudication_fails :
    ¬ ∀ (c : DisputeCrypto)
        (minChallengerBond governanceMinSlash slashAlphaRatio slashBetaRatio : UInt64)
      (run before : List Op), before <+: run → Adjudicates (Trace.exec (record c)
        (new minChallengerBond governanceMinSlash slashAlphaRatio slashBetaRatio) before) := by
  intro h
  let c : DisputeCrypto :=
    { blake3 := fun bytes => .fill 32 (bytes.headD 0)
      ed25519Verify := fun _ _ _ => true
      serialize := Dispute.parts.write }
  let proof : FraudProof := ⟨.fill 32 1, .fill 32 2, .fill 32 3, .fill 32 4, .fill 32 5,
    .fill 32 6, none, ⟨.fill 32 8, [], [], ⟨0, 0, 0, 0, 0, 0⟩⟩, []⟩
  have hadjudicates := h c 1000 5000 2000 1000
    [.initiateDispute (.fill 32 10) (.fill 32 1) proof (.fill 32 20) 2000 100 100 500,
      .escalateToVerification (.fill 32 10) 3,
      .submitVerificationResult (.fill 32 10) ⟨.fill 32 10, .fill 32 1, .fill 32 4, [], 3⟩]
    _ (List.prefix_refl _)
  obtain ⟨dispute, hget, hiff⟩ := hadjudicates (.fill 32 10) 10000 1000 200 _ rfl
  obtain rfl := Option.some.inj hget
  obtain ⟨result, hresult, -, -, hcontradicts⟩ := hiff.mp (by decide)
  obtain rfl := Option.some.inj hresult
  exact hcontradicts rfl

end RecordedEngine

end LiteVision.Intelligence
