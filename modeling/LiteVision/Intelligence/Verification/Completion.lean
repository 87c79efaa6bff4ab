import LiteVision.Intelligence.Verification

/-!
# Completions that mismatch

A job should escalate once as many mismatches are accepted for it as the policy says, and
a refused completion should change nothing. A mismatch is counted before its job is looked
up, so the count is the number of accepted ones just as long as every mismatch is of a job
that is scheduled, and the count has not wrapped.
-/

namespace LiteVision.Intelligence.Verification

open Lib

namespace VerificationEngine

variable {engine : VerificationEngine} {jobId id : Bytes 32} {result : VerificationResult}
  {now : UInt64}

def challenges (engine : VerificationEngine) (jobId : Bytes 32) : UInt32 :=
  (engine.challengeCounter.get jobId).getD 0

theorem challenges_incrementChallengeCounter (engine : VerificationEngine) (jobId id : Bytes 32) :
    (engine.incrementChallengeCounter jobId).challenges id =
      engine.challenges id + if id = jobId then 1 else 0 := by
  simp only [challenges, incrementChallengeCounter, Map.get_insert]
  split
  · rename_i h
    rw [h]
    rfl
  · exact (UInt32.add_zero _).symm

def verdict (engine : VerificationEngine) (jobId : Bytes 32) (result : VerificationResult) :
    VerificationStatus :=
  if result.isMatch then .completed
  else if engine.policy.escalationThreshold ≤ engine.challenges jobId + 1 then .escalated
  else .challenged

theorem verdict_of_challenges {accepted : Nat} (hmatch : result.isMatch = false)
    (hcount : (engine.challenges jobId).toNat = accepted % 2 ^ 32) :
    engine.verdict jobId result =
      if engine.policy.escalationThreshold.toNat ≤ (accepted + 1) % 2 ^ 32
      then .escalated else .challenged := by
  have hnext : (engine.challenges jobId + 1).toNat = (accepted + 1) % 2 ^ 32 := by
    rw [UInt32.toNat_add, hcount, Nat.mod_add_mod]
    rfl
  simp only [verdict, hmatch, UInt32.le_iff_toNat_le, hnext, Bool.false_eq_true, if_false]

theorem completeVerification_fst (engine : VerificationEngine) (jobId : Bytes 32)
    (result : VerificationResult) (now : UInt64) :
    (engine.completeVerification jobId result now).1 =
      if (engine.verifications.get jobId).isSome then .ok (engine.verdict jobId result)
      else .error .jobNotFound := by
  have hself := challenges_incrementChallengeCounter engine jobId jobId
  rw [if_pos rfl] at hself
  cases hmatch : result.isMatch with
  | true =>
    cases hget : engine.verifications.get jobId <;>
      simp [completeVerification, verdict, hmatch, hget]
  | false =>
    have hescalate : (engine.incrementChallengeCounter jobId).shouldEscalate jobId =
        decide (engine.policy.escalationThreshold ≤ engine.challenges jobId + 1) := by
      rw [← hself]
      rfl
    have hjob : (engine.incrementChallengeCounter jobId).verifications = engine.verifications := rfl
    cases hget : engine.verifications.get jobId <;>
      simp [completeVerification, verdict, hmatch, hget, hjob, hescalate]

theorem challengeCounter_completeVerification (engine : VerificationEngine) (jobId : Bytes 32)
    (result : VerificationResult) (now : UInt64) :
    (engine.completeVerification jobId result now).2.challengeCounter =
      (if !result.isMatch then engine.incrementChallengeCounter jobId
        else engine).challengeCounter := by
  unfold completeVerification
  dsimp only
  split <;> rfl

theorem challenges_completeVerification (engine : VerificationEngine) (jobId id : Bytes 32)
    (result : VerificationResult) (now : UInt64) :
    (engine.completeVerification jobId result now).2.challenges id =
      engine.challenges id + if result.isMatch = false ∧ id = jobId then 1 else 0 := by
  rw [challenges, challengeCounter_completeVerification]
  cases result.isMatch with
  | true => exact (UInt32.add_zero _).symm
  | false =>
    refine (challenges_incrementChallengeCounter engine jobId id).trans ?_
    simp only [true_and]

theorem challengeCounter_createDispute (engine : VerificationEngine) (c : Crypto)
    (jobId challengerId accusedOperatorId : Bytes 32) (evidenceTime createdAt : UInt64) :
    (engine.createDispute c jobId challengerId accusedOperatorId evidenceTime
      createdAt).2.challengeCounter = engine.challengeCounter := by
  unfold createDispute
  cases engine.verifications.get jobId <;> rfl

theorem challengeCounter_decideDispute (engine : VerificationEngine) (disputeId : Bytes 32)
    (verdict : Dispute → Dispute) :
    (engine.decideDispute disputeId verdict).2.challengeCounter = engine.challengeCounter := by
  unfold decideDispute
  cases engine.disputes.get disputeId <;> rfl

theorem completeVerification_snd_of_isMatch (hmatch : result.isMatch = true)
    (hget : engine.verifications.get jobId = none) :
    (engine.completeVerification jobId result now).2 = engine := by
  simp [completeVerification, hmatch, hget]

theorem completeVerification_snd_ne (hmatch : result.isMatch = false) :
    (engine.completeVerification jobId result now).2 ≠ engine := by
  intro h
  have hself := challenges_completeVerification engine jobId jobId result now
  rw [h, if_pos ⟨hmatch, rfl⟩] at hself
  have hnat := congrArg UInt32.toNat hself
  rw [UInt32.toNat_add] at hnat
  have hlt := (engine.challenges jobId).toNat_lt
  have hone : (1 : UInt32).toNat = 1 := rfl
  omega

end VerificationEngine

namespace MeteredEngine

variable {c : Crypto} {policy : VerificationPolicy} {engine : MeteredEngine} {call : Call}
  {before : List Call} {id : Bytes 32}

structure Completion where
  jobId : Bytes 32
  result : VerificationResult
  now : UInt64

/-- A result comes in by itself or to be recorded. -/
def Call.completion : Call → Option Completion
  | .op (.completeVerification jobId result now) => some ⟨jobId, result, now⟩
  | .recordVerificationResult jobId result now => some ⟨jobId, result, now⟩
  | _ => none

def Completion.outcome (completion : Completion) (engine : MeteredEngine) :
    Except VerificationError VerificationStatus × MeteredEngine :=
  engine.completeVerification completion.jobId completion.result completion.now

/-- One for a call that brings a mismatch of the job and has it accepted. -/
def acceptedBy (id : Bytes 32) (engine : MeteredEngine) (call : Call) : Nat :=
  match call.completion with
  | some completion =>
    if completion.jobId = id ∧ completion.result.isMatch = false ∧
        (completion.outcome engine).1.isOk then 1 else 0
  | none => 0

def acceptedMismatches (c : Crypto) (start : MeteredEngine) (run : List Call) (id : Bytes 32) :
    Nat :=
  Trace.sum (step c) (acceptedBy id) start run

def Call.mismatches (id : Bytes 32) (call : Call) : Bool :=
  call.completion.any fun completion => completion.result.isMatch = false ∧ id = completion.jobId

/-- After `before`, a refused result leaves the engine as it is, and a mismatch escalates its
job just when it is the one that reaches the threshold or a later one. -/
def Faithful (c : Crypto) (policy : VerificationPolicy) (before : List Call) (call : Call) : Prop :=
  ∀ completion ∈ call.completion, let engine := Trace.exec (step c) (new policy) before
    ((completion.outcome engine).1.isOk = false → (completion.outcome engine).2 = engine) ∧
    ∀ status, completion.result.isMatch = false → (completion.outcome engine).1 = .ok status →
      status =
        if engine.policy.escalationThreshold.toNat ≤
            acceptedMismatches c (new policy) before completion.jobId + 1
        then .escalated else .challenged

def Scheduled (engine : MeteredEngine) (call : Call) : Prop :=
  ∀ completion ∈ call.completion, completion.result.isMatch = false →
    (engine.verifications.get completion.jobId).isSome

/-- A mismatch is of a job that is there, and the number of those that were brought fits, or
reaches the threshold again after it has wrapped. -/
def Accountable (c : Crypto) (policy : VerificationPolicy) (before : List Call) (call : Call) :
    Prop :=
  let engine := Trace.exec (step c) (new policy) before
  Scheduled engine call ∧
    ∀ completion ∈ call.completion, completion.result.isMatch = false →
      let brought := before.countP (Call.mismatches completion.jobId) + 1
      brought < 2 ^ 32 ∨ engine.policy.escalationThreshold.toNat ≤ brought % 2 ^ 32

-- ---------------------------------------------------------------------------
-- One call
-- ---------------------------------------------------------------------------

theorem outcome_fst (completion : Completion) (engine : MeteredEngine) :
    (completion.outcome engine).1 =
      if (engine.verifications.get completion.jobId).isSome then
        .ok (engine.verdict completion.jobId completion.result)
      else .error .jobNotFound :=
  engine.toVerificationEngine.completeVerification_fst ..

theorem outcome_snd_eq_iff (completion : Completion) (engine : MeteredEngine) :
    (completion.outcome engine).2 = engine ↔
      (engine.toVerificationEngine.completeVerification completion.jobId completion.result
        completion.now).2 = engine.toVerificationEngine := by
  constructor
  · exact fun h => congrArg MeteredEngine.toVerificationEngine h
  · intro h
    simp only [Completion.outcome, completeVerification, h]

theorem challengeCounter_step_of_some {completion : Completion}
    (h : call.completion = some completion) :
    (step c engine call).challengeCounter = (completion.outcome engine).2.challengeCounter := by
  cases call with
  | op op =>
    cases op with
    | completeVerification jobId result now =>
      obtain rfl := Option.some.inj h
      rfl
    | _ => cases h
  | recordVerificationResult jobId result now =>
    obtain rfl := Option.some.inj h
    change (engine.recordVerificationResult jobId result now).2.challengeCounter =
      (engine.completeVerification jobId result now).2.challengeCounter
    unfold recordVerificationResult
    obtain ⟨outcome, engine'⟩ := engine.completeVerification jobId result now
    cases outcome with
    | error e => rfl
    | ok status => cases hmatch : result.isMatch <;> rfl
  | _ => cases h

theorem challengeCounter_sampleJob (engine : MeteredEngine)
    (jobId operatorId inputHash outputHash : Bytes 32) (randVal : Float) (createdAt : UInt64) :
    (engine.sampleJob jobId operatorId inputHash outputHash randVal createdAt).2.challengeCounter =
      engine.challengeCounter := by
  unfold sampleJob
  generalize engine.shouldVerify randVal = verify
  cases verify <;> rfl

theorem challengeCounter_step_of_none (h : call.completion = none) :
    (step c engine call).challengeCounter = engine.challengeCounter := by
  cases call with
  | op op =>
    cases op with
    | scheduleVerification job => rfl
    | completeVerification jobId result now => cases h
    | createDispute jobId challengerId accusedOperatorId evidenceTime createdAt =>
      exact engine.toVerificationEngine.challengeCounter_createDispute ..
    | resolveDispute disputeId slashAmount now =>
      exact engine.toVerificationEngine.challengeCounter_decideDispute ..
    | rejectDispute disputeId now =>
      exact engine.toVerificationEngine.challengeCounter_decideDispute ..
  | sampleJob jobId operatorId inputHash outputHash randVal createdAt =>
    exact challengeCounter_sampleJob ..
  | nextVerification =>
    change engine.toVerificationEngine.nextVerification.2.challengeCounter = _
    unfold VerificationEngine.nextVerification
    cases engine.verificationQueue <;> rfl
  | recordVerificationResult jobId result now => cases h

theorem challenges_step (c : Crypto) (engine : MeteredEngine) (call : Call) (id : Bytes 32) :
    ((step c engine call).challenges id).toNat =
      ((engine.challenges id).toNat + if call.mismatches id then 1 else 0) % 2 ^ 32 := by
  cases hcompletion : call.completion with
  | none =>
    have hnone : call.mismatches id = false := by
      rw [Call.mismatches, hcompletion]
      rfl
    rw [VerificationEngine.challenges, challengeCounter_step_of_none hcompletion, hnone]
    exact (Nat.mod_eq_of_lt (engine.challenges id).toNat_lt).symm
  | some completion =>
    have hcount := engine.toVerificationEngine.challenges_completeVerification completion.jobId id
      completion.result completion.now
    have hsome : call.mismatches id =
        decide (completion.result.isMatch = false ∧ id = completion.jobId) := by
      rw [Call.mismatches, hcompletion]
      rfl
    rw [VerificationEngine.challenges, challengeCounter_step_of_some hcompletion, hsome]
    refine (congrArg UInt32.toNat hcount).trans ?_
    rw [UInt32.toNat_add]
    simp only [decide_eq_true_eq]
    split <;> rfl

theorem acceptedBy_of_scheduled (h : Scheduled engine call) (id : Bytes 32) :
    acceptedBy id engine call = if call.mismatches id then 1 else 0 := by
  unfold acceptedBy Call.mismatches
  cases hcompletion : call.completion with
  | none => rfl
  | some completion =>
    refine if_congr ?_ rfl rfl
    rw [Option.any_some, decide_eq_true_eq, outcome_fst]
    constructor
    · exact fun h' => ⟨h'.2.1, h'.1.symm⟩
    · intro h'
      rw [if_pos (h completion hcompletion h'.1)]
      exact ⟨h'.2.symm, h'.1, rfl⟩

-- ---------------------------------------------------------------------------
-- Runs
-- ---------------------------------------------------------------------------

theorem challenges_exec (c : Crypto) (engine : MeteredEngine) (run : List Call) (id : Bytes 32) :
    ((Trace.exec (step c) engine run).challenges id).toNat =
      ((engine.challenges id).toNat + run.countP (Call.mismatches id)) % 2 ^ 32 := by
  induction run generalizing engine with
  | nil =>
    rw [Trace.exec_nil, List.countP_nil, Nat.add_zero,
      Nat.mod_eq_of_lt (engine.challenges id).toNat_lt]
  | cons call run ih =>
    rw [Trace.exec_cons, ih, challenges_step, Nat.mod_add_mod, Nat.add_assoc, List.countP_cons,
      Nat.add_comm (List.countP _ run)]

theorem acceptedMismatches_eq (hrun : Trace.Always (step c) Scheduled engine before)
    (id : Bytes 32) :
    acceptedMismatches c engine before id = before.countP (Call.mismatches id) := by
  induction before generalizing engine with
  | nil => rfl
  | cons call before ih =>
    rw [acceptedMismatches, Trace.sum, acceptedBy_of_scheduled hrun.1, ← acceptedMismatches,
      ih hrun.2, List.countP_cons, Nat.add_comm]

theorem challenges_new (id : Bytes 32) : ((new policy).challenges id).toNat = 0 := by
  simp [new, VerificationEngine.new, VerificationEngine.challenges]

theorem le_mod_iff {threshold n : Nat} (h : threshold < 2 ^ 32) :
    (threshold ≤ n % 2 ^ 32 ↔ threshold ≤ n) ↔ n < 2 ^ 32 ∨ threshold ≤ n % 2 ^ 32 := by
  omega

theorem escalated_eq_iff {p q : Prop} [Decidable p] [Decidable q] :
    (if p then VerificationStatus.escalated else .challenged) =
      (if q then .escalated else .challenged) ↔ (p ↔ q) := by
  by_cases hp : p <;> by_cases hq : q <;> simp [hp, hq]

theorem Faithful.scheduled (h : Faithful c policy before call) :
    Scheduled (Trace.exec (step c) (new policy) before) call := by
  intro completion hcompletion hmatch
  by_contra hget
  have hrefused := (h completion hcompletion).1
  rw [outcome_fst, if_neg hget, outcome_snd_eq_iff] at hrefused
  exact VerificationEngine.completeVerification_snd_ne hmatch (hrefused rfl)

theorem faithful_iff (hrun : Trace.Always (step c) Scheduled (new policy) before) :
    Faithful c policy before call ↔ Accountable c policy before call := by
  have hcount (id : Bytes 32) : ((Trace.exec (step c) (new policy) before).challenges id).toNat =
      before.countP (Call.mismatches id) % 2 ^ 32 := by
    rw [challenges_exec, challenges_new, Nat.zero_add]
  have hstatus (completion : Completion) (hmatch : completion.result.isMatch = false) :
      (Trace.exec (step c) (new policy) before).verdict completion.jobId completion.result =
          (if (Trace.exec (step c) (new policy) before).policy.escalationThreshold.toNat ≤
            acceptedMismatches c (new policy) before completion.jobId + 1
          then .escalated else .challenged) ↔
        let brought := before.countP (Call.mismatches completion.jobId) + 1
        brought < 2 ^ 32 ∨
          (Trace.exec (step c) (new policy) before).policy.escalationThreshold.toNat ≤
            brought % 2 ^ 32 := by
    rw [VerificationEngine.verdict_of_challenges hmatch (hcount completion.jobId),
      acceptedMismatches_eq hrun, escalated_eq_iff]
    exact le_mod_iff (UInt32.toNat_lt _)
  constructor
  · intro h
    refine ⟨h.scheduled, fun completion hcompletion hmatch => ?_⟩
    refine (hstatus completion hmatch).mp ((h completion hcompletion).2 _ hmatch ?_)
    rw [outcome_fst, if_pos (h.scheduled completion hcompletion hmatch)]
  · intro h completion hcompletion
    constructor
    · intro hrefused
      cases hmatch : completion.result.isMatch with
      | false =>
        rw [outcome_fst, if_pos (h.1 completion hcompletion hmatch)] at hrefused
        cases hrefused
      | true =>
        rw [outcome_snd_eq_iff]
        refine VerificationEngine.completeVerification_snd_of_isMatch hmatch ?_
        rw [outcome_fst] at hrefused
        split at hrefused
        · cases hrefused
        · rename_i hget
          exact Option.not_isSome_iff_eq_none.mp hget
    · intro status hmatch hok
      rw [outcome_fst, if_pos (h.1 completion hcompletion hmatch)] at hok
      obtain rfl := Except.ok.inj hok
      exact (hstatus completion hmatch).mpr (h.2 completion hcompletion hmatch)

/-- Completions are as they should be all along a run just when its mismatches can be
accounted for. -/
theorem completions_faithful_iff (c : Crypto) (policy : VerificationPolicy) (run : List Call) :
    (∀ before call after, run = before ++ call :: after → Faithful c policy before call) ↔
      ∀ before call after, run = before ++ call :: after → Accountable c policy before call := by
  have hscheduled {before after : List Call} {call : Call} (heq : run = before ++ call :: after)
      (h : ∀ before call after, run = before ++ call :: after →
        Scheduled (Trace.exec (step c) (new policy) before) call) :
      Trace.Always (step c) Scheduled (new policy) before := by
    refine Trace.always_iff_forall.mpr ?_
    rintro earlier call' later rfl
    exact h earlier call' (later ++ call :: after) (by simp [heq])
  constructor
  · intro h before call after heq
    refine (faithful_iff (hscheduled heq ?_)).mp (h before call after heq)
    exact fun before call after heq => (h before call after heq).scheduled
  · intro h before call after heq
    refine (faithful_iff (hscheduled heq ?_)).mpr (h before call after heq)
    exact fun before call after heq => (h before call after heq).1

/-- A mismatch of a job that is not there is refused and counted, so that the first one
accepted after the job is scheduled escalates it. -/
theorem completions_faithful_fails :
    ¬ ∀ (c : Crypto) (policy : VerificationPolicy) (run before : List Call) (call : Call)
      (after : List Call), run = before ++ call :: after → Faithful c policy before call := by
  intro h
  let c : Crypto := { blake3 := fun _ => .fill 32 0, ed25519Verify := fun _ _ _ => true }
  let job : VerificationJob := ⟨.fill 32 1, .fill 32 2, .fill 32 3, .fill 32 4, none,
    .deterministic, .pending, 100, none, none⟩
  let mismatch : Call := .op (.completeVerification (.fill 32 1)
    ⟨false, .fill 32 5, 10, .fill 32 6, 0, []⟩ 200)
  have hfaithful := h c .initial _ [mismatch, .op (.scheduleVerification job)] mismatch [] rfl
  have hstatus := (hfaithful _ rfl).2 .escalated rfl rfl
  exact absurd hstatus (by decide)

end MeteredEngine

end LiteVision.Intelligence.Verification
