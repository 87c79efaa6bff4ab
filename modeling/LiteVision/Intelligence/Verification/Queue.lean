import LiteVision.Intelligence.Verification.Completion
import LiteVision.Lib.Fifo

/-!
# The verification queue

What is scheduled, by itself or because a result is sampled, waits in a queue of job ids.
The record is looked up only when its id is handed out, so it is the one scheduled last
under the id. Nothing takes a record away, and the totals count calls of `sample_job` and
`record_verification_result`.
-/

namespace LiteVision.Intelligence.Verification

open Lib

/-- A record as it was when it was scheduled. -/
def VerificationJob.asScheduled (job : VerificationJob) : VerificationJob :=
  { job with status := .pending, completedAt := none, result := none }

namespace VerificationEngine

/-- What a call that only works on records that are there leaves as it is. -/
structure Keeps (engine engine' : VerificationEngine) : Prop where
  policy : engine'.policy = engine.policy
  queue : engine'.verificationQueue = engine.verificationQueue
  records : ∀ id, (engine'.verifications.get id).map VerificationJob.asScheduled =
    (engine.verifications.get id).map VerificationJob.asScheduled

theorem Keeps.refl (engine : VerificationEngine) : engine.Keeps engine := ⟨rfl, rfl, fun _ => rfl⟩

theorem asScheduled_modify (verifications : Map (Bytes 32) VerificationJob) (jobId id : Bytes 32)
    {f : VerificationJob → VerificationJob} (hf : ∀ job, (f job).asScheduled = job.asScheduled) :
    ((verifications.modify jobId f).get id).map VerificationJob.asScheduled =
      (verifications.get id).map VerificationJob.asScheduled := by
  rw [Map.get_modify]
  split
  · rename_i hid
    rw [hid, Option.map_map]
    exact congrFun (congrArg Option.map (funext hf)) _
  · rfl

theorem keeps_completeVerification (engine : VerificationEngine) (jobId : Bytes 32)
    (result : VerificationResult) (now : UInt64) :
    engine.Keeps (engine.completeVerification jobId result now).2 := by
  have hcounted : engine.Keeps
      (if !result.isMatch then engine.incrementChallengeCounter jobId else engine) := by
    split
    · exact ⟨rfl, rfl, fun _ => rfl⟩
    · exact .refl engine
  unfold completeVerification
  dsimp only
  split
  · exact hcounted
  · rename_i job hget
    refine ⟨hcounted.policy, hcounted.queue, fun id => ?_⟩
    rw [← hcounted.records id, Map.get_insert]
    split
    · rename_i hid
      rw [hid, hget]
      rfl
    · rfl

theorem keeps_createDispute (engine : VerificationEngine) (c : Crypto)
    (jobId challengerId accusedOperatorId : Bytes 32) (evidenceTime createdAt : UInt64) :
    engine.Keeps
      (engine.createDispute c jobId challengerId accusedOperatorId evidenceTime createdAt).2 := by
  unfold createDispute
  split
  · exact .refl engine
  · exact ⟨rfl, rfl, fun id => asScheduled_modify engine.verifications jobId id fun _ => rfl⟩

theorem keeps_decideDispute (engine : VerificationEngine) (disputeId : Bytes 32)
    (verdict : Dispute → Dispute) : engine.Keeps (engine.decideDispute disputeId verdict).2 := by
  unfold decideDispute
  split
  · exact .refl engine
  · rename_i dispute _
    exact ⟨rfl, rfl, fun id =>
      asScheduled_modify engine.verifications dispute.jobId id fun _ => rfl⟩

end VerificationEngine

namespace MeteredEngine

def sampled (policy : VerificationPolicy) (jobId operatorId inputHash outputHash : Bytes 32)
    (createdAt : UInt64) : VerificationJob where
  jobId := jobId
  operatorId := operatorId
  inputHash := inputHash
  outputHash := outputHash
  expectedHash := none
  verificationMode := policy.mode
  status := .pending
  createdAt := createdAt
  completedAt := none
  result := none

def Call.scheduled (policy : VerificationPolicy) : Call → Option VerificationJob
  | .op (.scheduleVerification job) => some job
  | .sampleJob jobId operatorId inputHash outputHash randVal createdAt =>
    if randVal < policy.verificationRate then
      some (sampled policy jobId operatorId inputHash outputHash createdAt)
    else none
  | _ => none

def Call.samples (policy : VerificationPolicy) : Call → Bool
  | .sampleJob _ _ _ _ randVal _ => randVal < policy.verificationRate
  | _ => false

def handsOut (engine : MeteredEngine) : Call → List VerificationJob
  | .nextVerification => engine.nextVerification.1.toList
  | _ => []

/-- One for a result that is recorded and gives this answer. -/
def records (isMatch : Bool) (engine : MeteredEngine) : Call → Nat
  | .recordVerificationResult jobId result _ =>
    if result.isMatch = isMatch ∧ (engine.verifications.get jobId).isSome then 1 else 0
  | _ => 0

def lastScheduled (policy : VerificationPolicy) (run : List Call) (id : Bytes 32) :
    Option VerificationJob :=
  (run.filterMap (Call.scheduled policy)).reverse.find? fun job => job.jobId = id

-- ---------------------------------------------------------------------------
-- One call
-- ---------------------------------------------------------------------------

variable {c : Crypto} {policy : VerificationPolicy} {engine : MeteredEngine} {call : Call}

/-- A call schedules a record, takes the front of the queue, or works on records that are
there. -/
inductive Works (engine : MeteredEngine) (call : Call) (engine' : VerificationEngine) : Prop
  | schedules (job : VerificationJob) (hcall : call.scheduled engine.policy = some job)
      (hnone : engine.handsOut call = [])
      (heq : engine' = engine.scheduleVerification job)
  | takes (hcall : call.scheduled engine.policy = none)
      (hjob : engine.handsOut call = engine.nextVerification.1.toList)
      (heq : engine' = engine.nextVerification.2)
  | keeps (hcall : call.scheduled engine.policy = none) (hnone : engine.handsOut call = [])
      (hkeeps : engine.Keeps engine')

theorem recordVerificationResult_snd (engine : MeteredEngine) (jobId : Bytes 32)
    (result : VerificationResult) (now : UInt64) :
    (engine.recordVerificationResult jobId result now).2 =
      let completed := (engine.completeVerification jobId result now).2
      if (engine.verifications.get jobId).isSome then
        if result.isMatch then { completed with totalPassed := completed.totalPassed + 1 }
        else { completed with totalFailed := completed.totalFailed + 1 }
      else completed := by
  have hfst := engine.toVerificationEngine.completeVerification_fst jobId result now
  unfold recordVerificationResult completeVerification
  dsimp only
  rw [hfst]
  split
  · rename_i e engine' heq
    split at heq
    · cases heq
    · rename_i hget
      cases heq
      rw [if_neg hget]
  · rename_i status engine' heq
    split at heq
    · rename_i hget
      cases heq
      rw [if_pos hget]
    · cases heq

theorem works_step (c : Crypto) (engine : MeteredEngine) (call : Call) :
    Works engine call (step c engine call).toVerificationEngine := by
  cases call with
  | op op =>
    cases op with
    | scheduleVerification job => exact .schedules job rfl rfl rfl
    | completeVerification jobId result now =>
      exact .keeps rfl rfl (engine.keeps_completeVerification jobId result now)
    | createDispute jobId challengerId accusedOperatorId evidenceTime createdAt =>
      exact .keeps rfl rfl (engine.keeps_createDispute c jobId challengerId accusedOperatorId
        evidenceTime createdAt)
    | resolveDispute disputeId slashAmount now =>
      exact .keeps rfl rfl (engine.keeps_decideDispute disputeId _)
    | rejectDispute disputeId now =>
      exact .keeps rfl rfl (engine.keeps_decideDispute disputeId _)
  | sampleJob jobId operatorId inputHash outputHash randVal createdAt =>
    by_cases hrand : randVal < engine.policy.verificationRate
    · refine .schedules (sampled engine.policy jobId operatorId inputHash outputHash createdAt)
        (if_pos hrand) rfl ?_
      simp [step, sampleJob, VerificationEngine.shouldVerify, hrand, sampled]
    · refine .keeps (if_neg hrand) rfl ?_
      simp only [step, sampleJob, VerificationEngine.shouldVerify, hrand, decide_false,
        Bool.not_false, if_true]
      exact .refl _
  | nextVerification => exact .takes rfl rfl rfl
  | recordVerificationResult jobId result now =>
    refine .keeps rfl rfl ?_
    have hkeeps := engine.keeps_completeVerification jobId result now
    rw [step, recordVerificationResult_snd]
    split
    · split <;> exact hkeeps
    · exact hkeeps

/-- What is in the queue is there to be looked up. -/
def Ready (policy : VerificationPolicy) (engine : MeteredEngine) : Prop :=
  engine.policy = policy ∧
    (∀ id ∈ engine.verificationQueue, (engine.verifications.get id).isSome) ∧
    ∀ id job, engine.verifications.get id = some job → job.jobId = id

theorem policy_step (c : Crypto) (engine : MeteredEngine) (call : Call) :
    (step c engine call).policy = engine.policy := by
  cases works_step c engine call with
  | schedules job _ _ heq => rw [heq]; rfl
  | takes _ _ heq =>
    rw [heq, VerificationEngine.nextVerification]
    split <;> rfl
  | keeps _ _ hkeeps => exact hkeeps.policy

theorem asScheduled_step (c : Crypto) (engine : MeteredEngine) (call : Call) (id : Bytes 32) :
    ((step c engine call).verifications.get id).map VerificationJob.asScheduled =
      match call.scheduled engine.policy with
      | some job =>
        if id = job.jobId then some job.asScheduled
        else (engine.verifications.get id).map VerificationJob.asScheduled
      | none => (engine.verifications.get id).map VerificationJob.asScheduled := by
  cases works_step c engine call with
  | schedules job hcall _ heq =>
    rw [hcall, heq, VerificationEngine.scheduleVerification, Map.get_insert]
    split
    · rename_i hid
      simp [hid]
    · rename_i hid
      simp [hid]
  | takes hcall _ heq =>
    rw [hcall, heq, VerificationEngine.nextVerification]
    split <;> rfl
  | keeps hcall _ hkeeps =>
    rw [hcall]
    exact hkeeps.records id

theorem Ready.step (h : Ready policy engine) (c : Crypto) (call : Call) :
    Ready policy (step c engine call) := by
  obtain ⟨hpolicy, hqueue, hids⟩ := h
  refine ⟨(policy_step c engine call).trans hpolicy, ?_⟩
  cases works_step c engine call with
  | schedules job _ _ heq =>
    rw [heq, VerificationEngine.scheduleVerification]
    constructor
    · intro id hid
      rw [Map.get_insert]
      split
      · rfl
      · rename_i hne
        rcases List.mem_append.mp hid with hid | hid
        · exact hqueue id hid
        · exact absurd (List.mem_singleton.mp hid) hne
    · intro id job' hget
      rcases Map.of_get_insert hget with ⟨rfl, rfl⟩ | ⟨-, hget⟩
      · rfl
      · exact hids id job' hget
  | takes _ _ heq =>
    rw [heq, VerificationEngine.nextVerification]
    split
    · exact ⟨hqueue, hids⟩
    · rename_i front rest hsome
      exact ⟨fun id hid => hqueue id (hsome ▸ List.mem_cons_of_mem front hid), hids⟩
  | keeps _ _ hkeeps =>
    constructor
    · intro id hid
      have hsome := congrArg Option.isSome (hkeeps.records id)
      rw [Option.isSome_map, Option.isSome_map] at hsome
      exact hsome.trans (hqueue id (hkeeps.queue ▸ hid))
    · intro id job hget
      have hrecord := hkeeps.records id
      rw [hget] at hrecord
      obtain ⟨before, hbefore, hsame⟩ := Option.map_eq_some_iff.mp hrecord.symm
      have hid : before.asScheduled.jobId = job.asScheduled.jobId := congrArg _ hsame
      exact hid.symm.trans (hids id before hbefore)

theorem queue_step (h : Ready policy engine) (c : Crypto) (call : Call) :
    engine.verificationQueue ++ (call.scheduled policy).toList.map VerificationJob.jobId =
      (engine.handsOut call).map VerificationJob.jobId ++
        (step c engine call).verificationQueue := by
  obtain ⟨rfl, hqueue, hids⟩ := h
  cases works_step c engine call with
  | schedules job hcall hnone heq =>
    rw [hcall, hnone, heq]
    rfl
  | takes hcall hjob heq =>
    rw [hcall, hjob, heq, VerificationEngine.nextVerification]
    split
    · rename_i hnil
      simp [hnil]
    · rename_i front rest hsome
      obtain ⟨job, hget⟩ := Option.isSome_iff_exists.mp (hqueue front (by simp [hsome]))
      simp [hsome, hget, hids front job hget]
  | keeps hcall hnone hkeeps =>
    rw [hcall, hnone, hkeeps.queue]
    simp

theorem totalSampled_step (h : Ready policy engine) (c : Crypto) (call : Call) :
    (step c engine call).totalSampled =
      engine.totalSampled + UInt64.ofNat (if call.samples policy then 1 else 0) := by
  obtain ⟨rfl, -⟩ := h
  cases call with
  | sampleJob jobId operatorId inputHash outputHash randVal createdAt =>
    by_cases hrand : randVal < engine.policy.verificationRate <;>
      simp [step, sampleJob, VerificationEngine.shouldVerify, hrand, Call.samples]
  | recordVerificationResult jobId result now =>
    rw [step, recordVerificationResult_snd]
    dsimp only
    split
    · split <;> simp [completeVerification, Call.samples]
    · simp [completeVerification, Call.samples]
  | op op => simp [step, Call.samples]
  | nextVerification => simp [step, Call.samples]

theorem totals_step (c : Crypto) (engine : MeteredEngine) (call : Call) :
    (step c engine call).totalPassed =
        engine.totalPassed + UInt64.ofNat (records true engine call) ∧
      (step c engine call).totalFailed =
        engine.totalFailed + UInt64.ofNat (records false engine call) ∧
      (step c engine call).totalDisputes = engine.totalDisputes := by
  cases call with
  | sampleJob jobId operatorId inputHash outputHash randVal createdAt =>
    by_cases hrand : randVal < engine.policy.verificationRate <;>
      simp [step, sampleJob, VerificationEngine.shouldVerify, hrand, records]
  | recordVerificationResult jobId result now =>
    rw [step, recordVerificationResult_snd]
    dsimp only
    split
    · rename_i hget
      cases hmatch : result.isMatch <;> simp [completeVerification, records, hget, hmatch]
    · rename_i hget
      simp [completeVerification, records, hget]
  | op op => simp [step, records]
  | nextVerification => simp [step, records]

-- ---------------------------------------------------------------------------
-- Runs
-- ---------------------------------------------------------------------------

theorem ready_new (policy : VerificationPolicy) : Ready policy (new policy) := by
  refine ⟨rfl, fun id hid => absurd hid List.not_mem_nil, fun id job hget => ?_⟩
  simp [new, VerificationEngine.new] at hget

theorem ready_exec (c : Crypto) (policy : VerificationPolicy) (run : List Call) :
    Ready policy (Trace.exec (step c) (new policy) run) :=
  Trace.invariant (fun _ call h => h.step c call) (ready_new policy) run

theorem asScheduled_exec (c : Crypto) (policy : VerificationPolicy) (run : List Call)
    (id : Bytes 32) :
    ((Trace.exec (step c) (new policy) run).verifications.get id).map VerificationJob.asScheduled =
      (lastScheduled policy run id).map VerificationJob.asScheduled := by
  induction run using List.reverseRecOn with
  | nil => simp [new, VerificationEngine.new, lastScheduled]
  | append_singleton run call ih =>
    rw [Trace.exec_concat, asScheduled_step, (ready_exec c policy run).1, ih]
    unfold lastScheduled
    rw [List.filterMap_append, List.reverse_append]
    cases hcall : call.scheduled policy with
    | none => simp [hcall]
    | some job =>
      by_cases hid : id = job.jobId
      · simp [hcall, hid]
      · simp [hcall, hid, Ne.symm hid]

theorem counter_exec {count : MeteredEngine → UInt64} {amount : MeteredEngine → Call → Nat}
    (hstep : ∀ engine call, Ready policy engine →
      count (step c engine call) = count engine + UInt64.ofNat (amount engine call))
    (hzero : count (new policy) = 0) (run : List Call) :
    count (Trace.exec (step c) (new policy) run) =
      UInt64.ofNat (Trace.sum (step c) amount (new policy) run) := by
  induction run using List.reverseRecOn with
  | nil => exact hzero
  | append_singleton run call ih =>
    rw [Trace.exec_concat, hstep _ call (ready_exec c policy run), ih, Trace.sum_concat,
      UInt64.ofNat_add]

theorem sum_samples (policy : VerificationPolicy) (engine : MeteredEngine) (run : List Call) :
    Trace.sum (step c) (fun _ call => if call.samples policy then 1 else 0) engine run =
      run.countP (Call.samples policy) := by
  induction run generalizing engine with
  | nil => rfl
  | cons call run ih => rw [Trace.sum, ih, List.countP_cons, Nat.add_comm]

theorem totalSampled_exec (run : List Call) :
    (Trace.exec (step c) (new policy) run).totalSampled =
      UInt64.ofNat (run.countP (Call.samples policy)) := by
  have hsum := sum_samples (c := c) policy (new policy) run
  exact hsum ▸ counter_exec (fun _ call h => totalSampled_step h c call) rfl run

theorem totalDisputes_exec (run : List Call) :
    (Trace.exec (step c) engine run).totalDisputes = engine.totalDisputes := by
  induction run generalizing engine with
  | nil => rfl
  | cons call run ih => rw [Trace.exec_cons, ih, (totals_step c engine call).2.2]

theorem Ready.nextVerification (h : Ready policy engine) :
    engine.nextVerification.1.map VerificationJob.jobId = engine.verificationQueue.head? := by
  obtain ⟨-, hqueue, hids⟩ := h
  rw [VerificationEngine.nextVerification]
  split
  · rename_i hnil
    rw [hnil]
    rfl
  · rename_i front rest hcons
    obtain ⟨job, hget⟩ := Option.isSome_iff_exists.mp (hqueue front (by simp [hcons]))
    simp [hcons, hget, hids front job hget]

/-- Over every run. The ids that were scheduled are those that were handed out and then those
in the queue. While the queue holds an id something is handed out under it, and it is the
record that was scheduled last under the id, with what became of it since. The totals count
the samples taken and the results recorded for a job that is there, and no dispute. -/
theorem queue_run (c : Crypto) (policy : VerificationPolicy) (run : List Call) :
    let engine := Trace.exec (step c) (new policy) run
    (run.filterMap (Call.scheduled policy)).map VerificationJob.jobId =
        (Fifo.outputs (step c) handsOut (new policy) run).map VerificationJob.jobId ++
          engine.verificationQueue ∧
      (∀ id, (engine.verifications.get id).map VerificationJob.asScheduled =
        (lastScheduled policy run id).map VerificationJob.asScheduled) ∧
      engine.nextVerification.1.map VerificationJob.jobId = engine.verificationQueue.head? ∧
      engine.totalSampled = UInt64.ofNat (run.countP (Call.samples policy)) ∧
      engine.totalPassed = UInt64.ofNat (Trace.sum (step c) (records true) (new policy) run) ∧
      engine.totalFailed = UInt64.ofNat (Trace.sum (step c) (records false) (new policy) run) ∧
      engine.totalDisputes = 0 := by
  intro engine
  have hfifo := Fifo.outputs_eq (fun engine : MeteredEngine => engine.verificationQueue)
    (fun _ call h => h.step c call) (fun _ call h => queue_step h c call) (ready_new policy) run
  refine ⟨?_, asScheduled_exec c policy run, (ready_exec c policy run).nextVerification,
    totalSampled_exec run,
    counter_exec (fun engine call _ => (totals_step c engine call).1) rfl run,
    counter_exec (fun engine call _ => (totals_step c engine call).2.1) rfl run,
    totalDisputes_exec run⟩
  rw [Fifo.outputs_map, Fifo.outputs_map, Fifo.outputs_toList] at hfifo
  exact hfifo

end MeteredEngine

end LiteVision.Intelligence.Verification
