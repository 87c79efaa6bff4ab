import LiteVision.Intelligence.Job

/-!
# A job is settled once

A completed, failed or expired job should stay so, and be paid for once. Two calls do
not look at the status they write over: `submit`, which replaces a job of the same
id, and `fail_job`, which takes a retry off a job in any state.
-/

namespace LiteVision.Intelligence

open Lib
open Map (Iteration)

def JobStatus.Final (status : JobStatus) : Prop :=
  status = .completed ∨ status = .failed ∨ status = .expired

instance : DecidablePred JobStatus.Final := fun status =>
  inferInstanceAs (Decidable (status = .completed ∨ status = .failed ∨ status = .expired))

namespace JobExecutorInner

variable {c : Crypto} {it : Iteration (Bytes 32) Job} {inner : JobExecutorInner} {op : Op}
  {id : Bytes 32} {status : JobStatus} {capacity : Nat}

def completions (id : Bytes 32) (inner : JobExecutorInner) : Op → Nat
  | .completeJob jobId result currentBlock =>
    if jobId = id ∧ (inner.completeJob jobId result currentBlock).1.isOk then 1 else 0
  | _ => 0

/-- A refund and the fee are the whole of what the ticket allows. -/
def RefundExact (inner : JobExecutorInner) : Op → Prop
  | .completeJob jobId result currentBlock => ∀ refund,
    (inner.completeJob jobId result currentBlock).1 = .ok refund →
      ∃ job, inner.jobs.get jobId = some job ∧
        refund.toNat + result.computeUsed.totalFee.toNat = job.ticket.budget.maxTotalFee.toNat
  | _ => True

/-- The jobs of a run are settled once and for all. -/
structure SettledOnce (c : Crypto) (it : Iteration (Bytes 32) Job) (capacity : Nat)
    (run : List Op) : Prop where
  once : ∀ id, Trace.sum (step c it) (completions id) (JobExecutor.new capacity) run ≤ 1
  refund : Trace.Always (step c it) RefundExact (JobExecutor.new capacity) run
  final : ∀ id status before between, before ++ between <+: run → status.Final →
    (Trace.exec (step c it) (JobExecutor.new capacity) before).statusOf id = some status →
    (Trace.exec (step c it) (JobExecutor.new capacity) (before ++ between)).statusOf id =
      some status

/-- The call does not write over a job in a last state, or leaves it in that state. -/
def SparesFinal (inner : JobExecutorInner) : Op → Prop
  | .submit job => inner.Full ∨
    ∀ status, inner.statusOf job.ticket.jobId = some status → status.Final → job.status = status
  | .executorSubmitJob ticket _ => inner.Full ∨
    ∀ status, inner.statusOf ticket.jobId = some status → ¬ status.Final
  | .failJob jobId => ∀ job, inner.jobs.get jobId = some job → job.status.Final →
    job.retriesRemaining = 0 ∨ (job.status = .failed ∧ job.retriesRemaining = 1)
  | _ => True

-- ---------------------------------------------------------------------------
-- One call
-- ---------------------------------------------------------------------------

theorem not_final (h : status = .pending ∨ status = .assigned ∨ status = .executing) :
    ¬ status.Final := by
  rcases h with rfl | rfl | rfl <;> decide

theorem final_step (hspares : SparesFinal inner op) (hfinal : status.Final)
    (h : inner.statusOf id = some status) : (step c it inner op).statusOf id = some status := by
  obtain ⟨old, hold, rfl⟩ := Option.map_eq_some_iff.mp h
  rcases get_step c it inner op id with hsame | ⟨job, hacts, hget⟩
  · rw [statusOf, hsame]
    exact h
  · rw [hold] at hacts
    rw [statusOf, hget, Option.map_some]
    cases hacts with
    | submit hroom hid =>
      subst hid
      rcases hspares with hfull | hspares
      · exact absurd hfull hroom
      · rw [hspares _ h hfinal]
    | executorSubmitJob hroom hid =>
      subst hid
      rcases hspares with hfull | hspares
      · exact absurd hfull hroom
      · exact absurd hfinal (hspares _ h)
    | assign hstatus => exact absurd hfinal (not_final (.inl hstatus))
    | execute hstatus => exact absurd hfinal (not_final (.inr hstatus))
    | complete hstatus => exact absurd hfinal (not_final (.inr hstatus))
    | fail =>
      rw [Job.status_fail]
      rcases hspares old hold hfinal with hzero | ⟨hfailed, hone⟩
      · rw [hzero]
        rfl
      · rw [hone, hfailed]
        rfl
    | expire hexpired => exact absurd hfinal (not_final (Job.of_isExpired hexpired))

theorem sparesFinal_of (c : Crypto) (it : Iteration (Bytes 32) Job)
    (h : ∀ id status, status.Final → inner.statusOf id = some status →
      (step c it inner op).statusOf id = some status) : SparesFinal inner op := by
  cases op with
  | submit job =>
    refine or_iff_not_imp_left.mpr fun hroom status hstatus hfinal => ?_
    have hafter := h _ status hfinal hstatus
    rw [statusOf, step, get_submit hroom, Map.get_insert_self] at hafter
    exact Option.some.inj hafter
  | executorSubmitJob ticket blockHeight =>
    refine or_iff_not_imp_left.mpr fun hroom status hstatus hfinal => ?_
    have hafter := h _ status hfinal hstatus
    rw [statusOf, step, JobExecutor.submitJob] at hafter
    dsimp only at hafter
    rw [get_submit hroom, Job.fromTicket, Map.get_insert_self] at hafter
    obtain rfl := Option.some.inj hafter
    exact not_final (.inl rfl) hfinal
  | failJob jobId =>
    intro job hget hfinal
    have hafter := h jobId job.status hfinal (by rw [statusOf, hget, Option.map_some])
    rw [statusOf, step, failJob, hget, Map.get_insert_self, Option.map_some,
      Job.status_fail] at hafter
    have hstatus := Option.some.inj hafter
    split at hstatus
    · split at hstatus
      · rename_i hone
        exact .inr ⟨hstatus.symm, hone⟩
      · exact absurd hfinal (not_final (.inl hstatus.symm))
    · rename_i hzero
      refine .inl (UInt32.toNat_inj.mp ?_)
      rw [UInt32.lt_iff_toNat_lt] at hzero
      exact Nat.eq_zero_of_not_pos hzero
  | _ => trivial

-- ---------------------------------------------------------------------------
-- Completions
-- ---------------------------------------------------------------------------

theorem completions_le_one (inner : JobExecutorInner) (op : Op) : completions id inner op ≤ 1 := by
  cases op with
  | completeJob jobId result currentBlock =>
    simp only [completions]
    split <;> omega
  | _ => exact Nat.zero_le 1

theorem of_completions (h : completions id inner op ≠ 0) :
    ∃ result currentBlock job, op = .completeJob id result currentBlock ∧
      inner.jobs.get id = some job ∧ (job.status = .assigned ∨ job.status = .executing) ∧
      (inner.completeJob id result currentBlock).2.jobs =
        inner.jobs.insert id (job.complete result result.computeUsed currentBlock) := by
  cases op with
  | completeJob jobId result currentBlock =>
    simp only [completions, ne_eq, ite_eq_right_iff, Nat.one_ne_zero, imp_false, not_not] at h
    obtain ⟨rfl, hok⟩ := h
    rcases completeJob_cases inner jobId result currentBlock with
      ⟨e, heq⟩ | ⟨job, hget, hstatus, -, heq⟩
    · rw [heq] at hok
      cases hok
    · exact ⟨result, currentBlock, job, rfl, hget, hstatus, by rw [heq]⟩
  | _ => exact absurd rfl h

theorem completed_step (h : completions id inner op ≠ 0) :
    (step c it inner op).statusOf id = some .completed := by
  obtain ⟨result, currentBlock, job, rfl, -, -, hjobs⟩ := of_completions h
  rw [statusOf, step, hjobs, Map.get_insert_self]
  rfl

theorem completions_completed (h : inner.statusOf id = some .completed) (op : Op) :
    completions id inner op = 0 := by
  by_contra hne
  obtain ⟨-, -, job, -, hget, hstatus, -⟩ := of_completions hne
  rw [statusOf, hget] at h
  exact not_final (.inr hstatus) (.inl (Option.some.inj h))

theorem refundExact (inner : JobExecutorInner) (op : Op) : RefundExact inner op := by
  cases op with
  | completeJob jobId result currentBlock =>
    intro refund hrefund
    rcases completeJob_cases inner jobId result currentBlock with
      ⟨e, heq⟩ | ⟨job, hget, -, hcover, heq⟩
    · rw [heq] at hrefund
      cases hrefund
    · rw [heq] at hrefund
      obtain rfl := Except.ok.inj hrefund
      have hfee : result.computeUsed.totalFee ≤ job.ticket.budget.maxTotalFee := by
        simp only [Budget.canCover, Bool.and_eq_true, decide_eq_true_eq] at hcover
        exact hcover.1.1.1.1
      refine ⟨job, hget, ?_⟩
      rw [UInt64.toNat_sub_of_le _ _ hfee]
      exact Nat.sub_add_cancel (UInt64.le_iff_toNat_le.mp hfee)
  | _ => trivial

-- ---------------------------------------------------------------------------
-- Runs
-- ---------------------------------------------------------------------------

/-- The jobs of a run are settled once just when no call of it writes another status
over a last one. -/
theorem settled_once_iff (c : Crypto) (it : Iteration (Bytes 32) Job) (capacity : Nat)
    (run : List Op) :
    SettledOnce c it capacity run ↔
      Trace.Always (step c it) SparesFinal (JobExecutor.new capacity) run := by
  constructor
  · intro hsettled
    refine Trace.always_iff_forall.mpr ?_
    rintro before op after rfl
    refine sparesFinal_of c it fun id status hfinal hstatus => ?_
    have hafter := hsettled.final id status before [op] ⟨after, by simp⟩ hfinal hstatus
    rwa [Trace.exec_concat] at hafter
  · intro hspares
    constructor
    case once =>
      intro id
      exact hspares.sum_le_one (I := fun inner => inner.statusOf id = some .completed)
        completions_le_one (fun _ _ _ hne => completed_step hne)
        (fun _ _ hstep h => final_step hstep (.inl rfl) h)
        (fun _ op _ h => completions_completed h op)
    case refund => exact Trace.always_of_forall_mem fun op _ inner => refundExact inner op
    case final =>
      intro id status before between hpart hfinal hstatus
      rw [Trace.exec_append]
      exact (hspares.between hpart).exec (I := fun inner => inner.statusOf id = some status)
        (fun _ _ h hstep => final_step hstep hfinal h) hstatus

/-- A job that is completed, fails after that, and is completed again. -/
theorem settled_once_fails :
    ¬ ∀ (c : Crypto) (it : Iteration (Bytes 32) Job) (capacity : Nat) (run : List Op),
      SettledOnce c it capacity run := by
  intro h
  let c : Crypto := { blake3 := fun _ => .fill 32 0, ed25519Verify := fun _ _ _ => true }
  let result : JobResult := ⟨.fill 32 7, 0, ⟨600, 0, 0, 0, 0⟩, 0, [], false⟩
  have hsettled := h c .ascending 10
    [.submitJob (.new c (.fill 32 1) (.fill 32 2) (.fill 32 3) (.new 1000) 100) 10,
      .assignJob (.fill 32 0) (.fill 32 5) 15, .completeJob (.fill 32 0) result 20,
      .failJob (.fill 32 0), .assignJob (.fill 32 0) (.fill 32 5) 25,
      .completeJob (.fill 32 0) result 30]
  exact absurd (hsettled.once (.fill 32 0)) (by decide)

end JobExecutorInner

end LiteVision.Intelligence
