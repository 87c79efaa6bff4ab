import LiteVision.Intelligence.Job
import LiteVision.Lib.Admission

/-!
# The executor from outside

`JobExecutor` offers submissions, assignments and completions, each under the lock. A job that
was let in keeps its place for ever, so the executor takes submissions until as many ids were
submitted as it has room for, and none after that. A receipt is made when its job is submitted
and never touched again.
-/

namespace LiteVision.Intelligence

open Lib
open Lib.Map (Iteration)

namespace JobExecutor

open JobExecutorInner (Full)

/-- The calls that `JobExecutor` has; those that read change nothing. -/
inductive Call where
  | submit (job : Job)
  | submitJob (ticket : JobTicket) (blockHeight : UInt64)
  | assignJob (jobId operatorId : Bytes 32) (blockHeight : UInt64)
  | completeJob (jobId : Bytes 32) (result : JobResult) (blockHeight : UInt64)

def Call.op : Call → JobExecutorInner.Op
  | .submit job => .submit job
  | .submitJob ticket blockHeight => .executorSubmitJob ticket blockHeight
  | .assignJob jobId operatorId blockHeight => .assignJob jobId operatorId blockHeight
  | .completeJob jobId result blockHeight => .completeJob jobId result blockHeight

def step (c : Crypto) (it : Iteration (Bytes 32) Job) (inner : JobExecutorInner) (call : Call) :
    JobExecutorInner :=
  inner.step c it call.op

def Call.submitted : Call → Option Job
  | .submit job => some job
  | .submitJob ticket blockHeight => some (.fromTicket ticket blockHeight)
  | .assignJob _ _ _ | .completeJob _ _ _ => none

def jobId (job : Job) : Bytes 32 := job.ticket.jobId

/-- The receipt of a submission: no operator, no output and no resources. -/
def initialReceipt (c : Crypto) (job : Job) : Receipt :=
  let executionMode := match job.ticket.executionMode with
    | .soft => Receipt.ExecutionMode.soft
    | .deterministic => Receipt.ExecutionMode.deterministic
  Receipt.new c job.ticket.jobId (.fill 32 0) job.ticket.kernelId (1, 0, 0)
    job.ticket.inputHash (.fill 32 0) .new executionMode 0 0

def heldJob (capacity : Nat) (run : List Call) (id : Bytes 32) : Option Job :=
  Admission.last? jobId capacity (run.filterMap Call.submitted) id

/-- What can have become of a job since it was let in. -/
structure Since (job submitted : Job) : Prop where
  ticket : job.ticket = submitted.ticket
  status : job.status = submitted.status ∨ job.status = .assigned ∨ job.status = .completed

/-- The executor holds these jobs, as they have become, and their first receipts. -/
structure Holds (c : Crypto) (inner : JobExecutorInner) (held : Bytes 32 → Option Job) : Prop where
  receipts : ∀ id, inner.receipts.get id = (held id).map (initialReceipt c)
  jobs : ∀ id, Option.Rel Since (inner.jobs.get id) (held id)

variable {c : Crypto} {it : Iteration (Bytes 32) Job} {inner : JobExecutorInner}
  {held : Bytes 32 → Option Job} {capacity : Nat}

theorem Since.refl (job : Job) : Since job job := ⟨rfl, .inl rfl⟩

theorem submit_room (h : ¬ inner.Full) (job : Job) :
    submit c inner job = (.ok (initialReceipt c job), { inner with
      jobs := inner.jobs.insert (jobId job) job
      receipts := inner.receipts.insert (jobId job) (initialReceipt c job) }) :=
  if_neg h

theorem Holds.submit (h : Holds c inner held) (hroom : ¬ inner.Full) (job : Job) :
    Holds c (submit c inner job).2 fun id => if id = jobId job then some job else held id := by
  rw [submit_room hroom]
  constructor
  · intro id
    rw [Map.get_insert]
    split
    · rfl
    · exact h.receipts id
  · intro id
    rw [Map.get_insert]
    split
    · exact .some (.refl job)
    · exact h.jobs id

theorem Holds.insert (h : Holds c inner held) {id : Bytes 32} {job changed : Job}
    (hget : inner.jobs.get id = some job) (hticket : changed.ticket = job.ticket)
    (hstatus : changed.status = .assigned ∨ changed.status = .completed) :
    Holds c { inner with jobs := inner.jobs.insert id changed } held := by
  refine ⟨h.receipts, fun other => ?_⟩
  rw [Map.get_insert]
  split
  · rename_i hother
    have hjob := h.jobs id
    rw [hget] at hjob
    rw [hother]
    generalize held id = submitted at hjob ⊢
    cases hjob with
    | some hsince => exact .some ⟨hticket.trans hsince.ticket, .inr hstatus⟩
  · exact h.jobs other

theorem holds_submit (h : Holds c inner held) (job : Job) :
    Holds c (JobExecutor.submit c inner job).2 fun id =>
      if inner.jobs.keys.card < inner.capacity ∧ id = jobId job then some job else held id := by
  by_cases hfull : inner.Full
  · have hcard : ¬ inner.jobs.keys.card < inner.capacity := Nat.not_lt.mpr hfull
    simp only [hcard, false_and, if_false]
    rw [JobExecutorInner.submit_full hfull]
    exact h
  · have hcard : inner.jobs.keys.card < inner.capacity := Nat.lt_of_not_le hfull
    simp only [hcard, true_and]
    exact h.submit hfull job

def heldAfter (inner : JobExecutorInner) (held : Bytes 32 → Option Job) (call : Call)
    (id : Bytes 32) : Option Job :=
  match call.submitted with
  | some job =>
    if inner.jobs.keys.card < inner.capacity ∧ id = jobId job then some job else held id
  | none => held id

theorem Holds.step (h : Holds c inner held) (call : Call) :
    Holds c (step c it inner call) (heldAfter inner held call) := by
  cases call with
  | submit job => exact holds_submit h job
  | submitJob ticket blockHeight => exact holds_submit h (.fromTicket ticket blockHeight)
  | assignJob jobId operatorId blockHeight =>
    rw [JobExecutor.step, Call.op, JobExecutorInner.step]
    rcases inner.assignJob_cases jobId operatorId blockHeight with
      ⟨e, heq⟩ | ⟨job, hget, -, heq⟩ <;> rw [heq]
    · exact h
    · exact h.insert hget rfl (.inl rfl)
  | completeJob jobId result blockHeight =>
    rw [JobExecutor.step, Call.op, JobExecutorInner.step]
    rcases inner.completeJob_cases jobId result blockHeight with
      ⟨e, heq⟩ | ⟨job, hget, -, -, heq⟩ <;> rw [heq]
    · exact h
    · exact h.insert hget rfl (.inr rfl)

theorem capacity_step (c : Crypto) (it : Iteration (Bytes 32) Job) (inner : JobExecutorInner)
    (call : Call) : (step c it inner call).capacity = inner.capacity := by
  have hsubmit (job : Job) : (JobExecutor.submit c inner job).2.capacity = inner.capacity := by
    by_cases hfull : inner.Full
    · rw [JobExecutorInner.submit_full hfull]
    · rw [submit_room hfull]
  cases call with
  | submit job => exact hsubmit job
  | submitJob ticket blockHeight => exact hsubmit (.fromTicket ticket blockHeight)
  | assignJob jobId operatorId blockHeight =>
    rw [step, Call.op, JobExecutorInner.step]
    rcases inner.assignJob_cases jobId operatorId blockHeight with
      ⟨e, heq⟩ | ⟨job, -, -, heq⟩ <;> rw [heq]
  | completeJob jobId result blockHeight =>
    rw [step, Call.op, JobExecutorInner.step]
    rcases inner.completeJob_cases jobId result blockHeight with
      ⟨e, heq⟩ | ⟨job, -, -, -, heq⟩ <;> rw [heq]

theorem capacity_exec (c : Crypto) (it : Iteration (Bytes 32) Job) (capacity : Nat)
    (run : List Call) : (Trace.exec (step c it) (new capacity) run).capacity = capacity :=
  Trace.invariant (I := fun inner : JobExecutorInner => inner.capacity = capacity)
    (fun inner call h => (capacity_step c it inner call).trans h) rfl run

theorem Holds.mem_keys (h : Holds c inner held) (id : Bytes 32) :
    id ∈ inner.jobs.keys ↔ (held id).isSome := by
  have hjob := h.jobs id
  rw [Map.mem_keys, ← Option.isSome_iff_exists]
  generalize held id = submitted at hjob ⊢
  generalize inner.jobs.get id = job at hjob ⊢
  cases hjob <;> simp

/-- The executor is a limited store of jobs that frees nothing. -/
theorem holds_exec (c : Crypto) (it : Iteration (Bytes 32) Job) (capacity : Nat)
    (run : List Call) :
    Holds c (Trace.exec (step c it) (new capacity) run) (heldJob capacity run) ∧
      (Trace.exec (step c it) (new capacity) run).jobs.keys =
        Admission.keys jobId (Admission.admitted jobId capacity
          (run.filterMap Call.submitted)) := by
  have hkeys {inner : JobExecutorInner} {run : List Call}
      (h : Holds c inner (heldJob capacity run)) : inner.jobs.keys =
        Admission.keys jobId (Admission.admitted jobId capacity
          (run.filterMap Call.submitted)) := by
    ext id
    rw [h.mem_keys, heldJob, Admission.isSome_last?]
  suffices hholds : Holds c (Trace.exec (step c it) (new capacity) run) (heldJob capacity run) from
    ⟨hholds, hkeys hholds⟩
  induction run using List.reverseRecOn with
  | nil =>
    exact ⟨fun id => Map.get_empty id, fun id => (Map.get_empty id) ▸ .none⟩
  | append_singleton run call ih =>
    have hnext : Holds c (step c it _ call) _ := ih.step call
    have hheld : heldAfter (Trace.exec (step c it) (new capacity) run) (heldJob capacity run) call =
        heldJob capacity (run ++ [call]) := by
      funext id
      unfold heldAfter heldJob
      rw [List.filterMap_append, hkeys ih, capacity_exec]
      cases hcall : call.submitted with
      | none => simp [hcall]
      | some job =>
        simp [hcall, Admission.last?_concat, Admission.card_keys_lt_iff]
    rw [Trace.exec_concat, ← hheld]
    exact hnext

/-- Over every run of the calls of an executor. A submission is refused just when as many
different ids were submitted as there is room for, whatever became of their jobs. Under an id
there is the job let in last, pending as it came or assigned or completed since, and the receipt
is the one made when it came, without operator or output. -/
theorem executor_run (c : Crypto) (it : Iteration (Bytes 32) Job) (capacity : Nat)
    (run : List Call) :
    let inner := Trace.exec (step c it) (new capacity) run
    (∀ job, (submit c inner job).1 =
      if (Admission.keys jobId (run.filterMap Call.submitted)).card < capacity then
        .ok (initialReceipt c job)
      else .error .capacityExceeded) ∧
    inner.jobs.keys.card ≤ capacity ∧
    (∀ id, inner.receipts.get id = (heldJob capacity run id).map (initialReceipt c)) ∧
    ∀ id, Option.Rel Since (inner.jobs.get id) (heldJob capacity run id) := by
  intro inner
  obtain ⟨hholds, hkeys⟩ := holds_exec c it capacity run
  have hcapacity : inner.capacity = capacity := capacity_exec c it capacity run
  have hroom : inner.jobs.keys.card < inner.capacity ↔
      (Admission.keys jobId (run.filterMap Call.submitted)).card < capacity := by
    rw [hkeys, hcapacity, Admission.card_keys_lt_iff]
  refine ⟨fun job => ?_, ?_, hholds.receipts, hholds.jobs⟩
  · by_cases hfull : inner.Full
    · rw [if_neg (mt hroom.mpr (Nat.not_lt.mpr hfull)), JobExecutorInner.submit_full hfull]
    · rw [if_pos (hroom.mp (Nat.lt_of_not_le hfull)), submit_room hfull]
  · rw [hkeys]
    exact Admission.card_keys_le _

end JobExecutor

end LiteVision.Intelligence
