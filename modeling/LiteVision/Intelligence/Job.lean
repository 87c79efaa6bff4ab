import LiteVision.Intelligence.Kernel
import LiteVision.Intelligence.Receipts
import LiteVision.Lib.Map
import LiteVision.Lib.Trace

/-!
# Jobs

The jobs of `job.rs` and the executor that keeps them: a job is submitted, assigned to
an operator, executed, and completed, failed or expired. The executor is reached from
outside through `JobExecutor`, whose two ways to submit write over a job that is there.
-/

namespace LiteVision.Intelligence

open Lib
open Map (Iteration)

-- ---------------------------------------------------------------------------
-- Tickets and costs
-- ---------------------------------------------------------------------------

inductive ExecutionMode where
  | deterministic
  | soft
  deriving DecidableEq

inductive QoSClass where
  | lowLatency
  | balanced
  | highAssurance
  | deterministicCritical
  deriving DecidableEq

inductive CancellationPolicy where
  | immediate
  | afterDeadline
  | never
  deriving DecidableEq

structure JobVerificationPolicy where
  verificationRate : Float
  redundancyFactor : UInt32
  escalationThreshold : UInt32
  challengeWindowBlocks : UInt32

def JobVerificationPolicy.initial : JobVerificationPolicy where
  verificationRate := 0.1
  redundancyFactor := 1
  escalationThreshold := 2
  challengeWindowBlocks := 100

structure ExecutionCost where
  totalFee : UInt64
  gpuCycles : UInt64
  cpuCycles : UInt64
  memoryBytes : UInt64
  outputSize : UInt64
  deriving DecidableEq

structure Budget where
  maxTotalFee : UInt64
  maxGpuCycles : UInt64
  maxCpuCycles : UInt64
  maxMemoryBytes : UInt64
  maxOutputSize : UInt64
  verifierReserve : UInt64
  deriving DecidableEq

namespace Budget

def new (maxTotalFee : UInt64) : Budget where
  maxTotalFee := maxTotalFee
  maxGpuCycles := 1000000000
  maxCpuCycles := 100000000
  maxMemoryBytes := 8589934592
  maxOutputSize := 1073741824
  verifierReserve := maxTotalFee / 10

def toBytes (budget : Budget) : List UInt8 :=
  (Bytes.ofU64 budget.maxTotalFee).val ++ (Bytes.ofU64 budget.maxGpuCycles).val ++
    (Bytes.ofU64 budget.maxCpuCycles).val ++ (Bytes.ofU64 budget.maxMemoryBytes).val ++
    (Bytes.ofU64 budget.maxOutputSize).val ++ (Bytes.ofU64 budget.verifierReserve).val

def canCover (budget : Budget) (cost : ExecutionCost) : Bool :=
  cost.totalFee ≤ budget.maxTotalFee && cost.gpuCycles ≤ budget.maxGpuCycles &&
    cost.cpuCycles ≤ budget.maxCpuCycles && cost.memoryBytes ≤ budget.maxMemoryBytes &&
    cost.outputSize ≤ budget.maxOutputSize

end Budget

structure JobTicket where
  jobId : Bytes 32
  clientId : Bytes 32
  kernelId : Bytes 32
  inputHash : Bytes 32
  executionMode : ExecutionMode
  budget : Budget
  deadline : UInt64
  qosClass : QoSClass
  verificationPolicy : JobVerificationPolicy
  maxRetries : UInt32
  partialAllowed : Bool
  cancellationPolicy : CancellationPolicy
  creationBlockHeight : UInt64
  signature : List UInt8

def JobTicket.new (c : Crypto) (clientId kernelId inputHash : Bytes 32) (budget : Budget)
    (deadline : UInt64) : JobTicket where
  jobId := c.blake3 (clientId.val ++ kernelId.val ++ inputHash.val ++ budget.toBytes ++
    (Bytes.ofU64 deadline).val)
  clientId := clientId
  kernelId := kernelId
  inputHash := inputHash
  executionMode := .deterministic
  budget := budget
  deadline := deadline
  qosClass := .balanced
  verificationPolicy := .initial
  maxRetries := 3
  partialAllowed := false
  cancellationPolicy := .afterDeadline
  creationBlockHeight := 0
  signature := []

-- ---------------------------------------------------------------------------
-- Jobs
-- ---------------------------------------------------------------------------

inductive JobStatus where
  | pending
  | assigned
  | executing
  | completed
  | failed
  | expired
  | disputed
  | cancelled
  deriving DecidableEq

structure JobResult where
  outputHash : Bytes 32
  outputSize : UInt64
  computeUsed : ExecutionCost
  executionTimeMs : UInt64
  signature : List UInt8
  isPartial : Bool
  deriving DecidableEq

structure Job where
  ticket : JobTicket
  status : JobStatus
  assignedOperator : Option (Bytes 32)
  result : Option JobResult
  executionCost : Option ExecutionCost
  retriesRemaining : UInt32
  createdAt : UInt64
  startedAt : Option UInt64
  completedAt : Option UInt64

namespace Job

def fromTicket (ticket : JobTicket) (createdAt : UInt64) : Job where
  ticket := ticket
  status := .pending
  assignedOperator := none
  result := none
  executionCost := none
  retriesRemaining := 0
  createdAt := createdAt
  startedAt := none
  completedAt := none

/-- Every assignment starts with all retries. -/
def assign (job : Job) (operatorId : Bytes 32) (currentBlock : UInt64) : Job :=
  { job with
    status := .assigned
    assignedOperator := some operatorId
    startedAt := some currentBlock
    retriesRemaining := job.ticket.maxRetries }

def startExecution (job : Job) : Job := { job with status := .executing }

def complete (job : Job) (result : JobResult) (cost : ExecutionCost) (completedAt : UInt64) : Job :=
  { job with
    status := .completed
    result := some result
    executionCost := some cost
    completedAt := some completedAt }

/-- Whatever the status; without retries left nothing happens. -/
def fail (job : Job) : Job :=
  if 0 < job.retriesRemaining then
    let retriesRemaining := job.retriesRemaining - 1
    { job with
      retriesRemaining := retriesRemaining
      status := if retriesRemaining = 0 then .failed else .pending
      assignedOperator := none }
  else job

def expire (job : Job) : Job := { job with status := .expired }

def isExpired (job : Job) (currentBlock : UInt64) : Bool :=
  job.ticket.deadline < currentBlock &&
    decide (job.status = .pending ∨ job.status = .assigned ∨ job.status = .executing)

theorem status_fail (job : Job) :
    job.fail.status =
      if 0 < job.retriesRemaining then if job.retriesRemaining = 1 then .failed else .pending
      else job.status := by
  unfold fail
  split
  · have hone : job.retriesRemaining - 1 = 0 ↔ job.retriesRemaining = 1 := by
      rw [UInt32.sub_eq_iff_eq_add, UInt32.zero_add]
    simp only [hone]
  · rfl

theorem ticket_fail (job : Job) : job.fail.ticket = job.ticket := by
  unfold fail
  split <;> rfl

theorem of_isExpired {job : Job} {currentBlock : UInt64} (h : job.isExpired currentBlock = true) :
    job.status = .pending ∨ job.status = .assigned ∨ job.status = .executing :=
  of_decide_eq_true ((Bool.and_eq_true _ _).mp h).2

end Job

inductive JobError where
  | jobNotFound
  | jobAlreadyExists
  | invalidStateTransition
  | budgetExceeded
  | deadlineExceeded
  | operatorNotFound
  | capacityExceeded
  | jobExecutionFailed (message : String)
  deriving DecidableEq

inductive JobExecutionError where
  | jobNotFound
  | kernelError (message : String)
  | invalidState
  | insufficientBudget
  deriving DecidableEq

-- ---------------------------------------------------------------------------
-- The executor
-- ---------------------------------------------------------------------------

structure JobExecutorInner where
  jobs : Map (Bytes 32) Job
  receipts : Map (Bytes 32) Receipt
  capacity : Nat

namespace JobExecutorInner

/-- Every kernel has the default spec. -/
def getKernelSpec (c : Crypto) (_kernelId : Bytes 32) : Except JobExecutionError KernelSpec :=
  .ok (.new c "default" 1 1000000000 8589934592 true)

def executeJob (c : Crypto) (inner : JobExecutorInner) (jobId : Bytes 32) (inputData : List UInt8)
    (operatorId : Bytes 32) (blockHeight : UInt64) (elapsed : Elapsed) :
    Except JobExecutionError KernelOutput × JobExecutorInner :=
  match inner.jobs.get jobId with
  | none => (.error .jobNotFound, inner)
  | some job =>
    if ¬ (job.status = .assigned ∨ job.status = .executing) then (.error .invalidState, inner)
    else
      match getKernelSpec c job.ticket.kernelId with
      | .error e => (.error e, inner)
      | .ok spec =>
        let ctx := ((KernelExecutionContext.new jobId operatorId blockHeight).withBudget
          job.ticket.budget.maxGpuCycles).withMemoryLimit job.ticket.budget.maxMemoryBytes
        match ((KernelExecutor.new.withContext ctx).execute c spec inputData elapsed).1 with
        | .error e => (.error (.kernelError e), inner)
        | .ok output =>
          (.ok output, { inner with jobs := inner.jobs.modify jobId (·.startExecution) })

def submitJob (inner : JobExecutorInner) (ticket : JobTicket) (currentBlock : UInt64) :
    Except JobError (Bytes 32) × JobExecutorInner :=
  if (inner.jobs.get ticket.jobId).isSome then (.error .jobAlreadyExists, inner)
  else
    let job := Job.fromTicket ticket currentBlock
    (.ok ticket.jobId, { inner with jobs := inner.jobs.insert ticket.jobId job })

def assignJob (inner : JobExecutorInner) (jobId operatorId : Bytes 32) (currentBlock : UInt64) :
    Except JobError Unit × JobExecutorInner :=
  match inner.jobs.get jobId with
  | none => (.error .jobNotFound, inner)
  | some job =>
    if job.status ≠ .pending then (.error .invalidStateTransition, inner)
    else
      (.ok (), { inner with jobs := inner.jobs.insert jobId (job.assign operatorId currentBlock) })

def completeJob (inner : JobExecutorInner) (jobId : Bytes 32) (result : JobResult)
    (currentBlock : UInt64) : Except JobError UInt64 × JobExecutorInner :=
  match inner.jobs.get jobId with
  | none => (.error .jobNotFound, inner)
  | some job =>
    if ¬ (job.status = .assigned ∨ job.status = .executing) then
      (.error .invalidStateTransition, inner)
    else if !job.ticket.budget.canCover result.computeUsed then (.error .budgetExceeded, inner)
    else
      let refund := job.ticket.budget.maxTotalFee - result.computeUsed.totalFee
      let job := job.complete result result.computeUsed currentBlock
      (.ok refund, { inner with jobs := inner.jobs.insert jobId job })

def failJob (inner : JobExecutorInner) (jobId : Bytes 32) :
    Except JobError Unit × JobExecutorInner :=
  match inner.jobs.get jobId with
  | none => (.error .jobNotFound, inner)
  | some job => (.ok (), { inner with jobs := inner.jobs.insert jobId job.fail })

/-- A loop over all jobs that writes in place and collects the ids it wrote. -/
def expireJobs (it : Iteration (Bytes 32) Job) (inner : JobExecutorInner) (currentBlock : UInt64) :
    List (Bytes 32) × JobExecutorInner :=
  let expired := ((it.entries inner.jobs).filter fun e => e.2.isExpired currentBlock).map Prod.fst
  let jobs := Map.mergeWith it
    (fun _ _ job => if job.isExpired currentBlock then some job.expire else none)
    inner.jobs inner.jobs
  (expired, { inner with jobs := jobs })

end JobExecutorInner

namespace JobExecutor

open JobExecutorInner

def new (capacity : Nat) : JobExecutorInner where
  jobs := .empty
  receipts := .empty
  capacity := capacity

/-- A job that is there under the same id is replaced. -/
def submit (c : Crypto) (inner : JobExecutorInner) (job : Job) :
    Except JobError Receipt × JobExecutorInner :=
  if inner.capacity ≤ inner.jobs.keys.card then (.error .capacityExceeded, inner)
  else
    let jobId := job.ticket.jobId
    let executionMode := match job.ticket.executionMode with
      | .soft => Receipt.ExecutionMode.soft
      | .deterministic => Receipt.ExecutionMode.deterministic
    let receipt := Receipt.new c jobId (.fill 32 0) job.ticket.kernelId (1, 0, 0)
      job.ticket.inputHash (.fill 32 0) .new executionMode 0 0
    (.ok receipt, { inner with
      jobs := inner.jobs.insert jobId job
      receipts := inner.receipts.insert jobId receipt })

def submitJob (c : Crypto) (inner : JobExecutorInner) (ticket : JobTicket) (blockHeight : UInt64) :
    Except JobError (Bytes 32) × JobExecutorInner :=
  let job := Job.fromTicket ticket blockHeight
  let (result, inner) := submit c inner job
  (result.map fun _ => ticket.jobId, inner)

end JobExecutor

-- ---------------------------------------------------------------------------
-- Runs
-- ---------------------------------------------------------------------------

namespace JobExecutorInner

/-- The calls; `executorSubmitJob` is the `submit_job` of `JobExecutor`. -/
inductive Op where
  | submit (job : Job)
  | executorSubmitJob (ticket : JobTicket) (blockHeight : UInt64)
  | submitJob (ticket : JobTicket) (currentBlock : UInt64)
  | assignJob (jobId operatorId : Bytes 32) (currentBlock : UInt64)
  | executeJob (jobId : Bytes 32) (inputData : List UInt8) (operatorId : Bytes 32)
      (blockHeight : UInt64) (elapsed : Elapsed)
  | completeJob (jobId : Bytes 32) (result : JobResult) (currentBlock : UInt64)
  | failJob (jobId : Bytes 32)
  | expireJobs (currentBlock : UInt64)

def step (c : Crypto) (it : Iteration (Bytes 32) Job) (inner : JobExecutorInner) :
    Op → JobExecutorInner
  | .submit job => (JobExecutor.submit c inner job).2
  | .executorSubmitJob ticket blockHeight => (JobExecutor.submitJob c inner ticket blockHeight).2
  | .submitJob ticket currentBlock => (inner.submitJob ticket currentBlock).2
  | .assignJob jobId operatorId currentBlock => (inner.assignJob jobId operatorId currentBlock).2
  | .executeJob jobId inputData operatorId blockHeight elapsed =>
    (inner.executeJob c jobId inputData operatorId blockHeight elapsed).2
  | .completeJob jobId result currentBlock => (inner.completeJob jobId result currentBlock).2
  | .failJob jobId => (inner.failJob jobId).2
  | .expireJobs currentBlock => (inner.expireJobs it currentBlock).2

def statusOf (inner : JobExecutorInner) (id : Bytes 32) : Option JobStatus :=
  (inner.jobs.get id).map Job.status

def Full (inner : JobExecutorInner) : Prop := inner.capacity ≤ inner.jobs.keys.card

-- ---------------------------------------------------------------------------
-- What a call does to one job
-- ---------------------------------------------------------------------------

variable {c : Crypto} {it : Iteration (Bytes 32) Job} {inner : JobExecutorInner} {op : Op}
  {id : Bytes 32}

theorem submit_full (h : inner.Full) (job : Job) :
    JobExecutor.submit c inner job = (.error .capacityExceeded, inner) := if_pos h

theorem get_submit (h : ¬ inner.Full) (job : Job) :
    (JobExecutor.submit c inner job).2.jobs = inner.jobs.insert job.ticket.jobId job := by
  rw [JobExecutor.submit, if_neg (show ¬ inner.capacity ≤ inner.jobs.keys.card from h)]

theorem assignJob_cases (inner : JobExecutorInner) (jobId operatorId : Bytes 32)
    (currentBlock : UInt64) :
    (∃ e, inner.assignJob jobId operatorId currentBlock = (.error e, inner)) ∨
      ∃ job, inner.jobs.get jobId = some job ∧ job.status = .pending ∧
        inner.assignJob jobId operatorId currentBlock =
          (.ok (), { inner with
            jobs := inner.jobs.insert jobId (job.assign operatorId currentBlock) }) := by
  unfold assignJob
  cases hget : inner.jobs.get jobId with
  | none => exact .inl ⟨_, rfl⟩
  | some job =>
    by_cases hpending : job.status = .pending
    · exact .inr ⟨job, rfl, hpending, if_neg (not_not.mpr hpending)⟩
    · exact .inl ⟨_, if_pos hpending⟩

theorem completeJob_cases (inner : JobExecutorInner) (jobId : Bytes 32) (result : JobResult)
    (currentBlock : UInt64) :
    (∃ e, inner.completeJob jobId result currentBlock = (.error e, inner)) ∨
      ∃ job, inner.jobs.get jobId = some job ∧
        (job.status = .assigned ∨ job.status = .executing) ∧
        job.ticket.budget.canCover result.computeUsed = true ∧
        inner.completeJob jobId result currentBlock =
          (.ok (job.ticket.budget.maxTotalFee - result.computeUsed.totalFee),
            { inner with
              jobs := inner.jobs.insert jobId
                (job.complete result result.computeUsed currentBlock) }) := by
  unfold completeJob
  cases hget : inner.jobs.get jobId with
  | none => exact .inl ⟨_, rfl⟩
  | some job =>
    dsimp only
    by_cases hstatus : job.status = .assigned ∨ job.status = .executing
    · rw [if_neg (not_not.mpr hstatus)]
      cases hcover : job.ticket.budget.canCover result.computeUsed with
      | false => exact .inl ⟨_, rfl⟩
      | true => exact .inr ⟨job, rfl, hstatus, hcover, rfl⟩
    · exact .inl ⟨_, if_pos hstatus⟩

theorem executeJob_cases (c : Crypto) (inner : JobExecutorInner) (jobId : Bytes 32)
    (inputData : List UInt8) (operatorId : Bytes 32) (blockHeight : UInt64) (elapsed : Elapsed) :
    (inner.executeJob c jobId inputData operatorId blockHeight elapsed).2 = inner ∨
      ∃ job, inner.jobs.get jobId = some job ∧
        (job.status = .assigned ∨ job.status = .executing) ∧
        (inner.executeJob c jobId inputData operatorId blockHeight elapsed).2.jobs =
          inner.jobs.insert jobId job.startExecution := by
  unfold executeJob
  cases hget : inner.jobs.get jobId with
  | none => exact .inl rfl
  | some job =>
    dsimp only
    by_cases hstatus : job.status = .assigned ∨ job.status = .executing
    · rw [if_neg (not_not.mpr hstatus)]
      dsimp only [getKernelSpec]
      split
      · exact .inl rfl
      · exact .inr ⟨job, rfl, hstatus, Map.modify_some hget _⟩
    · exact .inl (congrArg Prod.snd (if_pos hstatus))

theorem get_expireJobs (it : Iteration (Bytes 32) Job) (inner : JobExecutorInner)
    (currentBlock : UInt64) (id : Bytes 32) :
    (inner.expireJobs it currentBlock).2.jobs.get id =
      (inner.jobs.get id).map fun job =>
        if job.isExpired currentBlock then job.expire else job := by
  rw [expireJobs, Map.get_mergeWith]
  cases inner.jobs.get id with
  | none => rfl
  | some job => cases h : job.isExpired currentBlock <;> simp [h]

/-- What a call writes at `id`, from what is there. -/
inductive Acts (inner : JobExecutorInner) (id : Bytes 32) : Op → Option Job → Job → Prop
  | submit {job : Job} {old : Option Job} (hroom : ¬ inner.Full) (hid : job.ticket.jobId = id) :
      Acts inner id (.submit job) old job
  | executorSubmitJob {ticket : JobTicket} {blockHeight : UInt64} {old : Option Job}
      (hroom : ¬ inner.Full) (hid : ticket.jobId = id) :
      Acts inner id (.executorSubmitJob ticket blockHeight) old (.fromTicket ticket blockHeight)
  | submitJob {ticket : JobTicket} {currentBlock : UInt64} (hid : ticket.jobId = id) :
      Acts inner id (.submitJob ticket currentBlock) none (.fromTicket ticket currentBlock)
  | assign {job : Job} {operatorId : Bytes 32} {currentBlock : UInt64}
      (hstatus : job.status = .pending) :
      Acts inner id (.assignJob id operatorId currentBlock) (some job)
        (job.assign operatorId currentBlock)
  | execute {job : Job} {inputData : List UInt8} {operatorId : Bytes 32} {blockHeight : UInt64}
      {elapsed : Elapsed} (hstatus : job.status = .assigned ∨ job.status = .executing) :
      Acts inner id (.executeJob id inputData operatorId blockHeight elapsed) (some job)
        job.startExecution
  | complete {job : Job} {result : JobResult} {currentBlock : UInt64}
      (hstatus : job.status = .assigned ∨ job.status = .executing) :
      Acts inner id (.completeJob id result currentBlock) (some job)
        (job.complete result result.computeUsed currentBlock)
  | fail {job : Job} : Acts inner id (.failJob id) (some job) job.fail
  | expire {job : Job} {currentBlock : UInt64} (hexpired : job.isExpired currentBlock = true) :
      Acts inner id (.expireJobs currentBlock) (some job) job.expire

theorem Acts.get_insert {jobId : Bytes 32} {old : Option Job} {job : Job}
    (hacts : Acts inner jobId op old job) (hget : inner.jobs.get jobId = old) (id : Bytes 32) :
    (inner.jobs.insert jobId job).get id = inner.jobs.get id ∨
      ∃ written, Acts inner id op (inner.jobs.get id) written ∧
        (inner.jobs.insert jobId job).get id = some written := by
  by_cases hid : id = jobId
  · subst hid hget
    exact .inr ⟨job, hacts, Map.get_insert_self ..⟩
  · exact .inl (Map.get_insert_ne _ _ hid)

/-- A call writes one job as `Acts` says, or leaves it. -/
theorem get_step (c : Crypto) (it : Iteration (Bytes 32) Job) (inner : JobExecutorInner) (op : Op)
    (id : Bytes 32) :
    (step c it inner op).jobs.get id = inner.jobs.get id ∨
      ∃ job, Acts inner id op (inner.jobs.get id) job ∧
        (step c it inner op).jobs.get id = some job := by
  cases op with
  | submit job =>
    by_cases hfull : inner.Full
    · rw [step, submit_full hfull]
      exact .inl rfl
    · rw [step, get_submit hfull]
      exact (Acts.submit hfull rfl).get_insert rfl id
  | executorSubmitJob ticket blockHeight =>
    rw [step, JobExecutor.submitJob]
    dsimp only
    by_cases hfull : inner.Full
    · rw [submit_full hfull]
      exact .inl rfl
    · rw [get_submit hfull]
      exact (Acts.executorSubmitJob hfull rfl).get_insert rfl id
  | submitJob ticket currentBlock =>
    rw [step, submitJob]
    cases hget : inner.jobs.get ticket.jobId with
    | some job => exact .inl rfl
    | none => exact (Acts.submitJob rfl).get_insert hget id
  | assignJob jobId operatorId currentBlock =>
    rw [step]
    rcases assignJob_cases inner jobId operatorId currentBlock with
      ⟨e, heq⟩ | ⟨job, hget, hpending, heq⟩
    · rw [heq]
      exact .inl rfl
    · rw [heq]
      exact (Acts.assign hpending).get_insert hget id
  | executeJob jobId inputData operatorId blockHeight elapsed =>
    rw [step]
    rcases executeJob_cases c inner jobId inputData operatorId blockHeight elapsed with
      heq | ⟨job, hget, hstatus, heq⟩
    · rw [heq]
      exact .inl rfl
    · rw [heq]
      exact (Acts.execute hstatus).get_insert hget id
  | completeJob jobId result currentBlock =>
    rw [step]
    rcases completeJob_cases inner jobId result currentBlock with
      ⟨e, heq⟩ | ⟨job, hget, hstatus, -, heq⟩
    · rw [heq]
      exact .inl rfl
    · rw [heq]
      exact (Acts.complete hstatus).get_insert hget id
  | failJob jobId =>
    rw [step, failJob]
    cases hget : inner.jobs.get jobId with
    | none => exact .inl rfl
    | some job => exact Acts.fail.get_insert hget id
  | expireJobs currentBlock =>
    rw [step, get_expireJobs]
    cases hget : inner.jobs.get id with
    | none => exact .inl rfl
    | some job =>
      cases hexpired : job.isExpired currentBlock with
      | true => exact .inr ⟨_, .expire hexpired, by simp [hexpired]⟩
      | false => exact .inl (by simp [hexpired])

end JobExecutorInner

end LiteVision.Intelligence
