import LiteVision.Intelligence.Job

/-!
# How often a job is assigned

A failure takes one retry off, but the next assignment gives all of them back, and
a job without retries does not fail at all. So the retries of a ticket bound the
assignments of its job just when there is one.
-/

namespace LiteVision.Intelligence

open Lib
open Map (Iteration)

/-- A job has no more retries than its ticket, and all of them while it is worked on. -/
structure Job.Counted (job : Job) : Prop where
  le : job.retriesRemaining ≤ job.ticket.maxRetries
  all : job.status = .assigned ∨ job.status = .executing →
    job.retriesRemaining = job.ticket.maxRetries

namespace JobExecutorInner

variable {c : Crypto} {it : Iteration (Bytes 32) Job} {inner : JobExecutorInner} {op : Op}
  {id : Bytes 32} {ticket : JobTicket}

def assignments (id : Bytes 32) (inner : JobExecutorInner) : Op → Nat
  | .assignJob jobId operatorId currentBlock =>
    if jobId = id ∧ (inner.assignJob jobId operatorId currentBlock).1.isOk then 1 else 0
  | _ => 0

def returns (id : Bytes 32) (inner : JobExecutorInner) : Op → Nat
  | .failJob jobId =>
    if jobId = id ∧ inner.statusOf id ≠ some .pending ∧
      (inner.failJob jobId).2.statusOf id = some .pending then 1 else 0
  | _ => 0

/-- A failure of a job that is assigned or executing takes it from its operator. -/
def FailEnds (id : Bytes 32) (inner : JobExecutorInner) : Op → Prop
  | .failJob jobId => jobId = id → ∀ job, inner.jobs.get id = some job →
    (job.status = .assigned ∨ job.status = .executing) →
    ∃ failed, (inner.failJob jobId).2.jobs.get id = some failed ∧
      (failed.status = .pending ∨ failed.status = .failed) ∧ failed.assignedOperator = none
  | _ => True

/-- A job that fails while assigned or executing has a ticket with retries. -/
def Retriable (id : Bytes 32) (inner : JobExecutorInner) : Op → Prop
  | .failJob jobId => jobId = id → ∀ job, inner.jobs.get id = some job →
    (job.status = .assigned ∨ job.status = .executing) → job.ticket.maxRetries ≠ 0
  | _ => True

/-- The calls other than `submit`, where none replaces a job that is there. -/
def Fresh (inner : JobExecutorInner) : Op → Prop
  | .submit _ => False
  | .executorSubmitJob ticket _ => inner.Full ∨ inner.jobs.get ticket.jobId = none
  | _ => True

def Op.Submits (P : JobTicket → Prop) : Op → Prop
  | .submit job => P job.ticket
  | .executorSubmitJob ticket _ => P ticket
  | .submitJob ticket _ => P ticket
  | _ => True

/-- No job of the run is assigned more often than once and once for each retry of its
ticket, and every failure ends the work on it. -/
structure RetriesBounded (c : Crypto) (it : Iteration (Bytes 32) Job) (capacity : Nat)
    (run : List Op) : Prop where
  bound : ∀ id job,
    (Trace.exec (step c it) (JobExecutor.new capacity) run).jobs.get id = some job →
    Trace.sum (step c it) (assignments id) (JobExecutor.new capacity) run ≤
      job.ticket.maxRetries.toNat + 1
  ends : ∀ id, Trace.Always (step c it) (FailEnds id) (JobExecutor.new capacity) run

-- ---------------------------------------------------------------------------
-- Assignments and returns
-- ---------------------------------------------------------------------------

/-- Whether the job `id` can be assigned next without a return. -/
def startable (id : Bytes 32) (inner : JobExecutorInner) : Nat :=
  if inner.statusOf id = none ∨ inner.statusOf id = some .pending then 1 else 0

theorem of_assignments (h : assignments id inner op ≠ 0) :
    ∃ operatorId currentBlock job, op = .assignJob id operatorId currentBlock ∧
      inner.jobs.get id = some job ∧ job.status = .pending ∧
      (inner.assignJob id operatorId currentBlock).2.jobs =
        inner.jobs.insert id (job.assign operatorId currentBlock) := by
  cases op with
  | assignJob jobId operatorId currentBlock =>
    simp only [assignments, ne_eq, ite_eq_right_iff, Nat.one_ne_zero, imp_false, not_not] at h
    obtain ⟨rfl, hok⟩ := h
    rcases assignJob_cases inner jobId operatorId currentBlock with
      ⟨e, heq⟩ | ⟨job, hget, hpending, heq⟩
    · rw [heq] at hok
      cases hok
    · exact ⟨operatorId, currentBlock, job, rfl, hget, hpending, by rw [heq]⟩
  | _ => exact absurd rfl h

theorem assignments_le_one (id : Bytes 32) (inner : JobExecutorInner) (op : Op) :
    assignments id inner op ≤ 1 := by
  cases op with
  | assignJob jobId operatorId currentBlock =>
    simp only [assignments]
    split <;> omega
  | _ => exact Nat.zero_le 1

theorem startable_step (hfresh : Fresh inner op) :
    startable id (step c it inner op) ≤ startable id inner + returns id inner op := by
  by_cases hafter : (step c it inner op).statusOf id = none ∨
      (step c it inner op).statusOf id = some .pending
  · rw [startable, if_pos hafter]
    by_cases hbefore : inner.statusOf id = none ∨ inner.statusOf id = some .pending
    · rw [startable, if_pos hbefore]
      exact Nat.le_add_right 1 _
    · -- then the call wrote the job, and it was a failure
      obtain ⟨hsome, hnot⟩ := not_or.mp hbefore
      rcases get_step c it inner op id with hsame | ⟨job, hacts, hget⟩
      · rw [statusOf, hsame] at hafter
        exact absurd hafter hbefore
      · have hpending : job.status = .pending := by
          rw [statusOf, hget] at hafter
          simpa using hafter
        obtain ⟨old, hold⟩ : ∃ old, inner.jobs.get id = some old := by
          rw [statusOf] at hsome
          exact Option.ne_none_iff_exists'.mp fun hnone => hsome (by rw [hnone]; rfl)
        rw [hold] at hacts
        cases hacts with
        | submit => exact hfresh.elim
        | executorSubmitJob hroom hid =>
          subst hid
          rcases hfresh with hfull | hnone
          · exact absurd hfull hroom
          · rw [hnone] at hold
            cases hold
        | assign => cases hpending
        | execute => cases hpending
        | complete => cases hpending
        | expire => cases hpending
        | fail =>
          have hstatus : (inner.failJob id).2.statusOf id = some .pending := by
            change (step c it inner (.failJob id)).statusOf id = some .pending
            rw [statusOf, hget, Option.map_some, hpending]
          rw [returns, if_pos ⟨rfl, hnot, hstatus⟩]
          exact Nat.le_add_left 1 _
  · rw [startable, if_neg hafter]
    exact Nat.zero_le _

theorem assignments_step (hfresh : Fresh inner op) :
    startable id (step c it inner op) + assignments id inner op ≤
      startable id inner + returns id inner op := by
  by_cases hassigns : assignments id inner op = 0
  · rw [hassigns]
    exact startable_step hfresh
  · have hone := assignments_le_one id inner op
    obtain ⟨operatorId, currentBlock, job, rfl, hget, hpending, hjobs⟩ := of_assignments hassigns
    have hbefore : inner.statusOf id = some .pending := by
      rw [statusOf, hget, Option.map_some, hpending]
    have hafter : (step c it inner (.assignJob id operatorId currentBlock)).statusOf id =
        some .assigned := by
      rw [statusOf, step, hjobs, Map.get_insert_self]
      rfl
    simp only [startable, hbefore, hafter]
    simp
    omega

theorem assignments_le {capacity : Nat} {run : List Op}
    (hfresh : Trace.Always (step c it) Fresh (JobExecutor.new capacity) run) (id : Bytes 32) :
    Trace.sum (step c it) (assignments id) (JobExecutor.new capacity) run ≤
      Trace.sum (step c it) (returns id) (JobExecutor.new capacity) run + 1 := by
  have hsum : startable id (Trace.exec (step c it) (JobExecutor.new capacity) run) +
      Trace.sum (step c it) (assignments id) (JobExecutor.new capacity) run ≤
        startable id (JobExecutor.new capacity) +
          Trace.sum (step c it) (returns id) (JobExecutor.new capacity) run :=
    hfresh.sum_le (startable id) fun _ _ hop => assignments_step hop
  have hstart : startable id (JobExecutor.new capacity) = 1 := rfl
  omega

-- ---------------------------------------------------------------------------
-- Retries
-- ---------------------------------------------------------------------------

theorem forall_jobs_step {P : Bytes 32 → Job → Prop}
    (hacts : ∀ id old job, Acts inner id op old job → (∀ was, old = some was → P id was) → P id job)
    (h : ∀ id job, inner.jobs.get id = some job → P id job) :
    ∀ id job, (step c it inner op).jobs.get id = some job → P id job := by
  intro id job hget
  rcases get_step c it inner op id with hsame | ⟨written, hwritten, hafter⟩
  · exact h id job (hsame ▸ hget)
  · obtain rfl := Option.some.inj (hafter.symm.trans hget)
    exact hacts id _ _ hwritten fun was hwas => h id was hwas

theorem counted_acts {old : Option Job} {job : Job} (hfresh : Fresh inner op)
    (hacts : Acts inner id op old job) (h : ∀ was, old = some was → Job.Counted was) :
    Job.Counted job := by
  cases hacts with
  | submit => exact hfresh.elim
  | executorSubmitJob =>
    exact ⟨UInt32.zero_le, fun hstatus => by rcases hstatus with h | h <;> cases h⟩
  | submitJob => exact ⟨UInt32.zero_le, fun hstatus => by rcases hstatus with h | h <;> cases h⟩
  | assign => exact ⟨UInt32.le_refl _, fun _ => rfl⟩
  | execute hstatus => exact ⟨(h _ rfl).le, fun _ => (h _ rfl).all hstatus⟩
  | complete => exact ⟨(h _ rfl).le, fun hstatus => by rcases hstatus with h | h <;> cases h⟩
  | expire => exact ⟨(h _ rfl).le, fun hstatus => by rcases hstatus with h | h <;> cases h⟩
  | @fail was =>
    have hwas := h was rfl
    have hle := hwas.le
    unfold Job.fail
    split
    · rename_i hpos
      refine ⟨by grind, fun hstatus => ?_⟩
      dsimp only at hstatus
      split at hstatus <;> rcases hstatus with h | h <;> cases h
    · exact hwas

def Counted (inner : JobExecutorInner) : Prop :=
  ∀ id job, inner.jobs.get id = some job → Job.Counted job

theorem counted_new (capacity : Nat) : Counted (JobExecutor.new capacity) := by
  intro id job hget
  cases hget.symm.trans (Map.get_empty id)

theorem counted_step (hfresh : Fresh inner op) (h : Counted inner) : Counted (step c it inner op) :=
  forall_jobs_step (P := fun _ job => Job.Counted job)
    (fun _ _ _ hacts hwas => counted_acts hfresh hacts hwas) h

theorem failEnds_iff (h : Counted inner) : FailEnds id inner op ↔ Retriable id inner op := by
  cases op with
  | failJob jobId =>
    refine forall_congr' fun hid => forall_congr' fun job => forall_congr' fun hget =>
      forall_congr' fun hstatus => ?_
    subst hid
    have hall := (h _ _ hget).all hstatus
    rw [failJob, hget, Map.get_insert_self, ← hall]
    constructor
    · rintro ⟨failed, heq, hended, -⟩ hzero
      obtain rfl := Option.some.inj heq
      rw [Job.fail, hzero, if_neg (UInt32.lt_irrefl 0)] at hended
      rcases hstatus with hstatus | hstatus <;> rw [hstatus] at hended <;>
        exact absurd hended (by decide)
    · intro hne
      have hpos : 0 < job.retriesRemaining := by grind
      refine ⟨job.fail, rfl, ?_, ?_⟩
      · rw [Job.fail, if_pos hpos]
        dsimp only
        split
        · exact .inr rfl
        · exact .inl rfl
      · rw [Job.fail, if_pos hpos]
  | _ => exact Iff.rfl

theorem always_failEnds_iff {capacity : Nat} {run : List Op}
    (hfresh : Trace.Always (step c it) Fresh (JobExecutor.new capacity) run) (id : Bytes 32) :
    Trace.Always (step c it) (FailEnds id) (JobExecutor.new capacity) run ↔
      Trace.Always (step c it) (Retriable id) (JobExecutor.new capacity) run := by
  constructor
  · intro h
    exact (Trace.always_and.mpr ⟨hfresh, h⟩).imp (I := Counted)
      (fun _ _ hcounted hop => counted_step hop.1 hcounted)
      (fun _ _ hcounted hop => (failEnds_iff hcounted).mp hop.2) (counted_new capacity)
  · intro h
    exact (Trace.always_and.mpr ⟨hfresh, h⟩).imp (I := Counted)
      (fun _ _ hcounted hop => counted_step hop.1 hcounted)
      (fun _ _ hcounted hop => (failEnds_iff hcounted).mpr hop.2) (counted_new capacity)

-- ---------------------------------------------------------------------------
-- One retry
-- ---------------------------------------------------------------------------

def Ticketed (P : JobTicket → Prop) (inner : JobExecutorInner) : Prop :=
  ∀ id job, inner.jobs.get id = some job → P job.ticket

theorem ticketed_new (P : JobTicket → Prop) (capacity : Nat) :
    Ticketed P (JobExecutor.new capacity) := by
  intro id job hget
  cases hget.symm.trans (Map.get_empty id)

theorem ticketed_step {P : JobTicket → Prop} (hsubmits : op.Submits P) (h : Ticketed P inner) :
    Ticketed P (step c it inner op) := by
  refine forall_jobs_step (P := fun _ job => P job.ticket) (fun id old job hacts hwas => ?_) h
  cases hacts with
  | submit => exact hsubmits
  | executorSubmitJob => exact hsubmits
  | submitJob => exact hsubmits
  | @assign was => exact hwas was rfl
  | @execute was => exact hwas was rfl
  | @complete was => exact hwas was rfl
  | @expire was => exact hwas was rfl
  | @fail was => exact (Job.ticket_fail was).symm ▸ hwas was rfl

theorem returns_eq_zero (hcounted : Counted inner)
    (hone : Ticketed (fun ticket => ticket.maxRetries = 1) inner) : returns id inner op = 0 := by
  by_contra hne
  cases op with
  | failJob jobId =>
    simp only [returns, ne_eq, ite_eq_right_iff, Nat.one_ne_zero, imp_false, not_not] at hne
    obtain ⟨rfl, hbefore, hafter⟩ := hne
    cases hget : inner.jobs.get jobId with
    | none =>
      rw [failJob, hget, statusOf, hget] at hafter
      cases hafter
    | some job =>
      rw [failJob, hget, statusOf, Map.get_insert_self, Option.map_some, Job.status_fail] at hafter
      have hpending := Option.some.inj hafter
      have hle := (hcounted _ _ hget).le
      rw [hone _ _ hget] at hle
      split at hpending
      · split at hpending
        · cases hpending
        · grind
      · rw [statusOf, hget, Option.map_some, hpending] at hbefore
        exact hbefore rfl
  | _ => exact hne rfl

theorem retriesBounded_of_one {capacity : Nat} {run : List Op}
    (hfresh : Trace.Always (step c it) Fresh (JobExecutor.new capacity) run)
    (hone : ∀ op ∈ run, op.Submits fun ticket => ticket.maxRetries = 1) :
    RetriesBounded c it capacity run := by
  have hboth : Trace.Always (step c it)
      (fun inner op => Fresh inner op ∧ op.Submits fun ticket => ticket.maxRetries = 1)
      (JobExecutor.new capacity) run :=
    Trace.always_and.mpr ⟨hfresh, Trace.always_of_forall_mem fun op hop _ => hone op hop⟩
  have hnew := And.intro (counted_new capacity)
    (ticketed_new (fun ticket => ticket.maxRetries = 1) capacity)
  constructor
  case bound =>
    intro id job _
    have hsum := assignments_le hfresh id
    have hzero : Trace.sum (step c it) (returns id) (JobExecutor.new capacity) run = 0 :=
      hboth.sum_eq_zero
        (I := fun inner => Counted inner ∧ Ticketed (fun ticket => ticket.maxRetries = 1) inner)
        (fun _ _ hop h => ⟨counted_step hop.1 h.1, ticketed_step hop.2 h.2⟩)
        (fun _ _ _ h => returns_eq_zero h.1 h.2) hnew
    omega
  case ends =>
    intro id
    refine (always_failEnds_iff hfresh id).mpr ?_
    refine hboth.imp (I := Ticketed fun ticket => ticket.maxRetries = 1)
      (fun _ _ h hop => ticketed_step hop.2 h) (fun inner op h _ => ?_) hnew.2
    cases op with
    | failJob jobId =>
      intro _ job hget _
      rw [h id job hget]
      decide
    | _ => trivial

-- ---------------------------------------------------------------------------
-- Assigned again and again
-- ---------------------------------------------------------------------------

variable {ticket : JobTicket}

def rounds (ticket : JobTicket) : Nat → List Op
  | 0 => [.submitJob ticket 0]
  | n + 1 => rounds ticket n ++
      [.assignJob ticket.jobId (.fill 32 0) 0, .failJob ticket.jobId]

theorem mem_rounds {n : Nat} (h : op ∈ rounds ticket n) :
    op = .submitJob ticket 0 ∨ op = .assignJob ticket.jobId (.fill 32 0) 0 ∨
      op = .failJob ticket.jobId := by
  induction n with
  | zero => exact .inl (List.mem_singleton.mp h)
  | succ n ih =>
    rcases List.mem_append.mp h with h | h
    · exact ih h
    · simpa using Or.inr h

theorem fresh_rounds (n : Nat) :
    Trace.Always (step c it) Fresh (JobExecutor.new 0) (rounds ticket n) := by
  refine Trace.always_of_forall_mem fun op hop inner => ?_
  rcases mem_rounds hop with rfl | rfl | rfl <;> trivial

theorem submits_rounds {P : JobTicket → Prop} (hP : P ticket) {n : Nat} :
    ∀ op ∈ rounds ticket n, op.Submits P := by
  intro op hop
  rcases mem_rounds hop with rfl | rfl | rfl
  · exact hP
  · trivial
  · trivial

/-- With two retries or more the job comes back every time. -/
theorem exec_rounds (c : Crypto) (it : Iteration (Bytes 32) Job) (hretries : 1 < ticket.maxRetries)
    (n : Nat) :
    (∃ job, (Trace.exec (step c it) (JobExecutor.new 0) (rounds ticket n)).jobs.get ticket.jobId =
      some job ∧ job.status = .pending ∧ job.ticket = ticket) ∧
    Trace.sum (step c it) (assignments ticket.jobId) (JobExecutor.new 0) (rounds ticket n) = n := by
  induction n with
  | zero => exact ⟨⟨.fromTicket ticket 0, Map.get_insert_self .., rfl, rfl⟩, rfl⟩
  | succ n ih =>
    obtain ⟨⟨job, hget, hpending, rfl⟩, hsum⟩ := ih
    rw [rounds, Trace.exec_append, Trace.sum_append, hsum]
    generalize Trace.exec (step c it) (JobExecutor.new 0) (rounds job.ticket n) = inner at hget
    have hassign : inner.assignJob job.ticket.jobId (.fill 32 0) 0 =
        (.ok (), { inner with
          jobs := inner.jobs.insert job.ticket.jobId (job.assign (.fill 32 0) 0) }) := by
      rw [assignJob, hget]
      exact if_neg (not_not.mpr hpending)
    refine ⟨⟨(job.assign (.fill 32 0) 0).fail, ?_, ?_, Job.ticket_fail _⟩, ?_⟩
    · rw [Trace.exec_cons, Trace.exec_cons, Trace.exec_nil, step, hassign, step, failJob]
      dsimp only
      rw [Map.get_insert_self]
      exact Map.get_insert_self ..
    · have hpos : 0 < job.ticket.maxRetries := by grind
      have hone : ¬ job.ticket.maxRetries = 1 := by grind
      rw [Job.status_fail, Job.assign, if_pos hpos, if_neg hone]
    · simp only [Trace.sum, assignments, hassign]
      rfl

theorem not_failEnds_zero (c : Crypto) (it : Iteration (Bytes 32) Job)
    (hretries : ticket.maxRetries = 0) :
    ¬ Trace.Always (step c it) (FailEnds ticket.jobId) (JobExecutor.new 0) (rounds ticket 1) := by
  intro hends
  have hretriable := (always_failEnds_iff (fresh_rounds 1) ticket.jobId).mp hends
  obtain ⟨-, -, hfail, -⟩ := hretriable
  let submitted := JobExecutorInner.step c it (JobExecutor.new 0) (.submitJob ticket 0)
  have hget : submitted.jobs.get ticket.jobId = some (.fromTicket ticket 0) :=
    Map.get_insert_self ..
  refine hfail rfl ((Job.fromTicket ticket 0).assign (.fill 32 0) 0) ?_ (.inl rfl) hretries
  change (submitted.assignJob ticket.jobId (.fill 32 0) 0).2.jobs.get ticket.jobId = _
  rw [assignJob, hget]
  exact Map.get_insert_self ..

/-- Where no stored job is replaced, a job is assigned at most once more than it comes
back, and its failures end the work on it just when its ticket has retries; the retries
of some tickets are bounded in all these runs just when each of them has one. -/
theorem bounded_retries_iff (P : JobTicket → Prop) :
    (∀ (c : Crypto) (it : Iteration (Bytes 32) Job) (capacity : Nat) (run : List Op),
      Trace.Always (step c it) Fresh (JobExecutor.new capacity) run → ∀ id,
        Trace.sum (step c it) (assignments id) (JobExecutor.new capacity) run ≤
          Trace.sum (step c it) (returns id) (JobExecutor.new capacity) run + 1 ∧
        (Trace.Always (step c it) (FailEnds id) (JobExecutor.new capacity) run ↔
          Trace.Always (step c it) (Retriable id) (JobExecutor.new capacity) run)) ∧
    ((∀ (c : Crypto) (it : Iteration (Bytes 32) Job) (capacity : Nat) (run : List Op),
      Trace.Always (step c it) Fresh (JobExecutor.new capacity) run →
      (∀ op ∈ run, op.Submits P) → RetriesBounded c it capacity run) ↔
    ∀ ticket, P ticket → ticket.maxRetries = 1) := by
  refine ⟨fun c it capacity run hfresh id => ⟨assignments_le hfresh id,
    always_failEnds_iff hfresh id⟩, fun h ticket hP => ?_, fun h => ?_⟩
  · let c : Crypto := { blake3 := fun _ => .fill 32 0, ed25519Verify := fun _ _ _ => true }
    by_contra hne
    have hbounded := fun n =>
      h c .ascending 0 (rounds ticket n) (fresh_rounds n) (submits_rounds hP)
    by_cases hzero : ticket.maxRetries = 0
    · exact not_failEnds_zero c .ascending hzero ((hbounded 1).ends ticket.jobId)
    · have hretries : 1 < ticket.maxRetries := by grind
      obtain ⟨⟨job, hget, -, hticket⟩, hsum⟩ :=
        exec_rounds c .ascending hretries (ticket.maxRetries.toNat + 2)
      have hbound := (hbounded _).bound ticket.jobId job hget
      rw [hsum, hticket] at hbound
      omega
  · intro c it capacity run hfresh hsubmits
    refine retriesBounded_of_one hfresh fun op hop => ?_
    have hsubmit := hsubmits op hop
    cases op with
    | submit job => exact h _ hsubmit
    | executorSubmitJob ticket blockHeight => exact h _ hsubmit
    | submitJob ticket currentBlock => exact h _ hsubmit
    | _ => trivial

/-- A ticket without retries, whose job fails while assigned and stays so. -/
theorem bounded_retries_fails :
    ¬ ∀ (c : Crypto) (it : Iteration (Bytes 32) Job) (capacity : Nat) (run : List Op),
      Trace.Always (step c it) Fresh (JobExecutor.new capacity) run →
      RetriesBounded c it capacity run := by
  intro h
  let c : Crypto := { blake3 := fun _ => .fill 32 0, ed25519Verify := fun _ _ _ => true }
  let ticket : JobTicket :=
    { JobTicket.new c (.fill 32 1) (.fill 32 2) (.fill 32 3) (.new 1000) 100 with maxRetries := 0 }
  have hbounded := h c .ascending 0 (rounds ticket 1) (fresh_rounds 1)
  exact not_failEnds_zero c .ascending rfl (hbounded.ends _)

end JobExecutorInner

end LiteVision.Intelligence
