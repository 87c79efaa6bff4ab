import LiteVision.Truth.Consensus.History

/-!
# Interleaved calls

A vote handler takes the lock three times: to read the height, to read the
round, and to store the vote. Here each acquisition is a step of its own, with
any number of calls under way, so a change of view can fall between the checks
of a vote and its insertion. A call that nobody interrupts is the call of the
sequential model.
-/

namespace LiteVision.Truth

open Lib

/-- The lock acquisition a call of a vote handler comes to next. -/
inductive Stage
  | readHeight
  | readRound
  | write
  | returned (reply : Except String (Option QuorumCertificate))

structure Task where
  handler : VoteType
  vote : Vote
  stage : Stage

/-- The shared state and the calls of the vote handlers so far. -/
structure System where
  state : Consensus
  tasks : List Task

/-- The operations that take the lock once. -/
def Op.OneLock : Op → Prop
  | .receive .. => False
  | .startNewView .. | .propose .. | .commit _ | .advanceToNextView | .advanceToNextHeight => True

/-- A step of the scheduler: a handler is called, a call goes on to its next
acquisition, or an operation with a single acquisition runs. -/
inductive Action
  | call (handler : VoteType) (vote : Vote)
  | resume (task : Nat) (now : UInt64)
  | locked (op : Op) (h : op.OneLock)

def System.initial : System := { state := .initial, tasks := [] }

def Task.finish (task : Task) (reply : Except String (Option QuorumCertificate)) : Task :=
  { task with stage := .returned reply }

namespace ConsensusEngine

open Consensus

variable (env : Env) (e : ConsensusEngine)

/-- The part of a handler under the write lock. -/
def store (handler : VoteType) (vote : Vote) (now : UInt64) (s : Consensus) :
    Option QuorumCertificate × Consensus :=
  match handler with
  | .preVote => e.recordPrevote env vote s
  | .preCommit => e.recordPrecommit env vote now s

def wrongType : VoteType → String
  | .preVote => "Invalid vote type for PreVote phase"
  | .preCommit => "Invalid vote type for PreCommit phase"

/-- A call up to its next acquisition. The type of the vote is checked on the
way from the second to the third. -/
def resume (now : UInt64) (s : Consensus) (task : Task) : Task × Consensus :=
  match task.stage with
  | .readHeight =>
    if task.vote.height ≠ s.height then (task.finish (.error "Vote height mismatch"), s)
    else ({ task with stage := .readRound }, s)
  | .readRound =>
    if task.vote.round ≠ s.round then (task.finish (.error "Vote round mismatch"), s)
    else if task.vote.voteType ≠ task.handler then
      (task.finish (.error (wrongType task.handler)), s)
    else ({ task with stage := .write }, s)
  | .write =>
    let (qc, s) := e.store env task.handler task.vote now s
    (task.finish (.ok qc), s)
  | .returned _ => (task, s)

def schedule (sys : System) : Action → System
  | .call handler vote =>
    { sys with tasks := sys.tasks ++ [{ handler, vote, stage := .readHeight }] }
  | .resume i now =>
    match sys.tasks[i]? with
    | none => sys
    | some task =>
      let (task, state) := e.resume env now sys.state task
      { state, tasks := sys.tasks.set i task }
  | .locked op _ => { sys with state := e.step env sys.state op }

-- ---------------------------------------------------------------------------
-- One acquisition at a time
-- ---------------------------------------------------------------------------

theorem store_cases (t : VoteType) (vote : Vote) (now : UInt64) (s : Consensus) :
    (¬ e.Reaches t vote s ∧ e.store env t vote now s = (none, s.record vote)) ∨
    (e.Reaches t vote s ∧ e.store env t vote now s =
      (some (e.built env t vote s), (s.record vote).certify t (e.built env t vote s) now)) := by
  by_cases hr : e.Reaches t vote s
  · refine .inr ⟨hr, ?_⟩
    cases t with
    | preVote => simp only [store, recordPrevote_eq env e vote now, if_pos hr]
    | preCommit => simp only [store, recordPrecommit_eq, if_pos hr]
  · refine .inl ⟨hr, ?_⟩
    cases t with
    | preVote => simp only [store, recordPrevote_eq env e vote now, if_neg hr]
    | preCommit => simp only [store, recordPrecommit_eq, if_neg hr]

theorem store_view (t : VoteType) (vote : Vote) (now : UInt64) (s : Consensus) :
    (e.store env t vote now s).2.votes = s.votes.insert vote.validatorId vote ∧
      (e.store env t vote now s).2.height = s.height ∧
      (e.store env t vote now s).2.round = s.round := by
  rcases store_cases env e t vote now s with ⟨-, heq⟩ | ⟨-, heq⟩
  · rw [heq]
    exact ⟨rfl, rfl, rfl⟩
  · rw [heq]
    exact ⟨by simp, by simp, by simp⟩

/-- Three acquisitions in a row make the call of the sequential model, with its
reply and its state. -/
theorem resume_uninterrupted (t : VoteType) (vote : Vote) (now : UInt64) (s : Consensus) :
    let first := e.resume env now s { handler := t, vote, stage := .readHeight }
    let second := e.resume env now first.2 first.1
    let third := e.resume env now second.2 second.1
    third = ({ handler := t, vote, stage := .returned (e.receive env t vote now s).1 },
      (e.receive env t vote now s).2) := by
  by_cases hh : vote.height = s.height
  · by_cases hr : vote.round = s.round
    · by_cases ht : vote.voteType = t
      · cases t <;>
          simp [resume, Task.finish, receive, receivePrevote, receivePrecommit, store, hh, hr, ht]
      · cases t <;>
          simp [resume, Task.finish, receive, receivePrevote, receivePrecommit, wrongType, hh, hr, ht]
    · cases t <;> simp [resume, Task.finish, receive, receivePrevote, receivePrecommit, hh, hr]
  · cases t <;> simp [resume, Task.finish, receive, receivePrevote, receivePrecommit, hh]

theorem locked_view {op : Op} (h : op.OneLock) (s : Consensus) :
    (e.step env s op).votes = .empty ∨
    ((e.step env s op).votes = s.votes ∧ (e.step env s op).height = s.height ∧
      (e.step env s op).round = s.round) := by
  rcases step_view env e s op with hv | hv | ⟨t, vote, now, rfl, -⟩
  · exact .inl hv
  · exact .inr hv
  · exact h.elim

-- ---------------------------------------------------------------------------
-- Views under interleaving
-- ---------------------------------------------------------------------------

/-- The view of the vote is the current one. -/
def InView (s : Consensus) (vote : Vote) : Prop := vote.height = s.height ∧ vote.round = s.round

def VotesInView (s : Consensus) : Prop := ∀ id v, s.votes.get id = some v → InView s v

def builds (now : UInt64) (s : Consensus) (task : Task) : Option QuorumCertificate :=
  match task.stage with
  | .write => (e.store env task.handler task.vote now s).1
  | .readHeight | .readRound | .returned _ => none

/-- After the step every stored vote is of the current view, and a certificate
it builds is of the view of the votes in it. -/
def ViewSafe (sys : System) (a : Action) : Prop :=
  VotesInView (e.schedule env sys a).state ∧
  ∀ i now task qc, a = .resume i now → sys.tasks[i]? = some task →
    e.builds env now sys.state task = some qc →
    ∀ id signature, (id, signature) ∈ qc.signatures →
      ∃ v, (e.schedule env sys a).state.votes.get id = some v ∧ v.signature = signature ∧
        v.height = qc.height ∧ v.round = qc.round

/-- A vote that gets the write lock finds the view it was checked against. -/
def WritesInView (sys : System) (a : Action) : Prop :=
  ∀ i now task, a = .resume i now → sys.tasks[i]? = some task →
    task.stage = .write → InView sys.state task.vote

variable {env e}

variable (env e) in
/-- What a step does to the shared state: nothing, one write of a call under
way, or one operation. -/
theorem schedule_cases (sys : System) (a : Action) :
    (e.schedule env sys a).state = sys.state ∨
    (∃ i now task, a = .resume i now ∧ sys.tasks[i]? = some task ∧ task.stage = .write ∧
      (e.schedule env sys a).state = (e.store env task.handler task.vote now sys.state).2) ∨
    ∃ op h, a = .locked op h ∧ (e.schedule env sys a).state = e.step env sys.state op := by
  cases a with
  | call handler vote => exact .inl rfl
  | resume i now =>
    cases ht : sys.tasks[i]? with
    | none => exact .inl (by simp [schedule, ht])
    | some task =>
      cases hs : task.stage with
      | readHeight =>
        refine .inl ?_
        simp only [schedule, ht, resume, hs]
        split <;> rfl
      | readRound =>
        refine .inl ?_
        simp only [schedule, ht, resume, hs]
        split
        · rfl
        · split <;> rfl
      | write =>
        exact .inr (.inl ⟨i, now, task, rfl, ht, hs, by simp [schedule, ht, resume, hs]⟩)
      | returned reply => exact .inl (by simp [schedule, ht, resume, hs])
  | locked op h => exact .inr (.inr ⟨op, h, rfl, rfl⟩)

theorem votesInView_store {t : VoteType} {vote : Vote} {now : UInt64} {s : Consensus}
    (h : VotesInView s) (hvote : InView s vote) : VotesInView (e.store env t vote now s).2 := by
  obtain ⟨hv, hh, hr⟩ := store_view env e t vote now s
  intro id v hget
  rw [hv] at hget
  rw [InView, hh, hr]
  rcases Map.of_get_insert hget with ⟨-, rfl⟩ | ⟨-, hold⟩
  · exact hvote
  · exact h id v hold

theorem votesInView_schedule {sys : System} {a : Action} (h : VotesInView sys.state)
    (ha : WritesInView sys a) : VotesInView (e.schedule env sys a).state := by
  rcases schedule_cases env e sys a with
    heq | ⟨i, now, task, rfl, ht, hs, heq⟩ | ⟨op, hop, rfl, heq⟩
  · rwa [heq]
  · rw [heq]
    exact votesInView_store h (ha i now task rfl ht hs)
  · rw [heq]
    rcases locked_view env e hop sys.state with hv | ⟨hv, hh, hr⟩
    · intro id v hget
      simp [hv] at hget
    · intro id v hget
      rw [hv] at hget
      rw [InView, hh, hr]
      exact h id v hget

theorem builds_inView {now : UInt64} {s : Consensus} {task : Task} {qc : QuorumCertificate}
    (hqc : e.builds env now s task = some qc)
    (h : VotesInView (e.store env task.handler task.vote now s).2) :
    ∀ id signature, (id, signature) ∈ qc.signatures →
      ∃ v, (e.store env task.handler task.vote now s).2.votes.get id = some v ∧
        v.signature = signature ∧ v.height = qc.height ∧ v.round = qc.round := by
  intro id signature hmem
  cases hs : task.stage with
  | readHeight => simp [builds, hs] at hqc
  | readRound => simp [builds, hs] at hqc
  | returned reply => simp [builds, hs] at hqc
  | write =>
    simp only [builds, hs] at hqc
    rcases store_cases env e task.handler task.vote now s with ⟨-, heq⟩ | ⟨-, heq⟩
    · simp [heq] at hqc
    · rw [heq] at hqc h ⊢
      obtain rfl := Option.some.inj hqc
      obtain ⟨v, hv, -, -, hsig⟩ := mem_certificate.mp hmem
      have hget : ((s.record task.vote).certify task.handler
          (e.built env task.handler task.vote s) now).votes.get id = some v := by
        rwa [certify_votes]
      obtain ⟨hh, hr⟩ := h id v hget
      exact ⟨v, hget, hsig, by simpa using hh, by simpa using hr⟩

theorem viewSafe_of_writesInView {sys : System} {a : Action} (h : VotesInView sys.state)
    (ha : WritesInView sys a) : e.ViewSafe env sys a := by
  have hview : VotesInView (e.schedule env sys a).state := votesInView_schedule h ha
  refine ⟨hview, ?_⟩
  rintro i now task qc rfl ht hqc
  cases hs : task.stage with
  | write =>
    have heq : (e.schedule env sys (.resume i now)).state =
        (e.store env task.handler task.vote now sys.state).2 := by
      simp [schedule, ht, resume, hs]
    rw [heq] at hview ⊢
    exact builds_inView hqc hview
  | readHeight => simp [builds, hs] at hqc
  | readRound => simp [builds, hs] at hqc
  | returned reply => simp [builds, hs] at hqc

theorem writesInView_of_viewSafe {sys : System} {a : Action} (h : e.ViewSafe env sys a) :
    WritesInView sys a := by
  rintro i now task rfl ht hs
  obtain ⟨hview, -⟩ := h
  have heq : (e.schedule env sys (.resume i now)).state =
      (e.store env task.handler task.vote now sys.state).2 := by
    simp [schedule, ht, resume, hs]
  obtain ⟨hv, hh, hr⟩ := store_view env e task.handler task.vote now sys.state
  rw [heq] at hview
  have hstored := hview task.vote.validatorId task.vote (by simp [hv])
  rwa [InView, hh, hr] at hstored

variable (env) in
/-- The views stay right in an interleaving just when every write of a vote
comes while its view is the current one. -/
theorem interleaved_views_iff (validators : List Validator) (viewTimeoutMs : UInt64)
    (run : List Action) :
    let e := ConsensusEngine.new validators viewTimeoutMs
    Trace.Always (e.schedule env) (e.ViewSafe env) .initial run ↔
      Trace.Always (e.schedule env) WritesInView .initial run := by
  intro e
  have hinit : VotesInView System.initial.state := by
    intro id v h
    simp [System.initial, Consensus.initial] at h
  constructor
  · intro h
    exact h.imp (I := fun sys => VotesInView sys.state) (fun _ _ _ hsafe => hsafe.1)
      (fun _ _ _ hsafe => writesInView_of_viewSafe hsafe) hinit
  · intro h
    exact h.imp (I := fun sys => VotesInView sys.state) (fun _ _ hi ha => votesInView_schedule hi ha)
      (fun _ _ hi ha => viewSafe_of_writesInView hi ha) hinit

/-- A prevote passes both checks, the engine advances to the next view, and the
prevote is stored there. -/
theorem interleaved_views_fail :
    ¬ ∀ (env : Env) (validators : List Validator) (viewTimeoutMs : UInt64) (run : List Action),
      let e := ConsensusEngine.new validators viewTimeoutMs
      Trace.Always (e.schedule env) (e.ViewSafe env) .initial run := by
  intro h
  have hrun := h Sample.env (Sample.validators 4) 3000
    [.call .preVote (Sample.vote 0 .preVote 1), .resume 0 0, .resume 0 0,
      .locked .advanceToNextView trivial, .resume 0 0]
  have hwrite := writesInView_of_viewSafe hrun.2.2.2.2.1
  obtain ⟨-, hround⟩ := hwrite 0 0 ⟨.preVote, Sample.vote 0 .preVote 1, .write⟩ rfl rfl rfl
  revert hround
  decide

-- ---------------------------------------------------------------------------
-- View changes that wait
-- ---------------------------------------------------------------------------

/-- What the checks a call has passed say, as long as the view stands. -/
def Checked (s : Consensus) (task : Task) : Prop :=
  match task.stage with
  | .readHeight | .returned _ => True
  | .readRound => task.vote.height = s.height
  | .write => InView s task.vote

/-- A call between its first check and its insertion. -/
def MidCall (task : Task) : Prop := task.stage = .readRound ∨ task.stage = .write

variable (env e) in
/-- The view is changed only when no call is under way. -/
def Waits (sys : System) : Action → Prop
  | .locked op _ => (∃ task ∈ sys.tasks, MidCall task) →
      (e.step env sys.state op).height = sys.state.height ∧
        (e.step env sys.state op).round = sys.state.round
  | .call .. | .resume .. => True

theorem checked_resume {now : UInt64} {s : Consensus} {task : Task} (h : Checked s task) :
    Checked (e.resume env now s task).2 (e.resume env now s task).1 := by
  cases hs : task.stage with
  | readHeight =>
    simp only [resume, hs]
    split
    · trivial
    · rename_i hh
      exact not_not.mp hh
  | readRound =>
    simp only [Checked, hs] at h
    simp only [resume, hs]
    split
    · trivial
    · rename_i hr
      split
      · trivial
      · exact ⟨h, not_not.mp hr⟩
  | write => simp [resume, hs, Checked, Task.finish]
  | returned reply => simp [resume, hs, Checked]

theorem checked_of_same_view {s s' : Consensus} {task : Task} (hh : s'.height = s.height)
    (hr : s'.round = s.round) (h : Checked s task) : Checked s' task := by
  cases hs : task.stage with
  | readHeight | returned => simp [Checked, hs]
  | readRound =>
    simp only [Checked, hs] at h ⊢
    exact h.trans hh.symm
  | write =>
    simp only [Checked, hs] at h ⊢
    exact ⟨h.1.trans hh.symm, h.2.trans hr.symm⟩

theorem writesInView_of_checked {sys : System} {a : Action}
    (h : ∀ task ∈ sys.tasks, Checked sys.state task) : WritesInView sys a := by
  rintro i now task - ht hs
  have hchecked := h task (List.mem_of_getElem? ht)
  rwa [Checked, hs] at hchecked

variable (env e) in
theorem resume_view (now : UInt64) (s : Consensus) (task : Task) :
    (e.resume env now s task).2.height = s.height ∧ (e.resume env now s task).2.round = s.round := by
  cases hs : task.stage with
  | readHeight =>
    simp only [resume, hs]
    split <;> exact ⟨rfl, rfl⟩
  | readRound =>
    simp only [resume, hs]
    split
    · exact ⟨rfl, rfl⟩
    · split <;> exact ⟨rfl, rfl⟩
  | write =>
    simp only [resume, hs]
    exact (store_view env e task.handler task.vote now s).2
  | returned reply => simp [resume, hs]

theorem checked_schedule {sys : System} {a : Action} (h : ∀ task ∈ sys.tasks, Checked sys.state task)
    (ha : e.Waits env sys a) :
    ∀ task ∈ (e.schedule env sys a).tasks, Checked (e.schedule env sys a).state task := by
  intro task hmem
  cases a with
  | call handler vote =>
    rcases List.mem_append.mp hmem with hold | hnew
    · exact h task hold
    · obtain rfl := List.mem_singleton.mp hnew
      trivial
  | resume i now =>
    cases ht : sys.tasks[i]? with
    | none =>
      simp only [schedule, ht] at hmem ⊢
      exact h task hmem
    | some resumed =>
      simp only [schedule, ht] at hmem ⊢
      rcases List.mem_or_eq_of_mem_set hmem with hold | rfl
      · obtain ⟨hh, hr⟩ := resume_view env e now sys.state resumed
        exact checked_of_same_view hh hr (h task hold)
      · exact checked_resume (h resumed (List.mem_of_getElem? ht))
  | locked op hop =>
    by_cases hmid : MidCall task
    · obtain ⟨hh, hr⟩ := ha ⟨task, hmem, hmid⟩
      exact checked_of_same_view hh hr (h task hmem)
    · cases hs : task.stage with
      | readHeight => simp [Checked, hs]
      | readRound => exact absurd (.inl hs) hmid
      | write => exact absurd (.inr hs) hmid
      | returned reply => simp [Checked, hs]

variable (env) in
/-- Were the view to change only between calls, no check would go stale. -/
theorem viewSafe_of_waits (validators : List Validator) (viewTimeoutMs : UInt64)
    (run : List Action) :
    let e := ConsensusEngine.new validators viewTimeoutMs
    Trace.Always (e.schedule env) (e.Waits env) .initial run →
      Trace.Always (e.schedule env) (e.ViewSafe env) .initial run := by
  intro e h
  refine h.imp (I := fun sys => (∀ task ∈ sys.tasks, Checked sys.state task) ∧ VotesInView sys.state)
    ?_ ?_ ?_
  · intro sys a ⟨hchecked, hview⟩ ha
    exact ⟨checked_schedule hchecked ha,
      votesInView_schedule hview (writesInView_of_checked hchecked)⟩
  · intro sys a ⟨hchecked, hview⟩ _
    exact viewSafe_of_writesInView hview (writesInView_of_checked hchecked)
  · constructor
    · intro task hmem
      simp [System.initial] at hmem
    · intro id v hget
      simp [System.initial, Consensus.initial] at hget

end ConsensusEngine

end LiteVision.Truth
