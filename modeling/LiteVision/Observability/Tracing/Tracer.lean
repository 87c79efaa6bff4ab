import LiteVision.Lib.Guards
import LiteVision.Observability.Tracing

/-!
# The tracer

The current context is behind a read-write lock that every call of the tracer takes.
`start_child_span` keeps its read guard while it asks for the write guard. With a context to
be the child of it therefore never returns, and no call that needs the write guard returns
after it. Random ids and the clock are arguments of the calls, as is what the closure of
`with_context` gives; no call is given up before it is through.
-/

namespace LiteVision.Observability

open Lib
open Lib.Guards (Program System Action)

structure SpanLog where
  timestampMs : UInt64
  message : String

structure Span where
  traceContext : TraceContext
  operationName : String
  startTimestampMs : UInt64
  endTimestampMs : Option UInt64
  tags : Map String String
  logs : List SpanLog

def TraceContext.new (traceId : TraceId) (spanId : SpanId) : TraceContext :=
  { traceId, spanId, parentSpanId := none }

def TraceContext.newChild (parent : TraceContext) (spanId : SpanId) : TraceContext :=
  { traceId := parent.traceId, spanId, parentSpanId := some parent.spanId }

def Span.new (operationName : String) (context : TraceContext) (now : UInt64) : Span where
  traceContext := context
  operationName := operationName
  startTimestampMs := now
  endTimestampMs := none
  tags := .empty
  logs := []

namespace Tracer

/-- What a call returns. `R` is what the closure of `with_context` returns. -/
inductive Reply (R : Type) where
  | span (span : Span)
  | childSpan (span : Option Span)
  | context (context : Option TraceContext)
  | unit
  | result (result : R)

variable {R : Type}

def startTrace (operationName : String) (traceId : TraceId) (spanId : SpanId) (now : UInt64) :
    Program (Option TraceContext) (Reply R) :=
  let context := TraceContext.new traceId spanId
  .write (fun _ => some context) fun _ =>
    .dropWrite (.done (.span (Span.new operationName context now)))

/-- What is left of `start_child_span` when there is a parent. -/
def startChildSpan.store (operationName : String) (child : TraceContext) (now : UInt64) :
    Program (Option TraceContext) (Reply R) :=
  .write (fun _ => some child) fun _ =>
    .dropWrite (.dropRead (.done (.childSpan (some (Span.new operationName child now)))))

/-- The read guard lives to the end of the function. -/
def startChildSpan (operationName : String) (spanId : SpanId) (now : UInt64) :
    Program (Option TraceContext) (Reply R) :=
  .read fun context =>
    match context with
    | some parent => startChildSpan.store operationName (TraceContext.newChild parent spanId) now
    | none => .dropRead (.done (.childSpan none))

def getCurrentContext : Program (Option TraceContext) (Reply R) :=
  .read fun context => .dropRead (.done (.context context))

def setContext (context : TraceContext) : Program (Option TraceContext) (Reply R) :=
  .write (fun _ => some context) fun _ => .dropWrite (.done .unit)

def clearContext : Program (Option TraceContext) (Reply R) :=
  .write (fun _ => none) fun _ => .dropWrite (.done .unit)

/-- The closure runs under the write guard, between the two contexts. -/
def withContext (context : TraceContext) (result : R) :
    Program (Option TraceContext) (Reply R) :=
  .write (fun _ => some context) fun oldContext =>
    .assign oldContext (.dropWrite (.done (.result result)))

inductive Call (R : Type) where
  | startTrace (operationName : String) (traceId : TraceId) (spanId : SpanId) (now : UInt64)
  | startChildSpan (operationName : String) (spanId : SpanId) (now : UInt64)
  | getCurrentContext
  | setContext (context : TraceContext)
  | clearContext
  | withContext (context : TraceContext) (result : R)

def Call.program : Call R → Program (Option TraceContext) (Reply R)
  | .startTrace operationName traceId spanId now =>
    Tracer.startTrace operationName traceId spanId now
  | .startChildSpan operationName spanId now => Tracer.startChildSpan operationName spanId now
  | .getCurrentContext => Tracer.getCurrentContext
  | .setContext context => Tracer.setContext context
  | .clearContext => Tracer.clearContext
  | .withContext context result => Tracer.withContext context result

/-- A call is made, or the call with a number goes on. -/
inductive Event (R : Type) where
  | call (c : Call R)
  | run (i : Nat)

def Event.action : Event R → Action (Option TraceContext) (Reply R)
  | .call c => .call c.program
  | .run i => .run i

def calls : List (Event R) → List (Call R)
  | [] => []
  | .call c :: events => c :: calls events
  | .run _ :: events => calls events

def exec (events : List (Event R)) : System (Option TraceContext) (Reply R) :=
  Trace.exec System.step (.start none) (events.map Event.action)

-- ---------------------------------------------------------------------------
-- Calls and programs
-- ---------------------------------------------------------------------------

variable {events : List (Event R)} {i : Nat} {operationName : String} {spanId : SpanId}
  {now : UInt64}

theorem calls_append (events later : List (Event R)) :
    calls (events ++ later) = calls events ++ calls later := by
  induction events with
  | nil => rfl
  | cons event events ih =>
    cases event with
    | call c => simp [calls, ih]
    | run i => simp [calls, ih]

theorem programs_eq (events : List (Event R)) :
    System.programs (events.map Event.action) = (calls events).map Call.program := by
  induction events with
  | nil => rfl
  | cons event events ih =>
    cases event with
    | call c => simp [calls, Event.action, System.programs, ih]
    | run i => simp [calls, Event.action, System.programs, ih]

theorem exec_append (events later : List (Event R)) :
    exec (events ++ later) = Trace.exec System.step (exec events) (later.map Event.action) := by
  rw [exec, List.map_append, Trace.exec_append, exec]

theorem exclusive_exec (events : List (Event R)) : (exec events).Exclusive :=
  Trace.invariant (I := System.Exclusive) (fun _ a h => h.step a) (System.exclusive_start none) _

-- ---------------------------------------------------------------------------
-- Where a child span can be
-- ---------------------------------------------------------------------------

/-- How far a call of `start_child_span` has come. -/
inductive ChildSpan (operationName : String) (spanId : SpanId) (now : UInt64) (reads : Prop) :
    Program (Option TraceContext) (Reply R) → Prop
  | made : ChildSpan operationName spanId now reads (startChildSpan operationName spanId now)
  | waits (child : TraceContext) (hreads : reads) :
    ChildSpan operationName spanId now reads (startChildSpan.store operationName child now)
  | nothing : ChildSpan operationName spanId now reads (.dropRead (.done (.childSpan none)))
  | returned : ChildSpan operationName spanId now reads (.done (.childSpan none))

/-- Every call of `start_child_span` is at one of its places. -/
def ChildSpans (calls : List (Call R)) (sys : System (Option TraceContext) (Reply R)) : Prop :=
  ∀ (i : Nat) operationName spanId now,
    calls[i]? = some (.startChildSpan operationName spanId now) →
      ∃ p, sys.tasks[i]? = some p ∧ ChildSpan operationName spanId now (i ∈ sys.readers) p

theorem length_exec (events : List (Event R)) :
    (exec events).tasks.length = (calls events).length := by
  induction events using List.reverseRecOn with
  | nil => rfl
  | append_singleton events event ih =>
    rw [exec_append, calls_append]
    cases event with
    | call c => simp [Event.action, System.step, calls, ih]
    | run i => simp [Event.action, System.step, calls, System.length_resume, ih]

theorem ChildSpan.congr {reads reads' : Prop} (hreads : reads' ↔ reads)
    {p : Program (Option TraceContext) (Reply R)} (h : ChildSpan operationName spanId now reads p) :
    ChildSpan operationName spanId now reads' p := by
  cases h with
  | made => exact .made
  | waits child h => exact .waits child (hreads.mpr h)
  | nothing => exact .nothing
  | returned => exact .returned

theorem ChildSpan.reads {reads : Prop} {p : Program (Option TraceContext) (Reply R)}
    (h : ChildSpan operationName spanId now reads p) (hp : p.NeedsWriter) : reads := by
  cases h with
  | waits child h => exact h
  | made => exact hp.elim
  | nothing => exact hp.elim
  | returned => exact hp.elim

theorem ChildSpan.resume {sys : System (Option TraceContext) (Reply R)} (hex : sys.Exclusive)
    {p : Program (Option TraceContext) (Reply R)} (hget : sys.tasks[i]? = some p)
    (h : ChildSpan operationName spanId now (i ∈ sys.readers) p) :
    ∃ q, (sys.resume i).tasks[i]? = some q ∧
      ChildSpan operationName spanId now (i ∈ (sys.resume i).readers) q := by
  have hlt := (List.getElem?_eq_some_iff.mp hget).1
  cases h with
  | made =>
    rw [startChildSpan] at hget
    unfold System.resume
    rw [hget]
    by_cases hwriter : sys.writer = none
    · simp only [if_pos hwriter]
      refine ⟨_, List.getElem?_set_self hlt, ?_⟩
      cases sys.value with
      | none => exact .nothing
      | some parent => exact .waits _ List.mem_cons_self
    · simp only [if_neg hwriter]
      exact ⟨_, hget, .made⟩
  | waits child hreads =>
    have hstuck : sys.Stuck i := ⟨⟨_, _, hget⟩, hreads⟩
    obtain ⟨hholds, -, hwaits⟩ := hstuck.resume hex i
    exact ⟨_, hwaits i _ hget trivial, .waits child hholds⟩
  | nothing =>
    unfold System.resume
    rw [hget]
    exact ⟨_, List.getElem?_set_self hlt, .returned⟩
  | returned =>
    unfold System.resume
    rw [hget]
    exact ⟨_, hget, .returned⟩

theorem childSpans_exec (events : List (Event R)) : ChildSpans (calls events) (exec events) := by
  induction events using List.reverseRecOn with
  | nil => exact fun i _ _ _ hcall => absurd hcall (by simp [calls])
  | append_singleton events event ih =>
    intro i operationName spanId now hcall
    have hlen := length_exec events
    rw [calls_append] at hcall
    rw [exec_append]
    cases event with
    | call c =>
      by_cases hlt : i < (calls events).length
      · rw [List.getElem?_append_left hlt] at hcall
        obtain ⟨p, hget, hp⟩ := ih i operationName spanId now hcall
        exact ⟨p, (List.getElem?_append_left (hlen ▸ hlt)).trans hget, hp⟩
      · have hlast : i = (calls events).length := by
          have hle := (List.getElem?_eq_some_iff.mp hcall).1
          simp [calls] at hle
          omega
        subst hlast
        simp only [calls, List.getElem?_concat_length, Option.some.injEq] at hcall
        subst hcall
        refine ⟨startChildSpan operationName spanId now, ?_, .made⟩
        rw [← hlen]
        exact List.getElem?_concat_length
    | run k =>
      simp only [calls, List.append_nil] at hcall
      obtain ⟨p, hget, hp⟩ := ih i operationName spanId now hcall
      by_cases hk : k = i
      · subst hk
        exact hp.resume (exclusive_exec events) hget
      · obtain ⟨htask, hreads⟩ := (exec events).resume_ne hk
        exact ⟨p, htask.trans hget, hp.congr hreads⟩

/-- Under every interleaving of calls: `start_child_span` returns no span. A call that has
read a context waits for ever, nobody gets the write guard again, and the context stays. -/
theorem startChildSpan_run (events : List (Event R)) (i : Nat) (operationName : String)
    (spanId : SpanId) (now : UInt64)
    (hcall : (calls events)[i]? = some (.startChildSpan operationName spanId now)) :
    (∀ reply, (exec events).tasks[i]? = some (.done reply) → reply = .childSpan none) ∧
    (∀ parent, (exec events).tasks[i]? = some (startChildSpan operationName spanId now) →
      (exec events).writer = none → (exec events).value = some parent →
        (exec (events ++ [.run i])).tasks[i]? =
          some (startChildSpan.store operationName (parent.newChild spanId) now)) ∧
    ∀ child, (exec events).tasks[i]? = some (startChildSpan.store operationName child now) →
      ∀ later, (exec (events ++ later)).value = (exec events).value ∧
        ∀ (j : Nat) p, ((exec events).tasks ++ (calls later).map Call.program)[j]? = some p →
          p.NeedsWriter → (exec (events ++ later)).tasks[j]? = some p := by
  obtain ⟨p, hget, hp⟩ := childSpans_exec events i operationName spanId now hcall
  refine ⟨fun reply hreply => ?_, fun parent hmade hwriter hvalue => ?_,
    fun child hstore later => ?_⟩
  · cases hget.symm.trans hreply
    cases hp
    rfl
  · have hlt := (List.getElem?_eq_some_iff.mp hget).1
    rw [exec_append]
    simp only [List.map_cons, List.map_nil, Trace.exec_cons, Trace.exec_nil, Event.action,
      System.step, System.resume]
    rw [hmade]
    simp only [startChildSpan, hwriter, if_true, hvalue]
    exact List.getElem?_set_self hlt
  · cases hget.symm.trans hstore
    have hstuck : (exec events).Stuck i := ⟨⟨_, _, hget⟩, hp.reads trivial⟩
    rw [exec_append, ← programs_eq]
    exact hstuck.exec (exclusive_exec events) _

/-- A trace is started, a child span waits, and the context cannot be cleared any more. -/
theorem startChildSpan_run_traced :
    let traceId : TraceId := ⟨.fill 32 1⟩
    let events : List (Event Unit) := [.call (.startTrace "frame" traceId ⟨7⟩ 10), .run 0, .run 0,
      .call (.startChildSpan "tile" ⟨8⟩ 11), .run 1]
    let later : List (Event Unit) := [.run 1, .call .clearContext, .run 2, .run 1]
    (exec (events ++ later)).value = some (TraceContext.new traceId ⟨7⟩) ∧
      (exec (events ++ later)).tasks[2]? = some clearContext := by
  intro traceId events later
  obtain ⟨-, -, hstuck⟩ := startChildSpan_run events 1 "tile" ⟨8⟩ 11 rfl
  obtain ⟨hvalue, hwaits⟩ := hstuck _ rfl later
  exact ⟨hvalue, hwaits 2 clearContext rfl trivial⟩

end Tracer

end LiteVision.Observability
