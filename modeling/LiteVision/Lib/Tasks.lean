import LiteVision.Lib.Trace
import Mathlib.Algebra.BigOperators.Group.List.Basic
import Mathlib.Algebra.Ring.Nat
import Mathlib.Data.List.Induction
import Mathlib.Tactic.Common

/-!
# Tasks that interleave

Calls on a shared state, each of them a list of atomic steps. A scheduler picks a task and
lets it take its next step; nothing is said about the order in which it picks them.
-/

namespace LiteVision.Lib.Tasks

structure System (σ α : Type) where
  state : σ
  tasks : List (List α)

namespace System

variable {σ α : Type} {act : α → σ → List α × σ} {sys : System σ α} {P : α → Prop}

def spawn (sys : System σ α) (task : List α) : System σ α :=
  { sys with tasks := sys.tasks ++ [task] }

/-- Task `i` takes its next step, which may have others follow ahead of the rest. -/
def resume (act : α → σ → List α × σ) (sys : System σ α) (i : Nat) : System σ α :=
  match sys.tasks[i]? with
  | some (a :: rest) =>
    let (next, state) := act a sys.state
    { state, tasks := sys.tasks.set i (next ++ rest) }
  | some [] | none => sys

def Idle (sys : System σ α) : Prop := ∀ task ∈ sys.tasks, task = []

/-- Some task is yet to take a step with `P`. -/
def Awaits (sys : System σ α) (P : α → Prop) : Prop := ∃ task ∈ sys.tasks, ∃ a ∈ task, P a

theorem resume_eq {i : Nat} {a : α} {rest : List α} (h : sys.tasks[i]? = some (a :: rest)) :
    sys.resume act i =
      { state := (act a sys.state).2, tasks := sys.tasks.set i ((act a sys.state).1 ++ rest) } := by
  simp only [resume, h]

theorem resume_state {i : Nat} {a : α} {rest : List α} (h : sys.tasks[i]? = some (a :: rest)) :
    (sys.resume act i).state = (act a sys.state).2 := congrArg System.state (resume_eq h)

theorem resume_cases (act : α → σ → List α × σ) (sys : System σ α) (i : Nat) :
    sys.resume act i = sys ∨ ∃ a rest, sys.tasks[i]? = some (a :: rest) := by
  unfold resume
  split
  · rename_i a rest h
    exact .inr ⟨a, rest, h⟩
  · exact .inl rfl
  · exact .inl rfl

theorem Idle.not_awaits (h : sys.Idle) : ¬ sys.Awaits P := by
  rintro ⟨task, htask, a, ha, -⟩
  rw [h task htask] at ha
  cases ha

theorem awaits_spawn {task : List α} :
    (sys.spawn task).Awaits P ↔ sys.Awaits P ∨ ∃ a ∈ task, P a := by
  simp only [Awaits, spawn, List.mem_append, List.mem_singleton]
  constructor
  · rintro ⟨task', hold | rfl, ha⟩
    · exact .inl ⟨task', hold, ha⟩
    · exact .inr ha
  · rintro (⟨task', hold, ha⟩ | ha)
    · exact ⟨task', .inl hold, ha⟩
    · exact ⟨task, .inr rfl, ha⟩

theorem awaits_of_next {i : Nat} {a b : α} {rest : List α} (hget : sys.tasks[i]? = some (a :: rest))
    (hb : b ∈ (act a sys.state).1) (hP : P b) : (sys.resume act i).Awaits P := by
  rw [resume_eq hget]
  have hi := (List.getElem?_eq_some_iff.mp hget).1
  exact ⟨_, List.mem_of_getElem? (List.getElem?_set_self hi), b, List.mem_append_left rest hb, hP⟩

theorem Awaits.resume {i : Nat} {a : α} {rest : List α} (hget : sys.tasks[i]? = some (a :: rest))
    (hnext : P a → ∃ b ∈ (act a sys.state).1, P b) (h : sys.Awaits P) :
    (sys.resume act i).Awaits P := by
  obtain ⟨task, htask, b, hb, hP⟩ := h
  obtain ⟨j, hj⟩ := List.getElem?_of_mem htask
  by_cases hij : i = j
  · subst hij
    obtain rfl := Option.some.inj (hget.symm.trans hj)
    rcases List.mem_cons.mp hb with rfl | hrest
    · obtain ⟨d, hd, hPd⟩ := hnext hP
      exact awaits_of_next hget hd hPd
    · rw [resume_eq hget]
      have hi := (List.getElem?_eq_some_iff.mp hget).1
      exact ⟨_, List.mem_of_getElem? (List.getElem?_set_self hi), b,
        List.mem_append_right _ hrest, hP⟩
  · rw [resume_eq hget]
    refine ⟨task, List.mem_of_getElem? (i := j) ?_, b, hb, hP⟩
    rw [List.getElem?_set_ne hij]
    exact hj

theorem awaits_of_resume {i : Nat} {a : α} {rest : List α}
    (hget : sys.tasks[i]? = some (a :: rest)) (h : (sys.resume act i).Awaits P) :
    sys.Awaits P ∨ ∃ b ∈ (act a sys.state).1, P b := by
  rw [resume_eq hget] at h
  obtain ⟨task, htask, b, hb, hP⟩ := h
  rcases List.mem_or_eq_of_mem_set htask with hold | rfl
  · exact .inl ⟨task, hold, b, hb, hP⟩
  · rcases List.mem_append.mp hb with hnext | hrest
    · exact .inr ⟨b, hnext, hP⟩
    · exact .inl ⟨_, List.mem_of_getElem? hget, b, List.mem_cons_of_mem a hrest, hP⟩

theorem Awaits.resume_or {i : Nat} {a : α} {rest : List α} (hget : sys.tasks[i]? = some (a :: rest))
    (h : sys.Awaits P) : (sys.resume act i).Awaits P ∨ P a := by
  obtain ⟨task, htask, b, hb, hP⟩ := h
  obtain ⟨j, hj⟩ := List.getElem?_of_mem htask
  rw [resume_eq hget]
  by_cases hij : i = j
  · subst hij
    obtain rfl := Option.some.inj (hget.symm.trans hj)
    rcases List.mem_cons.mp hb with rfl | hrest
    · exact .inr hP
    · have hi := (List.getElem?_eq_some_iff.mp hget).1
      exact .inl ⟨_, List.mem_of_getElem? (List.getElem?_set_self hi), b,
        List.mem_append_right _ hrest, hP⟩
  · refine .inl ⟨task, List.mem_of_getElem? (i := j) ?_, b, hb, hP⟩
    rw [List.getElem?_set_ne hij]
    exact hj

-- ---------------------------------------------------------------------------
-- Finishing
-- ---------------------------------------------------------------------------

/-- What all tasks together have yet to do, in terms of a weight of steps. -/
def remaining (weight : α → Nat) (sys : System σ α) : Nat :=
  (sys.tasks.map fun task => (task.map weight).sum).sum

theorem sum_map_set (f : List α → Nat) {tasks : List (List α)} {i : Nat} {task : List α}
    (h : tasks[i]? = some task) (next : List α) :
    ((tasks.set i next).map f).sum + f task = (tasks.map f).sum + f next := by
  induction tasks generalizing i with
  | nil => cases h
  | cons first tasks ih =>
    cases i with
    | zero =>
      obtain rfl := Option.some.inj h
      simp only [List.set_cons_zero, List.map_cons, List.sum_cons]
      omega
    | succ i =>
      have hrest := ih (i := i) h
      simp only [List.set_cons_succ, List.map_cons, List.sum_cons]
      omega

theorem remaining_resume_add (act : α → σ → List α × σ) (weight : α → Nat) {i : Nat} {a : α}
    {rest : List α} (hget : sys.tasks[i]? = some (a :: rest)) :
    (sys.resume act i).remaining weight + weight a =
      sys.remaining weight + ((act a sys.state).1.map weight).sum := by
  have hsum := sum_map_set (fun task => (task.map weight).sum) hget
    ((act a sys.state).1 ++ rest)
  rw [resume_eq hget, remaining, remaining]
  simp only [List.map_cons, List.sum_cons, List.map_append, List.sum_append] at hsum ⊢
  omega

theorem remaining_resume {weight : α → Nat} {i : Nat} {a : α} {rest : List α}
    (hweight : ∀ a s, ((act a s).1.map weight).sum < weight a)
    (hget : sys.tasks[i]? = some (a :: rest)) :
    (sys.resume act i).remaining weight < sys.remaining weight := by
  have hless := hweight a sys.state
  have hadd := remaining_resume_add act weight hget
  omega

theorem remaining_spawn (weight : α → Nat) (task : List α) :
    (sys.spawn task).remaining weight = sys.remaining weight + (task.map weight).sum := by
  simp [remaining, spawn]

/-- If what follows a step weighs less than the step, all tasks can be brought to their end. -/
theorem exists_idle {weight : α → Nat} (hweight : ∀ a s, ((act a s).1.map weight).sum < weight a)
    (sys : System σ α) : ∃ order : List Nat, (order.foldl (resume act) sys).Idle := by
  induction hn : sys.remaining weight using Nat.strongRecOn generalizing sys with
  | ind n ih =>
    by_cases hidle : sys.Idle
    · exact ⟨[], hidle⟩
    · -- a task that is not at its end takes a step
      simp only [Idle, not_forall] at hidle
      obtain ⟨task, htask, hne⟩ := hidle
      obtain ⟨a, rest, rfl⟩ := List.exists_cons_of_ne_nil hne
      obtain ⟨i, hget⟩ := List.getElem?_of_mem htask
      obtain ⟨order, hend⟩ := ih _ (hn ▸ remaining_resume hweight hget) _ rfl
      exact ⟨i :: order, hend⟩

-- ---------------------------------------------------------------------------
-- Runs of the scheduler
-- ---------------------------------------------------------------------------

inductive Event (α : Type) where
  | spawn (task : List α)
  | resume (i : Nat)

def Event.task : Event α → List α
  | spawn task => task
  | resume _ => []

def schedule (act : α → σ → List α × σ) (sys : System σ α) : Event α → System σ α
  | .spawn task => sys.spawn task
  | .resume i => sys.resume act i

def run (act : α → σ → List α × σ) (start : σ) (events : List (Event α)) : System σ α :=
  Trace.exec (schedule act) ⟨start, []⟩ events

/-- What tasks, as they come, keep in step with the state holds all along. The cases are those
of a new task and of a task that goes on. -/
theorem run_induction {I : System σ α → Prop} {start : σ} (hstart : I ⟨start, []⟩)
    {events : List (Event α)}
    (hspawn : ∀ sys, ∀ task, .spawn task ∈ events → I sys → I (sys.spawn task))
    (hresume : ∀ sys i a rest, sys.tasks[i]? = some (a :: rest) → I sys → I (sys.resume act i)) :
    I (run act start events) := by
  induction events using List.reverseRecOn with
  | nil => exact hstart
  | append_singleton events event ih =>
    have hbefore := ih fun sys task htask => hspawn sys task (List.mem_append_left _ htask)
    rw [run, Trace.exec_concat]
    cases event with
    | spawn task => exact hspawn _ task (by simp) hbefore
    | resume i =>
      rcases resume_cases act (run act start events) i with hsame | ⟨a, rest, hget⟩
      · rw [schedule, ← run, hsame]
        exact hbefore
      · exact hresume _ i a rest hget hbefore

/-- A step that moves its weight into the state or into the steps that follow it loses none:
what the state has gained and what is yet to come is what the tasks brought. -/
theorem balance (level : σ → Nat) (weight : α → Nat)
    (hact : ∀ a s, level (act a s).2 + ((act a s).1.map weight).sum = level s + weight a)
    (start : σ) (events : List (Event α)) :
    level (run act start events).state + (run act start events).remaining weight =
      level start + (events.map fun event => (event.task.map weight).sum).sum := by
  induction events using List.reverseRecOn with
  | nil => rfl
  | append_singleton events event ih =>
    rw [run, Trace.exec_concat, ← run, List.map_append, List.sum_append, List.map_singleton,
      List.sum_singleton]
    cases event with
    | spawn task =>
      rw [schedule, remaining_spawn, Event.task]
      have hstate : ((run act start events).spawn task).state = (run act start events).state := rfl
      rw [hstate]
      omega
    | resume i =>
      rw [schedule, Event.task, List.map_nil, List.sum_nil]
      rcases resume_cases act (run act start events) i with hsame | ⟨a, rest, hget⟩
      · rw [hsame]
        exact ih
      · have hadd := remaining_resume_add act weight hget
        have hlevel := hact a (run act start events).state
        rw [resume_state hget]
        omega

end System

end LiteVision.Lib.Tasks
