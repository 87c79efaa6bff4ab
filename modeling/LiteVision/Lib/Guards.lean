import LiteVision.Lib.Trace

/-!
# Guards of a read-write lock

A value behind a lock that many may read or one may write. A program keeps the guard it was
given until it drops it, and may ask for another one meanwhile. A request is granted only
where no guard is held that excludes it; nothing is said about which of several requests
comes first. A program that asks to write while it reads is never granted that, and while
it waits nobody else is.
-/

namespace LiteVision.Lib.Guards

/-- What a call has yet to do. -/
inductive Program (σ ρ : Type) where
  | done (result : ρ)
  | read (next : σ → Program σ ρ)
  | write (change : σ → σ) (next : σ → Program σ ρ)
  | assign (value : σ) (next : Program σ ρ)
  | dropRead (next : Program σ ρ)
  | dropWrite (next : Program σ ρ)

/-- The next step is to get the write guard, or is taken with it. -/
def Program.NeedsWriter {σ ρ : Type} : Program σ ρ → Prop
  | write _ _ | assign _ _ | dropWrite _ => True
  | done _ | read _ | dropRead _ => False

/-- The value, who holds its guards, and the calls. -/
structure System (σ ρ : Type) where
  value : σ
  readers : List Nat
  writer : Option Nat
  tasks : List (Program σ ρ)

inductive Action (σ ρ : Type) where
  | call (program : Program σ ρ)
  | run (i : Nat)

namespace System

variable {σ ρ : Type} {sys : System σ ρ} {i j : Nat} {change : σ → σ} {next : σ → Program σ ρ}

def start (value : σ) : System σ ρ := ⟨value, [], none, []⟩

/-- Call `i` takes its next step if it can. -/
def resume (sys : System σ ρ) (i : Nat) : System σ ρ :=
  match sys.tasks[i]? with
  | some (.read next) =>
    if sys.writer = none then
      { sys with readers := i :: sys.readers, tasks := sys.tasks.set i (next sys.value) }
    else sys
  | some (.write change next) =>
    if sys.writer = none ∧ sys.readers = [] then
      { sys with
        value := change sys.value
        writer := some i
        tasks := sys.tasks.set i (next sys.value) }
    else sys
  | some (.assign value next) =>
    if sys.writer = some i then { sys with value, tasks := sys.tasks.set i next } else sys
  | some (.dropRead next) =>
    { sys with readers := sys.readers.erase i, tasks := sys.tasks.set i next }
  | some (.dropWrite next) =>
    if sys.writer = some i then { sys with writer := none, tasks := sys.tasks.set i next } else sys
  | some (.done _) | none => sys

def step (sys : System σ ρ) : Action σ ρ → System σ ρ
  | .call program => { sys with tasks := sys.tasks ++ [program] }
  | .run i => sys.resume i

/-- Nobody reads while somebody writes. -/
def Exclusive (sys : System σ ρ) : Prop := sys.writer = none ∨ sys.readers = []

theorem exclusive_start (value : σ) : (start value : System σ ρ).Exclusive := .inl rfl

theorem Exclusive.step (h : sys.Exclusive) (a : Action σ ρ) : (sys.step a).Exclusive := by
  cases a with
  | call program => exact h
  | run i =>
    simp only [System.step, resume]
    split
    · split
      · rename_i hwriter
        exact .inl hwriter
      · exact h
    · split
      · rename_i hfree
        exact .inr hfree.2
      · exact h
    · split <;> exact h
    · refine h.imp_right fun hreaders => ?_
      simp [hreaders]
    · split
      · exact .inl rfl
      · exact h
    · exact h
    · exact h

/-- A call that asks for the write guard and holds a read guard. -/
structure Stuck (sys : System σ ρ) (i : Nat) : Prop where
  waits : ∃ change next, sys.tasks[i]? = some (Program.write change next)
  holds : i ∈ sys.readers

theorem Stuck.writer (h : sys.Stuck i) (hex : sys.Exclusive) : sys.writer = none := by
  rcases hex with hwriter | hreaders
  · exact hwriter
  · exact absurd (hreaders ▸ h.holds) List.not_mem_nil

theorem length_resume (sys : System σ ρ) (i : Nat) :
    (sys.resume i).tasks.length = sys.tasks.length := by
  unfold resume
  split
  · split <;> simp
  · split <;> simp
  · split <;> simp
  · simp
  · split <;> simp
  · rfl
  · rfl

theorem resume_ne (sys : System σ ρ) {k : Nat} (hne : k ≠ i) :
    (sys.resume k).tasks[i]? = sys.tasks[i]? ∧ (i ∈ (sys.resume k).readers ↔ i ∈ sys.readers) := by
  have hset (after : Program σ ρ) : (sys.tasks.set k after)[i]? = sys.tasks[i]? :=
    List.getElem?_set_ne hne
  unfold resume
  split
  · split
    · exact ⟨hset _, by simp [hne.symm]⟩
    · exact ⟨rfl, .rfl⟩
  · split
    · exact ⟨hset _, .rfl⟩
    · exact ⟨rfl, .rfl⟩
  · split
    · exact ⟨hset _, .rfl⟩
    · exact ⟨rfl, .rfl⟩
  · exact ⟨hset _, List.mem_erase_of_ne hne.symm⟩
  · split
    · exact ⟨hset _, .rfl⟩
    · exact ⟨rfl, .rfl⟩
  · exact ⟨rfl, .rfl⟩
  · exact ⟨rfl, .rfl⟩

/-- While a call is stuck no other one gets the write guard, and none has it. -/
theorem Stuck.resume (h : sys.Stuck i) (hex : sys.Exclusive) (k : Nat) :
    i ∈ (sys.resume k).readers ∧ (sys.resume k).value = sys.value ∧
      ∀ (j : Nat) (p : Program σ ρ), sys.tasks[j]? = some p → p.NeedsWriter →
        (sys.resume k).tasks[j]? = some p := by
  have hwriter := h.writer hex
  have hreaders : sys.readers ≠ [] := fun hnil => absurd (hnil ▸ h.holds) List.not_mem_nil
  have hset : ∀ {q after : Program σ ρ}, sys.tasks[k]? = some q → ¬ q.NeedsWriter →
      ∀ (j : Nat) (p : Program σ ρ), sys.tasks[j]? = some p → p.NeedsWriter →
        (sys.tasks.set k after)[j]? = some p := by
    intro q after hk hq j p hj hp
    have hne : k ≠ j := by
      rintro rfl
      cases hk.symm.trans hj
      exact hq hp
    rwa [List.getElem?_set_ne hne]
  unfold System.resume
  split
  · rename_i hk
    rw [if_pos hwriter]
    exact ⟨List.mem_cons_of_mem k h.holds, rfl, hset hk id⟩
  · rw [if_neg fun hfree => hreaders hfree.2]
    exact ⟨h.holds, rfl, fun _ _ hj _ => hj⟩
  · rw [if_neg (by simp [hwriter])]
    exact ⟨h.holds, rfl, fun _ _ hj _ => hj⟩
  · rename_i hk
    refine ⟨(List.mem_erase_of_ne ?_).mpr h.holds, rfl, hset hk id⟩
    rintro rfl
    obtain ⟨change, next, hget⟩ := h.waits
    cases hk.symm.trans hget
  · rw [if_neg (by simp [hwriter])]
    exact ⟨h.holds, rfl, fun _ _ hj _ => hj⟩
  · exact ⟨h.holds, rfl, fun _ _ hj _ => hj⟩
  · exact ⟨h.holds, rfl, fun _ _ hj _ => hj⟩

def programs : List (Action σ ρ) → List (Program σ ρ)
  | [] => []
  | .call program :: actions => program :: programs actions
  | .run _ :: actions => programs actions

/-- The value is never written again, and whoever needs the write guard, now or when the
call is made later, does not move. -/
theorem Stuck.exec (h : sys.Stuck i) (hex : sys.Exclusive) (actions : List (Action σ ρ)) :
    (Trace.exec step sys actions).value = sys.value ∧
      ∀ (j : Nat) (p : Program σ ρ), (sys.tasks ++ programs actions)[j]? = some p →
        p.NeedsWriter → (Trace.exec step sys actions).tasks[j]? = some p := by
  induction actions generalizing sys with
  | nil => exact ⟨rfl, fun j p hj _ => by rwa [programs, List.append_nil] at hj⟩
  | cons a actions ih =>
    cases a with
    | call program =>
      obtain ⟨change, next, hget⟩ := h.waits
      have hlt := (List.getElem?_eq_some_iff.mp hget).1
      have hstuck : (sys.step (.call program)).Stuck i :=
        ⟨⟨change, next, (List.getElem?_append_left hlt).trans hget⟩, h.holds⟩
      obtain ⟨hvalue, hwaits⟩ := ih hstuck (hex.step _)
      refine ⟨hvalue, fun j p hj => hwaits j p ?_⟩
      simp only [System.step, List.append_assoc]
      exact hj
    | run k =>
      obtain ⟨hholds, hvalue, hwaits⟩ := h.resume hex k
      obtain ⟨change, next, hget⟩ := h.waits
      have hstuck : (sys.step (.run k)).Stuck i :=
        ⟨⟨change, next, hwaits i _ hget trivial⟩, hholds⟩
      obtain ⟨hvalue', hwaits'⟩ := ih hstuck (hex.step _)
      refine ⟨hvalue'.trans hvalue, fun j p hj hp => hwaits' j p ?_ hp⟩
      have hlen := sys.length_resume k
      by_cases hlt : j < sys.tasks.length
      · rw [List.getElem?_append_left hlt] at hj
        rw [System.step, List.getElem?_append_left (hlen ▸ hlt)]
        exact hwaits j p hj hp
      · rw [List.getElem?_append_right (Nat.le_of_not_lt hlt)] at hj
        rw [System.step, List.getElem?_append_right (hlen ▸ Nat.le_of_not_lt hlt), hlen]
        exact hj

end System

end LiteVision.Lib.Guards
