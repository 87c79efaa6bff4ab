import Mathlib.Data.List.Basic
import Mathlib.Tactic.Tauto

/-!
# Runs of a step function

A machine is a step function on states; a run is the list of its inputs.
`Always P` says that `P` holds of every step of a run together with the state
it is taken in, `Sometimes P` that it holds of some step, and `sum f` adds up
what the steps contribute. The rules are the ones an invariant proof needs: what
one step keeps, a whole run keeps.
-/

namespace LiteVision.Lib.Trace

variable {σ α : Type} {step : σ → α → σ} {s : σ} {run : List α} {P Q : σ → α → Prop} {I : σ → Prop}

def exec (step : σ → α → σ) (s : σ) (run : List α) : σ := run.foldl step s

def Always (step : σ → α → σ) (P : σ → α → Prop) : σ → List α → Prop
  | _, [] => True
  | s, a :: run => P s a ∧ Always step P (step s a) run

def Sometimes (step : σ → α → σ) (P : σ → α → Prop) : σ → List α → Prop
  | _, [] => False
  | s, a :: run => P s a ∨ Sometimes step P (step s a) run

@[simp] theorem exec_nil : exec step s [] = s := rfl

@[simp] theorem exec_cons (a : α) : exec step s (a :: run) = exec step (step s a) run := rfl

theorem exec_append (run rest : List α) :
    exec step s (run ++ rest) = exec step (exec step s run) rest :=
  List.foldl_append

@[simp] theorem exec_concat (a : α) : exec step s (run ++ [a]) = step (exec step s run) a := by
  simp [exec_append]

theorem always_append (run rest : List α) :
    Always step P s (run ++ rest) ↔ Always step P s run ∧ Always step P (exec step s run) rest := by
  induction run generalizing s with
  | nil => simp [Always]
  | cons a run ih => simp [Always, ih, and_assoc]

@[simp] theorem always_concat (a : α) :
    Always step P s (run ++ [a]) ↔ Always step P s run ∧ P (exec step s run) a := by
  simp [always_append, Always]

instance decidableAlways [∀ s a, Decidable (P s a)] :
    (s : σ) → (run : List α) → Decidable (Always step P s run)
  | _, [] => .isTrue trivial
  | s, a :: run =>
    have := decidableAlways (step s a) run
    inferInstanceAs (Decidable (P s a ∧ Always step P (step s a) run))

theorem always_of_forall_mem (h : ∀ a ∈ run, ∀ s, P s a) : Always step P s run := by
  induction run generalizing s with
  | nil => trivial
  | cons a run ih =>
    exact ⟨h a List.mem_cons_self s, ih fun b hb => h b (List.mem_cons_of_mem a hb)⟩

theorem always_and :
    Always step (fun s a => P s a ∧ Q s a) s run ↔ Always step P s run ∧ Always step Q s run := by
  induction run generalizing s with
  | nil => simp [Always]
  | cons a run ih => simp only [Always, ih]; tauto

theorem invariant (hstep : ∀ s a, I s → I (step s a)) (h0 : I s) (run : List α) :
    I (exec step s run) := by
  induction run generalizing s with
  | nil => exact h0
  | cons a run ih => exact ih (hstep s a h0)

theorem Always.imp (hstep : ∀ s a, I s → P s a → I (step s a)) (himp : ∀ s a, I s → P s a → Q s a)
    (h0 : I s) (hrun : Always step P s run) : Always step Q s run := by
  induction run generalizing s with
  | nil => trivial
  | cons a run ih => exact ⟨himp s a h0 hrun.1, ih (hstep s a h0 hrun.1) hrun.2⟩

theorem always_congr (hstep : ∀ s a, I s → I (step s a)) (hiff : ∀ s a, I s → (P s a ↔ Q s a))
    (h0 : I s) : Always step P s run ↔ Always step Q s run :=
  ⟨fun h => h.imp (fun s a hi _ => hstep s a hi) (fun s a hi => (hiff s a hi).mp) h0,
    fun h => h.imp (fun s a hi _ => hstep s a hi) (fun s a hi => (hiff s a hi).mpr) h0⟩

theorem Always.exec (hstep : ∀ s a, I s → P s a → I (step s a)) (h0 : I s)
    (hrun : Always step P s run) : I (exec step s run) := by
  induction run generalizing s with
  | nil => exact h0
  | cons a run ih => exact ih (hstep s a h0 hrun.1) hrun.2

theorem always_iff_forall :
    Always step P s run ↔
      ∀ before a after, run = before ++ a :: after → P (exec step s before) a := by
  constructor
  · rintro h before a after rfl
    exact ((always_append before (a :: after)).mp h).2.1
  · induction run generalizing s with
    | nil => exact fun _ => trivial
    | cons b run ih =>
      intro h
      refine ⟨h [] b run rfl, ih fun before a after heq => ?_⟩
      exact h (b :: before) a after (by rw [heq]; rfl)

theorem Always.between {before between : List α} (hrun : Always step P s run)
    (hpart : before ++ between <+: run) : Always step P (Trace.exec step s before) between := by
  obtain ⟨rest, rfl⟩ := hpart
  rw [List.append_assoc] at hrun
  exact ((always_append _ _).mp ((always_append _ _).mp hrun).2).1

/-- When a step that is fit keeps `I` and has `Q` exactly under `P`, every state of a
run of fit steps has `I` and every step `Q` exactly if every step has `P`. -/
theorem prefixes_and_iff_always {J : σ → Prop} {F : σ → α → Prop}
    (hstep : ∀ s a, J s → I s → F s a → J (step s a))
    (hiff : ∀ s a, J s → I s → F s a → (I (step s a) ∧ Q s a ↔ P s a)) (hJ : J s) (h0 : I s)
    (hrun : Always step F s run) :
    ((∀ before, before <+: run → I (exec step s before)) ∧ Always step Q s run) ↔
      Always step P s run := by
  induction run generalizing s with
  | nil =>
    refine iff_of_true ⟨fun before hbefore => ?_, trivial⟩ trivial
    obtain rfl := List.prefix_nil.mp hbefore
    exact h0
  | cons a run ih =>
    obtain ⟨ha, htail⟩ := hrun
    have hkeep := hstep s a hJ h0 ha
    constructor
    · rintro ⟨h, hQ, hrest⟩
      have hnext : I (step s a) := h [a] (List.prefix_append [a] run)
      refine ⟨(hiff s a hJ h0 ha).mp ⟨hnext, hQ⟩, (ih hkeep hnext htail).mp ⟨?_, hrest⟩⟩
      intro before hbefore
      exact h (a :: before) (List.cons_prefix_cons.mpr ⟨rfl, hbefore⟩)
    · rintro ⟨hP, hrest⟩
      obtain ⟨hnext, hQ⟩ := (hiff s a hJ h0 ha).mpr hP
      obtain ⟨hafter, hQs⟩ := (ih hkeep hnext htail).mpr hrest
      refine ⟨fun before hbefore => ?_, hQ, hQs⟩
      rcases List.prefix_cons_iff.mp hbefore with rfl | ⟨rest, rfl, hprefix⟩
      · exact h0
      · exact hafter rest hprefix

/-- When a step that is fit keeps `I` exactly under `P`, every state of a run of
fit steps has `I` exactly if every step of it has `P`. -/
theorem prefixes_iff_of_always {J : σ → Prop} {F : σ → α → Prop}
    (hstep : ∀ s a, J s → I s → F s a → J (step s a))
    (hiff : ∀ s a, J s → I s → F s a → (I (step s a) ↔ P s a)) (hJ : J s) (h0 : I s)
    (hrun : Always step F s run) :
    (∀ before, before <+: run → I (exec step s before)) ↔ Always step P s run := by
  have hall : Always step (fun _ _ => True) s run := always_of_forall_mem fun _ _ _ => trivial
  have hboth := prefixes_and_iff_always (P := P) (Q := fun _ _ => True) hstep
    (fun s a hJ hI hF => (and_iff_left trivial).trans (hiff s a hJ hI hF)) hJ h0 hrun
  exact ⟨fun h => hboth.mp ⟨h, hall⟩, fun h => (hboth.mpr h).1⟩

/-- When every step keeps `I` exactly under `P`, every state of a run has `I`
exactly if every step of it has `P`. -/
theorem prefixes_iff_always {J : σ → Prop} (hstep : ∀ s a, J s → J (step s a))
    (hiff : ∀ s a, J s → I s → (I (step s a) ↔ P s a)) (hJ : J s) (h0 : I s) :
    (∀ before, before <+: run → I (exec step s before)) ↔ Always step P s run :=
  prefixes_iff_of_always (F := fun _ _ => True) (fun s a hJ _ _ => hstep s a hJ)
    (fun s a hJ hI _ => hiff s a hJ hI) hJ h0 (always_of_forall_mem fun _ _ _ => trivial)

/-- What is seen of a state follows from an invariant that steps with `P` keep, and is
lost by any other step: it is seen in every state of a run if every step has `P`. -/
theorem prefixes_iff_of_invariant {E : σ → Prop} (hsees : ∀ s, I s → E s)
    (hkeep : ∀ s a, I s → P s a → I (step s a)) (hlost : ∀ s a, I s → E (step s a) → P s a)
    (h0 : I s) :
    (∀ before, before <+: run → E (exec step s before)) ↔ Always step P s run := by
  induction run generalizing s with
  | nil =>
    refine iff_of_true (fun before hbefore => ?_) trivial
    obtain rfl := List.prefix_nil.mp hbefore
    exact hsees s h0
  | cons a run ih =>
    constructor
    · intro h
      have ha : P s a := hlost s a h0 (h [a] (List.prefix_append [a] run))
      refine ⟨ha, (ih (hkeep s a h0 ha)).mp fun before hbefore => ?_⟩
      exact h (a :: before) (List.cons_prefix_cons.mpr ⟨rfl, hbefore⟩)
    · rintro ⟨ha, hrest⟩ before hbefore
      rcases List.prefix_cons_iff.mp hbefore with rfl | ⟨rest, rfl, hprefix⟩
      · exact hsees s h0
      · exact (ih (hkeep s a h0 ha)).mpr hrest rest hprefix

theorem Always.and_sometimes (hall : Always step P s run) (hsome : Sometimes step Q s run) :
    Sometimes step (fun s a => P s a ∧ Q s a) s run := by
  induction run generalizing s with
  | nil => exact hsome
  | cons a run ih =>
    rcases hsome with h | h
    · exact .inl ⟨hall.1, h⟩
    · exact .inr (ih hall.2 h)

theorem always_not_or_sometimes (step : σ → α → σ) (P : σ → α → Prop) (s : σ) (run : List α) :
    Always step (fun s a => ¬ P s a) s run ∨ Sometimes step P s run := by
  induction run generalizing s with
  | nil => exact .inl trivial
  | cons a run ih =>
    rcases ih (step s a) with hall | hsome
    · by_cases ha : P s a
      · exact .inr (.inl ha)
      · exact .inl ⟨ha, hall⟩
    · exact .inr (.inr hsome)

theorem Sometimes.exists (h : Sometimes step P s run) : ∃ s a, P s a := by
  induction run generalizing s with
  | nil => exact h.elim
  | cons a run ih =>
    rcases h with h | h
    · exact ⟨s, a, h⟩
    · exact ih h

theorem sometimes_iff :
    Sometimes step P s run ↔ ∃ before a after, run = before ++ a :: after ∧ P (exec step s before) a := by
  induction run generalizing s with
  | nil => simp [Sometimes]
  | cons b run ih =>
    constructor
    · rintro (h | h)
      · exact ⟨[], b, run, rfl, h⟩
      · obtain ⟨before, a, after, heq, ha⟩ := ih.mp h
        exact ⟨b :: before, a, after, by rw [heq]; rfl, ha⟩
    · rintro ⟨before, a, after, heq, h⟩
      cases before with
      | nil =>
        obtain ⟨rfl, rfl⟩ := List.cons.inj heq
        exact .inl h
      | cons c before =>
        obtain ⟨rfl, rfl⟩ := List.cons.inj heq
        exact .inr (ih.mpr ⟨before, a, after, rfl, h⟩)

-- ---------------------------------------------------------------------------
-- Sums along a run
-- ---------------------------------------------------------------------------

variable {f g : σ → α → Nat}

def sum (step : σ → α → σ) (f : σ → α → Nat) : σ → List α → Nat
  | _, [] => 0
  | s, a :: run => f s a + sum step f (step s a) run

theorem sum_add :
    sum step (fun s a => f s a + g s a) s run = sum step f s run + sum step g s run := by
  induction run generalizing s with
  | nil => rfl
  | cons a run ih =>
    simp only [sum, ih]
    omega

theorem sum_eq_zero : sum step f s run = 0 ↔ Always step (fun s a => f s a = 0) s run := by
  induction run generalizing s with
  | nil => simp [sum, Always]
  | cons a run ih => simp [sum, Always, ih]

theorem Always.sum_eq_zero (hkeep : ∀ s a, P s a → I s → I (step s a))
    (hzero : ∀ s a, P s a → I s → f s a = 0) (hrun : Always step P s run) (h0 : I s) :
    sum step f s run = 0 := by
  induction run generalizing s with
  | nil => rfl
  | cons a run ih =>
    have hrest := ih hrun.2 (hkeep s a hrun.1 h0)
    have hfirst := hzero s a hrun.1 h0
    simp only [sum]
    omega

theorem Always.sum_le_one (hone : ∀ s a, f s a ≤ 1)
    (hafter : ∀ s a, P s a → f s a ≠ 0 → I (step s a))
    (hkeep : ∀ s a, P s a → I s → I (step s a)) (hzero : ∀ s a, P s a → I s → f s a = 0)
    (hrun : Always step P s run) : sum step f s run ≤ 1 := by
  induction run generalizing s with
  | nil => exact Nat.zero_le 1
  | cons a run ih =>
    have hrest := ih hrun.2
    have hfirst := hone s a
    by_cases hf : f s a = 0
    · simp only [sum]
      omega
    · have hnone := hrun.2.sum_eq_zero hkeep hzero (hafter s a hrun.1 hf)
      simp only [sum]
      omega

theorem sum_append (run rest : List α) :
    sum step f s (run ++ rest) = sum step f s run + sum step f (exec step s run) rest := by
  induction run generalizing s with
  | nil => simp [sum]
  | cons a run ih =>
    simp only [List.cons_append, sum, ih, exec_cons]
    omega

@[simp] theorem sum_concat (a : α) :
    sum step f s (run ++ [a]) = sum step f s run + f (exec step s run) a := by
  simp [sum_append, sum]

/-- A quantity that each step with `P` raises by no more than what comes in less what
goes out. -/
theorem Always.sum_le (level : σ → Nat)
    (hstep : ∀ s a, P s a → level (step s a) + f s a ≤ level s + g s a)
    (hrun : Always step P s run) :
    level (Trace.exec step s run) + sum step f s run ≤ level s + sum step g s run := by
  induction run generalizing s with
  | nil => exact Nat.le_refl _
  | cons a run ih =>
    have hrest := ih hrun.2
    have hfirst := hstep s a hrun.1
    simp only [exec_cons, sum]
    omega

theorem sum_le (level : σ → Nat)
    (hstep : ∀ s a, level (step s a) + f s a ≤ level s + g s a) (s : σ) (run : List α) :
    level (exec step s run) + sum step f s run ≤ level s + sum step g s run :=
  Always.sum_le (P := fun _ _ => True) level (fun s a _ => hstep s a)
    (always_of_forall_mem fun _ _ _ => trivial)

/-- A quantity that each step with `P` changes by what comes in less what goes out. -/
theorem Always.sum_balance (level : σ → Nat)
    (hstep : ∀ s a, P s a → level (step s a) + f s a = level s + g s a)
    (hrun : Always step P s run) :
    level (Trace.exec step s run) + sum step f s run = level s + sum step g s run := by
  induction run generalizing s with
  | nil => rfl
  | cons a run ih =>
    have hrest := ih hrun.2
    have hfirst := hstep s a hrun.1
    simp only [exec_cons, sum]
    omega

theorem sum_balance (level : σ → Nat)
    (hstep : ∀ s a, level (step s a) + f s a = level s + g s a) (s : σ) (run : List α) :
    level (exec step s run) + sum step f s run = level s + sum step g s run :=
  Always.sum_balance (P := fun _ _ => True) level (fun s a _ => hstep s a)
    (always_of_forall_mem fun _ _ _ => trivial)

-- ---------------------------------------------------------------------------
-- Runs that can fail
-- ---------------------------------------------------------------------------

def exec? (step : σ → α → Option σ) : σ → List α → Option σ
  | s, [] => some s
  | s, a :: run => (step s a).bind fun t => exec? step t run

theorem exec?_append {step : σ → α → Option σ} (run rest : List α) :
    exec? step s (run ++ rest) = (exec? step s run).bind fun t => exec? step t rest := by
  induction run generalizing s with
  | nil => rfl
  | cons a run ih =>
    rw [List.cons_append, exec?, exec?, Option.bind_assoc]
    exact congrArg _ (funext fun t => ih)

theorem exec?_concat {step : σ → α → Option σ} (run : List α) (a : α) :
    exec? step s (run ++ [a]) = (exec? step s run).bind fun t => step t a := by
  rw [exec?_append]
  exact congrArg _ (funext fun t => Option.bind_fun_some (step t a))

theorem invariant? {step : σ → α → Option σ} (run : List α)
    (hstep : ∀ s, ∀ a ∈ run, I s → ∃ t, step s a = some t ∧ I t) (h0 : I s) :
    ∃ t, exec? step s run = some t ∧ I t := by
  induction run generalizing s with
  | nil => exact ⟨s, rfl, h0⟩
  | cons a run ih =>
    obtain ⟨t, hfirst, hinv⟩ := hstep s a List.mem_cons_self h0
    obtain ⟨u, hrest, hend⟩ := ih (fun s b hb => hstep s b (List.mem_cons_of_mem a hb)) hinv
    exact ⟨u, by rw [exec?, hfirst]; exact hrest, hend⟩

end LiteVision.Lib.Trace
