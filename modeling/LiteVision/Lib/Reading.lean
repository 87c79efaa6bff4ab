import Mathlib.Tactic.Common

/-!
# Reading from a buffer

A read takes a buffer to a result and a buffer, or panics. It accepts some input as
a value if it returns the value wherever that input comes next, and then stands at
what comes after. Reads are put together one after the other.
-/

namespace LiteVision.Lib

/-- Reading an `α`; `none` is a panic. -/
def Read (σ ε α : Type) := σ → Option (Except ε α × σ)

namespace Read

variable {σ ε α β κ ω : Type}

def pure (a : α) : Read σ ε α := fun s => some (.ok a, s)

def fail (e : ε) : Read σ ε α := fun s => some (.error e, s)

/-- `read()?`, and then `next` with what was read. -/
def bind (read : Read σ ε α) (next : α → Read σ ε β) : Read σ ε β := fun s =>
  match read s with
  | none => none
  | some (.error e, s) => some (.error e, s)
  | some (.ok a, s) => next a s

def map (f : α → β) (read : Read σ ε α) : Read σ ε β := read.bind fun a => pure (f a)

theorem bind_eq_ok {read : Read σ ε α} {next : α → Read σ ε β} {s s'' : σ} {b : β} :
    read.bind next s = some (.ok b, s'') ↔
      ∃ a s', read s = some (.ok a, s') ∧ next a s' = some (.ok b, s'') := by
  unfold bind
  constructor
  · intro h
    split at h
    · cases h
    · cases h
    · rename_i a s' hread
      exact ⟨a, s', hread, h⟩
  · rintro ⟨a, s', hread, hnext⟩
    simp only [hread, hnext]

theorem map_apply (f : α → β) (read : Read σ ε α) (s : σ) :
    read.map f s = (read s).map fun out => (out.1.map f, out.2) := by
  unfold map bind
  cases read s with
  | none => rfl
  | some out =>
    obtain ⟨result, s'⟩ := out
    cases result <;> rfl

/-- Whatever a read returns, it leaves a state that `R` leads to. -/
def Moves (R : σ → σ → Prop) (read : Read σ ε α) : Prop :=
  ∀ s result s', read s = some (result, s') → R s s'

theorem moves_pure {R : σ → σ → Prop} (hrefl : ∀ s, R s s) (a : α) :
    Moves R (pure a : Read σ ε α) := by
  intro s result s' h
  obtain ⟨-, rfl⟩ := Prod.mk.inj (Option.some.inj h)
  exact hrefl s

theorem moves_fail {R : σ → σ → Prop} (hrefl : ∀ s, R s s) (e : ε) :
    Moves R (fail e : Read σ ε α) := by
  intro s result s' h
  obtain ⟨-, rfl⟩ := Prod.mk.inj (Option.some.inj h)
  exact hrefl s

theorem Moves.bind {R : σ → σ → Prop} (htrans : ∀ s s' s'', R s s' → R s' s'' → R s s'')
    {read : Read σ ε α} {next : α → Read σ ε β} (hread : Moves R read)
    (hnext : ∀ a, Moves R (next a)) : Moves R (read.bind next) := by
  intro s result s'' h
  unfold Read.bind at h
  split at h
  · cases h
  · rename_i e s' heq
    obtain ⟨-, rfl⟩ := Prod.mk.inj (Option.some.inj h)
    exact hread s _ _ heq
  · rename_i a s' heq
    exact htrans s s' s'' (hread s _ _ heq) (hnext a s' result s'' h)

def all (read : κ → Read σ ε α) : List κ → Read σ ε (List α)
  | [] => pure []
  | kind :: kinds => (read kind).bind fun a => (all read kinds).map fun as => a :: as

/-- Where `input` comes next, it is read as `a`. -/
def Accepts (rest : σ → List ω) (read : Read σ ε α) (input : List ω) (a : α) : Prop :=
  ∀ s tail, rest s = input ++ tail → ∃ s', read s = some (.ok a, s') ∧ rest s' = tail

variable {rest : σ → List ω} {read : Read σ ε α} {input : List ω} {a : α}

theorem accepts_pure (a : α) : Accepts rest (pure a : Read σ ε α) [] a := by
  intro s tail h
  exact ⟨s, rfl, h⟩

theorem Accepts.bind {next : α → Read σ ε β} {more : List ω} {b : β}
    (hread : Accepts rest read input a) (hnext : Accepts rest (next a) more b) :
    Accepts rest (read.bind next) (input ++ more) b := by
  intro s tail h
  rw [List.append_assoc] at h
  obtain ⟨s', hs, hrest⟩ := hread s (more ++ tail) h
  obtain ⟨s'', hs', hrest'⟩ := hnext s' tail hrest
  refine ⟨s'', ?_, hrest'⟩
  simp only [Read.bind, hs, hs']

theorem Accepts.map (hread : Accepts rest read input a) (f : α → β) :
    Accepts rest (read.map f) input (f a) := by
  rw [← List.append_nil input]
  exact hread.bind (accepts_pure (f a))

theorem accepts_all {read : κ → Read σ ε α} {kind : α → κ} {bytes : α → List ω}
    (h : ∀ a, Accepts rest (read (kind a)) (bytes a) a) (as : List α) :
    Accepts rest (all read (as.map kind)) (as.flatMap bytes) as := by
  induction as with
  | nil => exact accepts_pure []
  | cons a as ih =>
    rw [List.map_cons, List.flatMap_cons]
    exact (h a).bind (ih.map fun as => a :: as)

end Read

end LiteVision.Lib
