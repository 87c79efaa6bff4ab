import Mathlib.Data.List.Induction
import Mathlib.Data.Set.Function

/-!
# Hash chains

A chain goes over a list of bodies and hashes each of them together with the hash before
it. If no two of the inputs it hashes collide, the last hash tells the bodies of a chain
of known length.
-/

namespace LiteVision.Lib.HashChain

variable {δ β γ : Type}

section

variable (hash : β → δ) (join : δ → γ → β)

def last (prev : δ) : List γ → δ
  | [] => prev
  | body :: bodies => last (hash (join prev body)) bodies

def inputs (prev : δ) : List γ → List β
  | [] => []
  | body :: bodies => join prev body :: inputs (hash (join prev body)) bodies

end

variable {hash : β → δ} {join : δ → γ → β} {prev prev' : δ} {bodies bodies' : List γ}

/-- Two chains of one length that end in the same hash started from the same one, and
went over the same bodies. -/
theorem last_inj (hjoin : ∀ d e b b', join d b = join e b' → d = e ∧ b = b')
    {inputSet : Set β} (hinj : Set.InjOn hash inputSet)
    (hin : ∀ x ∈ inputs hash join prev bodies, x ∈ inputSet)
    (hin' : ∀ x ∈ inputs hash join prev' bodies', x ∈ inputSet)
    (hlen : bodies.length = bodies'.length)
    (h : last hash join prev bodies = last hash join prev' bodies') :
    prev = prev' ∧ bodies = bodies' := by
  induction bodies generalizing prev prev' bodies' with
  | nil =>
    obtain rfl := List.eq_nil_of_length_eq_zero hlen.symm
    exact ⟨h, rfl⟩
  | cons body bodies ih =>
    cases bodies' with
    | nil => cases hlen
    | cons body' bodies' =>
      obtain ⟨hfirst, hrest⟩ := List.forall_mem_cons.mp hin
      obtain ⟨hfirst', hrest'⟩ := List.forall_mem_cons.mp hin'
      -- the hashes agree from the end backwards, up to the one of this body
      obtain ⟨hhash, rfl⟩ := ih hrest hrest' (Nat.succ.inj hlen) h
      obtain ⟨rfl, rfl⟩ := hjoin _ _ _ _ (hinj hfirst hfirst' hhash)
      exact ⟨rfl, rfl⟩

theorem last_concat (body : γ) :
    last hash join prev (bodies ++ [body]) = hash (join (last hash join prev bodies) body) := by
  induction bodies generalizing prev with
  | nil => rfl
  | cons first bodies ih => exact ih

theorem inputs_concat (body : γ) : inputs hash join prev (bodies ++ [body]) =
    inputs hash join prev bodies ++ [join (last hash join prev bodies) body] := by
  induction bodies generalizing prev with
  | nil => rfl
  | cons first bodies ih => exact congrArg (join prev first :: ·) ih

/-- Two chains from a hash that no input has, of whatever lengths: if they end in the same hash
they went over the same bodies. -/
theorem last_inj_of_root (hjoin : ∀ d e b b', join d b = join e b' → d = e ∧ b = b')
    {inputSet : Set β} (hinj : Set.InjOn hash inputSet) (hroot : ∀ x ∈ inputSet, hash x ≠ prev)
    (hin : ∀ x ∈ inputs hash join prev bodies, x ∈ inputSet)
    (hin' : ∀ x ∈ inputs hash join prev bodies', x ∈ inputSet)
    (h : last hash join prev bodies = last hash join prev bodies') : bodies = bodies' := by
  induction bodies using List.reverseRecOn generalizing bodies' with
  | nil =>
    cases bodies' using List.reverseRecOn with
    | nil => rfl
    | append_singleton bodies' body' =>
      rw [last_concat] at h
      exact absurd h.symm (hroot _ (hin' _ (by simp [inputs_concat])))
  | append_singleton bodies body ih =>
    rw [inputs_concat, List.forall_mem_append] at hin
    rw [last_concat] at h
    cases bodies' using List.reverseRecOn with
    | nil => exact absurd h (hroot _ (hin.2 _ (by simp)))
    | append_singleton bodies' body' =>
      rw [inputs_concat, List.forall_mem_append] at hin'
      rw [last_concat] at h
      obtain ⟨hbefore, rfl⟩ := hjoin _ _ _ _ (hinj (hin.2 _ (by simp)) (hin'.2 _ (by simp)) h)
      rw [ih hin.1 hin'.1 hbefore]

end LiteVision.Lib.HashChain
