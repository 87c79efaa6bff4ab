import Mathlib.Data.List.Induction
import Mathlib.Data.List.Infix

/-!
# Latches

A latch is on after a run if it is set now, or if it was on and nothing clears it: it was set
at some point of the run and not cleared since.
-/

namespace LiteVision.Lib

variable {α : Type}

theorem latch_iff (on set clear : List α → Prop) {run : List α} (hstart : on [] ↔ set [])
    (hstep : ∀ before a, before ++ [a] <+: run →
      (on (before ++ [a]) ↔ set (before ++ [a]) ∨ on before ∧ ¬ clear (before ++ [a]))) :
    on run ↔ ∃ before, before <+: run ∧ set before ∧
      ∀ later, before <+: later → later ≠ before → later <+: run → ¬ clear later := by
  induction run using List.reverseRecOn with
  | nil =>
    rw [hstart]
    constructor
    · intro hset
      exact ⟨[], List.prefix_rfl, hset, fun later _ hne hlater =>
        absurd (List.prefix_nil.mp hlater) hne⟩
    · rintro ⟨before, hbefore, hset, -⟩
      obtain rfl := List.prefix_nil.mp hbefore
      exact hset
  | append_singleton run a ih =>
    rw [hstep run a List.prefix_rfl, ih fun before b hbefore =>
      hstep before b (hbefore.trans (List.prefix_append run [a]))]
    constructor
    · rintro (hset | ⟨⟨before, hbefore, hset, hkept⟩, hkeep⟩)
      · refine ⟨run ++ [a], List.prefix_rfl, hset, fun later hfrom hne hlater => ?_⟩
        exact absurd (hlater.eq_of_length_le hfrom.length_le) hne
      · refine ⟨before, hbefore.trans (List.prefix_append run [a]), hset, ?_⟩
        intro later hfrom hne hlater
        rcases List.prefix_concat_iff.mp hlater with rfl | hwithin
        · exact hkeep
        · exact hkept later hfrom hne hwithin
    · rintro ⟨before, hbefore, hset, hkept⟩
      rcases List.prefix_concat_iff.mp hbefore with rfl | hwithin
      · exact .inl hset
      · have hkeep : ¬ clear (run ++ [a]) := by
          refine hkept _ hbefore (fun heq => ?_) List.prefix_rfl
          have hlength := hwithin.length_le
          rw [← heq, List.length_append, List.length_singleton] at hlength
          omega
        refine .inr ⟨⟨before, hwithin, hset, fun later hfrom hne hlater => ?_⟩, hkeep⟩
        exact hkept later hfrom hne (hlater.trans (List.prefix_append run [a]))

end LiteVision.Lib
