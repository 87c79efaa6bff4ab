import LiteVision.Truth.Consensus
import LiteVision.Truth.ValidatorSet

/-!
# The size of a quorum

Engines, certificates and validator sets compute the number of votes for a quorum, each on
its own. They agree, quorums share more than the validators that may be faulty, and the
others are enough for one.
-/

namespace LiteVision.Truth

open Lib

theorem QuorumCertificate.isQuorum_default (qc : QuorumCertificate) (validators : List Validator)
    (viewTimeoutMs : UInt64) :
    qc.isQuorum (ConsensusEngine.active validators).length 0 =
      decide ((ConsensusEngine.new validators viewTimeoutMs).threshold ≤ qc.signatures.length) :=
  rfl

theorem ValidatorSet.threshold_eq {s : ValidatorSet} (h : 0 < s.getActive.length) :
    s.threshold = superMajority s.getActive.length := by
  have hne : s.getActive ≠ [] := List.ne_nil_of_length_pos h
  simp [threshold, hne, superMajority]

namespace ConsensusEngine

/-- One threshold for all, whose quorums meet in `f + 1` validators out of `n` and that any
`n - f` of them reach. -/
theorem quorum_arithmetic (validators : List Validator) (viewTimeoutMs : UInt64)
    (hactive : 0 < (active validators).length) :
    let n := (active validators).length
    let t := (new validators viewTimeoutMs).threshold
    let f := (n - 1) / 3
    (∀ qc : QuorumCertificate, qc.isQuorum n 0 = decide (t ≤ qc.signatures.length)) ∧
    (∀ s : ValidatorSet, s.getActive.length = n → s.threshold = t) ∧
    (∀ (ι : Type) [DecidableEq ι] (all quorum quorum' : Finset ι), all.card = n →
      quorum ⊆ all → quorum' ⊆ all → t ≤ quorum.card → t ≤ quorum'.card →
        f + 1 ≤ (quorum ∩ quorum').card) ∧
    t ≤ n - f := by
  intro n t f
  refine ⟨fun qc => qc.isQuorum_default validators viewTimeoutMs, ?_, ?_, ?_⟩
  · intro s hs
    rw [ValidatorSet.threshold_eq (hs ▸ hactive), hs]
    rfl
  · intro ι _ all quorum quorum' hall hsub hsub' hcard hcard'
    have hshared := superMajority_inter hsub hsub' (hall ▸ hcard) (hall ▸ hcard')
    rwa [hall] at hshared
  · exact superMajority_le_sub hactive

/-- Four validators: three votes, of which two are shared. -/
theorem quorum_arithmetic_four :
    (new (Sample.validators 4) 3000).threshold = 3 ∧
      (new (Sample.validators 4) 3000).threshold ≤ 4 - 1 :=
  ⟨by decide, (quorum_arithmetic (Sample.validators 4) 3000 (by decide)).2.2.2⟩

end ConsensusEngine

end LiteVision.Truth
