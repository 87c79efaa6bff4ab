import LiteVision.Truth.Governance.Votes
import LiteVision.Words

/-!
# The threshold of a tally

`tally` compares the yes votes with a share of the total that is a product of words, rounded
down. `tally_exact_iff`: it gives the outcome of the exact comparison just when the sums
and the product fit in a word, and the yes votes are not within the rounding.
-/

namespace LiteVision.Truth

open Lib

def Governance.weight (votes : List Vote) : Nat := (votes.map fun v => v.stakeWeight.toNat).sum

namespace GovernanceParams

def exactOutcome (params : GovernanceParams) (votes : List Governance.Vote) : ProposalStatus :=
  let total := Governance.weight votes
  let yes := Governance.weightFor .yes votes
  if params.quorum.toNat ≤ total then
    if total * params.threshold.toNat ≤ yes * 1000000000 then .passed else .rejected
  else .voting

/-- Sums and product fit in a word, and no yes vote is missing that rounding makes up for. -/
def FitsExactly (params : GovernanceParams) (votes : List Governance.Vote) : Prop :=
  let total := Governance.weight votes
  let yes := Governance.weightFor .yes votes
  let product := total * params.threshold.toNat
  total < 2 ^ 64 ∧
    (params.quorum.toNat ≤ total →
      product < 2 ^ 64 ∧ (product ≤ yes * 1000000000 ∨ (yes + 1) * 1000000000 ≤ product))

variable {params : GovernanceParams} {t : Totals}

-- ---------------------------------------------------------------------------
-- The outcome of totals
-- ---------------------------------------------------------------------------

theorem checked_total (hfit : t.yes.toNat + t.no.toNat + t.abstain.toNat < 2 ^ 64) :
    ((checkedAdd t.yes t.no).bind fun sum => checkedAdd sum t.abstain) =
      some (t.yes + t.no + t.abstain) ∧
    (t.yes + t.no + t.abstain).toNat = t.yes.toNat + t.no.toNat + t.abstain.toNat := by
  have hfirst : (t.yes + t.no).toNat = t.yes.toNat + t.no.toNat := toNat_add_of_lt (by omega)
  constructor
  · rw [checkedAdd_of_lt (by omega)]
    exact checkedAdd_of_lt (by omega)
  · rw [toNat_add_of_lt (by omega), hfirst]

theorem outcome?_of_lt {n : Nat} (hn : t.yes.toNat + t.no.toNat + t.abstain.toNat = n)
    (hfit : n < 2 ^ 64) :
    params.outcome? t =
      if params.quorum.toNat ≤ n then
        if n * params.threshold.toNat < 2 ^ 64 then
          some (if n * params.threshold.toNat / 1000000000 ≤ t.yes.toNat then .passed
            else .rejected)
        else none
      else some .voting := by
  obtain ⟨hsum, htotal⟩ := checked_total (t := t) (by omega)
  rw [hn] at htotal
  rw [outcome?, hsum, Option.bind_some]
  simp only [UInt64.le_iff_toNat_le, htotal, checkedMul]
  by_cases hquorum : params.quorum.toNat ≤ n
  · by_cases hproduct : n * params.threshold.toNat < 2 ^ 64
    · simp only [hquorum, hproduct, if_true, Option.map_some, decide_eq_true_eq, UInt64.toNat_div,
        UInt64.toNat_mul, htotal, Nat.mod_eq_of_lt hproduct]
      rfl
    · simp only [hquorum, hproduct, if_true, if_false, Option.map_none]
  · simp [hquorum]

theorem rounded_iff {product yes : Nat} :
    (if product / 1000000000 ≤ yes then ProposalStatus.passed else .rejected) =
        (if product ≤ yes * 1000000000 then .passed else .rejected) ↔
      product ≤ yes * 1000000000 ∨ (yes + 1) * 1000000000 ≤ product := by
  split <;> split <;> simp <;> omega

theorem outcome?_of_le (hover : 2 ^ 64 ≤ t.yes.toNat + t.no.toNat + t.abstain.toNat) :
    params.outcome? t = none := by
  have hsum : ((checkedAdd t.yes t.no).bind fun sum => checkedAdd sum t.abstain) = none := by
    refine Option.eq_none_iff_forall_ne_some.mpr fun total htotal => ?_
    obtain ⟨sum, hfirst, hsecond⟩ := Option.bind_eq_some_iff.mp htotal
    rw [checkedAdd_eq_some] at hfirst hsecond
    have hlt := total.toNat_lt
    omega
  rw [outcome?, hsum, Option.bind_none]

theorem outcome_of_outcome? {status : ProposalStatus} (h : params.outcome? t = some status) :
    params.outcome t = status := by
  obtain ⟨total, htotal, hrest⟩ := Option.bind_eq_some_iff.mp h
  obtain ⟨sum, hsum, hadd⟩ := Option.bind_eq_some_iff.mp htotal
  obtain rfl := eq_add_of_checkedAdd hsum
  obtain rfl := eq_add_of_checkedAdd hadd
  obtain ⟨passed, hpassed, rfl⟩ := Option.map_eq_some_iff.mp hrest
  by_cases hquorum : params.quorum ≤ t.yes + t.no + t.abstain
  · rw [if_pos hquorum] at hpassed
    obtain ⟨product, hproduct, rfl⟩ := Option.map_eq_some_iff.mp hpassed
    obtain rfl := eq_mul_of_checkedMul hproduct
    simp [outcome, hquorum]
  · rw [if_neg hquorum] at hpassed
    obtain rfl := Option.some.inj hpassed
    simp [outcome, hquorum]

end GovernanceParams

namespace Governance

variable {s : Governance} {id : UInt64} {votes : List Vote} {t t' : Totals}

-- ---------------------------------------------------------------------------
-- The checked sums
-- ---------------------------------------------------------------------------

theorem addVote?_eq_some (t : Totals) (vote : Vote) :
    addVote? t vote = some t' ↔
      (total t vote.voteOption).toNat + vote.stakeWeight.toNat < 2 ^ 64 ∧ addVote t vote = t' := by
  unfold addVote? addVote checkedAdd
  cases vote.voteOption <;>
    simp only [total, Option.map_eq_some_iff, Option.ite_none_right_eq_some, Option.some.injEq,
      and_assoc, exists_and_left, exists_eq_left']

theorem foldlM_addVote?_eq_some (votes : List Vote) (t : Totals) :
    votes.foldlM addVote? t = some t' ↔
      (∀ voteOption, (total t voteOption).toNat + weightFor voteOption votes < 2 ^ 64) ∧
        votes.foldl addVote t = t' := by
  induction votes generalizing t with
  | nil =>
    have hfit (voteOption : VoteOption) :
        (total t voteOption).toNat + weightFor voteOption [] < 2 ^ 64 :=
      (total t voteOption).toNat_lt
    simp only [List.foldlM_nil, Option.pure_def, Option.some.injEq, List.foldl_nil, hfit,
      implies_true, true_and]
  | cons vote votes ih =>
    have hsplit (voteOption : VoteOption) : weightFor voteOption (vote :: votes) =
        (if vote.voteOption = voteOption then vote.stakeWeight.toNat else 0) +
          weightFor voteOption votes := Tally.weightFor_cons vote votes
    have hafter (hfit : (total t vote.voteOption).toNat + vote.stakeWeight.toNat < 2 ^ 64)
        (voteOption : VoteOption) : (total (addVote t vote) voteOption).toNat =
          (total t voteOption).toNat +
            if vote.voteOption = voteOption then vote.stakeWeight.toNat else 0 := by
      rw [total_addVote]
      split
      · rename_i hoption
        exact toNat_add_of_lt (hoption ▸ hfit)
      · exact congrArg UInt64.toNat (UInt64.add_zero _)
    rw [List.foldlM_cons, List.foldl_cons]
    simp only [Option.bind_eq_bind, Option.bind_eq_some_iff, addVote?_eq_some]
    constructor
    · rintro ⟨_, ⟨hfit, rfl⟩, hrest⟩
      obtain ⟨hfits, heq⟩ := (ih _).mp hrest
      refine ⟨fun voteOption => ?_, heq⟩
      have hoption := hfits voteOption
      rw [hafter hfit] at hoption
      rw [hsplit, ← Nat.add_assoc]
      exact hoption
    · rintro ⟨hfits, heq⟩
      have hfit : (total t vote.voteOption).toNat + vote.stakeWeight.toNat < 2 ^ 64 := by
        have hoption := hfits vote.voteOption
        rw [hsplit, if_pos rfl] at hoption
        omega
      refine ⟨_, ⟨hfit, rfl⟩, (ih _).mpr ⟨fun voteOption => ?_, heq⟩⟩
      rw [hafter hfit, Nat.add_assoc, ← hsplit]
      exact hfits voteOption

theorem weight_eq (votes : List Vote) :
    weight votes = weightFor .yes votes + weightFor .no votes + weightFor .abstain votes := by
  induction votes with
  | nil => rfl
  | cons vote votes ih =>
    rw [weight, List.map_cons, List.sum_cons, ← weight, ih]
    simp only [weightFor, Tally.weightFor_cons]
    cases vote.voteOption <;> simp <;> omega

theorem toNat_total_foldl (hfits : ∀ voteOption, weightFor voteOption votes < 2 ^ 64)
    (voteOption : VoteOption) :
    (total (votes.foldl addVote ⟨0, 0, 0⟩) voteOption).toNat = weightFor voteOption votes := by
  rw [toNat_foldl_addVote]
  cases voteOption <;> exact (congrArg (· % 2 ^ 64) (Nat.zero_add _)).trans
    (Nat.mod_eq_of_lt (hfits _))

-- ---------------------------------------------------------------------------
-- The tally
-- ---------------------------------------------------------------------------

theorem tally?_of_lt (hvotes : s.votes.get id = some votes) (hfit : weight votes < 2 ^ 64) :
    ∃ t : Totals, t.yes.toNat + t.no.toNat + t.abstain.toNat = weight votes ∧
      t.yes.toNat = weightFor .yes votes ∧
      s.tally? id = (s.params.outcome? t).map fun status => (t, status) := by
  have hweight := weight_eq votes
  have hfits (voteOption : VoteOption) : weightFor voteOption votes < 2 ^ 64 := by
    cases voteOption <;> omega
  have hloop : votes.foldlM addVote? ⟨0, 0, 0⟩ = some (votes.foldl addVote ⟨0, 0, 0⟩) := by
    refine (foldlM_addVote?_eq_some votes _).mpr ⟨fun voteOption => ?_, rfl⟩
    cases voteOption <;> simpa [total] using hfits _
  have hsums := toNat_total_foldl hfits
  refine ⟨_, ?_, hsums .yes, by rw [tally?, hvotes, Option.bind_some, hloop, Option.bind_some]⟩
  rw [hweight, ← hsums .yes, ← hsums .no, ← hsums .abstain]
  rfl

theorem tally?_of_le (hvotes : s.votes.get id = some votes) (hover : 2 ^ 64 ≤ weight votes) :
    s.tally? id = none := by
  rw [tally?, hvotes, Option.bind_some]
  refine Option.eq_none_iff_forall_ne_some.mpr fun result hresult => ?_
  obtain ⟨t, hloop, houtcome⟩ := Option.bind_eq_some_iff.mp hresult
  obtain ⟨hfits, rfl⟩ := (foldlM_addVote?_eq_some votes _).mp hloop
  have hsums := toNat_total_foldl fun voteOption =>
    Nat.lt_of_le_of_lt (Nat.le_add_left _ _) (hfits voteOption)
  have hsum : 2 ^ 64 ≤ (total (votes.foldl addVote ⟨0, 0, 0⟩) .yes).toNat +
      (total (votes.foldl addVote ⟨0, 0, 0⟩) .no).toNat +
      (total (votes.foldl addVote ⟨0, 0, 0⟩) .abstain).toNat := by
    rw [hsums, hsums, hsums, ← weight_eq]
    exact hover
  rw [GovernanceParams.outcome?_of_le hsum] at houtcome
  cases houtcome

/-- A tally that ends in a debug build ends in the same way in a release build. -/
theorem tally_of_tally? {result : Totals × ProposalStatus} (h : s.tally? id = some result) :
    s.tally id = some result := by
  obtain ⟨votes, hvotes, hrest⟩ := Option.bind_eq_some_iff.mp h
  obtain ⟨totals, hloop, houtcome⟩ := Option.bind_eq_some_iff.mp hrest
  obtain ⟨status, hstatus, rfl⟩ := Option.map_eq_some_iff.mp houtcome
  obtain ⟨-, rfl⟩ := (foldlM_addVote?_eq_some votes _).mp hloop
  rw [tally, hvotes, Option.map_some, ← GovernanceParams.outcome_of_outcome? hstatus]

/-- The tally of a vote list ends, with the exact outcome, just when nothing overflows and
no yes vote is missing that the rounding makes up for. -/
theorem tally_exact_iff (s : Governance) (id : UInt64) (votes : List Vote)
    (hvotes : s.votes.get id = some votes) :
    (∃ t, s.tally? id = some (t, s.params.exactOutcome votes)) ↔ s.params.FitsExactly votes := by
  by_cases hfit : weight votes < 2 ^ 64
  · obtain ⟨t, hsum, hyes, htally⟩ := tally?_of_lt hvotes hfit
    rw [GovernanceParams.outcome?_of_lt hsum hfit] at htally
    simp only [htally, GovernanceParams.FitsExactly, GovernanceParams.exactOutcome, hfit, hyes,
      true_and]
    by_cases hquorum : s.params.quorum.toNat ≤ weight votes
    · by_cases hproduct : weight votes * s.params.threshold.toNat < 2 ^ 64
      · simp only [hquorum, hproduct, if_true, true_and, forall_const, Option.map_some,
          Option.some.injEq, Prod.mk.injEq, exists_eq_left']
        exact GovernanceParams.rounded_iff
      · simp only [hquorum, hproduct, if_true, if_false, Option.map_none, reduceCtorEq,
          exists_false, false_and, forall_const]
    · simp [hquorum]
  · refine iff_of_false ?_ fun h => hfit h.1
    rintro ⟨t, htally⟩
    rw [tally?_of_le hvotes (Nat.not_lt.mp hfit)] at htally
    cases htally

/-- One yes vote above the quorum. -/
theorem tally_exact_iff_one :
    let votes : List Vote := [⟨.fill 32 1, 1, .yes, 700000000⟩]
    let s : Governance := { new with votes := new.votes.insert 1 votes }
    (∃ t, s.tally? 1 = some (t, s.params.exactOutcome votes)) ↔ s.params.FitsExactly votes := by
  intro votes s
  exact tally_exact_iff s 1 votes (by decide)

/-- One vote of weight thirty thousand million overflows the product. -/
theorem tally_exact_fails :
    ¬ ∀ (s : Governance) (id : UInt64) (votes : List Vote), s.votes.get id = some votes →
      ∃ t, s.tally? id = some (t, s.params.exactOutcome votes) := by
  intro h
  let run : List Op := [.createProposal (.softwareUpgrade "2") "upgrade" "" (.fill 32 9) 100,
    .castVote 1 (.fill 32 1) .yes 30000000000]
  have hpanics : (Trace.exec step new run).tally? 1 = none := by decide
  obtain ⟨t, htally⟩ := h (Trace.exec step new run) 1 [⟨.fill 32 1, 1, .yes, 30000000000⟩]
    (by decide)
  cases hpanics.symm.trans htally

end Governance

end LiteVision.Truth
