import LiteVision.Truth.Governance
import LiteVision.Lib.Tally
import LiteVision.Lib.Trace

/-!
# What a tally counts

The tally of a proposal adds up every vote accepted on it. No one looks at the
voter, so a voter has as many weights as it casts votes.
-/

namespace LiteVision.Truth.Governance

open Lib

/-- The votes accepted on a proposal since it was created, after one more call. -/
def recorded (id : UInt64) (s : Governance) (votes : List Vote) : Op → List Vote
  | .createProposal _ _ _ _ _ => if s.nextProposalId = id then [] else votes
  | .castVote proposalId voter voteOption stakeWeight =>
    if proposalId = id ∧
        (s.castVote proposalId voter voteOption stakeWeight).any fun r => r.1.toOption.isSome then
      votes ++ [⟨voter, proposalId, voteOption, stakeWeight⟩]
    else votes

def ballots (id : UInt64) : Governance → List Vote → List Op → List Vote
  | _, votes, [] => votes
  | s, votes, op :: run => ballots id (s.step op) (s.recorded id votes op) run

def weightFor (voteOption : VoteOption) (votes : List Vote) : Nat :=
  Tally.weightFor Vote.voteOption (fun v => v.stakeWeight.toNat) voteOption votes

def total (t : Totals) : VoteOption → UInt64
  | .yes => t.yes
  | .no => t.no
  | .abstain => t.abstain

/-- The totals are the weights of some of the votes, of pairwise distinct voters. -/
def OneWeight (votes : List Vote) (t : Totals) : Prop :=
  ∃ counted, counted.Sublist votes ∧ (counted.map Vote.voter).Nodup ∧
    ∀ voteOption, (total t voteOption).toNat = weightFor voteOption counted

/-- No voter has two votes of weight. -/
def DistinctVoters (votes : List Vote) : Prop :=
  ((votes.filter fun v => v.stakeWeight.toNat ≠ 0).map Vote.voter).Nodup

-- ---------------------------------------------------------------------------
-- The sums
-- ---------------------------------------------------------------------------

variable {voteOption : VoteOption} {votes : List Vote} {t : Totals}

theorem total_addVote (t : Totals) (vote : Vote) (voteOption : VoteOption) :
    total (addVote t vote) voteOption =
      total t voteOption + if vote.voteOption = voteOption then vote.stakeWeight else 0 := by
  unfold addVote
  cases hvote : vote.voteOption <;> cases voteOption <;> simp [total]

theorem toNat_foldl_addVote (votes : List Vote) (t : Totals) (voteOption : VoteOption) :
    (total (votes.foldl addVote t) voteOption).toNat =
      ((total t voteOption).toNat + weightFor voteOption votes) % 2 ^ 64 := by
  induction votes generalizing t with
  | nil => exact (Nat.mod_eq_of_lt (total t voteOption).toNat_lt).symm
  | cons vote votes ih =>
    have hsplit : weightFor voteOption (vote :: votes) =
        (if vote.voteOption = voteOption then vote.stakeWeight else 0).toNat +
          weightFor voteOption votes := by
      rw [apply_ite UInt64.toNat]
      exact Tally.weightFor_cons vote votes
    rw [List.foldl_cons, ih, total_addVote, hsplit, UInt64.toNat_add, Nat.mod_add_mod, Nat.add_assoc]

theorem oneWeight_iff
    (heq : ∀ voteOption, (total t voteOption).toNat = weightFor voteOption votes) :
    OneWeight votes t ↔ DistinctVoters votes := by
  have hall : ∀ counted, (∀ o, (total t o).toNat = weightFor o counted) ↔
      ∀ o, weightFor o counted = weightFor o votes := by
    intro counted
    simp only [heq, eq_comm]
  simp only [OneWeight, hall]
  exact Tally.one_each_iff Vote.voter

-- ---------------------------------------------------------------------------
-- Runs
-- ---------------------------------------------------------------------------

/-- The list kept for a proposal that exists is the list of the votes accepted on it. -/
def Keeps (id : UInt64) (s : Governance) (votes : List Vote) : Prop :=
  s.proposals.get id ≠ none → s.votes.get id = some votes

theorem keeps_step {id : UInt64} {s : Governance} (h : Keeps id s votes) (op : Op) :
    Keeps id (s.step op) (s.recorded id votes op) := by
  cases op with
  | createProposal proposalType title description proposer currentTime =>
    intro hexists
    by_cases hid : s.nextProposalId = id
    · subst hid
      simp [step, createProposal, recorded]
    · have hne : id ≠ s.nextProposalId := Ne.symm hid
      simp only [step, createProposal, recorded, Map.get_insert_ne _ _ hne, if_neg hid] at hexists ⊢
      exact h hexists
  | castVote proposalId voter voteOption stakeWeight =>
    rcases castVote_cases s proposalId voter voteOption stakeWeight with
      ⟨kept, -, hkept, heq⟩ | ⟨-, err, heq⟩ | ⟨-, -, heq⟩
    · intro hexists
      simp only [step, heq, Option.elim] at hexists ⊢
      by_cases hid : proposalId = id
      · subst hid
        obtain rfl := Option.some.inj (hkept.symm.trans (h hexists))
        simp [recorded, heq, Except.toOption]
      · simpa [recorded, hid, Map.get_insert_ne _ _ (Ne.symm hid)] using h hexists
    · simpa [step, recorded, heq, Except.toOption] using h
    · simpa [step, recorded, heq] using h

theorem keeps_exec {id : UInt64} {s : Governance} (h : Keeps id s votes) (run : List Op) :
    Keeps id (Trace.exec step s run) (ballots id s votes run) := by
  induction run generalizing s votes with
  | nil => exact h
  | cons op run ih => exact ih (keeps_step h op)

theorem castVote_returns (run : List Op) (id : UInt64) (voter : Bytes 32) (voteOption : VoteOption)
    (stakeWeight : UInt64) :
    (Trace.exec step new run).castVote id voter voteOption stakeWeight ≠ none := by
  intro hnone
  have hkeeps : Keeps id (Trace.exec step new run) (ballots id new [] run) :=
    keeps_exec (fun hexists => absurd rfl hexists) run
  rcases castVote_cases (Trace.exec step new run) id voter voteOption stakeWeight with
    ⟨kept, -, -, heq⟩ | ⟨-, err, heq⟩ | ⟨⟨proposal, hget, -⟩, hvotes, -⟩
  · cases hnone.symm.trans heq
  · cases hnone.symm.trans heq
  · cases hvotes.symm.trans (hkeeps (by simp [hget]))

/-- The tally of a proposal adds up all votes accepted on it. As long as the sums fit
in a word, they are one weight a voter just when no voter has two votes of weight. -/
theorem tally_recorded (run : List Op) (id : UInt64)
    (hexists : (Trace.exec step new run).proposals.get id ≠ none) :
    ∃ t status, (Trace.exec step new run).tally id = some (t, status) ∧
      (∀ voteOption, (total t voteOption).toNat =
        weightFor voteOption (ballots id new [] run) % 2 ^ 64) ∧
      ((∀ voteOption, weightFor voteOption (ballots id new [] run) < 2 ^ 64) →
        (OneWeight (ballots id new [] run) t ↔ DistinctVoters (ballots id new [] run))) := by
  have hkeeps : Keeps id (Trace.exec step new run) (ballots id new [] run) :=
    keeps_exec (fun hexists => absurd rfl hexists) run
  have hsums : ∀ voteOption, (total ((ballots id new [] run).foldl addVote ⟨0, 0, 0⟩)
      voteOption).toNat = weightFor voteOption (ballots id new [] run) % 2 ^ 64 := by
    intro voteOption
    rw [toNat_foldl_addVote]
    cases voteOption <;> simp [total]
  refine ⟨_, _, by rw [tally, hkeeps hexists, Option.map_some], hsums, fun hfit => ?_⟩
  exact oneWeight_iff fun voteOption =>
    (hsums voteOption).trans (Nat.mod_eq_of_lt (hfit voteOption))

/-- Two voters, and a vote on a proposal that does not exist. -/
theorem tally_recorded_two_voters :
    let run : List Op := [.createProposal (.softwareUpgrade "2") "upgrade" "" (.fill 32 9) 100,
      .castVote 1 (.fill 32 1) .yes 10, .castVote 2 (.fill 32 1) .yes 10,
      .castVote 1 (.fill 32 2) .no 5]
    ∃ t status, (Trace.exec step new run).tally 1 = some (t, status) ∧
      (∀ voteOption, (total t voteOption).toNat =
        weightFor voteOption (ballots 1 new [] run) % 2 ^ 64) ∧
      ((∀ voteOption, weightFor voteOption (ballots 1 new [] run) < 2 ^ 64) →
        (OneWeight (ballots 1 new [] run) t ↔ DistinctVoters (ballots 1 new [] run))) :=
  tally_recorded _ 1 (by decide)

/-- One voter with two votes of weight ten: twenty for yes. -/
theorem one_weight_fails :
    ¬ ∀ (run : List Op) (id : UInt64), (Trace.exec step new run).proposals.get id ≠ none →
      ∃ t status, (Trace.exec step new run).tally id = some (t, status) ∧
        OneWeight (ballots id new [] run) t := by
  intro h
  let vote := Op.castVote 1 (.fill 32 1) .yes 10
  let run := [.createProposal (.softwareUpgrade "2") "upgrade" "" (.fill 32 9) 100, vote, vote]
  obtain ⟨t, status, htally, hone⟩ := h run 1 (by decide)
  have hsums : (Trace.exec step new run).tally 1 = some (⟨20, 0, 0⟩, .voting) := by decide
  obtain ⟨rfl, -⟩ := Prod.mk.inj (Option.some.inj (hsums.symm.trans htally))
  have hdistinct := (oneWeight_iff fun voteOption => by cases voteOption <;> decide).mp hone
  exact absurd hdistinct (by unfold DistinctVoters; decide)

end LiteVision.Truth.Governance
