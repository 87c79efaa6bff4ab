import LiteVision.Bytes
import LiteVision.Lib.Map

/-!
# Governance

`governance.rs`: proposals, the votes cast on them and their tally. Nothing writes
the status of a proposal back, and a vote is kept as it comes.
-/

namespace LiteVision.Truth

open Lib

inductive ProposalType
  | parameterChange (key value : String)
  | softwareUpgrade (version : String)
  | slashValidator (validatorId : Bytes 32) (reason : String)
  | partitionCreate (partitionId : UInt32)
  | partitionDelete (partitionId : UInt32)
  deriving DecidableEq

inductive ProposalStatus
  | voting
  | passed
  | rejected
  | executed
  | canceled
  deriving DecidableEq, Repr

structure Proposal where
  id : UInt64
  proposalType : ProposalType
  title : String
  description : String
  proposer : Bytes 32
  voteStart : UInt64
  voteEnd : UInt64
  status : ProposalStatus
  executionResult : Option String
  deriving DecidableEq

inductive VoteOption
  | yes
  | no
  | abstain
  deriving DecidableEq, Repr

namespace Governance

structure Vote where
  voter : Bytes 32
  proposalId : UInt64
  voteOption : VoteOption
  stakeWeight : UInt64
  deriving DecidableEq

end Governance

structure GovernanceParams where
  votingPeriod : UInt64
  quorum : UInt64
  threshold : UInt64
  maxProposals : UInt64
  deriving DecidableEq

structure Governance where
  proposals : Map UInt64 Proposal
  votes : Map UInt64 (List Governance.Vote)
  params : GovernanceParams
  nextProposalId : UInt64
  deriving DecidableEq

structure Totals where
  yes : UInt64
  no : UInt64
  abstain : UInt64
  deriving DecidableEq

def GovernanceParams.outcome (params : GovernanceParams) (t : Totals) : ProposalStatus :=
  let total := t.yes + t.no + t.abstain
  if params.quorum ≤ total ∧ total * params.threshold / 1000000000 ≤ t.yes then .passed
  else if params.quorum ≤ total then .rejected
  else .voting

/-- The status as in a debug build; the product is only made when the quorum is reached. -/
def GovernanceParams.outcome? (params : GovernanceParams) (t : Totals) : Option ProposalStatus :=
  ((checkedAdd t.yes t.no).bind fun sum => checkedAdd sum t.abstain).bind fun total =>
    let passed :=
      if params.quorum ≤ total then
        (checkedMul total params.threshold).map fun product =>
          decide (product / 1000000000 ≤ t.yes)
      else some false
    passed.map fun passed =>
      if passed then .passed else if params.quorum ≤ total then .rejected else .voting

namespace Governance

def new : Governance where
  proposals := .empty
  votes := .empty
  params := {
    votingPeriod := 86400
    quorum := 500000000
    threshold := 667000000
    maxProposals := 100 }
  nextProposalId := 1

def createProposal (s : Governance) (proposalType : ProposalType) (title description : String)
    (proposer : Bytes 32) (currentTime : UInt64) : UInt64 × Governance :=
  let id := s.nextProposalId
  let proposal : Proposal := {
    id, proposalType, title, description, proposer
    voteStart := currentTime
    voteEnd := currentTime + s.params.votingPeriod
    status := .voting
    executionResult := none }
  (id, { s with
    nextProposalId := s.nextProposalId + 1
    proposals := s.proposals.insert id proposal
    votes := s.votes.insert id [] })

/-- `none` is the panic of a proposal without a vote list. -/
def castVote (s : Governance) (proposalId : UInt64) (voter : Bytes 32) (voteOption : VoteOption)
    (stakeWeight : UInt64) : Option (Except String Unit × Governance) :=
  match s.proposals.get proposalId with
  | none => some (.error "Proposal not found", s)
  | some proposal =>
    if proposal.status ≠ .voting then some (.error "Proposal is not in voting period", s)
    else
      let vote : Vote := { voter, proposalId, voteOption, stakeWeight }
      (s.votes.get proposalId).map fun votes =>
        (.ok (), { s with votes := s.votes.insert proposalId (votes ++ [vote]) })

def addVote (t : Totals) (vote : Vote) : Totals :=
  match vote.voteOption with
  | .yes => { t with yes := t.yes + vote.stakeWeight }
  | .no => { t with no := t.no + vote.stakeWeight }
  | .abstain => { t with abstain := t.abstain + vote.stakeWeight }

/-- `none` is the panic of a proposal without a vote list. -/
def tally (s : Governance) (proposalId : UInt64) : Option (Totals × ProposalStatus) :=
  (s.votes.get proposalId).map fun votes =>
    let totals := votes.foldl addVote { yes := 0, no := 0, abstain := 0 }
    (totals, s.params.outcome totals)

/-- One vote of the loop, as in a debug build. -/
def addVote? (t : Totals) (vote : Vote) : Option Totals :=
  match vote.voteOption with
  | .yes => (checkedAdd t.yes vote.stakeWeight).map fun yes => { t with yes }
  | .no => (checkedAdd t.no vote.stakeWeight).map fun no => { t with no }
  | .abstain => (checkedAdd t.abstain vote.stakeWeight).map fun abstain => { t with abstain }

/-- `tally` as in a debug build; `none` also for an overflow. -/
def tally? (s : Governance) (proposalId : UInt64) : Option (Totals × ProposalStatus) :=
  (s.votes.get proposalId).bind fun votes =>
    (votes.foldlM addVote? { yes := 0, no := 0, abstain := 0 }).bind fun totals =>
      (s.params.outcome? totals).map fun status => (totals, status)

inductive Op
  | createProposal (proposalType : ProposalType) (title description : String)
      (proposer : Bytes 32) (currentTime : UInt64)
  | castVote (proposalId : UInt64) (voter : Bytes 32) (voteOption : VoteOption)
      (stakeWeight : UInt64)

/-- A call that panics leaves the state. -/
def step (s : Governance) : Op → Governance
  | .createProposal proposalType title description proposer currentTime =>
    (s.createProposal proposalType title description proposer currentTime).2
  | .castVote proposalId voter voteOption stakeWeight =>
    (s.castVote proposalId voter voteOption stakeWeight).elim s Prod.snd

def Open (s : Governance) (id : UInt64) : Prop :=
  ∃ proposal, s.proposals.get id = some proposal ∧ proposal.status = .voting

theorem castVote_cases (s : Governance) (id : UInt64) (voter : Bytes 32) (voteOption : VoteOption)
    (stakeWeight : UInt64) :
    (∃ votes, s.Open id ∧ s.votes.get id = some votes ∧
      s.castVote id voter voteOption stakeWeight = some (.ok (), { s with
        votes := s.votes.insert id (votes ++ [⟨voter, id, voteOption, stakeWeight⟩]) })) ∨
    (¬ s.Open id ∧ ∃ err, s.castVote id voter voteOption stakeWeight = some (.error err, s)) ∨
    (s.Open id ∧ s.votes.get id = none ∧ s.castVote id voter voteOption stakeWeight = none) := by
  unfold castVote
  cases hget : s.proposals.get id with
  | none =>
    refine .inr (.inl ⟨?_, _, rfl⟩)
    rintro ⟨proposal, h, -⟩
    cases hget.symm.trans h
  | some proposal =>
    by_cases hstatus : proposal.status = .voting
    · have hopen : s.Open id := ⟨proposal, hget, hstatus⟩
      cases hvotes : s.votes.get id with
      | none => exact .inr (.inr ⟨hopen, rfl, by simp [hstatus]⟩)
      | some votes => exact .inl ⟨votes, hopen, rfl, by simp [hstatus]⟩
    · refine .inr (.inl ⟨?_, _, if_pos hstatus⟩)
      rintro ⟨other, h, hvoting⟩
      obtain rfl := Option.some.inj (hget.symm.trans h)
      exact hstatus hvoting

end Governance

end LiteVision.Truth
