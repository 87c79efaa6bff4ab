import LiteVision.Truth.Consensus.Certificates

/-!
# Agreement on precommits

Two engines over one validator list, each with its own view of the votes of a
height and round. A certificate they return stands for a quorum of the abstract
`Ballot` of those votes only if the votes counted are votes for its block; then
two certificates share a signer and so a block. The handlers count inactive
validators too, against a threshold taken from the active ones, so there must
not be so many voters that two quorums can miss each other.
-/

namespace LiteVision.Truth

open Lib

namespace ConsensusEngine

open Consensus

def precommits (height : UInt64) (round : UInt32) (ops : List Op) : List Vote :=
  (delivered ops).filter fun v => v.voteType = .preCommit ∧ v.height = height ∧ v.round = round

def precommitters (height : UInt64) (round : UInt32) (ops : List Op) : Finset (Bytes 32) :=
  ((precommits height round ops).map Vote.validatorId).toFinset

/-- No validator precommits two blocks at the height and round. -/
def PrecommitsOnce (height : UInt64) (round : UInt32) (ops : List Op) : Prop :=
  ∀ v ∈ precommits height round ops, ∀ w ∈ precommits height round ops,
    v.validatorId = w.validatorId → v.blockHash = w.blockHash

instance (height : UInt64) (round : UInt32) (ops : List Op) :
    Decidable (PrecommitsOnce height round ops) := by
  unfold PrecommitsOnce
  infer_instance

variable (env : Env) (e : ConsensusEngine)

/-- A precommit that reaches the count does so with the votes for its own block. -/
def CountsBlock (s : Consensus) : Op → Prop
  | .receive .preCommit vote _ => s.Admits .preCommit vote → e.Reaches .preCommit vote s →
    e.threshold ≤ ((s.record vote).backers .preCommit vote.blockHash).card
  | _ => True

instance (s : Consensus) : (op : Op) → Decidable (e.CountsBlock s op)
  | .receive .preCommit vote _ =>
    inferInstanceAs (Decidable (s.Admits .preCommit vote → e.Reaches .preCommit vote s →
      e.threshold ≤ ((s.record vote).backers .preCommit vote.blockHash).card))
  | .receive .preVote .. | .startNewView .. | .propose .. | .commit _ | .advanceToNextView
  | .advanceToNextHeight => .isTrue trivial

/-- `receive_precommit` returns `qc` at some point of the run. -/
def Precommits (ops : List Op) (qc : QuorumCertificate) : Prop :=
  Trace.Sometimes (e.step env)
    (fun s op => ∃ vote now, op = .receive .preCommit vote now ∧
      (e.receive env .preCommit vote now s).1 = .ok (some qc)) .initial ops

variable {env e}

variable (env e) in
theorem precommits_concat (before : List Op) (vote : Vote) (now : UInt64)
    (ha : (Trace.exec (e.step env) .initial before).Admits .preCommit vote)
    (hr : e.Reaches .preCommit vote (Trace.exec (e.step env) .initial before)) :
    e.Precommits env (before ++ [.receive .preCommit vote now])
      (e.built env .preCommit vote (Trace.exec (e.step env) .initial before)) := by
  refine Trace.sometimes_iff.mpr ⟨before, _, [], rfl, vote, now, rfl, ?_⟩
  rw [receive_admitted env e ha, if_pos hr]

theorem precommits_append {height : UInt64} {round : UInt32} (ops ops' : List Op) :
    precommits height round (ops ++ ops') =
      precommits height round ops ++ precommits height round ops' := by
  simp [precommits, delivered]

theorem Precommits.quorum {ops : List Op} {qc : QuorumCertificate} (h : e.Precommits env ops qc)
    (hcount : Trace.Always (e.step env) e.CountsBlock .initial ops) :
    ∃ quorum : Finset (Bytes 32), e.threshold ≤ quorum.card ∧
      ∀ id ∈ quorum, ∃ vote ∈ precommits qc.height qc.round ops,
        vote.validatorId = id ∧ vote.blockHash = qc.blockHash := by
  have hcast := votesCast_always env e ops fun vote hvote => hvote
  obtain ⟨s, op, ⟨⟨hv, hop⟩, hc⟩, vote, now, rfl, hqc⟩ :=
    ((Trace.always_and.mpr ⟨hcast, hcount⟩).and_sometimes h).exists
  obtain ⟨ha, hr, rfl⟩ := receive_some env e hqc
  refine ⟨(s.record vote).backers .preCommit vote.blockHash, hc ha hr, fun id hid => ?_⟩
  obtain ⟨v, hget, ht, hb⟩ := mem_backers.mp hid
  obtain ⟨hh, hround, hid⟩ := hv.current.record ha id v hget
  have hdelivered : v ∈ delivered ops := by
    rw [record_votes] at hget
    rcases Map.of_get_insert hget with ⟨-, rfl⟩ | ⟨-, hold⟩
    · exact hop .preCommit v now rfl
    · exact hv.cast id v hold
  refine ⟨v, List.mem_filter.mpr ⟨hdelivered, ?_⟩, hid, by simpa using hb⟩
  simpa using ⟨ht, hh, hround⟩

/-- The votes of a view as an abstract ballot. -/
def precommitBallot (height : UInt64) (round : UInt32) (ops : List Op)
    (hsingle : PrecommitsOnce height round ops) : Ballot (Bytes 32) (Bytes 32) where
  voters := precommitters height round ops
  backs id blockHash := ∃ vote ∈ precommits height round ops,
    vote.validatorId = id ∧ vote.blockHash = blockHash
  single := by
    rintro id _ _ ⟨v, hv, hvid, rfl⟩ ⟨w, hw, hwid, rfl⟩
    exact hsingle v hv w hw (hvid.trans hwid.symm)

theorem chosen_of_quorum {height : UInt64} {round : UInt32} {ops : List Op} {n : Nat}
    {blockHash : Bytes 32} (hsingle : PrecommitsOnce height round ops)
    {quorum : Finset (Bytes 32)} (hcard : n ≤ quorum.card)
    (hq : ∀ id ∈ quorum, ∃ vote ∈ precommits height round ops,
      vote.validatorId = id ∧ vote.blockHash = blockHash) :
    (precommitBallot height round ops hsingle).Chosen n blockHash := by
  refine ⟨quorum, fun id hid => ?_, hcard, hq⟩
  obtain ⟨vote, hvote, rfl, -⟩ := hq id hid
  exact List.mem_toFinset.mpr (List.mem_map_of_mem hvote)

theorem precommitters_few {validators : List Validator} {viewTimeoutMs : UInt64}
    {height : UInt64} {round : UInt32} {ops : List Op}
    (h : ∀ vote ∈ precommits height round ops,
      vote.validatorId ∈ (new validators viewTimeoutMs).activeIds) :
    (precommitters height round ops).card < 2 * (new validators viewTimeoutMs).threshold := by
  have hsub : precommitters height round ops ⊆ (new validators viewTimeoutMs).activeIds := by
    intro id hid
    obtain ⟨vote, hvote, rfl⟩ := List.mem_map.mp (List.mem_toFinset.mp hid)
    exact h vote hvote
  calc (precommitters height round ops).card
      ≤ (new validators viewTimeoutMs).activeIds.card := Finset.card_le_card hsub
    _ ≤ ((active validators).map Validator.id).length := List.toFinset_card_le _
    _ = (active validators).length := List.length_map _
    _ < 2 * (new validators viewTimeoutMs).threshold := superMajority_meets _

/-- Two engines that count the votes of a block, with fewer than two disjoint
quorums of voters, agree on the block they precommit at a height and round. -/
theorem precommit_agreement (env env' : Env) (validators : List Validator)
    (viewTimeoutMs viewTimeoutMs' : UInt64) (ops ops' : List Op) (height : UInt64) (round : UInt32)
    (hsingle : PrecommitsOnce height round (ops ++ ops'))
    (hfew : (precommitters height round (ops ++ ops')).card <
      2 * (new validators viewTimeoutMs).threshold)
    (hcount : let e := new validators viewTimeoutMs
      Trace.Always (e.step env) e.CountsBlock .initial ops)
    (hcount' : let e := new validators viewTimeoutMs'
      Trace.Always (e.step env') e.CountsBlock .initial ops')
    (qc qc' : QuorumCertificate)
    (hqc : (new validators viewTimeoutMs).Precommits env ops qc)
    (hqc' : (new validators viewTimeoutMs').Precommits env' ops' qc')
    (hview : qc.height = height ∧ qc.round = round)
    (hview' : qc'.height = height ∧ qc'.round = round) :
    qc.blockHash = qc'.blockHash := by
  obtain ⟨quorum, hcard, hq⟩ := hqc.quorum hcount
  obtain ⟨quorum', hcard', hq'⟩ := hqc'.quorum hcount'
  rw [hview.1, hview.2] at hq
  rw [hview'.1, hview'.2] at hq'
  refine Ballot.chosen_unique (b := precommitBallot height round (ops ++ ops') hsingle) hfew
    (chosen_of_quorum hsingle hcard fun id hid => ?_)
    (chosen_of_quorum hsingle hcard' fun id hid => ?_)
  · obtain ⟨vote, hvote, h⟩ := hq id hid
    exact ⟨vote, by rw [precommits_append]; exact List.mem_append_left _ hvote, h⟩
  · obtain ⟨vote, hvote, h⟩ := hq' id hid
    exact ⟨vote, by rw [precommits_append]; exact List.mem_append_right _ hvote, h⟩

theorem precommit_agreement_three_votes :
    let e := new (Sample.validators 4) 3000
    let call i := Op.receive .preCommit (Sample.vote i .preCommit 1) 0
    ∃ qc qc', e.Precommits Sample.env [call 0, call 1, call 2] qc ∧
      e.Precommits Sample.env [call 3, call 1, call 2] qc' ∧ qc.blockHash = qc'.blockHash := by
  intro e call
  have h := precommits_concat Sample.env e [call 0, call 1]
    (Sample.vote 2 .preCommit 1) 0 (by decide) (by decide)
  have h' := precommits_concat Sample.env e [call 3, call 1]
    (Sample.vote 2 .preCommit 1) 0 (by decide) (by decide)
  refine ⟨_, _, h, h', precommit_agreement Sample.env Sample.env (Sample.validators 4) 3000 3000
    [call 0, call 1, call 2] [call 3, call 1, call 2] 0 0 (by decide) (by decide) (by decide)
    (by decide) _ _ h h' ⟨?_, ?_⟩ ⟨?_, ?_⟩⟩
  all_goals
    simp only [built_height, built_round]
    decide

/-- Validator 0 precommits block 1, validators 1 and 2 precommit block 2. The
engine that hears validator 0 last certifies block 1. -/
theorem precommit_agreement_fails :
    ¬ ∀ (env env' : Env) (validators : List Validator) (viewTimeoutMs viewTimeoutMs' : UInt64)
      (ops ops' : List Op) (height : UInt64) (round : UInt32),
      (validators.map Validator.id).Nodup →
      (∀ vote ∈ precommits height round (ops ++ ops'),
        vote.validatorId ∈ validators.map Validator.id) →
      PrecommitsOnce height round (ops ++ ops') →
      ∀ qc qc', (new validators viewTimeoutMs).Precommits env ops qc →
        (new validators viewTimeoutMs').Precommits env' ops' qc' →
        qc.height = height ∧ qc.round = round → qc'.height = height ∧ qc'.round = round →
        qc.blockHash = qc'.blockHash := by
  intro h
  let e := new (Sample.validators 4) 3000
  let call (i : Nat) (b : UInt8) := Op.receive .preCommit (Sample.vote i .preCommit b) 0
  have hqc := precommits_concat Sample.env e [call 1 2, call 2 2]
    (Sample.vote 0 .preCommit 1) 0 (by decide) (by decide)
  have hqc' := precommits_concat Sample.env e [call 0 1, call 1 2]
    (Sample.vote 2 .preCommit 2) 0 (by decide) (by decide)
  have heq := h Sample.env Sample.env (Sample.validators 4) 3000 3000
    [call 1 2, call 2 2, call 0 1] [call 0 1, call 1 2, call 2 2] 0 0 (by decide) (by decide)
    (by decide) _ _ hqc hqc'
    (by simp only [built_height, built_round]; decide)
    (by simp only [built_height, built_round]; decide)
  rw [built_blockHash, built_blockHash] at heq
  exact absurd heq (by decide)

end ConsensusEngine

end LiteVision.Truth
