import LiteVision.Truth.Consensus

/-!
# What the vote handlers do

`receive_cases` says everything a call of a handler can do: refuse the vote,
store it, or store it and build a certificate. The lemmas before it say what a
certificate lists. From these, the vote map of any run holds, for each
validator, the vote it had accepted last in the current view.
-/

namespace LiteVision.Truth

open Lib

namespace Consensus

/-- The checks a handler makes before it takes the write lock. -/
def Admits (s : Consensus) (t : VoteType) (vote : Vote) : Prop :=
  vote.height = s.height ∧ vote.round = s.round ∧ vote.voteType = t

instance (s : Consensus) (t : VoteType) (vote : Vote) : Decidable (s.Admits t vote) := by
  unfold Admits
  infer_instance

/-- The validators whose stored vote is of type `t` for `blockHash`. -/
def backers (s : Consensus) (t : VoteType) (blockHash : Bytes 32) : Finset (Bytes 32) :=
  s.votes.holders fun v => v.voteType = t ∧ v.blockHash = blockHash

def voters (s : Consensus) (t : VoteType) : Finset (Bytes 32) :=
  s.votes.holders fun v => v.voteType = t

theorem countVotes_eq (s : Consensus) (t : VoteType) : s.countVotes t = (s.voters t).card := rfl

theorem mem_backers {s : Consensus} {t : VoteType} {blockHash id : Bytes 32} :
    id ∈ s.backers t blockHash ↔
      ∃ v, s.votes.get id = some v ∧ v.voteType = t ∧ v.blockHash = blockHash := by
  simp [backers, Map.mem_holders]

theorem mem_voters {s : Consensus} {t : VoteType} {id : Bytes 32} :
    id ∈ s.voters t ↔ ∃ v, s.votes.get id = some v ∧ v.voteType = t := by
  simp [voters, Map.mem_holders]

@[simp] theorem record_votes (s : Consensus) (vote : Vote) :
    (s.record vote).votes = s.votes.insert vote.validatorId vote := rfl

@[simp] theorem record_height (s : Consensus) (vote : Vote) : (s.record vote).height = s.height := rfl

@[simp] theorem record_lockedBlock (s : Consensus) (vote : Vote) :
    (s.record vote).lockedBlock = s.lockedBlock := rfl

@[simp] theorem record_round (s : Consensus) (vote : Vote) : (s.record vote).round = s.round := rfl

/-- The fields a handler writes once it has built the certificate `qc`. -/
def certify (s : Consensus) (t : VoteType) (qc : QuorumCertificate) (now : UInt64) : Consensus :=
  match t with
  | .preVote =>
    { s with
      state := .preCommit
      prevoteQc := some qc
      lockedBlock := some qc.blockHash
      lockedQc := if s.lockedBlock = some qc.blockHash then s.lockedQc else some qc }
  | .preCommit =>
    { s with state := .finalized, precommitQc := some qc, lastCommitTimestamp := now }

variable {s : Consensus} {t : VoteType} {qc : QuorumCertificate} {now : UInt64}

@[simp] theorem certify_votes : (s.certify t qc now).votes = s.votes := by cases t <;> rfl

@[simp] theorem certify_height : (s.certify t qc now).height = s.height := by cases t <;> rfl

@[simp] theorem certify_round : (s.certify t qc now).round = s.round := by cases t <;> rfl

end Consensus

namespace ConsensusEngine

open Consensus

variable (env : Env) (e : ConsensusEngine)

-- ---------------------------------------------------------------------------
-- Certificates
-- ---------------------------------------------------------------------------

theorem foldl_addSignature (p : Bytes 32 × Vote → Bool) (qc : QuorumCertificate)
    (entries : List (Bytes 32 × Vote)) :
    entries.foldl (fun qc entry =>
        if p entry then qc.addSignature entry.1 entry.2.signature else qc) qc =
      { qc with signatures :=
          qc.signatures ++ (entries.filter p).map fun entry => (entry.1, entry.2.signature) } := by
  induction entries generalizing qc with
  | nil => simp
  | cons entry rest ih =>
    rw [List.foldl_cons, ih]
    cases hp : p entry <;> simp [hp, QuorumCertificate.addSignature]

theorem certificate_eq (t : VoteType) (blockHash : Bytes 32) (s : Consensus) :
    e.certificate env t blockHash s =
      { blockHash, height := s.height, round := s.round, voteType := t
        signatures := ((env.order.entries s.votes).filter fun entry =>
            entry.2.voteType = t ∧ entry.2.blockHash = blockHash).map fun entry =>
          (entry.1, entry.2.signature)
        validatorSetHash := e.getValidatorSetHash env.crypto } := by
  have h := foldl_addSignature (fun entry => entry.2.voteType = t ∧ entry.2.blockHash = blockHash)
    (.new blockHash s.height s.round t (e.getValidatorSetHash env.crypto)) (env.order.entries s.votes)
  simp only [decide_eq_true_eq] at h
  rw [certificate, h]
  simp [QuorumCertificate.new]

section
variable {env e} {t : VoteType} {blockHash : Bytes 32} {s : Consensus}

@[simp] theorem certificate_blockHash : (e.certificate env t blockHash s).blockHash = blockHash := by
  rw [certificate_eq]

@[simp] theorem certificate_height : (e.certificate env t blockHash s).height = s.height := by
  rw [certificate_eq]

@[simp] theorem certificate_round : (e.certificate env t blockHash s).round = s.round := by
  rw [certificate_eq]

@[simp] theorem certificate_voteType : (e.certificate env t blockHash s).voteType = t := by
  rw [certificate_eq]

theorem certificate_nodup : ((e.certificate env t blockHash s).signatures.map Prod.fst).Nodup := by
  rw [certificate_eq, List.map_map]
  exact (List.filter_sublist.map Prod.fst).nodup (env.order.nodup s.votes)

theorem mem_certificate {id : Bytes 32} {signature : List UInt8} :
    (id, signature) ∈ (e.certificate env t blockHash s).signatures ↔
      ∃ v, s.votes.get id = some v ∧ v.voteType = t ∧ v.blockHash = blockHash ∧
        v.signature = signature := by
  rw [certificate_eq]
  simp only [List.mem_map, List.mem_filter, decide_eq_true_eq, Prod.mk.injEq, Prod.exists]
  constructor
  · rintro ⟨j, v, ⟨hv, ht, hb⟩, rfl, hsig⟩
    exact ⟨v, (env.order.mem _ _ _).mp hv, ht, hb, hsig⟩
  · rintro ⟨v, hv, ht, hb, hsig⟩
    exact ⟨id, v, ⟨(env.order.mem _ _ _).mpr hv, ht, hb⟩, rfl, hsig⟩

theorem certificate_length :
    (e.certificate env t blockHash s).signatures.length = (s.backers t blockHash).card := by
  rw [certificate_eq, List.length_map]
  exact env.order.length_filter s.votes fun v => v.voteType = t ∧ v.blockHash = blockHash

end

-- ---------------------------------------------------------------------------
-- The handlers
-- ---------------------------------------------------------------------------

/-- With `vote` stored, the votes of type `t`, for whichever block, reach the
threshold. -/
def Reaches (t : VoteType) (vote : Vote) (s : Consensus) : Prop :=
  e.threshold ≤ (s.record vote).countVotes t

instance (t : VoteType) (vote : Vote) (s : Consensus) : Decidable (e.Reaches t vote s) := by
  unfold Reaches
  infer_instance

/-- The certificate a call builds when it reaches the threshold. -/
def built (t : VoteType) (vote : Vote) (s : Consensus) : QuorumCertificate :=
  e.certificate env t vote.blockHash (s.record vote)

section
variable {t : VoteType} {vote : Vote} {s : Consensus}

theorem built_eq : e.certificate env t vote.blockHash (s.record vote) = e.built env t vote s := rfl

@[simp] theorem built_blockHash : (e.built env t vote s).blockHash = vote.blockHash :=
  certificate_blockHash

@[simp] theorem built_height : (e.built env t vote s).height = s.height := certificate_height

@[simp] theorem built_round : (e.built env t vote s).round = s.round := certificate_round

@[simp] theorem built_voteType : (e.built env t vote s).voteType = t := certificate_voteType

theorem built_length : (e.built env t vote s).signatures.length =
    ((s.record vote).backers t vote.blockHash).card := certificate_length

end

theorem recordPrevote_eq (vote : Vote) (now : UInt64) (s : Consensus) :
    e.recordPrevote env vote s =
      if e.Reaches .preVote vote s then
        (some (e.built env .preVote vote s),
          (s.record vote).certify .preVote (e.built env .preVote vote s) now)
      else (none, s.record vote) := by
  by_cases hr : e.Reaches .preVote vote s
  · rw [if_pos hr]
    have hq : e.threshold ≤ (s.record vote).countVotes .preVote := hr
    by_cases hl : s.lockedBlock = some vote.blockHash
    · simp [recordPrevote, hq, hl, certify, built_eq]
    · simp [recordPrevote, hq, hl, certify, built_eq]
  · rw [if_neg hr]
    have hq : ¬ e.threshold ≤ (s.record vote).countVotes .preVote := hr
    simp [recordPrevote, hq]

theorem recordPrecommit_eq (vote : Vote) (now : UInt64) (s : Consensus) :
    e.recordPrecommit env vote now s =
      if e.Reaches .preCommit vote s then
        (some (e.built env .preCommit vote s),
          (s.record vote).certify .preCommit (e.built env .preCommit vote s) now)
      else (none, s.record vote) := by
  by_cases hr : e.Reaches .preCommit vote s
  · rw [if_pos hr]
    have hq : e.threshold ≤ (s.record vote).countVotes .preCommit := hr
    simp [recordPrecommit, hq, certify, built]
  · rw [if_neg hr]
    have hq : ¬ e.threshold ≤ (s.record vote).countVotes .preCommit := hr
    simp [recordPrecommit, hq]

theorem receive_refused {t : VoteType} {vote : Vote} {s : Consensus} (h : ¬ s.Admits t vote)
    (now : UInt64) : ∃ msg, e.receive env t vote now s = (.error msg, s) := by
  cases t <;> simp only [receive, receivePrevote, receivePrecommit]
  all_goals
    split
    · exact ⟨_, rfl⟩
    · split
      · exact ⟨_, rfl⟩
      · split
        · exact ⟨_, rfl⟩
        · rename_i hh hr ht
          exact absurd ⟨not_not.mp hh, not_not.mp hr, not_not.mp ht⟩ h

theorem receive_admitted {t : VoteType} {vote : Vote} {s : Consensus} (h : s.Admits t vote)
    (now : UInt64) :
    e.receive env t vote now s =
      if e.Reaches t vote s then
        (.ok (some (e.built env t vote s)), (s.record vote).certify t (e.built env t vote s) now)
      else (.ok none, s.record vote) := by
  obtain ⟨hh, hr, ht⟩ := h
  cases t with
  | preVote =>
    simp only [receive, receivePrevote, hh, hr, ht, ne_eq, not_true_eq_false, if_false,
      recordPrevote_eq env e vote now]
    split <;> rfl
  | preCommit =>
    simp only [receive, receivePrecommit, hh, hr, ht, ne_eq, not_true_eq_false, if_false,
      recordPrecommit_eq]
    split <;> rfl

theorem receive_cases (t : VoteType) (vote : Vote) (now : UInt64) (s : Consensus) :
    (¬ s.Admits t vote ∧ ∃ msg, e.receive env t vote now s = (.error msg, s)) ∨
    (s.Admits t vote ∧ ¬ e.Reaches t vote s ∧
      e.receive env t vote now s = (.ok none, s.record vote)) ∨
    (s.Admits t vote ∧ e.Reaches t vote s ∧
      e.receive env t vote now s = (.ok (some (e.built env t vote s)),
        (s.record vote).certify t (e.built env t vote s) now)) := by
  by_cases ha : s.Admits t vote
  · have h := receive_admitted env e ha now
    by_cases hr : e.Reaches t vote s
    · exact .inr (.inr ⟨ha, hr, by rw [h, if_pos hr]⟩)
    · exact .inr (.inl ⟨ha, hr, by rw [h, if_neg hr]⟩)
  · exact .inl ⟨ha, receive_refused env e ha now⟩

theorem receive_some {t : VoteType} {vote : Vote} {now : UInt64} {s : Consensus}
    {qc : QuorumCertificate} (h : (e.receive env t vote now s).1 = .ok (some qc)) :
    s.Admits t vote ∧ e.Reaches t vote s ∧ qc = e.built env t vote s := by
  rcases receive_cases env e t vote now s with ⟨-, msg, heq⟩ | ⟨-, -, heq⟩ | ⟨ha, hr, heq⟩
  · simp [heq] at h
  · simp [heq] at h
  · rw [heq] at h
    simp only [Except.ok.injEq, Option.some.injEq] at h
    exact ⟨ha, hr, h.symm⟩

end ConsensusEngine

end LiteVision.Truth
