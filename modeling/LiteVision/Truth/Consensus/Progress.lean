import LiteVision.Lib.Latch
import LiteVision.Truth.Consensus.Agreement
import LiteVision.Truth.Consensus.VoteOrder

/-!
# Progress within a view

From a new view on, until the engine leaves it, its phase is told by the votes alone:
`state_runView_iff`. When only active validators vote, or a third of as many others with them,
two quorums of one view meet, and since the engine keeps one vote of each voter only one type
can have a quorum at a time. So a view whose votes come in is finalized, whatever a third of
as many voters as there are validators do: `finalized_of_precommits`.
-/

namespace LiteVision.Truth

open Lib

def VoteType.other : VoteType → VoteType
  | preVote => preCommit
  | preCommit => preVote

theorem VoteType.other_ne (t : VoteType) : t.other ≠ t := by cases t <;> simp [other]

/-- The phase that a quorum of votes of the type leads to. -/
def VoteType.phase : VoteType → ConsensusState
  | preVote => .preCommit
  | preCommit => .finalized

theorem VoteType.phase_inj {t u : VoteType} : t.phase = u.phase ↔ t = u := by
  cases t <;> cases u <;> simp [phase]

namespace Op

/-- A call that can come between two changes of view. -/
def KeepsView : Op → Prop
  | propose _ _ | receive _ _ _ => True
  | startNewView _ _ | commit _ | advanceToNextView | advanceToNextHeight => False

def taken? (height : UInt64) (round : UInt32) : Op → Option Vote
  | receive t vote _ =>
    if vote.height = height ∧ vote.round = round ∧ vote.voteType = t then some vote else none
  | startNewView _ _ | propose _ _ | commit _ | advanceToNextView | advanceToNextHeight => none

end Op

namespace ConsensusEngine

open Consensus

def taken (height : UInt64) (round : UInt32) (ops : List Op) : List Vote :=
  ops.filterMap (Op.taken? height round)

def lastVote (height : UInt64) (round : UInt32) (ops : List Op) (id : Bytes 32) : Option Vote :=
  latest (taken height round ops).reverse id

def lastVoters (height : UInt64) (round : UInt32) (ops : List Op) (t : VoteType) :
    Finset (Bytes 32) :=
  ((taken height round ops).map Vote.validatorId).toFinset.filter fun id =>
    (lastVote height round ops id).map Vote.voteType = some t

variable {env : Env} {e : ConsensusEngine} {s : Consensus} {height : UInt64} {round : UInt32}
  {ops : List Op} {t : VoteType}

theorem mem_of_latest {log : List Vote} {id : Bytes 32} {vote : Vote}
    (h : latest log id = some vote) : vote ∈ log ∧ vote.validatorId = id :=
  ⟨List.mem_of_find?_eq_some h, by simpa using List.find?_some h⟩

theorem mem_lastVoters {id : Bytes 32} : id ∈ lastVoters height round ops t ↔
    ∃ vote, lastVote height round ops id = some vote ∧ vote.voteType = t := by
  simp only [lastVoters, Finset.mem_filter, List.mem_toFinset, Option.map_eq_some_iff,
    and_iff_right_iff_imp]
  rintro ⟨vote, hlast, -⟩
  obtain ⟨hmem, hid⟩ := mem_of_latest hlast
  exact List.mem_map.mpr ⟨vote, List.mem_reverse.mp hmem, hid⟩

theorem lastVoters_disjoint {u : VoteType} (hne : t ≠ u) :
    Disjoint (lastVoters height round ops t) (lastVoters height round ops u) := by
  rw [Finset.disjoint_left]
  intro id ht hu
  obtain ⟨vote, hlast, hvote⟩ := mem_lastVoters.mp ht
  obtain ⟨vote', hlast', hvote'⟩ := mem_lastVoters.mp hu
  rw [hlast] at hlast'
  cases hlast'
  exact hne (hvote.symm.trans hvote')

def VotesOf (ids : Finset (Bytes 32)) (height : UInt64) (round : UInt32) (ops : List Op) : Prop :=
  ∀ vote ∈ taken height round ops, vote.validatorId ∈ ids

instance (ids : Finset (Bytes 32)) : Decidable (VotesOf ids height round ops) :=
  inferInstanceAs (Decidable (∀ vote ∈ taken height round ops, vote.validatorId ∈ ids))

theorem VotesOf.of_prefix {ids : Finset (Bytes 32)} {before : List Op}
    (h : VotesOf ids height round ops) (hbefore : before <+: ops) :
    VotesOf ids height round before := by
  intro vote hvote
  obtain ⟨after, rfl⟩ := hbefore
  refine h vote ?_
  rw [taken, List.filterMap_append]
  exact List.mem_append_left _ hvote

theorem VotesOf.lastVoters_subset {ids : Finset (Bytes 32)} (h : VotesOf ids height round ops) :
    lastVoters height round ops t ⊆ ids := by
  intro id hid
  obtain ⟨vote, hlast, -⟩ := mem_lastVoters.mp hid
  obtain ⟨hmem, rfl⟩ := mem_of_latest hlast
  exact h vote (List.mem_reverse.mp hmem)

-- ---------------------------------------------------------------------------
-- The votes of a view
-- ---------------------------------------------------------------------------

/-- The state of a view holds the last vote of each validator. -/
structure Holds (height : UInt64) (round : UInt32) (ops : List Op) (s : Consensus) : Prop where
  view : s.height = height ∧ s.round = round
  votes : ∀ id, s.votes.get id = lastVote height round ops id

theorem taken_concat (op : Op) : taken height round (ops ++ [op]) =
    taken height round ops ++ (op.taken? height round).toList := by
  cases hop : op.taken? height round <;> simp [taken, hop]

theorem lastVote_concat {op : Op} (id : Bytes 32) : lastVote height round (ops ++ [op]) id =
    match op.taken? height round with
    | some vote => if id = vote.validatorId then some vote else lastVote height round ops id
    | none => lastVote height round ops id := by
  rw [lastVote, taken_concat]
  cases op.taken? height round with
  | none => simp [lastVote]
  | some vote => simp [lastVote, latest_cons]

theorem Holds.voters (h : Holds height round ops s) (t : VoteType) :
    s.voters t = lastVoters height round ops t := by
  ext id
  rw [mem_voters, mem_lastVoters, h.votes]

theorem propose_same (block : Block) (qc : Option QuorumCertificate) (s : Consensus) :
    (e.propose block qc s).2.height = s.height ∧ (e.propose block qc s).2.round = s.round ∧
      (e.propose block qc s).2.votes = s.votes := by
  unfold propose
  split
  · exact ⟨rfl, rfl, rfl⟩
  · cases qc <;> exact ⟨rfl, rfl, rfl⟩

theorem Holds.step {op : Op} (h : Holds height round ops s) (hop : op.KeepsView) :
    Holds height round (ops ++ [op]) (e.step env s op) := by
  obtain ⟨⟨rfl, rfl⟩, hvotes⟩ := h
  cases op with
  | propose block qc =>
    obtain ⟨hheight, hround, hsame⟩ := propose_same (e := e) block qc s
    refine ⟨⟨hheight, hround⟩, fun id => ?_⟩
    rw [ConsensusEngine.step, hsame, hvotes, lastVote_concat]
    rfl
  | receive t vote now =>
    have hrefused (ha : ¬ s.Admits t vote) :
        Op.taken? s.height s.round (.receive t vote now) = none := if_neg ha
    have hadmitted (ha : s.Admits t vote) :
        Op.taken? s.height s.round (.receive t vote now) = some vote := if_pos ha
    rcases receive_cases env e t vote now s with ⟨ha, msg, heq⟩ | ⟨ha, -, heq⟩ | ⟨ha, -, heq⟩
    · refine ⟨⟨by simp [ConsensusEngine.step, heq], by simp [ConsensusEngine.step, heq]⟩, ?_⟩
      intro id
      simp only [ConsensusEngine.step, heq, hvotes, lastVote_concat, hrefused ha]
    · refine ⟨⟨by simp [ConsensusEngine.step, heq], by simp [ConsensusEngine.step, heq]⟩, ?_⟩
      intro id
      simp only [ConsensusEngine.step, heq, record_votes, Map.get_insert, hvotes, lastVote_concat,
        hadmitted ha]
    · refine ⟨⟨by simp [ConsensusEngine.step, heq], by simp [ConsensusEngine.step, heq]⟩, ?_⟩
      intro id
      simp only [ConsensusEngine.step, heq, certify_votes, record_votes, Map.get_insert, hvotes,
        lastVote_concat, hadmitted ha]
  | _ => cases hop

def runView (env : Env) (e : ConsensusEngine) (s : Consensus) (height : UInt64) (round : UInt32)
    (ops : List Op) : Consensus :=
  Trace.exec (e.step env) (e.startNewView height round s) ops

theorem runView_concat (op : Op) : e.runView env s height round (ops ++ [op]) =
    e.step env (e.runView env s height round ops) op := Trace.exec_concat op

theorem holds_runView (hops : ∀ op ∈ ops, op.KeepsView) :
    Holds height round ops (e.runView env s height round ops) := by
  induction ops using List.reverseRecOn with
  | nil => exact ⟨⟨rfl, rfl⟩, fun id => rfl⟩
  | append_singleton ops op ih =>
    rw [runView_concat]
    exact (ih fun op hop => hops op (List.mem_append_left _ hop)).step (hops op (by simp))

-- ---------------------------------------------------------------------------
-- The phase of a view
-- ---------------------------------------------------------------------------

/-- A call brings no new quorum and leaves the phase, or a proposal is made; or it ends with a
quorum and in the phase that follows it. -/
theorem step_phase {op : Op} (hop : op.KeepsView) :
    (((e.step env s op).state = s.state ∨
        s.state = .propose ∧ (e.step env s op).state = .preVote) ∧
      ∀ t, e.threshold ≤ ((e.step env s op).voters t).card → e.threshold ≤ (s.voters t).card) ∨
    ∃ t : VoteType, e.threshold ≤ ((e.step env s op).voters t).card ∧
      (e.step env s op).state = t.phase := by
  cases op with
  | propose block qc =>
    refine .inl ⟨?_, fun t hq => ?_⟩
    · by_cases hstate : s.state = .propose
      · exact .inr ⟨hstate, by simp [step, propose, hstate]⟩
      · exact .inl (by simp [step, propose, hstate])
    · rwa [step, voters_congr (propose_same (e := e) block qc s).2.2] at hq
  | receive t vote now =>
    rcases receive_cases env e t vote now s with ⟨-, msg, heq⟩ | ⟨ha, hr, heq⟩ | ⟨-, hr, heq⟩
    · refine .inl ⟨.inl (by rw [step, heq]), fun u hq => ?_⟩
      rwa [step, heq] at hq
    · refine .inl ⟨.inl (by rw [step, heq]; rfl), fun u hq => ?_⟩
      rw [step, heq] at hq
      by_cases hu : u = t
      · subst hu
        exact absurd hq hr
      · have hsub : (s.record vote).voters u ⊆ s.voters u :=
          voters_record_ne (ha.2.2.symm ▸ hu)
        exact hq.trans (Finset.card_le_card hsub)
    · refine .inr ⟨t, ?_, ?_⟩
      · rw [step, heq, voters_congr certify_votes]
        exact hr
      · rw [step, heq]
        cases t <;> rfl
  | _ => cases hop

/-- The validators whose last vote is of type `t` are a quorum. -/
def HasLastQuorum (e : ConsensusEngine) (height : UInt64) (round : UInt32) (t : VoteType)
    (ops : List Op) : Prop := e.threshold ≤ (lastVoters height round ops t).card

instance : Decidable (e.HasLastQuorum height round t ops) := Nat.decLe _ _

theorem hasLastQuorum_iff (env : Env) (s : Consensus) (hops : ∀ op ∈ ops, op.KeepsView) :
    e.HasLastQuorum height round t ops ↔
    e.threshold ≤ ((e.runView env s height round ops).voters t).card := by
  rw [HasLastQuorum, (holds_runView hops).voters]

theorem runView_phase (env : Env) (s : Consensus) (hops : ∀ op ∈ ops, op.KeepsView) {op : Op}
    (hop : op.KeepsView) :
    (((e.runView env s height round (ops ++ [op])).state =
          (e.runView env s height round ops).state ∨
        (e.runView env s height round ops).state = .propose ∧
          (e.runView env s height round (ops ++ [op])).state = .preVote) ∧
      ∀ t, e.HasLastQuorum height round t (ops ++ [op]) → e.HasLastQuorum height round t ops) ∨
    ∃ t : VoteType, e.HasLastQuorum height round t (ops ++ [op]) ∧
      (e.runView env s height round (ops ++ [op])).state = t.phase := by
  have hops' : ∀ op' ∈ ops ++ [op], op'.KeepsView := by
    intro op' hop'
    rcases List.mem_append.mp hop' with hbefore | hlast
    · exact hops op' hbefore
    · exact List.mem_singleton.mp hlast ▸ hop
  simp only [hasLastQuorum_iff env s hops, hasLastQuorum_iff env s hops', runView_concat]
  exact step_phase hop

theorem not_hasLastQuorum_nil (hpos : 0 < e.threshold) : ¬ e.HasLastQuorum height round t [] := by
  simpa [HasLastQuorum, lastVoters, taken] using hpos.ne'

/-- Only votes of active validators are taken in. -/
def ActiveVotes (e : ConsensusEngine) (height : UInt64) (round : UInt32) (ops : List Op) : Prop :=
  VotesOf e.activeIds height round ops

instance : Decidable (e.ActiveVotes height round ops) :=
  inferInstanceAs (Decidable (VotesOf e.activeIds height round ops))

section

variable {ids : Finset (Bytes 32)}

theorem HasLastQuorum.eq (hfew : ids.card < 2 * e.threshold)
    (hvotes : VotesOf ids height round ops) {u : VoteType}
    (ht : e.HasLastQuorum height round t ops) (hu : e.HasLastQuorum height round u ops) :
    t = u := by
  by_contra hne
  have hboth : lastVoters height round ops t ∪ lastVoters height round ops u ⊆ ids :=
    Finset.union_subset hvotes.lastVoters_subset hvotes.lastVoters_subset
  have hcard := Finset.card_le_card hboth
  rw [Finset.card_union_of_disjoint (lastVoters_disjoint hne)] at hcard
  unfold HasLastQuorum at ht hu
  omega

/-- Whatever has a quorum, the engine is in the phase that follows it. -/
theorem state_of_hasLastQuorum (hpos : 0 < e.threshold)
    (hfew : ids.card < 2 * e.threshold) (hops : ∀ op ∈ ops, op.KeepsView)
    (hvotes : VotesOf ids height round ops) (h : e.HasLastQuorum height round t ops) :
    (e.runView env s height round ops).state = t.phase := by
  induction ops using List.reverseRecOn with
  | nil => exact absurd h (not_hasLastQuorum_nil hpos)
  | append_singleton ops op ih =>
    have hbefore : ∀ op ∈ ops, op.KeepsView := fun op hop => hops op (List.mem_append_left _ hop)
    rcases runView_phase env s hbefore (hops op (by simp)) with
      ⟨hstate, hquorum⟩ | ⟨u, hu, hstate⟩
    · have hphase := ih hbefore (hvotes.of_prefix (List.prefix_append ops [op])) (hquorum t h)
      rcases hstate with hsame | ⟨hpropose, -⟩
      · rw [hsame, hphase]
      · rw [hphase] at hpropose
        cases t <;> cases hpropose
    · rw [hstate, h.eq hfew hvotes hu]

theorem state_concat_iff (hpos : 0 < e.threshold) (hfew : ids.card < 2 * e.threshold)
    {op : Op} (hops : ∀ op' ∈ ops ++ [op], op'.KeepsView)
    (hvotes : VotesOf ids height round (ops ++ [op])) :
    (e.runView env s height round (ops ++ [op])).state = t.phase ↔
      e.HasLastQuorum height round t (ops ++ [op]) ∨
        (e.runView env s height round ops).state = t.phase ∧
          ¬ e.HasLastQuorum height round t.other (ops ++ [op]) := by
  have hquorum {u : VoteType} (hu : e.HasLastQuorum height round u (ops ++ [op])) :
      (e.runView env s height round (ops ++ [op])).state = u.phase :=
    state_of_hasLastQuorum hpos hfew hops hvotes hu
  have hbefore : ∀ op' ∈ ops, op'.KeepsView := fun op' hop => hops op' (List.mem_append_left _ hop)
  constructor
  · intro hstate
    rcases runView_phase env s hbefore (hops op (by simp)) with
      ⟨hsame | ⟨-, hprevote⟩, -⟩ | ⟨u, hu, hphase⟩
    · refine .inr ⟨hsame.symm.trans hstate, fun hother => ?_⟩
      exact t.other_ne (VoteType.phase_inj.mp ((hquorum hother).symm.trans hstate))
    · rw [hprevote] at hstate
      cases t <;> cases hstate
    · rw [hphase, VoteType.phase_inj] at hstate
      exact .inl (hstate ▸ hu)
  · rintro (ht | ⟨hstate, hother⟩)
    · exact hquorum ht
    · rcases runView_phase env s hbefore (hops op (by simp)) with
        ⟨hsame | ⟨hpropose, -⟩, -⟩ | ⟨u, hu, hphase⟩
      · exact hsame.trans hstate
      · rw [hstate] at hpropose
        cases t <;> cases hpropose
      · have hut : u = t := VoteType.eq_of_ne t.other_ne.symm fun hu' => hother (hu' ▸ hu)
        rw [hphase, hut]

end

theorem activeIds_few (validators : List Validator) (viewTimeoutMs : UInt64) :
    (new validators viewTimeoutMs).activeIds.card <
      2 * (new validators viewTimeoutMs).threshold := by
  refine Nat.lt_of_le_of_lt (List.toFinset_card_le _) ?_
  rw [List.length_map]
  exact superMajority_meets _

/-- In a view in which only active validators vote, the engine is in the phase after a quorum
just when their last votes were that quorum at some point, and were not the other one since. -/
theorem state_runView_iff (env : Env) (validators : List Validator) (viewTimeoutMs : UInt64)
    (s : Consensus) (height : UInt64) (round : UInt32) (ops : List Op)
    (hops : ∀ op ∈ ops, op.KeepsView)
    (hactive : (new validators viewTimeoutMs).ActiveVotes height round ops) (t : VoteType) :
    let e := new validators viewTimeoutMs
    (e.runView env s height round ops).state = t.phase ↔
      ∃ before, before <+: ops ∧ e.HasLastQuorum height round t before ∧
        ∀ later, before <+: later → later <+: ops →
          ¬ e.HasLastQuorum height round t.other later := by
  intro e
  have hpos : 0 < e.threshold := superMajority_pos _
  have hfew : e.activeIds.card < 2 * e.threshold := activeIds_few validators viewTimeoutMs
  have hstart : (e.runView env s height round []).state ≠ t.phase := by
    cases t <;> simp [runView, startNewView, VoteType.phase]
  rw [latch_iff (fun ops => (e.runView env s height round ops).state = t.phase)
    (e.HasLastQuorum height round t) (e.HasLastQuorum height round t.other)
    (iff_of_false hstart (not_hasLastQuorum_nil hpos)) fun before op hbefore =>
      state_concat_iff hpos hfew (fun op' hop => hops op' (hbefore.subset hop))
        (hactive.of_prefix hbefore)]
  constructor
  · rintro ⟨before, hbefore, hset, hkept⟩
    refine ⟨before, hbefore, hset, fun later hfrom hlater => ?_⟩
    by_cases heq : later = before
    · subst heq
      intro hother
      exact t.other_ne (hother.eq hfew (hactive.of_prefix hbefore) hset)
    · exact hkept later hfrom heq hlater
  · rintro ⟨before, hbefore, hset, hkept⟩
    exact ⟨before, hbefore, hset, fun later hfrom _ hlater => hkept later hfrom hlater⟩

/-- One of four validators precommits at first and then prevotes with two others. -/
theorem state_runView_iff_changed :
    let e := new (Sample.validators 4) 3000
    let call i t := Op.receive t (Sample.vote i t 1) 0
    let ops := [call 0 .preCommit, call 0 .preVote, call 1 .preVote, call 2 .preVote]
    (e.runView Sample.env .initial 0 0 ops).state = .preCommit := by
  intro e call ops
  refine (state_runView_iff Sample.env (Sample.validators 4) 3000 .initial 0 0 ops ?_ ?_
    .preVote).mpr ⟨ops, List.prefix_rfl, by decide, fun later hfrom hlater => ?_⟩
  · simp [ops, call, Op.KeepsView]
  · decide
  · obtain rfl := hlater.eq_of_length_le hfrom.length_le
    decide

-- ---------------------------------------------------------------------------
-- Faulty validators
-- ---------------------------------------------------------------------------

theorem certificate_of_finalized (hops : ∀ op ∈ ops, op.KeepsView)
    (h : (e.runView env s height round ops).state = .finalized) :
    ∃ qc, (e.runView env s height round ops).precommitQc = some qc ∧ qc.height = height ∧
      qc.round = round ∧ qc.voteType = .preCommit := by
  induction ops using List.reverseRecOn with
  | nil => cases h
  | append_singleton ops op ih =>
    have hbefore : ∀ op' ∈ ops, op'.KeepsView := fun op' hop =>
      hops op' (List.mem_append_left _ hop)
    have hheld : Holds height round ops (e.runView env s height round ops) := holds_runView hbefore
    obtain ⟨hheight, hround⟩ := hheld.view
    rw [runView_concat] at h ⊢
    generalize e.runView env s height round ops = s at *
    cases op with
    | propose block qc =>
      rw [step, propose] at h ⊢
      split at h
      · rename_i hstate
        rw [if_pos hstate]
        exact ih hbefore h
      · cases h
    | receive t vote now =>
      rcases receive_cases env e t vote now s with ⟨-, msg, heq⟩ | ⟨-, -, heq⟩ | ⟨-, -, heq⟩
      · rw [step, heq] at h ⊢
        exact ih hbefore h
      · rw [step, heq] at h ⊢
        exact ih hbefore h
      · rw [step, heq] at h ⊢
        cases t with
        | preVote => cases h
        | preCommit => exact ⟨_, rfl, by simpa using hheight, by simpa using hround, by simp⟩
    | _ => exact (hops _ (List.mem_append_right ops (List.mem_singleton_self _))).elim

theorem activeIds_union_few {validators : List Validator} (viewTimeoutMs : UInt64)
    (hsome : 0 < (active validators).length) {faulty : Finset (Bytes 32)}
    (hfaulty : faulty.card ≤ ((active validators).length - 1) / 3) :
    ((new validators viewTimeoutMs).activeIds ∪ faulty).card <
      2 * (new validators viewTimeoutMs).threshold := by
  have hids : (new validators viewTimeoutMs).activeIds.card ≤ (active validators).length :=
    (List.toFinset_card_le _).trans (List.length_map _).le
  have hunion := Finset.card_union_le (new validators viewTimeoutMs).activeIds faulty
  have hthreshold : (new validators viewTimeoutMs).threshold =
      (active validators).length * 2 / 3 + 1 := rfl
  omega

/-- Whatever came before the view: if the voters that are no active validators, or active but
faulty, are at most a third of the active validators, and the last vote of each other active
one is a precommit, the view is finalized with a certificate of its own, and can be committed. -/
theorem finalized_of_precommits (env : Env) (validators : List Validator) (viewTimeoutMs : UInt64)
    (hsome : 0 < (active validators).length)
    (hdistinct : ((active validators).map Validator.id).Nodup) (s : Consensus) (height : UInt64)
    (round : UInt32) (ops : List Op) (hops : ∀ op ∈ ops, op.KeepsView)
    (faulty : Finset (Bytes 32)) (hfaulty : faulty.card ≤ ((active validators).length - 1) / 3)
    (hvotes : VotesOf ((new validators viewTimeoutMs).activeIds ∪ faulty) height round ops)
    (hvoted : ∀ v ∈ active validators, v.id ∉ faulty → ∃ vote,
      lastVote height round ops v.id = some vote ∧ vote.voteType = .preCommit) :
    let s' := (new validators viewTimeoutMs).runView env s height round ops
    s'.state = .finalized ∧
      (∃ qc, s'.precommitQc = some qc ∧ qc.height = height ∧ qc.round = round ∧
        qc.voteType = .preCommit) ∧
      ∀ qc, (commit qc s').1 = .ok () := by
  intro s'
  have hquorum : (new validators viewTimeoutMs).HasLastQuorum height round .preCommit ops := by
    have hsub : (new validators viewTimeoutMs).activeIds \ faulty ⊆
        lastVoters height round ops .preCommit := by
      intro id hid
      obtain ⟨hmem, hsound⟩ := Finset.mem_sdiff.mp hid
      obtain ⟨v, hv, rfl⟩ := List.mem_map.mp (List.mem_toFinset.mp hmem)
      exact mem_lastVoters.mpr (hvoted v hv hsound)
    have hids : (new validators viewTimeoutMs).activeIds.card = (active validators).length :=
      (List.toFinset_card_of_nodup hdistinct).trans (List.length_map _)
    have hmost := superMajority_le_sub hsome
    have hcard := Finset.card_le_card hsub
    have hsplit := Finset.le_card_sdiff faulty (new validators viewTimeoutMs).activeIds
    have hthreshold : (new validators viewTimeoutMs).threshold =
        superMajority (active validators).length := rfl
    unfold HasLastQuorum
    omega
  have hstate : s'.state = .finalized := state_of_hasLastQuorum (superMajority_pos _)
    (activeIds_union_few viewTimeoutMs hsome hfaulty) hops hvotes hquorum
  exact ⟨hstate, certificate_of_finalized hops hstate, fun qc => by simp [commit, hstate]⟩

/-- Four validators precommit, one of them after a prevote, and one that is not among them
prevotes in between. -/
theorem finalized_of_precommits_foreign :
    let e := new (Sample.validators 4) 3000
    let call i t := Op.receive t (Sample.vote i t 1) 0
    let ops := [call 1 .preCommit, call 0 .preVote, call 2 .preCommit, call 3 .preCommit,
      call 9 .preVote, call 0 .preCommit, call 9 .preVote]
    (e.runView Sample.env .initial 0 0 ops).state = .finalized := by
  intro e call ops
  refine (finalized_of_precommits Sample.env (Sample.validators 4) 3000 (by decide) (by decide)
    .initial 0 0 ops ?_ {Sample.id 9} (by decide) (by decide) ?_).1
  · simp [ops, call, Op.KeepsView]
  · have hlast : ∀ v ∈ active (Sample.validators 4), v.id ∉ ({Sample.id 9} : Finset (Bytes 32)) →
        (lastVote 0 0 ops v.id).map Vote.voteType = some .preCommit := by decide
    exact fun v hv hsound => Option.map_eq_some_iff.mp (hlast v hv hsound)

end ConsensusEngine

end LiteVision.Truth
