import LiteVision.Truth.Consensus.Votes

/-!
# Delivery order

All votes of one view are delivered in some order to an engine that has just
entered the view. A validator that both prevotes and precommits keeps only the
vote delivered last. What the engine shows afterwards does not depend on the
order exactly when neither count rests on such validators.
-/

namespace LiteVision.Truth

open Lib

namespace ConsensusEngine

open Consensus

variable (env : Env) (e : ConsensusEngine)

def deliver (s : Consensus) (calls : List (Vote × UInt64)) : Consensus :=
  calls.foldl (fun s call => (e.receiveVote env call.1 call.2 s).2) s

def slot (s : Consensus) : VoteType → Option QuorumCertificate
  | .preVote => s.prevoteQc
  | .preCommit => s.precommitQc

/-- The quorums an engine reports and the certificates it holds. -/
def shown (s : Consensus) : Bool × Bool × Bool × Bool :=
  (e.hasQuorum .preVote s, e.hasQuorum .preCommit s, s.prevoteQc.isSome, s.precommitQc.isSome)

def castersOf (t : VoteType) (votes : List Vote) : Finset (Bytes 32) :=
  ((votes.filter fun v => v.voteType = t).map Vote.validatorId).toFinset

/-- The votes of type `t` reach the threshold without the validators that also
cast the type `u`, or do not reach it at all. -/
def Settled (t u : VoteType) (votes : List Vote) : Prop :=
  e.threshold ≤ (castersOf t votes \ castersOf u votes).card ∨
    (castersOf t votes).card < e.threshold

def OrderIndependent (s : Consensus) (height : UInt64) (round : UInt32) (votes : List Vote) : Prop :=
  ∀ calls calls' : List (Vote × UInt64),
    (calls.map Prod.fst).Perm votes → (calls'.map Prod.fst).Perm votes →
    e.shown (e.deliver env (e.startNewView height round s) calls) =
      e.shown (e.deliver env (e.startNewView height round s) calls')

section
variable {env e}

theorem mem_castersOf {t : VoteType} {votes : List Vote} {id : Bytes 32} :
    id ∈ castersOf t votes ↔ ∃ v ∈ votes, v.voteType = t ∧ v.validatorId = id := by
  simp [castersOf, and_assoc]

theorem castersOf_perm {t : VoteType} {votes votes' : List Vote} (h : votes.Perm votes') :
    castersOf t votes = castersOf t votes' := by
  ext id
  simp only [mem_castersOf, h.mem_iff]

theorem castersOf_append (t : VoteType) (votes votes' : List Vote) :
    castersOf t (votes ++ votes') = castersOf t votes ∪ castersOf t votes' := by
  ext id
  simp only [mem_castersOf, Finset.mem_union, List.mem_append]
  constructor
  · rintro ⟨v, hv | hv, h⟩
    · exact .inl ⟨v, hv, h⟩
    · exact .inr ⟨v, hv, h⟩
  · rintro (⟨v, hv, h⟩ | ⟨v, hv, h⟩)
    · exact ⟨v, .inl hv, h⟩
    · exact ⟨v, .inr hv, h⟩

theorem castersOf_eq_empty {t : VoteType} (votes : List Vote) (h : ∀ v ∈ votes, v.voteType ≠ t) :
    castersOf t votes = ∅ := by
  refine Finset.eq_empty_of_forall_notMem fun id hid => ?_
  obtain ⟨v, hv, ht, -⟩ := mem_castersOf.mp hid
  exact h v hv ht

theorem deliver_concat (s : Consensus) (calls : List (Vote × UInt64)) (call : Vote × UInt64) :
    e.deliver env s (calls ++ [call]) =
      (e.receiveVote env call.1 call.2 (e.deliver env s calls)).2 := by
  simp [deliver]

theorem hasQuorum_iff {t : VoteType} {s : Consensus} :
    e.hasQuorum t s = true ↔ e.threshold ≤ (s.voters t).card := by
  rw [hasQuorum, countVotes_eq]
  exact decide_eq_true_iff

theorem slot_certify {s : Consensus} {t u : VoteType} {qc : QuorumCertificate} {now : UInt64} :
    slot (s.certify u qc now) t = if t = u then some qc else slot s t := by
  cases t <;> cases u <;> rfl

theorem slot_record {s : Consensus} {t : VoteType} {vote : Vote} :
    slot (s.record vote) t = slot s t := by
  cases t <;> rfl

variable (env e) in
/-- One delivery of a vote of the view: the vote is stored, and the slot of its
type is filled if the count is reached. -/
theorem receiveVote_spec {s : Consensus} {vote : Vote} (now : UInt64)
    (hh : vote.height = s.height) (hr : vote.round = s.round) :
    let s' := (e.receiveVote env vote now s).2
    s'.height = s.height ∧ s'.round = s.round ∧ s'.votes = (s.record vote).votes ∧
      (∀ t, t ≠ vote.voteType → slot s' t = slot s t) ∧
      (e.threshold ≤ (s'.voters vote.voteType).card → (slot s' vote.voteType).isSome) ∧
      ((s'.voters vote.voteType).card < e.threshold → slot s' vote.voteType = slot s vote.voteType) := by
  intro s'
  have heq : s' = (e.receive env vote.voteType vote now s).2 := rfl
  rw [receive_admitted env e ⟨hh, hr, rfl⟩] at heq
  clear_value s'
  have hvoters : e.Reaches vote.voteType vote s ↔
      e.threshold ≤ ((s.record vote).voters vote.voteType).card := Iff.rfl
  by_cases hq : e.Reaches vote.voteType vote s
  · rw [if_pos hq] at heq
    subst heq
    refine ⟨by simp, by simp, by simp, fun t ht => ?_, fun _ => ?_, fun hlt => ?_⟩
    · rw [slot_certify, if_neg ht, slot_record]
    · rw [slot_certify, if_pos rfl]; rfl
    · exact absurd (hvoters.mp hq) (not_le.mpr (by simpa [voters] using hlt))
  · rw [if_neg hq] at heq
    subst heq
    refine ⟨rfl, rfl, rfl, fun t ht => slot_record, fun hle => ?_, fun _ => slot_record⟩
    exact absurd (hvoters.mpr hle) hq

theorem voters_congr {s s' : Consensus} (h : s'.votes = s.votes) (t : VoteType) :
    s'.voters t = s.voters t := by
  simp only [voters, h]

theorem voters_record_ne {s : Consensus} {vote : Vote} {t : VoteType} (h : t ≠ vote.voteType) :
    (s.record vote).voters t ⊆ s.voters t := by
  rw [voters, record_votes, Map.holders_insert_of_neg _ _ (by simpa using h.symm)]
  exact Finset.erase_subset _ _

/-- What delivering votes of the view leaves, told by the votes alone. -/
structure Delivered (e : ConsensusEngine) (s₀ s : Consensus) (votes : List Vote) : Prop where
  view : s.height = s₀.height ∧ s.round = s₀.round
  stored : ∀ id v, s.votes.get id = some v → v ∈ votes ∧ v.validatorId = id
  kept : ∀ v ∈ votes, ∃ w, s.votes.get v.validatorId = some w
  filled : ∀ t, e.threshold ≤ (s.voters t).card → (slot s t).isSome
  unfilled : ∀ t, (castersOf t votes).card < e.threshold → slot s t = slot s₀ t

theorem Delivered.voters_subset {s₀ s : Consensus} {votes : List Vote} (h : Delivered e s₀ s votes)
    (t : VoteType) : s.voters t ⊆ castersOf t votes := by
  intro id hid
  obtain ⟨v, hv, ht⟩ := mem_voters.mp hid
  obtain ⟨hmem, hvid⟩ := h.stored id v hv
  exact mem_castersOf.mpr ⟨v, hmem, ht, hvid⟩

theorem Delivered.subset_voters {s₀ s : Consensus} {votes : List Vote} (h : Delivered e s₀ s votes)
    {t u : VoteType} (htu : t ≠ u) : castersOf t votes \ castersOf u votes ⊆ s.voters t := by
  intro id hid
  obtain ⟨ht, hu⟩ := Finset.mem_sdiff.mp hid
  obtain ⟨v, hv, -, rfl⟩ := mem_castersOf.mp ht
  obtain ⟨w, hw⟩ := h.kept v hv
  obtain ⟨hmem, hwid⟩ := h.stored _ w hw
  -- the stored vote is of one of the two types, and not of type `u`
  have hwt : w.voteType = t :=
    VoteType.eq_of_ne htu fun hwu => hu (mem_castersOf.mpr ⟨w, hmem, hwu, hwid⟩)
  exact mem_voters.mpr ⟨w, hw, hwt⟩

variable (env e) in
theorem delivered_deliver {s₀ : Consensus} (hempty : s₀.votes = .empty) (hpos : 0 < e.threshold)
    (calls : List (Vote × UInt64))
    (hview : ∀ v ∈ calls.map Prod.fst, v.height = s₀.height ∧ v.round = s₀.round) :
    Delivered e s₀ (e.deliver env s₀ calls) (calls.map Prod.fst) := by
  induction calls using List.reverseRecOn with
  | nil =>
    refine ⟨⟨rfl, rfl⟩, fun id v hv => ?_, fun v hv => by simp at hv, fun t ht => ?_,
      fun t _ => rfl⟩
    · simp [deliver, hempty] at hv
    · simp [deliver, voters, hempty] at ht
      omega
  | append_singleton calls call ih =>
    obtain ⟨vote, now⟩ := call
    have hd := ih fun v hv => hview v (by simp at hv ⊢; exact .inl hv)
    have hvote := hview vote (by simp)
    obtain ⟨hh, hr, hvotes, hother, hreach, hmiss⟩ := receiveVote_spec env e now
      (hvote.1.trans hd.view.1.symm) (hvote.2.trans hd.view.2.symm)
    rw [deliver_concat]
    rw [List.map_append, List.map_singleton]
    generalize e.deliver env s₀ calls = s at *
    generalize (e.receiveVote env vote now s).2 = s' at *
    refine ⟨⟨hh.trans hd.view.1, hr.trans hd.view.2⟩, fun id v hv => ?_, fun v hv => ?_,
      fun t ht => ?_, fun t ht => ?_⟩
    · rw [hvotes, record_votes] at hv
      rcases Map.of_get_insert hv with ⟨rfl, rfl⟩ | ⟨-, hold⟩
      · exact ⟨by simp, rfl⟩
      · obtain ⟨hmem, hid⟩ := hd.stored id v hold
        exact ⟨List.mem_append_left _ hmem, hid⟩
    · rw [hvotes, record_votes, Map.get_insert]
      split
      · exact ⟨vote, rfl⟩
      · rename_i hid
        rcases List.mem_append.mp hv with hv | hv
        · exact hd.kept v hv
        · exact absurd (by rw [List.mem_singleton.mp hv]) hid
    · by_cases htype : t = vote.voteType
      · exact htype ▸ hreach (htype ▸ ht)
      · rw [hother t htype]
        refine hd.filled t (ht.trans (Finset.card_le_card ?_))
        rw [voters_congr hvotes]
        exact voters_record_ne htype
    · have hle : (castersOf t (calls.map Prod.fst)).card < e.threshold :=
        lt_of_le_of_lt (Finset.card_le_card
          (by rw [castersOf_append]; exact Finset.subset_union_left)) ht
      by_cases htype : t = vote.voteType
      · subst htype
        rw [← hd.unfilled _ hle]
        refine hmiss (lt_of_le_of_lt (Finset.card_le_card fun id hid => ?_) ht)
        rw [voters_congr hvotes] at hid
        obtain ⟨v, hv, hvt⟩ := mem_voters.mp hid
        rw [record_votes] at hv
        rcases Map.of_get_insert hv with ⟨rfl, -⟩ | ⟨-, hold⟩
        · exact mem_castersOf.mpr ⟨vote, by simp, rfl, rfl⟩
        · obtain ⟨hmem, hvid⟩ := hd.stored id v hold
          exact mem_castersOf.mpr ⟨v, List.mem_append_left _ hmem, hvt, hvid⟩
      · rw [hother t htype]
        exact hd.unfilled t hle

variable (env e) in
/-- With the votes of type `t` delivered last, those are the ones that stay. -/
theorem voters_of_last {s₀ : Consensus} (hempty : s₀.votes = .empty) (hpos : 0 < e.threshold)
    (first last : List (Vote × UInt64)) (t : VoteType)
    (hlast : ∀ v ∈ last.map Prod.fst, v.voteType = t)
    (hview : ∀ v ∈ (first ++ last).map Prod.fst, v.height = s₀.height ∧ v.round = s₀.round) :
    castersOf t (last.map Prod.fst) ⊆ (e.deliver env s₀ (first ++ last)).voters t := by
  induction last using List.reverseRecOn with
  | nil => simp [castersOf]
  | append_singleton last call ih =>
    obtain ⟨vote, now⟩ := call
    rw [← List.append_assoc] at hview ⊢
    have hinit : ∀ v ∈ (first ++ last).map Prod.fst, v.height = s₀.height ∧ v.round = s₀.round :=
      fun v hv => hview v (by rw [List.map_append]; exact List.mem_append_left _ hv)
    have hsub := ih (fun v hv => hlast v (by rw [List.map_append]; exact List.mem_append_left _ hv))
      hinit
    have hd := delivered_deliver env e hempty hpos (first ++ last) hinit
    have hvote := hview vote (by simp)
    obtain ⟨-, -, hvotes, -⟩ := receiveVote_spec env e now
      (hvote.1.trans hd.view.1.symm) (hvote.2.trans hd.view.2.symm)
    have ht : vote.voteType = t := hlast vote (by simp)
    rw [deliver_concat, voters_congr hvotes, voters, record_votes,
      Map.holders_insert_of_pos _ _ (by simpa using ht), List.map_append, castersOf_append]
    refine Finset.union_subset (hsub.trans (Finset.subset_insert _ _)) fun id hid => ?_
    obtain ⟨v, hv, -, rfl⟩ := mem_castersOf.mp hid
    rw [List.map_singleton, List.mem_singleton] at hv
    exact hv ▸ Finset.mem_insert_self _ _

theorem voters_disjoint {s : Consensus} {t u : VoteType} (htu : t ≠ u) {id : Bytes 32}
    (ht : id ∈ s.voters t) : id ∉ s.voters u := by
  intro hu
  obtain ⟨v, hv, hvt⟩ := mem_voters.mp ht
  obtain ⟨w, hw, hwu⟩ := mem_voters.mp hu
  obtain rfl : v = w := Option.some.inj (hv.symm.trans hw)
  exact htu (hvt.symm.trans hwu)

theorem Delivered.hasQuorum {s₀ s : Consensus} {votes : List Vote} (h : Delivered e s₀ s votes)
    {t u : VoteType} (htu : t ≠ u) (hs : e.Settled t u votes) :
    e.hasQuorum t s = decide (e.threshold ≤ (castersOf t votes).card) := by
  rw [Bool.eq_iff_iff, hasQuorum_iff, decide_eq_true_iff]
  refine ⟨fun hq => hq.trans (Finset.card_le_card (h.voters_subset t)), fun hq => ?_⟩
  rcases hs with hs | hs
  · exact hs.trans (Finset.card_le_card (h.subset_voters htu))
  · exact absurd hq (not_le.mpr hs)

theorem Delivered.slot {s₀ s : Consensus} {votes : List Vote} (h : Delivered e s₀ s votes)
    {t u : VoteType} (htu : t ≠ u) (hs : e.Settled t u votes) :
    (slot s t).isSome =
      (decide (e.threshold ≤ (castersOf t votes).card) || (ConsensusEngine.slot s₀ t).isSome) := by
  rcases hs with hs | hs
  · have hle := hs.trans (Finset.card_le_card Finset.sdiff_subset)
    rw [h.filled t (hs.trans (Finset.card_le_card (h.subset_voters htu))), decide_eq_true hle,
      Bool.true_or]
  · rw [h.unfilled t hs, decide_eq_false (not_le.mpr hs), Bool.false_or]

/-- The votes of `votes` of type `t`, then those of the other type, at time 0. -/
def ordered (t : VoteType) (votes : List Vote) : List (Vote × UInt64) × List (Vote × UInt64) :=
  ((votes.filter fun v => v.voteType = t).map (·, 0),
    (votes.filter fun v => ¬ v.voteType = t).map (·, 0))

theorem ordered_perm (t : VoteType) (votes : List Vote) :
    (((ordered t votes).1 ++ (ordered t votes).2).map Prod.fst).Perm votes := by
  have h := List.filter_append_perm (fun v : Vote => decide (v.voteType = t)) votes
  simpa [ordered, Function.comp_def] using h

theorem settled_of_orderIndependent (hpos : 0 < e.threshold) {s : Consensus} {height : UInt64}
    {round : UInt32} {votes : List Vote}
    (hview : ∀ v ∈ votes, v.height = height ∧ v.round = round)
    (hindep : e.OrderIndependent env s height round votes) {t u : VoteType} (htu : t ≠ u) :
    e.Settled t u votes := by
  by_contra hns
  rw [Settled, not_or, not_le, not_lt] at hns
  obtain ⟨hfew, hmany⟩ := hns
  let s₀ := e.startNewView height round s
  have hclear : s₀.votes = .empty := rfl
  let first := (ordered t votes).1
  let last := (ordered t votes).2
  have hperm : ((first ++ last).map Prod.fst).Perm votes := ordered_perm t votes
  have hperm' : ((last ++ first).map Prod.fst).Perm votes :=
    (List.perm_append_comm.map Prod.fst).trans hperm
  have hv : ∀ v ∈ (first ++ last).map Prod.fst, v.height = s₀.height ∧ v.round = s₀.round :=
    fun v hv => hview v (hperm.mem_iff.mp hv)
  have hv' : ∀ v ∈ (last ++ first).map Prod.fst, v.height = s₀.height ∧ v.round = s₀.round :=
    fun v hv => hview v (hperm'.mem_iff.mp hv)
  have htype : ∀ v ∈ first.map Prod.fst, v.voteType = t := by
    intro v hv
    simp only [first, ordered, List.map_map, List.mem_map, List.mem_filter, decide_eq_true_eq,
      Function.comp_apply] at hv
    obtain ⟨w, ⟨-, hw⟩, rfl⟩ := hv
    exact hw
  have htype' : ∀ v ∈ last.map Prod.fst, v.voteType = u := by
    intro v hv
    simp only [last, ordered, List.map_map, List.mem_map, List.mem_filter, decide_eq_true_eq,
      Function.comp_apply] at hv
    obtain ⟨w, ⟨-, hw⟩, rfl⟩ := hv
    exact VoteType.eq_of_ne htu.symm hw
  have hu : castersOf u votes = castersOf u (last.map Prod.fst) := by
    rw [← castersOf_perm hperm, List.map_append, castersOf_append,
      castersOf_eq_empty (first.map Prod.fst) fun v hv => htype v hv ▸ htu, Finset.empty_union]
  have ht : castersOf t votes = castersOf t (first.map Prod.fst) := by
    rw [← castersOf_perm hperm, List.map_append, castersOf_append,
      castersOf_eq_empty (last.map Prod.fst) fun v hv => htype' v hv ▸ htu.symm, Finset.union_empty]
  -- with the other type last, only the validators that cast no other vote remain
  have hlast := voters_of_last env e hclear hpos first last u htype' hv
  have hd := delivered_deliver env e hclear hpos (first ++ last) hv
  have hno : e.hasQuorum t (e.deliver env s₀ (first ++ last)) = false := by
    rw [Bool.eq_false_iff, ne_eq, hasQuorum_iff, not_le]
    refine lt_of_le_of_lt (Finset.card_le_card fun id hid => ?_) hfew
    rw [Finset.mem_sdiff, ← castersOf_perm hperm]
    refine ⟨hd.voters_subset t hid, fun hidu => voters_disjoint htu hid (hlast ?_)⟩
    exact hu ▸ hidu
  -- with type `t` last, all of its voters remain
  have hfirst := voters_of_last env e hclear hpos last first t htype hv'
  have hyes : e.hasQuorum t (e.deliver env s₀ (last ++ first)) = true := by
    rw [hasQuorum_iff]
    exact (ht ▸ hmany).trans (Finset.card_le_card hfirst)
  have hshown := hindep (first ++ last) (last ++ first) hperm hperm'
  rw [shown, shown, Prod.mk.injEq, Prod.mk.injEq] at hshown
  cases t with
  | preVote => exact absurd (hno.symm.trans (hshown.1.trans hyes)) (by simp)
  | preCommit => exact absurd (hno.symm.trans (hshown.2.1.trans hyes)) (by simp)

theorem orderIndependent_of_settled (hpos : 0 < e.threshold) {s : Consensus} {height : UInt64}
    {round : UInt32} {votes : List Vote}
    (hview : ∀ v ∈ votes, v.height = height ∧ v.round = round)
    (hvote : e.Settled .preVote .preCommit votes) (hcommit : e.Settled .preCommit .preVote votes) :
    e.OrderIndependent env s height round votes := by
  have hshown : ∀ calls : List (Vote × UInt64), (calls.map Prod.fst).Perm votes →
      e.shown (e.deliver env (e.startNewView height round s) calls) =
        (decide (e.threshold ≤ (castersOf .preVote votes).card),
          decide (e.threshold ≤ (castersOf .preCommit votes).card),
          decide (e.threshold ≤ (castersOf .preVote votes).card) || s.prevoteQc.isSome,
          decide (e.threshold ≤ (castersOf .preCommit votes).card) || s.precommitQc.isSome) := by
    intro calls hperm
    have hd := delivered_deliver env e (rfl : (e.startNewView height round s).votes = .empty)
      hpos calls fun v hv => hview v (hperm.mem_iff.mp hv)
    have hs : ∀ {t u}, e.Settled t u votes → e.Settled t u (calls.map Prod.fst) := by
      intro t u h
      rwa [Settled, castersOf_perm hperm, castersOf_perm hperm]
    have hpre := hd.slot (t := .preVote) (u := .preCommit) (by simp) (hs hvote)
    have hcom := hd.slot (t := .preCommit) (u := .preVote) (by simp) (hs hcommit)
    simp only [ConsensusEngine.slot, castersOf_perm hperm] at hpre hcom
    rw [shown, hd.hasQuorum (by simp) (hs hvote), hd.hasQuorum (by simp) (hs hcommit),
      castersOf_perm hperm, castersOf_perm hperm, hpre, hcom]
    rfl
  intro calls calls' hperm hperm'
  rw [hshown calls hperm, hshown calls' hperm']

end

/-- Delivery order does not matter just when both counts are settled. -/
theorem vote_order_iff (validators : List Validator) (viewTimeoutMs : UInt64) (s : Consensus)
    (height : UInt64) (round : UInt32) (votes : List Vote)
    (hview : ∀ v ∈ votes, v.height = height ∧ v.round = round) :
    let e := ConsensusEngine.new validators viewTimeoutMs
    e.OrderIndependent env s height round votes ↔
      e.Settled .preVote .preCommit votes ∧ e.Settled .preCommit .preVote votes := by
  intro e
  have hpos : 0 < e.threshold := superMajority_pos _
  constructor
  · intro h
    exact ⟨settled_of_orderIndependent hpos hview h (by simp),
      settled_of_orderIndependent hpos hview h (by simp)⟩
  · rintro ⟨hvote, hcommit⟩
    exact orderIndependent_of_settled hpos hview hvote hcommit

/-- Four validators prevote a block and one of them precommits it, before or
after its prevote. -/
theorem vote_order_iff_four :
    let e := ConsensusEngine.new (Sample.validators 4) 3000
    let s := e.startNewView 0 0 .initial
    let prevotes := (List.range 4).map fun i => (Sample.vote i .preVote 1, 5)
    let precommit := (Sample.vote 3 .preCommit 1, 7)
    e.shown (e.deliver Sample.env s (prevotes ++ [precommit])) =
        e.shown (e.deliver Sample.env s (precommit :: prevotes)) ∧
      e.shown (e.deliver Sample.env s (precommit :: prevotes)) = (true, false, true, false) := by
  intro e s prevotes precommit
  have hsettled : e.OrderIndependent Sample.env .initial 0 0
      ((prevotes ++ [precommit]).map Prod.fst) :=
    (vote_order_iff Sample.env (Sample.validators 4) 3000 .initial 0 0 _ (by decide)).mpr
      ⟨.inl (by decide), .inr (by decide)⟩
  refine ⟨hsettled (prevotes ++ [precommit]) (precommit :: prevotes) (.refl _) ?_, by decide⟩
  exact (List.perm_append_singleton precommit prevotes).symm.map Prod.fst

/-- A lone validator prevotes and precommits a block: the engine reports the
quorum of the vote that came last. -/
theorem vote_order_fails :
    ¬ ∀ (env : Env) (validators : List Validator) (viewTimeoutMs : UInt64) (s : Consensus)
      (height : UInt64) (round : UInt32) (blockHash : Bytes 32) (votes : List Vote),
      (∀ v ∈ votes, v.height = height ∧ v.round = round ∧ v.blockHash = blockHash) →
      (votes.map fun v => (v.validatorId, v.voteType)).Nodup →
      (ConsensusEngine.new validators viewTimeoutMs).OrderIndependent env s height round votes := by
  intro h
  have hindep := h Sample.env (Sample.validators 1) 3000 .initial 0 0 (.fill 32 1)
    [Sample.vote 0 .preVote 1, Sample.vote 0 .preCommit 1] (by decide) (by decide)
  have hs := settled_of_orderIndependent (superMajority_pos _) (by decide) hindep
    (t := .preVote) (u := .preCommit) (by decide)
  revert hs
  simp only [Settled]
  decide

end ConsensusEngine

end LiteVision.Truth
