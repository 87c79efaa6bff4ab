import LiteVision.Truth.Consensus.History

/-!
# Sound certificates

A certificate is sound when a quorum of active validators signed it, with votes
for its own block, view and type. The engine takes certificates in at four
places: the two vote handlers build them, `propose` and `commit` are handed
them. The handlers count the votes of a type for every block but list those for
one block, they do not look at who votes, and the other two check nothing; so
certificates are sound exactly in the runs whose calls are all `SafeCall`s.
-/

namespace LiteVision.Truth

open Lib

namespace ConsensusEngine

open Consensus

variable (env : Env) (e : ConsensusEngine) (cast : Vote → Prop)

def activeIds : Finset (Bytes 32) := ((active e.validators).map Validator.id).toFinset

/-- `cast` are the votes that validators have signed, here or elsewhere. -/
structure Certified (qc : QuorumCertificate) : Prop where
  quorum : ∃ signers ⊆ e.activeIds, e.threshold ≤ signers.card ∧
    ∀ id ∈ signers, ∃ signature, (id, signature) ∈ qc.signatures
  signed : ∀ id signature, (id, signature) ∈ qc.signatures → ∃ vote, cast vote ∧
    vote.validatorId = id ∧ vote.signature = signature ∧ vote.blockHash = qc.blockHash ∧
    vote.height = qc.height ∧ vote.round = qc.round ∧ vote.voteType = qc.voteType

def Stored (s : Consensus) (qc : QuorumCertificate) : Prop :=
  s.prevoteQc = some qc ∨ s.precommitQc = some qc ∨ s.lockedQc = some qc

def Returned (s : Consensus) (op : Op) (qc : QuorumCertificate) : Prop :=
  ∃ t vote now, op = .receive t vote now ∧ (e.receive env t vote now s).1 = .ok (some qc)

/-- A call after which every certificate, returned or stored, is sound. -/
def CertifiedCall (s : Consensus) (op : Op) : Prop :=
  (∀ qc, e.Returned env s op qc → e.Certified cast qc) ∧
  ∀ qc, Stored (e.step env s op) qc → e.Certified cast qc

/-- What keeps the certificates sound, on the call and the state before it. -/
def SafeCall (s : Consensus) : Op → Prop
  | .receive t vote _ => s.Admits t vote → e.Reaches t vote s →
    e.threshold ≤ ((s.record vote).backers t vote.blockHash ∩ e.activeIds).card
  | .propose _ (some qc) => s.state = .propose → e.Certified cast qc
  | .commit qc => s.state = .finalized → e.Certified cast qc
  | _ => True

variable {env e cast}

theorem built_certified {s : Consensus} {t : VoteType} {vote : Vote}
    (hcurrent : s.Current) (hcast : ∀ id v, s.votes.get id = some v → cast v) (hvote : cast vote)
    (ha : s.Admits t vote)
    (hq : e.threshold ≤ ((s.record vote).backers t vote.blockHash ∩ e.activeIds).card) :
    e.Certified cast (e.built env t vote s) where
  quorum := by
    refine ⟨_, Finset.inter_subset_right, hq, ?_⟩
    intro id hid
    obtain ⟨v, hv, ht, hb⟩ := mem_backers.mp (Finset.mem_inter.mp hid).1
    exact ⟨v.signature, mem_certificate.mpr ⟨v, hv, ht, hb, rfl⟩⟩
  signed := by
    intro id signature hmem
    obtain ⟨v, hv, ht, hb, hsig⟩ := mem_certificate.mp hmem
    obtain ⟨hh, hr, hid⟩ := hcurrent.record ha id v hv
    refine ⟨v, ?_, hid, hsig, by simpa using hb, by simpa using hh, by simpa using hr,
      by simpa using ht⟩
    rw [record_votes] at hv
    rcases Map.of_get_insert hv with ⟨-, rfl⟩ | ⟨-, hold⟩
    · exact hvote
    · exact hcast id v hold

theorem built_quorum {s : Consensus} {t : VoteType} {vote : Vote}
    (h : e.Certified cast (e.built env t vote s)) :
    e.threshold ≤ ((s.record vote).backers t vote.blockHash ∩ e.activeIds).card := by
  obtain ⟨signers, hactive, hcard, hsigned⟩ := h.quorum
  refine hcard.trans (Finset.card_le_card fun id hid => Finset.mem_inter.mpr ⟨?_, hactive hid⟩)
  obtain ⟨signature, hmem⟩ := hsigned id hid
  obtain ⟨v, hv, ht, hb, -⟩ := mem_certificate.mp hmem
  exact mem_backers.mpr ⟨v, hv, ht, hb⟩

theorem stored_step {s : Consensus} {op : Op} {qc : QuorumCertificate}
    (h : Stored (e.step env s op) qc) :
    Stored s qc ∨ e.Returned env s op qc ∨
      (∃ block, op = .propose block (some qc) ∧ s.state = .propose) ∨
      (op = .commit qc ∧ s.state = .finalized) := by
  cases op with
  | startNewView height round => exact .inl h
  | propose block parent =>
    by_cases hs : s.state = .propose
    · cases parent with
      | none => exact .inl (by simpa [step, propose, hs, Stored] using h)
      | some parentQc =>
        simp only [step, propose, hs, Stored, ne_eq, not_true_eq_false, if_false,
          Option.some.injEq] at h
        rcases h with h | h | rfl
        · exact .inl (.inl h)
        · exact .inl (.inr (.inl h))
        · exact .inr (.inr (.inl ⟨block, rfl, hs⟩))
    · exact .inl (by simpa [step, propose, hs, Stored] using h)
  | receive t vote now =>
    rcases receive_cases env e t vote now s with ⟨-, msg, heq⟩ | ⟨-, -, heq⟩ | ⟨-, -, heq⟩
    · exact .inl (by simpa [step, heq] using h)
    · simp only [step, heq] at h
      exact .inl h
    · have hret : e.Returned env s (.receive t vote now) (e.built env t vote s) :=
        ⟨t, vote, now, rfl, by rw [heq]⟩
      simp only [step, heq] at h
      cases t with
      | preVote =>
        rcases h with h | h | h
        · obtain rfl : e.built env .preVote vote s = qc := by simpa [certify] using h
          exact .inr (.inl hret)
        · exact .inl (.inr (.inl h))
        · simp only [certify] at h
          split at h
          · exact .inl (.inr (.inr h))
          · obtain rfl : e.built env .preVote vote s = qc := by simpa using h
            exact .inr (.inl hret)
      | preCommit =>
        rcases h with h | h | h
        · exact .inl (.inl h)
        · obtain rfl : e.built env .preCommit vote s = qc := by simpa [certify] using h
          exact .inr (.inl hret)
        · exact .inl (.inr (.inr h))
  | commit given =>
    by_cases hs : s.state = .finalized
    · simp only [step, commit, hs, Stored, ne_eq, not_true_eq_false, if_false,
        Option.some.injEq] at h
      rcases h with h | rfl | h
      · exact .inl (.inl h)
      · exact .inr (.inr (.inr ⟨rfl, hs⟩))
      · exact .inl (.inr (.inr h))
    · exact .inl (by simpa [step, commit, hs, Stored] using h)
  | advanceToNextView => exact .inl h
  | advanceToNextHeight => simp [step, advanceToNextHeight, Stored] at h

/-- What the certificate proofs keep: votes of the view, signed by someone. -/
structure VotesCast (cast : Vote → Prop) (s : Consensus) : Prop where
  current : s.Current
  cast : ∀ id v, s.votes.get id = some v → cast v

theorem votesCast_initial : VotesCast cast .initial where
  current := current_initial
  cast := by intro id v h; simp [initial] at h

theorem votesCast_step {s : Consensus} {op : Op} (h : VotesCast cast s)
    (hop : ∀ t vote now, op = .receive t vote now → cast vote) :
    VotesCast cast (e.step env s op) where
  current := current_step env e s op h.current
  cast := by
    intro id v hget
    rcases step_view env e s op with hv | ⟨hv, -, -⟩ | ⟨t, vote, now, rfl, -, hv, -, -⟩
    · simp [hv] at hget
    · exact h.cast id v (hv ▸ hget)
    · rw [hv, record_votes] at hget
      rcases Map.of_get_insert hget with ⟨-, rfl⟩ | ⟨-, hold⟩
      · exact hop t v now rfl
      · exact h.cast id v hold

variable (env e) in
theorem votesCast_always (ops : List Op) (hcast : ∀ vote ∈ delivered ops, cast vote) :
    Trace.Always (e.step env) (fun s op => VotesCast cast s ∧
      ∀ t vote now, op = .receive t vote now → cast vote) .initial ops := by
  have hops : Trace.Always (e.step env)
      (fun _ op => ∀ t vote now, op = .receive t vote now → cast vote) .initial ops :=
    Trace.always_of_forall_mem fun op hop s t vote now heq =>
      hcast vote (mem_delivered.mpr ⟨t, now, heq ▸ hop⟩)
  exact hops.imp (fun s op hv hop => votesCast_step hv hop) (fun s op hv hop => ⟨hv, hop⟩)
    votesCast_initial

theorem certifiedCall_of_safe {s : Consensus} {op : Op} (h : VotesCast cast s)
    (hop : ∀ t vote now, op = .receive t vote now → cast vote)
    (hstored : ∀ qc, Stored s qc → e.Certified cast qc) (hsafe : e.SafeCall cast s op) :
    e.CertifiedCall env cast s op := by
  have hret : ∀ qc, e.Returned env s op qc → e.Certified cast qc := by
    rintro qc ⟨t, vote, now, rfl, hqc⟩
    obtain ⟨ha, hr, rfl⟩ := receive_some env e hqc
    exact built_certified h.current h.cast (hop t vote now rfl) ha (hsafe ha hr)
  refine ⟨hret, fun qc hqc => ?_⟩
  rcases stored_step hqc with hs | hr | ⟨block, rfl, hs⟩ | ⟨rfl, hs⟩
  · exact hstored qc hs
  · exact hret qc hr
  · exact hsafe hs
  · exact hsafe hs

theorem safe_of_certifiedCall {s : Consensus} {op : Op} (h : e.CertifiedCall env cast s op) :
    e.SafeCall cast s op := by
  cases op with
  | receive t vote now =>
    intro ha hr
    have hret : e.Returned env s (.receive t vote now) (e.built env t vote s) :=
      ⟨t, vote, now, rfl, by rw [receive_admitted env e ha, if_pos hr]⟩
    exact built_quorum (h.1 _ hret)
  | propose block qc =>
    cases qc with
    | none => trivial
    | some qc =>
      intro hs
      exact h.2 qc (.inr (.inr (by simp [step, propose, hs])))
  | commit qc =>
    intro hs
    exact h.2 qc (.inr (.inl (by simp [step, commit, hs])))
  | startNewView | advanceToNextView | advanceToNextHeight => trivial

variable (env cast)

/-- A run keeps every certificate sound just when all its calls are safe. -/
theorem certificates_sound_iff (validators : List Validator) (viewTimeoutMs : UInt64)
    (ops : List Op) (hcast : ∀ vote ∈ delivered ops, cast vote) :
    let e := ConsensusEngine.new validators viewTimeoutMs
    Trace.Always (e.step env) (e.CertifiedCall env cast) .initial ops ↔
      Trace.Always (e.step env) (e.SafeCall cast) .initial ops := by
  intro e
  constructor
  · intro h
    exact h.imp (I := fun _ => True) (fun _ _ _ _ => trivial)
      (fun s op _ hc => safe_of_certifiedCall hc) trivial
  · intro h
    refine (Trace.always_and.mpr ⟨votesCast_always env e ops hcast, h⟩).imp
      (I := fun s => ∀ qc, Stored s qc → e.Certified cast qc) ?_ ?_
      (fun qc hqc => by simp [Stored, initial] at hqc)
    · rintro s op hs ⟨⟨hv, hop⟩, hsafe⟩
      exact (certifiedCall_of_safe hv hop hs hsafe).2
    · rintro s op hs ⟨⟨hv, hop⟩, hsafe⟩
      exact certifiedCall_of_safe hv hop hs hsafe

theorem certificates_sound_iff_two_votes :
    let e := ConsensusEngine.new (Sample.validators 1) 3000
    let ops := [Op.receive .preVote (Sample.vote 0 .preVote 1) 0,
      Op.receive .preCommit (Sample.vote 0 .preCommit 1) 0]
    Trace.Always (e.step Sample.env) (e.CertifiedCall Sample.env fun _ => True) .initial ops ↔
      Trace.Always (e.step Sample.env) (e.SafeCall fun _ => True) .initial ops :=
  certificates_sound_iff Sample.env (fun _ => True) (Sample.validators 1) 3000 _
    fun _ _ => trivial

/-- Of four validators, two prevote block 1 and a third block 2: the third vote
reaches the count of three and certifies block 2 with one signature. -/
theorem certificates_sound_fails :
    ¬ ∀ (env : Env) (cast : Vote → Prop) (validators : List Validator) (viewTimeoutMs : UInt64)
      (ops : List Op), (∀ vote ∈ delivered ops, cast vote) →
      let e := ConsensusEngine.new validators viewTimeoutMs
      Trace.Always (e.step env) (e.CertifiedCall env cast) .initial ops := by
  intro h
  have hrun := h Sample.env (fun _ => True) (Sample.validators 4) 3000
    [.receive .preVote (Sample.vote 0 .preVote 1) 0,
      .receive .preVote (Sample.vote 1 .preVote 1) 0,
      .receive .preVote (Sample.vote 2 .preVote 2) 0] (fun _ _ => trivial)
  have hsafe := safe_of_certifiedCall hrun.2.2.1
  revert hsafe
  simp only [SafeCall]
  decide

end ConsensusEngine

end LiteVision.Truth
