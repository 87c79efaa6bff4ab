import LiteVision.Intelligence.Verification

/-!
# Decided disputes

A dispute that is resolved or rejected should stay as it is. Its id comes from the job
and the two parties, so it can be created again, and both verdicts are written
whatever the status: the entry stays just when no call writes something else there.
-/

namespace LiteVision.Intelligence.Verification

open Lib

def DisputeStatus.Final (status : DisputeStatus) : Prop :=
  status = .resolved ∨ status = .rejected

instance : DecidablePred DisputeStatus.Final := fun status =>
  inferInstanceAs (Decidable (status = .resolved ∨ status = .rejected))

/-- The two say the same of how the dispute ended. -/
structure Dispute.SameVerdict (dispute dispute' : Dispute) : Prop where
  status : dispute'.status = dispute.status
  slashAmount : dispute'.slashAmount = dispute.slashAmount
  resolvedAt : dispute'.resolvedAt = dispute.resolvedAt

theorem Dispute.SameVerdict.refl (dispute : Dispute) : dispute.SameVerdict dispute :=
  ⟨rfl, rfl, rfl⟩

theorem Dispute.SameVerdict.trans {a b d : Dispute} (h : a.SameVerdict b) (h' : b.SameVerdict d) :
    a.SameVerdict d :=
  ⟨h'.status.trans h.status, h'.slashAmount.trans h.slashAmount,
    h'.resolvedAt.trans h.resolvedAt⟩

namespace VerificationEngine

variable {c : Crypto} {engine after : VerificationEngine} {op : Op} {id : Bytes 32}
  {dispute : Dispute}

/-- A dispute under the id ends like this one. -/
def Stands (engine : VerificationEngine) (id : Bytes 32) (dispute : Dispute) : Prop :=
  ∃ dispute', engine.disputes.get id = some dispute' ∧ dispute.SameVerdict dispute'

/-- Every dispute that is decided at some point of the run stands at every later one. -/
def DisputesFinal (c : Crypto) (start : VerificationEngine) (run : List Op) : Prop :=
  ∀ id dispute before between, before ++ between <+: run →
    (Trace.exec (step c) start before).disputes.get id = some dispute → dispute.status.Final →
    (Trace.exec (step c) start (before ++ between)).Stands id dispute

/-- The call does not write over a decided dispute, or writes the same verdict again. -/
def SparesFinal (c : Crypto) (engine : VerificationEngine) : Op → Prop
  | .createDispute jobId challengerId accusedOperatorId _ _ =>
    (engine.verifications.get jobId).isSome → ∀ dispute,
      engine.disputes.get (Dispute.idOf c jobId challengerId accusedOperatorId) = some dispute →
      ¬ dispute.status.Final
  | .resolveDispute disputeId slashAmount now => ∀ dispute,
    engine.disputes.get disputeId = some dispute → dispute.status.Final →
    dispute.status = .resolved ∧ dispute.slashAmount = some slashAmount ∧
      dispute.resolvedAt = some now
  | .rejectDispute disputeId now => ∀ dispute,
    engine.disputes.get disputeId = some dispute → dispute.status.Final →
    dispute.status = .rejected ∧ dispute.resolvedAt = some now
  | _ => True

-- ---------------------------------------------------------------------------
-- One call
-- ---------------------------------------------------------------------------

/-- What is decided before the call stands after it. -/
def FinalStep (c : Crypto) (engine : VerificationEngine) (op : Op) : Prop :=
  ∀ id dispute, engine.disputes.get id = some dispute → dispute.status.Final →
    (step c engine op).Stands id dispute

theorem stands_of_get (h : engine.disputes.get id = some dispute) : engine.Stands id dispute :=
  ⟨dispute, h, .refl dispute⟩

theorem finalStep_of_disputes (h : (step c engine op).disputes = engine.disputes) :
    FinalStep c engine op := by
  intro id dispute hget _
  exact stands_of_get (h ▸ hget)

theorem finalStep_modify {verdict : Dispute → Dispute}
    (h : (step c engine op).disputes = engine.disputes.modify id verdict) :
    FinalStep c engine op ↔ ∀ dispute, engine.disputes.get id = some dispute →
      dispute.status.Final → dispute.SameVerdict (verdict dispute) := by
  constructor
  · intro hfinal dispute hget hstatus
    obtain ⟨dispute', hget', hsame⟩ := hfinal id dispute hget hstatus
    rw [h, Map.get_modify, if_pos rfl, hget] at hget'
    exact Option.some.inj hget' ▸ hsame
  · intro hsame id' dispute hget hstatus
    rw [Stands, h, Map.get_modify]
    split
    · rename_i hid
      subst hid
      exact ⟨verdict dispute, by rw [hget]; rfl, hsame dispute hget hstatus⟩
    · exact ⟨dispute, hget, .refl dispute⟩

theorem finalStep_iff : FinalStep c engine op ↔ SparesFinal c engine op := by
  cases op with
  | scheduleVerification job => exact iff_of_true (finalStep_of_disputes rfl) trivial
  | completeVerification jobId result now =>
    exact iff_of_true (finalStep_of_disputes (disputes_completeVerification ..)) trivial
  | createDispute jobId challengerId accusedOperatorId evidenceTime createdAt =>
    rcases createDispute_cases engine c jobId challengerId accusedOperatorId evidenceTime
      createdAt with ⟨hnone, heq⟩ | ⟨hsome, created, hid, hpending, hdisputes⟩
    · refine iff_of_true (finalStep_of_disputes (by rw [step, heq])) fun hsome => ?_
      rw [hnone] at hsome
      cases hsome
    · rw [hid] at hdisputes
      constructor
      · intro hfinal _ dispute hget hstatus
        obtain ⟨dispute', hget', hsame⟩ := hfinal _ dispute hget hstatus
        rw [step, hdisputes, Map.get_insert_self] at hget'
        obtain rfl := Option.some.inj hget'
        rw [← hsame.status, hpending] at hstatus
        exact absurd hstatus (by decide)
      · intro hspares id dispute hget hstatus
        rw [Stands, step, hdisputes, Map.get_insert]
        split
        · rename_i hid'
          exact absurd hstatus (hspares hsome dispute (hid' ▸ hget))
        · exact ⟨dispute, hget, .refl dispute⟩
  | resolveDispute disputeId slashAmount now =>
    have hdisputes : (step c engine (.resolveDispute disputeId slashAmount now)).disputes =
        engine.disputes.modify disputeId (·.resolve slashAmount now) :=
      disputes_decideDispute ..
    refine (finalStep_modify hdisputes).trans ?_
    refine forall_congr' fun dispute => forall_congr' fun _ => forall_congr' fun _ => ?_
    exact ⟨fun h => ⟨h.status.symm, h.slashAmount.symm, h.resolvedAt.symm⟩,
      fun h => ⟨h.1.symm, h.2.1.symm, h.2.2.symm⟩⟩
  | rejectDispute disputeId now =>
    have hdisputes : (step c engine (.rejectDispute disputeId now)).disputes =
        engine.disputes.modify disputeId (·.reject now) :=
      disputes_decideDispute ..
    refine (finalStep_modify hdisputes).trans ?_
    refine forall_congr' fun dispute => forall_congr' fun _ => forall_congr' fun _ => ?_
    exact ⟨fun h => ⟨h.status.symm, h.resolvedAt.symm⟩, fun h => ⟨h.1.symm, rfl, h.2.symm⟩⟩

-- ---------------------------------------------------------------------------
-- Runs
-- ---------------------------------------------------------------------------

/-- The decided disputes of a run stand just when no call of it writes over one. -/
theorem final_disputes_iff (c : Crypto) (policy : VerificationPolicy) (run : List Op) :
    DisputesFinal c (new policy) run ↔ Trace.Always (step c) (SparesFinal c) (new policy) run := by
  constructor
  · intro hfinal
    refine Trace.always_iff_forall.mpr ?_
    rintro before op after rfl
    refine finalStep_iff.mp fun id dispute hget hstatus => ?_
    have hafter := hfinal id dispute before [op] ⟨after, by simp⟩ hget hstatus
    rwa [Trace.exec_concat] at hafter
  · intro hspares id dispute before between hpart hget hstatus
    rw [Trace.exec_append]
    refine (hspares.between hpart).exec (I := fun engine => engine.Stands id dispute)
      (fun engine op h hop => ?_) (stands_of_get hget)
    obtain ⟨dispute', hget', hsame⟩ := h
    obtain ⟨dispute'', hget'', hsame'⟩ :=
      finalStep_iff.mpr hop id dispute' hget' (hsame.status ▸ hstatus)
    exact ⟨dispute'', hget'', hsame.trans hsame'⟩

/-- A dispute that is resolved, and resolved again with another amount. -/
theorem final_disputes_fails :
    ¬ ∀ (c : Crypto) (policy : VerificationPolicy) (run : List Op),
      DisputesFinal c (new policy) run := by
  intro h
  let c : Crypto := { blake3 := fun _ => .fill 32 0, ed25519Verify := fun _ _ _ => true }
  let job : VerificationJob := ⟨.fill 32 1, .fill 32 2, .fill 32 3, .fill 32 4, none,
    .deterministic, .pending, 100, none, none⟩
  obtain ⟨dispute, hget, hsame⟩ := h c .initial
    [.scheduleVerification job,
      .createDispute (.fill 32 1) (.fill 32 7) (.fill 32 2) 200 200,
      .resolveDispute (.fill 32 0) 500 300, .resolveDispute (.fill 32 0) 600 300]
    (.fill 32 0)
    ⟨.fill 32 0, .fill 32 1, .fill 32 7, .fill 32 2, [], .resolved, 200, some 300, some 500⟩
    [.scheduleVerification job,
      .createDispute (.fill 32 1) (.fill 32 7) (.fill 32 2) 200 200,
      .resolveDispute (.fill 32 0) 500 300]
    [.resolveDispute (.fill 32 0) 600 300] (List.prefix_refl _) rfl (.inl rfl)
  obtain rfl := Option.some.inj hget
  exact absurd hsame.slashAmount (by decide)

end VerificationEngine

end LiteVision.Intelligence.Verification
