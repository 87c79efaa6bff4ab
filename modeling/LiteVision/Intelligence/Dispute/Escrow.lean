import LiteVision.Intelligence.Dispute

/-!
# Escrows during a dispute

While a dispute of a job is open the escrow of the job is frozen, and once released or
refunded it stays so. Of the calls only `init_escrow` can break this, since it starts
over whatever the entry says and whether the job is disputed.
-/

namespace LiteVision.Intelligence

open Lib

def EscrowStatus.Closed (status : EscrowStatus) : Prop := status = .released ∨ status = .refunded

instance : DecidablePred EscrowStatus.Closed := fun status =>
  inferInstanceAs (Decidable (status = .released ∨ status = .refunded))

namespace DisputeEngine

variable {c : DisputeCrypto} {engine : DisputeEngine} {op : Op} {jobId : Bytes 32}
  {escrow : EscrowState}

/-- The escrow of a job with an open dispute is frozen, if there is one. -/
def EscrowFrozen (engine : DisputeEngine) : Prop :=
  ∀ id dispute escrow, engine.disputes.get id = some dispute → ¬ dispute.status.Settled →
    engine.jobEscrow.get dispute.jobId = some escrow → escrow.status = .frozen

structure EscrowsHold (c : DisputeCrypto) (start : DisputeEngine) (run : List Op) : Prop where
  frozen : ∀ before, before <+: run → EscrowFrozen (Trace.exec (step c) start before)
  closed : ∀ jobId escrow escrow' before between, before ++ between <+: run →
    (Trace.exec (step c) start before).jobEscrow.get jobId = some escrow → escrow.status.Closed →
    (Trace.exec (step c) start (before ++ between)).jobEscrow.get jobId = some escrow' →
    escrow'.status ≠ .active ∧ escrow'.status ≠ .frozen

/-- An escrow is not started over during a dispute, nor once it is closed. -/
def SparesEscrow (engine : DisputeEngine) : Op → Prop
  | .initEscrow jobId _ _ =>
    (∀ id dispute, engine.disputes.get id = some dispute → dispute.jobId = jobId →
      dispute.status.Settled) ∧
    ∀ escrow, engine.jobEscrow.get jobId = some escrow → ¬ escrow.status.Closed
  | _ => True

-- ---------------------------------------------------------------------------
-- The maps of the engine
-- ---------------------------------------------------------------------------

/-- A job with a dispute or a closed escrow has been disputed, and it has one dispute. -/
structure Consistent (engine : DisputeEngine) : Prop where
  listed : ∀ id dispute, engine.disputes.get id = some dispute →
    engine.disputesOf dispute.jobId ≠ []
  single : ∀ id id' dispute dispute', engine.disputes.get id = some dispute →
    engine.disputes.get id' = some dispute' → dispute.jobId = dispute'.jobId → id = id'
  closed : ∀ jobId escrow, engine.jobEscrow.get jobId = some escrow → escrow.status.Closed →
    engine.disputesOf jobId ≠ []

theorem consistent_new (a b d e : UInt64) : Consistent (new a b d e) := by
  constructor
  case listed =>
    intro id dispute hget
    cases (Map.get_empty id).symm.trans hget
  case single =>
    intro id id' dispute dispute' hget
    cases (Map.get_empty id).symm.trans hget
  case closed =>
    intro jobId escrow hget
    cases (Map.get_empty jobId).symm.trans hget

theorem get_jobEscrow_step (h : (step c engine op).jobEscrow.get jobId = some escrow) :
    engine.jobEscrow.get jobId = some escrow ∨
      (escrow.status = .active ∧ ∃ amount recipient, op = .initEscrow jobId amount recipient) ∨
      (escrow.status = .frozen ∧ engine.disputesOf jobId = []) ∨
      (escrow.status.Closed ∧ ∃ id dispute, (step c engine op).disputes.get id = some dispute ∧
        dispute.jobId = jobId ∧ dispute.status.Settled) := by
  rcases step_cases c engine op with hsame | hwrites
  · rw [hsame] at h
    exact .inl h
  · generalize step c engine op = after at hwrites h ⊢
    cases hwrites with
    | initEscrow =>
      rcases Map.of_get_insert h with ⟨rfl, rfl⟩ | ⟨-, hold⟩
      · exact .inr (.inl ⟨rfl, _, _, rfl⟩)
      · exact .inl hold
    | initiate hcan =>
      rcases Map.of_get_modify h with ⟨rfl, old, -, rfl⟩ | ⟨-, hold⟩
      · exact .inr (.inr (.inl ⟨rfl, hcan.2.2⟩))
      · exact .inl hold
    | @resolve _ _ _ _ dispute hget =>
      rcases Map.of_get_modify h with ⟨rfl, old, -, rfl⟩ | ⟨-, hold⟩
      · refine .inr (.inr (.inr ⟨?_, _, dispute.resolve _, Map.get_insert_self .., rfl,
          .inl rfl⟩))
        by_cases hfraud : dispute.fraudProof.FraudConfirmed
        · exact .inr (if_pos hfraud)
        · exact .inl (if_neg hfraud)
      · exact .inl hold
    | escalate => exact .inl h
    | submit => exact .inl h
    | appeal => exact .inl h

theorem origin {id : Bytes 32} {dispute : Dispute}
    (h : (step c engine op).disputes.get id = some dispute) :
    (∃ old, engine.disputes.get id = some old ∧ old.jobId = dispute.jobId) ∨
      (op.initiated c = some dispute ∧ id = dispute.id ∧ engine.disputesOf dispute.jobId = [] ∧
        step c engine op = engine.insertDispute dispute) := by
  rcases get_disputes_step h with hsame | hnew | ⟨old, hold, hmoves⟩
  · exact .inl ⟨dispute, hsame, rfl⟩
  · exact .inr hnew
  · exact .inl ⟨old, hold, hmoves.jobId.symm⟩

theorem consistent_step (h : Consistent engine) : Consistent (step c engine op) := by
  have hlisted : ∀ id dispute, (step c engine op).disputes.get id = some dispute →
      (step c engine op).disputesOf dispute.jobId ≠ [] := by
    intro id dispute hget
    rcases origin hget with ⟨old, hold, hjob⟩ | ⟨-, -, -, heq⟩
    · exact disputesOf_ne_nil (hjob ▸ h.listed id old hold)
    · rw [heq, disputesOf_insertDispute, if_pos rfl]
      exact List.append_ne_nil_of_right_ne_nil _ (List.cons_ne_nil _ _)
  constructor
  case listed => exact hlisted
  case single =>
    intro id id' dispute dispute' hget hget' hjobs
    rcases origin hget with ⟨old, hold, hjob⟩ | ⟨hinitiated, hid, hnone, -⟩ <;>
      rcases origin hget' with ⟨old', hold', hjob'⟩ | ⟨hinitiated', hid', hnone', -⟩
    · exact h.single id id' old old' hold hold' (hjob.trans (hjobs.trans hjob'.symm))
    · exact absurd (hjob.trans hjobs ▸ hnone') (h.listed id old hold)
    · exact absurd (hjob'.trans hjobs.symm ▸ hnone) (h.listed id' old' hold')
    · rw [hid, hid', Option.some.inj (hinitiated.symm.trans hinitiated')]
  case closed =>
    intro jobId escrow hget hclosed
    rcases get_jobEscrow_step hget with
      hsame | ⟨hactive, -⟩ | ⟨hfrozen, -⟩ | ⟨-, id, dispute, hdispute, rfl, -⟩
    · exact disputesOf_ne_nil (h.closed jobId escrow hsame hclosed)
    · rw [hactive] at hclosed
      exact absurd hclosed (by decide)
    · rw [hfrozen] at hclosed
      exact absurd hclosed (by decide)
    · exact hlisted id dispute hdispute

-- ---------------------------------------------------------------------------
-- One call
-- ---------------------------------------------------------------------------

theorem escrowFrozen_step (hconsistent : Consistent engine) (hspares : SparesEscrow engine op)
    (h : EscrowFrozen engine) : EscrowFrozen (step c engine op) := by
  intro id dispute escrow hget hopen hescrow
  rcases get_jobEscrow_step hescrow with
    hsame | ⟨-, amount, recipient, rfl⟩ | ⟨hfrozen, -⟩ | ⟨-, id', settled, hget', hjob, hsettled⟩
  · rcases get_disputes_step hget with hold | ⟨-, -, -, heq⟩ | ⟨old, hold, hmoves⟩
    · exact h id dispute escrow hold hopen hsame
    · rw [heq, insertDispute, Map.get_modify, if_pos rfl, hsame] at hescrow
      exact (congrArg EscrowState.status (Option.some.inj hescrow)).symm
    · rw [hmoves.jobId] at hsame
      exact h id old escrow hold (mt hmoves.settled hopen) hsame
  · exact absurd (hspares.1 id dispute hget rfl) hopen
  · exact hfrozen
  · -- the job has one dispute, and that is the one just resolved
    obtain rfl := (consistent_step hconsistent).single id id' dispute settled hget hget' hjob.symm
    obtain rfl := Option.some.inj (hget.symm.trans hget')
    exact absurd hsettled hopen

theorem exists_jobEscrow_step (c : DisputeCrypto) (op : Op)
    (h : ∃ escrow, engine.jobEscrow.get jobId = some escrow) :
    ∃ escrow, (step c engine op).jobEscrow.get jobId = some escrow := by
  rcases step_cases c engine op with hsame | hwrites
  · rwa [hsame]
  · generalize step c engine op = after at hwrites ⊢
    cases hwrites with
    | initEscrow => exact Map.exists_get_insert _ _ h
    | initiate => exact Map.exists_get_modify _ _ h
    | resolve => exact Map.exists_get_modify _ _ h
    | escalate => exact h
    | submit => exact h
    | appeal => exact h

theorem closed_step (hconsistent : Consistent engine) (hspares : SparesEscrow engine op)
    (h : ∃ escrow, engine.jobEscrow.get jobId = some escrow ∧ escrow.status.Closed) :
    ∃ escrow, (step c engine op).jobEscrow.get jobId = some escrow ∧ escrow.status.Closed := by
  obtain ⟨old, hold, hclosed⟩ := h
  obtain ⟨escrow, hget⟩ := exists_jobEscrow_step c op ⟨old, hold⟩
  refine ⟨escrow, hget, ?_⟩
  rcases get_jobEscrow_step hget with
    hsame | ⟨-, amount, recipient, rfl⟩ | ⟨-, hnone⟩ | ⟨hclosed, -⟩
  · obtain rfl := Option.some.inj (hold.symm.trans hsame)
    exact hclosed
  · exact absurd hclosed (hspares.2 old hold)
  · exact absurd hnone (hconsistent.closed jobId old hold hclosed)
  · exact hclosed

-- ---------------------------------------------------------------------------
-- Runs
-- ---------------------------------------------------------------------------

/-- Escrows are frozen during a dispute and do not open again just when none is started
over during a dispute or once it is closed. -/
theorem escrows_hold_iff (c : DisputeCrypto) (minChallengerBond governanceMinSlash slashAlphaRatio
    slashBetaRatio : UInt64) (run : List Op) :
    EscrowsHold c (new minChallengerBond governanceMinSlash slashAlphaRatio slashBetaRatio) run ↔
      Trace.Always (step c) SparesEscrow
        (new minChallengerBond governanceMinSlash slashAlphaRatio slashBetaRatio) run := by
  set start := new minChallengerBond governanceMinSlash slashAlphaRatio slashBetaRatio
  constructor
  · intro hhold
    refine Trace.always_iff_forall.mpr ?_
    rintro before op after rfl
    have hpart : before ++ [op] <+: before ++ op :: after := ⟨after, by simp⟩
    have hfrozen := hhold.frozen _ hpart
    rw [Trace.exec_concat] at hfrozen
    cases op with
    | initEscrow jobId amount recipient =>
      constructor
      · rintro id dispute hget rfl
        by_contra hopen
        have hactive := hfrozen id dispute _ hget hopen (Map.get_insert_self ..)
        cases hactive
      · intro escrow hget hclosed
        have hafter := hhold.closed jobId escrow _ before _ hpart hget hclosed
          (by rw [Trace.exec_concat]; exact Map.get_insert_self ..)
        exact hafter.1 rfl
    | _ => trivial
  · intro hspares
    have hstart : Consistent start := consistent_new ..
    constructor
    case frozen =>
      intro before hbefore
      have hpart : [] ++ before <+: run := hbefore
      refine ((hspares.between hpart).exec
        (I := fun engine => Consistent engine ∧ EscrowFrozen engine)
        (fun _ _ h hop => ⟨consistent_step h.1, escrowFrozen_step h.1 hop h.2⟩) ⟨hstart, ?_⟩).2
      intro id dispute escrow hget
      cases (Map.get_empty id).symm.trans hget
    case closed =>
      intro jobId escrow escrow' before between hpart hget hclosed hget'
      have hbefore : Consistent (Trace.exec (step c) start before) :=
        Trace.invariant (fun _ _ h => consistent_step h) hstart before
      rw [Trace.exec_append] at hget'
      obtain ⟨-, last, hlast, hclosed'⟩ := (hspares.between hpart).exec
        (I := fun engine => Consistent engine ∧
          ∃ escrow, engine.jobEscrow.get jobId = some escrow ∧ escrow.status.Closed)
        (fun _ _ h hop => ⟨consistent_step h.1, closed_step h.1 hop h.2⟩)
        ⟨hbefore, escrow, hget, hclosed⟩
      obtain rfl := Option.some.inj (hlast.symm.trans hget')
      rcases hclosed' with hstatus | hstatus <;> rw [hstatus] <;> decide

/-- An escrow that is started after the dispute of its job. -/
theorem escrows_hold_fails :
    ¬ ∀ (c : DisputeCrypto)
        (minChallengerBond governanceMinSlash slashAlphaRatio slashBetaRatio : UInt64)
      (run : List Op),
      EscrowsHold c (new minChallengerBond governanceMinSlash slashAlphaRatio slashBetaRatio)
        run := by
  intro h
  let c : DisputeCrypto :=
    { blake3 := fun bytes => .fill 32 (bytes.headD 0)
      ed25519Verify := fun _ _ _ => true
      serialize := Dispute.parts.write }
  let proof : FraudProof := ⟨.fill 32 1, .fill 32 2, .fill 32 3, .fill 32 4, .fill 32 5,
    .fill 32 6, none, ⟨.fill 32 8, [], [], ⟨0, 0, 0, 0, 0, 0⟩⟩, []⟩
  have hfrozen := (h c 1000 5000 2000 1000
    [.initiateDispute (.fill 32 10) (.fill 32 1) proof (.fill 32 20) 2000 100 100 500,
      .initEscrow (.fill 32 10) 10000 (.fill 32 30)]).frozen _ (List.prefix_refl _)
  have hactive := hfrozen (.fill 32 10)
    (.initiated c (.fill 32 10) (.fill 32 1) proof (.fill 32 20) 2000 100 500)
    ⟨.fill 32 10, 10000, .active, some (.fill 32 30)⟩ rfl (by decide) rfl
  cases hactive

end DisputeEngine

end LiteVision.Intelligence
