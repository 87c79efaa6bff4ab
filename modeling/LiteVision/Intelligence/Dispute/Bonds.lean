import LiteVision.Intelligence.Dispute

/-!
# Frozen bonds

One entry is kept for each challenger, which should be the sum of the bonds of the
disputes that are not settled. A new bond replaces the entry, and a confirmed fraud
removes it: both are right just when the challenger has no other open bond.
-/

namespace LiteVision.Intelligence

open Lib

/-- What a dispute counts for with a challenger: nothing once it is settled. -/
def Dispute.openBond (challengerId : Bytes 32) (dispute : Dispute) : Nat :=
  if dispute.challengerId = challengerId ∧ ¬ dispute.status.Settled then
    dispute.challengerBond.toNat
  else 0

theorem Dispute.openBond_ne_zero {challengerId : Bytes 32} {dispute : Dispute} :
    dispute.openBond challengerId ≠ 0 ↔
      dispute.challengerId = challengerId ∧ ¬ dispute.status.Settled ∧
        dispute.challengerBond ≠ 0 := by
  rw [openBond, Ne, Ne, eq_zero_iff]
  split <;> tauto

theorem Dispute.openBond_settled {dispute : Dispute} (h : dispute.status.Settled)
    (challengerId : Bytes 32) : dispute.openBond challengerId = 0 :=
  if_neg fun hopen => hopen.2 h

theorem Dispute.openBond_of_ne {challengerId : Bytes 32} {dispute : Dispute}
    (h : challengerId ≠ dispute.challengerId) : dispute.openBond challengerId = 0 :=
  if_neg fun hopen => h hopen.1.symm

theorem Dispute.openBond_self {dispute : Dispute} (h : ¬ dispute.status.Settled) :
    dispute.openBond dispute.challengerId = dispute.challengerBond.toNat :=
  if_pos ⟨rfl, h⟩

theorem Dispute.Moves.openBond_eq {dispute moved : Dispute} (h : dispute.Moves moved)
    (hstatus : dispute.status ≠ .adjudicating) (challengerId : Bytes 32) :
    moved.openBond challengerId = dispute.openBond challengerId := by
  cases h with
  | escalate hphase => simp [openBond, Dispute.escalate, hphase, DisputeStatus.Settled]
  | adjudicate hphase => simp [openBond, Dispute.adjudicate, hphase, DisputeStatus.Settled]
  | resolve hphase => exact absurd hphase hstatus
  | submitAppeal hphase => simp [openBond, Dispute.submitAppeal, hphase, DisputeStatus.Settled]

namespace DisputeEngine

variable {c : DisputeCrypto} {engine after : DisputeEngine} {op : Op}

/-- What is frozen for a challenger; nothing without an entry. -/
def frozenOf (engine : DisputeEngine) (challengerId : Bytes 32) : Nat :=
  engine.frozenBonds.weightAt UInt64.toNat challengerId

/-- The entries are what the open disputes add up to. -/
def BondsExact (engine : DisputeEngine) : Prop :=
  ∀ challengerId, engine.frozenOf challengerId =
    engine.disputes.total (Dispute.openBond challengerId)

/-- The dispute is open and has a bond. -/
def HasOpen (engine : DisputeEngine) (id : Bytes 32) (dispute : Dispute) : Prop :=
  engine.disputes.get id = some dispute ∧ ¬ dispute.status.Settled ∧ dispute.challengerBond ≠ 0

/-- The call does not write over bonds that are still open: a new dispute is the only
one of its challenger, and so is one whose fraud is confirmed. -/
def SparesBonds (c : DisputeCrypto) (engine : DisputeEngine) : Op → Prop
  | .initiateDispute jobId receiptHash _ challengerId challengerBond currentBlock receiptBlock
      verificationWindowBlocks =>
    engine.CanInitiate jobId challengerBond currentBlock receiptBlock verificationWindowBlocks →
    ∀ id dispute, engine.HasOpen id dispute →
      (dispute.challengerId = challengerId ↔
        id = c.blake3 (Dispute.preimage c jobId receiptHash challengerId currentBlock))
  | .resolveDispute disputeId _ _ _ => ∀ dispute, engine.disputes.get disputeId = some dispute →
    dispute.status = .adjudicating → dispute.fraudProof.FraudConfirmed →
    ∀ id other, engine.HasOpen id other → other.challengerId = dispute.challengerId →
      id = disputeId
  | _ => True

-- ---------------------------------------------------------------------------
-- One call
-- ---------------------------------------------------------------------------

/-- When one dispute is written, the entries have to move with it. -/
theorem bondsExact_insert (h : BondsExact engine) {id : Bytes 32} {dispute : Dispute}
    (hdisputes : after.disputes = engine.disputes.insert id dispute) :
    BondsExact after ↔ ∀ challengerId,
      after.frozenOf challengerId +
          engine.disputes.weightAt (Dispute.openBond challengerId) id =
        engine.frozenOf challengerId + dispute.openBond challengerId := by
  refine forall_congr' fun challengerId => ?_
  have htotal := engine.disputes.total_insert (Dispute.openBond challengerId) id dispute
  have hexact := h challengerId
  rw [hdisputes]
  omega

theorem bondsExact_moves (h : BondsExact engine) {id : Bytes 32} {dispute moved : Dispute}
    (hget : engine.disputes.get id = some dispute) (hmoves : dispute.Moves moved)
    (hstatus : dispute.status ≠ .adjudicating) : BondsExact (engine.setDispute id moved) := by
  refine (bondsExact_insert h rfl).mpr fun challengerId => ?_
  rw [Map.weightAt_some hget, hmoves.openBond_eq hstatus]
  rfl

theorem frozenOf_insertDispute (engine : DisputeEngine) (dispute : Dispute)
    (challengerId : Bytes 32) :
    (engine.insertDispute dispute).frozenOf challengerId =
      if challengerId = dispute.challengerId then dispute.challengerBond.toNat
      else engine.frozenOf challengerId :=
  Map.weightAt_insert ..

theorem bondsExact_initiate (h : BondsExact engine) {dispute : Dispute}
    (hstatus : ¬ dispute.status.Settled) :
    BondsExact (engine.insertDispute dispute) ↔
      ∀ id other, engine.HasOpen id other →
        (other.challengerId = dispute.challengerId ↔ id = dispute.id) := by
  rw [bondsExact_insert h rfl]
  constructor
  · rintro hexact id other ⟨hget, hopen, hbond⟩
    constructor
    · intro hchallenger
      -- the entry is the new bond, so nothing else may count for the challenger
      have heq := hexact dispute.challengerId
      rw [frozenOf_insertDispute, if_pos rfl, Dispute.openBond_self hstatus, h] at heq
      have htotal : engine.disputes.total (Dispute.openBond dispute.challengerId) =
          engine.disputes.weightAt (Dispute.openBond dispute.challengerId) dispute.id := by omega
      refine Map.total_eq_weightAt.mp htotal id other hget ?_
      exact Dispute.openBond_ne_zero.mpr ⟨hchallenger, hopen, hbond⟩
    · rintro rfl
      by_contra hne
      have heq := hexact other.challengerId
      rw [frozenOf_insertDispute, if_neg hne, Dispute.openBond_of_ne hne,
        Map.weightAt_some hget, Dispute.openBond_self hopen] at heq
      exact hbond (eq_zero_iff.mpr (by omega))
  · intro hothers challengerId
    rw [frozenOf_insertDispute]
    split
    · rename_i hchallenger
      subst hchallenger
      have htotal : engine.disputes.total (Dispute.openBond dispute.challengerId) =
          engine.disputes.weightAt (Dispute.openBond dispute.challengerId) dispute.id := by
        refine Map.total_eq_weightAt.mpr fun id other hget hne => ?_
        obtain ⟨hchallenger, hopen, hbond⟩ := Dispute.openBond_ne_zero.mp hne
        exact (hothers id other ⟨hget, hopen, hbond⟩).mp hchallenger
      rw [Dispute.openBond_self hstatus, h, htotal, Nat.add_comm]
    · rename_i hne
      have hzero : engine.disputes.weightAt (Dispute.openBond challengerId) dispute.id = 0 := by
        by_contra hweight
        cases hget : engine.disputes.get dispute.id with
        | none => exact hweight (Map.weightAt_none hget _)
        | some other =>
          rw [Map.weightAt_some hget] at hweight
          obtain ⟨rfl, hopen, hbond⟩ := Dispute.openBond_ne_zero.mp hweight
          exact hne ((hothers _ other ⟨hget, hopen, hbond⟩).mpr rfl)
      rw [hzero, Dispute.openBond_of_ne hne]

theorem frozenOf_settle_confirmed {dispute : Dispute} (hfraud : dispute.fraudProof.FraudConfirmed)
    (id challengerId : Bytes 32) (resolution : DisputeResolution) :
    (engine.settle id dispute resolution).frozenOf challengerId =
      if challengerId = dispute.challengerId then 0 else engine.frozenOf challengerId := by
  have hbonds : (engine.settle id dispute resolution).frozenBonds =
      engine.frozenBonds.erase dispute.challengerId := if_pos hfraud
  rw [frozenOf, hbonds, Map.weightAt, Map.get_erase]
  split <;> rfl

theorem frozenOf_settle_rejected {dispute : Dispute} (hfraud : ¬ dispute.fraudProof.FraudConfirmed)
    (id challengerId : Bytes 32) (resolution : DisputeResolution) :
    (engine.settle id dispute resolution).frozenOf challengerId =
      if challengerId = dispute.challengerId then
        engine.frozenOf challengerId - resolution.slashedAmount.toNat
      else engine.frozenOf challengerId := by
  have hbonds : (engine.settle id dispute resolution).frozenBonds =
      engine.frozenBonds.modify dispute.challengerId (saturatingSub · resolution.slashedAmount) :=
    if_neg hfraud
  rw [frozenOf, hbonds, Map.weightAt, Map.get_modify]
  split
  · rename_i hchallenger
    subst hchallenger
    rw [frozenOf, Map.weightAt]
    cases engine.frozenBonds.get dispute.challengerId with
    | none => exact (Nat.zero_sub _).symm
    | some bond => exact toNat_saturatingSub bond _
  · rfl

theorem bondsExact_settle (h : BondsExact engine) {id : Bytes 32} {dispute : Dispute}
    (hget : engine.disputes.get id = some dispute) (hstatus : ¬ dispute.status.Settled)
    (jobBudget verificationCost currentBlock : UInt64) :
    BondsExact (engine.settle id dispute
        (engine.resolution dispute jobBudget verificationCost currentBlock)) ↔
      (dispute.fraudProof.FraudConfirmed → ∀ id' other, engine.HasOpen id' other →
        other.challengerId = dispute.challengerId → id' = id) := by
  rw [bondsExact_insert h rfl]
  have hresolved : ∀ resolution challengerId,
      (dispute.resolve resolution).openBond challengerId = 0 :=
    fun _ challengerId => Dispute.openBond_settled (.inl rfl) challengerId
  have hweight : ∀ challengerId, engine.disputes.weightAt (Dispute.openBond challengerId) id =
      dispute.openBond challengerId := fun _ => Map.weightAt_some hget _
  simp only [hresolved, hweight, Nat.add_zero]
  by_cases hfraud : dispute.fraudProof.FraudConfirmed
  · simp only [frozenOf_settle_confirmed hfraud]
    constructor
    · rintro hexact - id' other ⟨hother, hopen, hbond⟩ hchallenger
      have heq := hexact dispute.challengerId
      rw [if_pos rfl, Nat.zero_add, h, ← hweight] at heq
      refine Map.total_eq_weightAt.mp heq.symm id' other hother ?_
      exact Dispute.openBond_ne_zero.mpr ⟨hchallenger, hopen, hbond⟩
    · intro hothers challengerId
      split
      · rename_i hchallenger
        subst hchallenger
        rw [Nat.zero_add, h, ← hweight]
        refine (Map.total_eq_weightAt.mpr fun id' other hother hne => ?_).symm
        obtain ⟨hchallenger, hopen, hbond⟩ := Dispute.openBond_ne_zero.mp hne
        exact hothers hfraud id' other ⟨hother, hopen, hbond⟩ hchallenger
      · rename_i hne
        rw [Dispute.openBond_of_ne hne, Nat.add_zero]
  · refine iff_of_true (fun challengerId => ?_) fun hconfirmed => absurd hconfirmed hfraud
    rw [frozenOf_settle_rejected hfraud]
    split
    · rename_i hchallenger
      subst hchallenger
      -- the bond is part of what is frozen
      have hle := Map.le_total hget (Dispute.openBond dispute.challengerId)
      have hexact := h dispute.challengerId
      have hslashed : (engine.resolution dispute jobBudget verificationCost
          currentBlock).slashedAmount = dispute.challengerBond := if_neg hfraud
      rw [Dispute.openBond_self hstatus] at hle ⊢
      rw [hslashed]
      omega
    · rename_i hne
      rw [Dispute.openBond_of_ne hne, Nat.add_zero]

theorem bondsExact_other (h : BondsExact engine) (hinitiated : op.initiated c = none)
    (hresolve : ∀ disputeId jobBudget verificationCost currentBlock,
      op ≠ .resolveDispute disputeId jobBudget verificationCost currentBlock) :
    BondsExact (step c engine op) := by
  rcases step_cases c engine op with hsame | hwrites
  · rw [hsame]
    exact h
  · generalize step c engine op = after at hwrites ⊢
    cases hwrites with
    | initEscrow => exact h
    | initiate => cases hinitiated
    | escalate hget hstatus =>
      exact bondsExact_moves h hget (.escalate hstatus) (by rw [hstatus]; decide)
    | submit hget hstatus =>
      exact bondsExact_moves h hget (.adjudicate hstatus) (by rw [hstatus]; decide)
    | resolve => exact absurd rfl (hresolve _ _ _ _)
    | appeal hget hstatus =>
      exact bondsExact_moves h hget (.submitAppeal hstatus) (by rw [hstatus]; decide)

theorem bondsExact_step (h : BondsExact engine) (op : Op) :
    BondsExact (step c engine op) ↔ SparesBonds c engine op := by
  cases op with
  | initiateDispute jobId receiptHash fraudProof challengerId challengerBond currentBlock
      receiptBlock verificationWindowBlocks =>
    rw [step_initiateDispute]
    split
    · rename_i hcan
      have hopen : ¬ DisputeStatus.validationPhase.Settled := by decide
      rw [bondsExact_initiate h hopen]
      exact ⟨fun hothers _ => hothers, fun hspares => hspares hcan⟩
    · rename_i hcan
      exact iff_of_true h fun hcan' => absurd hcan' hcan
  | resolveDispute disputeId jobBudget verificationCost currentBlock =>
    by_cases hadjudicating : ∃ dispute, engine.disputes.get disputeId = some dispute ∧
        dispute.status = .adjudicating
    · obtain ⟨dispute, hget, hstatus⟩ := hadjudicating
      rw [step_resolveDispute hget hstatus, bondsExact_settle h hget (by rw [hstatus]; decide)]
      constructor
      · intro hothers dispute' hget' _
        obtain rfl := Option.some.inj (hget.symm.trans hget')
        exact hothers
      · exact fun hspares => hspares dispute hget hstatus
    · rw [step_resolveDispute_of_not hadjudicating]
      exact iff_of_true h fun dispute hget hstatus =>
        absurd ⟨dispute, hget, hstatus⟩ hadjudicating
  | _ => exact iff_of_true (bondsExact_other h rfl (by simp)) trivial

/-- The entries are right in every state of a run just when no call of it writes over
bonds that are still open. -/
theorem frozen_bonds_iff (c : DisputeCrypto) (minChallengerBond governanceMinSlash slashAlphaRatio
    slashBetaRatio : UInt64) (run : List Op) :
    (∀ before, before <+: run → BondsExact (Trace.exec (step c)
      (new minChallengerBond governanceMinSlash slashAlphaRatio slashBetaRatio) before)) ↔
    Trace.Always (step c) (SparesBonds c)
      (new minChallengerBond governanceMinSlash slashAlphaRatio slashBetaRatio) run := by
  refine Trace.prefixes_iff_always (J := fun _ => True) (fun _ _ _ => trivial)
    (fun _ op _ h => bondsExact_step h op) trivial fun challengerId => ?_
  rw [frozenOf, new, Map.weightAt_none (Map.get_empty _), Map.total_empty]

/-- Two disputes of one challenger, of which only the second bond stays frozen. -/
theorem frozen_bonds_fails :
    ¬ ∀ (c : DisputeCrypto)
        (minChallengerBond governanceMinSlash slashAlphaRatio slashBetaRatio : UInt64)
      (run before : List Op), before <+: run → BondsExact (Trace.exec (step c)
        (new minChallengerBond governanceMinSlash slashAlphaRatio slashBetaRatio) before) := by
  intro h
  let c : DisputeCrypto :=
    { blake3 := fun bytes => .fill 32 (bytes.headD 0)
      ed25519Verify := fun _ _ _ => true
      serialize := Dispute.parts.write }
  let proof : FraudProof := ⟨.fill 32 1, .fill 32 2, .fill 32 3, .fill 32 4, .fill 32 5,
    .fill 32 6, none, ⟨.fill 32 8, [], [], ⟨0, 0, 0, 0, 0, 0⟩⟩, []⟩
  have hexact := h c 1000 5000 2000 1000
    [.initiateDispute (.fill 32 10) (.fill 32 1) proof (.fill 32 20) 2000 100 100 500,
      .initiateDispute (.fill 32 11) (.fill 32 1) proof (.fill 32 20) 2000 100 100 500]
    _ (List.prefix_refl _) (.fill 32 20)
  exact absurd hexact (by decide)

end DisputeEngine

end LiteVision.Intelligence
