import LiteVision.Truth.State.Transactions

/-!
# Builders and handlers

A builder lays its arguments out in a payload, and a handler reads the payload
back at its own offsets. Not all of it is read: the deadline of a job, the region
of an operator and the id of a settled receipt are replaced by values of the
handler's own. `intended` is the effect with the encoded values in place.
-/

namespace LiteVision.Truth

open Lib

inductive BuilderCall
  | jobSubmit (jobId kernelId : Bytes 32) (budget deadline : UInt64)
  | operatorRegister (operatorId pubkey : Bytes 32) (stake : UInt64) (region : String)
  | escrowDeposit (jobId : Bytes 32) (amount : UInt64)
  | escrowRelease (jobId recipient : Bytes 32)
  | escrowRefund (jobId : Bytes 32)
  | reputationUpdate (target : Bytes 32) (delta : Int64)
  | jobSettle (receiptId outputHash : Bytes 32)

def BuilderCall.build (c : Crypto) : BuilderCall → Transaction
  | .jobSubmit jobId kernelId budget deadline => .newJobSubmit c jobId kernelId budget deadline
  | .operatorRegister operatorId pubkey stake region =>
    .newOperatorRegister c operatorId pubkey stake region
  | .escrowDeposit jobId amount => .newEscrowDeposit c jobId amount
  | .escrowRelease jobId recipient => .newEscrowRelease c jobId recipient
  | .escrowRefund jobId => .newEscrowRefund c jobId
  | .reputationUpdate target delta => .newReputationUpdate c target delta
  | .jobSettle receiptId outputHash => .newJobSettle c receiptId outputHash

namespace State

variable (c : Crypto) (s : State)

-- ---------------------------------------------------------------------------
-- What the handlers do with a built transaction
-- ---------------------------------------------------------------------------

theorem applyTransaction_unsigned {tx : Transaction} (hverify : tx.verify = .ok ())
    (hsignature : tx.signature = []) :
    applyTransaction c tx s = ((handle c tx s).1.map fun _ => none, (handle c tx s).2) := by
  have hauth : authorize c tx s = .ok () := by
    cases htype : tx.txType <;> simp [authorize, htype, hsignature]
  have hnone : refusal c tx s = none := by simp only [refusal, hverify, hauth]
  rw [applyTransaction_eq, hnone, Option.elim_none]

theorem handle_newJobSubmit (jobId kernelId : Bytes 32) (budget deadline : UInt64) :
    handle c (.newJobSubmit c jobId kernelId budget deadline) s =
      (.ok (), { s with
        settlement := s.settlement.createEscrow jobId (.fill 32 0) budget s.height 500 }) := by
  have hpayload : (Transaction.newJobSubmit c jobId kernelId budget deadline).payload =
      jobId.val ++ (kernelId.val ++ ((Bytes.ofU64 budget).val ++ (Bytes.ofU64 deadline).val)) := by
    simp only [Transaction.newJobSubmit, Transaction.build, List.append_assoc]
  have hl : 80 ≤ (Transaction.newJobSubmit c jobId kernelId budget deadline).payload.length := by
    simp [hpayload, Bytes.length_val]
  have hdeposit := Transaction.deposit?_jobSubmit rfl hl
  simp only [hpayload, Bytes.slice_first] at hdeposit
  have hbudget := Bytes.slice_third jobId kernelId (Bytes.ofU64 budget) (Bytes.ofU64 deadline).val
    (by simp [Bytes.length_val])
  simp only [hbudget, Bytes.toU64_ofU64] at hdeposit
  exact handle_deposit c hdeposit s

theorem handle_newEscrowDeposit (jobId : Bytes 32) (amount : UInt64) :
    handle c (.newEscrowDeposit c jobId amount) s =
      (.ok (), { s with
        settlement := s.settlement.createEscrow jobId (.fill 32 0) amount s.height 500 }) := by
  have hpayload : (Transaction.newEscrowDeposit c jobId amount).payload =
      jobId.val ++ ((Bytes.ofU64 amount).val ++ []) := by
    rw [List.append_nil]
    rfl
  have hl : 40 ≤ (Transaction.newEscrowDeposit c jobId amount).payload.length := by
    simp [hpayload, Bytes.length_val]
  have hdeposit := Transaction.deposit?_escrowDeposit rfl hl
  simp only [hpayload, Bytes.slice_first, Bytes.slice_second, Bytes.toU64_ofU64] at hdeposit
  exact handle_deposit c hdeposit s

def registered (operatorId pubkey : Bytes 32) (stake : UInt64) (region : String)
    (height : UInt64) : OperatorState where
  id := operatorId
  pubkey
  stake
  reputation := 1000
  status := .active
  region
  capabilities := []
  slashedCount := 0
  totalJobsCompleted := 0
  totalComputeUnits := 0
  lastUpdateBlock := height

theorem handle_newOperatorRegister (operatorId pubkey : Bytes 32) (stake : UInt64) (region : String) :
    handle c (.newOperatorRegister c operatorId pubkey stake region) s =
      (.ok (), { s with settlement := { s.settlement with
        operatorRegistry := s.settlement.operatorRegistry.register
          (registered operatorId pubkey stake "global" s.height) } }) := by
  have hpayload : (Transaction.newOperatorRegister c operatorId pubkey stake region).payload =
      operatorId.val ++ (pubkey.val ++ ((Bytes.ofU64 stake).val ++ region.toUTF8.toList)) := by
    simp only [Transaction.newOperatorRegister, Transaction.build, List.append_assoc]
  have hl : ¬ (Transaction.newOperatorRegister c operatorId pubkey stake region).payload.length < 72 := by
    simp [hpayload, Bytes.length_val]
    omega
  have hfee : max (Transaction.newOperatorRegister c operatorId pubkey stake region).fee stake = stake :=
    ite_self _
  have hstake := Bytes.slice_third operatorId pubkey (Bytes.ofU64 stake) region.toUTF8.toList
    (by simp [Bytes.length_val]; omega)
  change applyOperatorRegister _ s = _
  unfold applyOperatorRegister
  rw [dif_neg hl]
  simp only [hpayload, Bytes.slice_first, Bytes.slice_second, hstake, Bytes.toU64_ofU64, hfee]
  rfl

theorem handle_newEscrowRelease (jobId recipient : Bytes 32) :
    handle c (.newEscrowRelease c jobId recipient) s =
      ((s.settlement.releaseEscrow jobId recipient).1.map fun _ => (),
        { s with settlement := (s.settlement.releaseEscrow jobId recipient).2 }) := by
  have hpayload : (Transaction.newEscrowRelease c jobId recipient).payload =
      jobId.val ++ (recipient.val ++ []) := by
    rw [List.append_nil]
    rfl
  have hl : ¬ (Transaction.newEscrowRelease c jobId recipient).payload.length < 64 := by
    simp [hpayload, Bytes.length_val]
  change applyEscrowRelease _ s = _
  unfold applyEscrowRelease
  rw [dif_neg hl]
  simp only [hpayload, Bytes.slice_first, Bytes.slice_second]

theorem handle_newEscrowRefund (jobId : Bytes 32) :
    handle c (.newEscrowRefund c jobId) s =
      ((s.settlement.refundEscrow jobId).1.map fun _ => (),
        { s with settlement := (s.settlement.refundEscrow jobId).2 }) := by
  have hpayload : (Transaction.newEscrowRefund c jobId).payload = jobId.val ++ [] := by
    rw [List.append_nil]
    rfl
  have hl : ¬ (Transaction.newEscrowRefund c jobId).payload.length < 32 := by
    simp [hpayload, Bytes.length_val]
  change applyEscrowRefund _ s = _
  unfold applyEscrowRefund
  rw [dif_neg hl]
  simp only [hpayload, Bytes.slice_first]

def reputed (r : OperatorRegistry) (target : Bytes 32) (delta : Int64) : OperatorRegistry :=
  if 0 ≤ delta then r.increaseReputation target delta.toUInt64
  else r.decreaseReputation target (-delta).toUInt64

theorem handle_newReputationUpdate (target : Bytes 32) (delta : Int64) :
    handle c (.newReputationUpdate c target delta) s =
      (.ok (), { s with settlement := { s.settlement with
        operatorRegistry := reputed s.settlement.operatorRegistry target delta } }) := by
  have hpayload : (Transaction.newReputationUpdate c target delta).payload =
      target.val ++ ((Bytes.ofU64 delta.toUInt64).val ++ []) := by
    rw [List.append_nil]
    rfl
  have hl : ¬ (Transaction.newReputationUpdate c target delta).payload.length < 40 := by
    simp [hpayload, Bytes.length_val]
  change applyReputationUpdate _ s = _
  unfold applyReputationUpdate
  rw [dif_neg hl]
  simp only [hpayload, Bytes.slice_first, Bytes.slice_second, Bytes.toI64_ofU64]
  rfl

/-- The state after the escrow of the zero id is released and a receipt anchored. -/
def settled (s : State) (receipt : ReceiptAnchor) : State :=
  { s with settlement := ({ s.settlement with
      jobEscrows := s.settlement.jobEscrows.modify (.fill 32 0) fun escrow =>
        (escrow.release (.fill 32 0)).2 }).anchorReceipt receipt }

theorem handle_newJobSettle (receiptId outputHash : Bytes 32) :
    handle c (.newJobSettle c receiptId outputHash) s =
      (.ok (), settled s
        (.new c (.fill 32 0) (.fill 32 0) outputHash (.fill 32 0) 0 s.height)) := by
  have hpayload : (Transaction.newJobSettle c receiptId outputHash).payload =
      receiptId.val ++ (outputHash.val ++ []) := by
    rw [List.append_nil]
    rfl
  have hl : ¬ (Transaction.newJobSettle c receiptId outputHash).payload.length < 64 := by
    simp [hpayload, Bytes.length_val]
  change applyJobSettle c _ s = _
  unfold applyJobSettle
  rw [dif_neg hl]
  simp only [hpayload, Bytes.slice_second]
  rfl

-- ---------------------------------------------------------------------------
-- What the builders ask for
-- ---------------------------------------------------------------------------

/-- The effect of a built transaction, were every encoded field to be used: a job
runs for the encoded number of blocks, an operator is in the encoded region, and
the receipt is anchored under the encoded id. -/
def intended (c : Crypto) (s : State) : BuilderCall → Except StateError (Option Receipt) × State
  | .jobSubmit jobId _ budget deadline =>
    (.ok none, { s with
      settlement := s.settlement.createEscrow jobId (.fill 32 0) budget s.height deadline })
  | .operatorRegister operatorId pubkey stake region =>
    (.ok none, { s with settlement := { s.settlement with
      operatorRegistry := s.settlement.operatorRegistry.register
        (registered operatorId pubkey stake region s.height) } })
  | .escrowDeposit jobId amount =>
    (.ok none, { s with
      settlement := s.settlement.createEscrow jobId (.fill 32 0) amount s.height 500 })
  | .escrowRelease jobId recipient =>
    let (paid, settlement) := s.settlement.releaseEscrow jobId recipient
    (paid.map fun _ => none, { s with settlement })
  | .escrowRefund jobId =>
    let (refunded, settlement) := s.settlement.refundEscrow jobId
    (refunded.map fun _ => none, { s with settlement })
  | .reputationUpdate target delta =>
    (.ok none, { s with settlement := { s.settlement with
      operatorRegistry := reputed s.settlement.operatorRegistry target delta } })
  | .jobSettle receiptId outputHash =>
    (.ok none, settled s
      { ReceiptAnchor.new c (.fill 32 0) (.fill 32 0) outputHash (.fill 32 0) 0 s.height with
        receiptId })

/-- The encoded fields that are not read are what the handler puts in their place;
or the receipts to be anchored, under either id, are in the state already. -/
def Agrees (c : Crypto) (s : State) : BuilderCall → Prop
  | .jobSubmit _ _ _ deadline => saturatingAdd s.height deadline = saturatingAdd s.height 500
  | .operatorRegister _ _ _ region => region = "global"
  | .jobSettle receiptId outputHash =>
    let receipt := ReceiptAnchor.new c (.fill 32 0) (.fill 32 0) outputHash (.fill 32 0) 0 s.height
    receiptId = receipt.receiptId ∨
      (s.settlement.receiptAnchors.get receipt.receiptId = some receipt ∧
        s.settlement.receiptAnchors.get receiptId = some { receipt with receiptId })
  | .escrowDeposit .. | .escrowRelease .. | .escrowRefund _ | .reputationUpdate .. => True

theorem createEscrow_eq_iff {settlement : SettlementState} {jobId clientId : Bytes 32}
    {amount block deadline deadline' : UInt64} :
    settlement.createEscrow jobId clientId amount block deadline =
        settlement.createEscrow jobId clientId amount block deadline' ↔
      saturatingAdd block deadline = saturatingAdd block deadline' := by
  unfold SettlementState.createEscrow JobEscrow.new
  constructor
  · intro h
    have hget := congrArg (fun t => t.jobEscrows.get jobId) h
    simpa using hget
  · intro h
    rw [h]

theorem settled_eq_iff {receipt receipt' : ReceiptAnchor} :
    settled s receipt = settled s receipt' ↔
      s.settlement.receiptAnchors.insert receipt.receiptId receipt =
        s.settlement.receiptAnchors.insert receipt'.receiptId receipt' := by
  unfold settled SettlementState.anchorReceipt
  constructor
  · intro h
    exact congrArg (fun t => t.settlement.receiptAnchors) h
  · intro h
    rw [h]

theorem build_verify (call : BuilderCall) : (call.build c).verify = .ok () := by
  have hfront : ∃ (front : Bytes 32) (rest : List UInt8), (call.build c).payload = front.val ++ rest := by
    cases call with
    | jobSubmit jobId kernelId budget deadline =>
      exact ⟨jobId, _, (List.append_assoc ..).trans (List.append_assoc ..)⟩
    | operatorRegister operatorId pubkey stake region =>
      exact ⟨operatorId, _, (List.append_assoc ..).trans (List.append_assoc ..)⟩
    | escrowRefund jobId => exact ⟨jobId, [], (List.append_nil _).symm⟩
    | escrowDeposit | escrowRelease | reputationUpdate | jobSettle => exact ⟨_, _, rfl⟩
  obtain ⟨front, rest, hpayload⟩ := hfront
  have hfull : (call.build c).payload.isEmpty = false := by
    simp [hpayload, ← List.length_pos_iff, Bytes.length_val]
  unfold Transaction.verify
  rw [hfull]
  cases call <;> rfl

theorem applyTransaction_build (call : BuilderCall) :
    applyTransaction c (call.build c) s =
      ((handle c (call.build c) s).1.map fun _ => none, (handle c (call.build c) s).2) := by
  refine applyTransaction_unsigned c s (build_verify c call) ?_
  cases call <;> rfl

/-- A built transaction does what its fields ask for just when those that are not
read agree with what the handler puts in their place. -/
theorem encoding_iff (call : BuilderCall) :
    applyTransaction c (call.build c) s = intended c s call ↔ Agrees c s call := by
  rw [applyTransaction_build]
  cases call with
  | jobSubmit jobId kernelId budget deadline =>
    rw [BuilderCall.build, handle_newJobSubmit]
    constructor
    · intro h
      have hsettlement := congrArg (fun r => r.2.settlement) h
      exact (createEscrow_eq_iff.mp hsettlement).symm
    · intro h
      dsimp only [intended]
      rw [createEscrow_eq_iff.mpr h]
      rfl
  | operatorRegister operatorId pubkey stake region =>
    rw [BuilderCall.build, handle_newOperatorRegister]
    constructor
    · intro h
      have hregion := congrArg (fun r => (r.2.settlement.operatorRegistry.get operatorId).map
        OperatorState.region) h
      simp only [intended, OperatorRegistry.get, OperatorRegistry.register, registered,
        Map.get_insert_self, Option.map_some, Option.some.injEq] at hregion
      exact hregion.symm
    · rintro rfl
      rfl
  | escrowDeposit jobId amount =>
    rw [BuilderCall.build, handle_newEscrowDeposit]
    exact iff_of_true rfl trivial
  | escrowRelease jobId recipient =>
    rw [BuilderCall.build, handle_newEscrowRelease]
    refine iff_of_true ?_ trivial
    dsimp only [intended]
    cases (s.settlement.releaseEscrow jobId recipient).1 <;> rfl
  | escrowRefund jobId =>
    rw [BuilderCall.build, handle_newEscrowRefund]
    refine iff_of_true ?_ trivial
    dsimp only [intended]
    cases (s.settlement.refundEscrow jobId).1 <;> rfl
  | reputationUpdate target delta =>
    rw [BuilderCall.build, handle_newReputationUpdate]
    exact iff_of_true rfl trivial
  | jobSettle receiptId outputHash =>
    rw [BuilderCall.build, handle_newJobSettle]
    constructor
    · intro h
      have hanchors := (settled_eq_iff s).mp (congrArg Prod.snd h)
      rcases Map.insert_eq_insert.mp hanchors with ⟨hid, -⟩ | ⟨-, hget, hget'⟩
      · exact .inl hid.symm
      · exact .inr ⟨hget, hget'⟩
    · rintro (rfl | ⟨hget, hget'⟩)
      · rfl
      · refine Prod.ext rfl ((settled_eq_iff s).mpr ?_)
        rw [Map.insert_eq_self.mpr hget, Map.insert_eq_self.mpr hget']

/-- A job submitted with a deadline of 100 blocks gets 500. -/
theorem encoding_fails :
    ¬ ∀ (c : Crypto) (s : State) (call : BuilderCall),
      applyTransaction c (call.build c) s = intended c s call := by
  intro h
  let c : Crypto := { blake3 := fun _ => .fill 32 0, ed25519Verify := fun _ _ _ => true }
  have heffect := h c .new (.jobSubmit (.fill 32 1) (.fill 32 2) 1000 100)
  have hdeadline := congrArg (fun r => (r.2.settlement.getEscrow (.fill 32 1)).map
    JobEscrow.deadlineBlock) heffect
  revert hdeadline
  decide

end State

end LiteVision.Truth
