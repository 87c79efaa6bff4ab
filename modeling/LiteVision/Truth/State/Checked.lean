import LiteVision.Truth.State.Reputation

/-!
# Transactions in a debug build

The handlers with bounds-checked slices and checked arithmetic: `none` stands for a panic.
Where they return, they do what the handlers of the model do. `never_panics_iff`: of all
transactions only the reputation update by the least delta panics, since that has no negation.
-/

namespace LiteVision.Truth

open Lib

-- ---------------------------------------------------------------------------
-- Checked arithmetic
-- ---------------------------------------------------------------------------

/-- `increase_reputation` on one operator; the bound is applied after the sum. -/
def OperatorState.increaseReputation? (operator : OperatorState) (delta : UInt64) :
    Option OperatorState :=
  (checkedAdd operator.reputation delta).map fun sum =>
    let operator := { operator with reputation := min sum 10000 }
    if operator.status = .suspended ∧ 1000 ≤ operator.reputation then
      { operator with status := .active }
    else operator

def OperatorRegistry.increaseReputation? (r : OperatorRegistry) (id : Bytes 32) (delta : UInt64) :
    Option OperatorRegistry :=
  match r.operators.get id with
  | none => some r
  | some operator => (operator.increaseReputation? delta).map fun operator =>
      { r with operators := r.operators.insert id operator }

namespace State

/-- What a handler returns, unless it panics. -/
abbrev Outcome := Option (Except StateError Unit × State)

def applyJobSubmit? (tx : Transaction) (s : State) : Outcome :=
  if tx.payload.length < 80 then some (.error .invalidTransaction, s)
  else do
    let jobId ← Bytes.slice? tx.payload 0 32
    let budget ← Bytes.slice? tx.payload 64 8
    let settlement := s.settlement.createEscrow jobId tx.sender (Bytes.toU64 budget) s.height 500
    some (.ok (), { s with settlement })

def applyJobSettle? (c : Crypto) (tx : Transaction) (s : State) : Outcome :=
  if tx.payload.length < 64 then some (.error .invalidTransaction, s)
  else do
    let jobId := tx.sender
    let settlement := { s.settlement with
      jobEscrows := s.settlement.jobEscrows.modify jobId fun escrow =>
        (escrow.release tx.sender).2 }
    let outputHash ← Bytes.slice? tx.payload 32 32
    let receipt := ReceiptAnchor.new c jobId tx.sender outputHash (.fill 32 0) 0 s.height
    some (.ok (), { s with settlement := settlement.anchorReceipt receipt })

def applyArtifactCommit? (tx : Transaction) (s : State) : Outcome :=
  if tx.payload.length < 40 then some (.error .invalidTransaction, s)
  else do
    let _contentHash ← Bytes.slice? tx.payload 0 32
    some (.ok (), s)

def applyOperatorRegister? (tx : Transaction) (s : State) : Outcome :=
  if tx.payload.length < 72 then some (.error .invalidTransaction, s)
  else do
    let operatorId ← Bytes.slice? tx.payload 0 32
    let pubkey ← Bytes.slice? tx.payload 32 32
    let stake ← Bytes.slice? tx.payload 64 8
    let operator : OperatorState :=
      { id := operatorId
        pubkey
        stake := max tx.fee (Bytes.toU64 stake)
        reputation := 1000
        status := .active
        region := "global"
        capabilities := []
        slashedCount := 0
        totalJobsCompleted := 0
        totalComputeUnits := 0
        lastUpdateBlock := s.height }
    let registry := s.settlement.operatorRegistry.register operator
    some (.ok (), { s with settlement := { s.settlement with operatorRegistry := registry } })

def applyOperatorUpdate? (tx : Transaction) (s : State) : Outcome :=
  if tx.payload.length < 32 then some (.error .invalidTransaction, s)
  else do
    let operatorId ← Bytes.slice? tx.payload 0 32
    if s.settlement.operatorRegistry.isActive operatorId then some (.ok (), s)
    else some (.error .operatorNotActive, s)

/-- Both the sum of an increase and the negation of a delta below zero are checked. -/
def applyReputationUpdate? (tx : Transaction) (s : State) : Outcome :=
  if tx.payload.length < 40 then some (.error .invalidTransaction, s)
  else do
    let target ← Bytes.slice? tx.payload 0 32
    let delta := Bytes.toI64 (← Bytes.slice? tx.payload 32 8)
    let registry ←
      if 0 ≤ delta then s.settlement.operatorRegistry.increaseReputation? target delta.toUInt64
      else (checkedNeg delta).map fun negated =>
        s.settlement.operatorRegistry.decreaseReputation target negated.toUInt64
    some (.ok (), { s with settlement := { s.settlement with operatorRegistry := registry } })

def applyEscrowDeposit? (tx : Transaction) (s : State) : Outcome :=
  if tx.payload.length < 40 then some (.error .invalidTransaction, s)
  else do
    let jobId ← Bytes.slice? tx.payload 0 32
    let amount ← Bytes.slice? tx.payload 32 8
    let settlement := s.settlement.createEscrow jobId tx.sender (Bytes.toU64 amount) s.height 500
    some (.ok (), { s with settlement })

def applyEscrowRelease? (tx : Transaction) (s : State) : Outcome :=
  if tx.payload.length < 64 then some (.error .invalidTransaction, s)
  else do
    let jobId ← Bytes.slice? tx.payload 0 32
    let recipient ← Bytes.slice? tx.payload 32 32
    let (paid, settlement) := s.settlement.releaseEscrow jobId recipient
    some (paid.map fun _ => (), { s with settlement })

def applyEscrowRefund? (tx : Transaction) (s : State) : Outcome :=
  if tx.payload.length < 32 then some (.error .invalidTransaction, s)
  else do
    let jobId ← Bytes.slice? tx.payload 0 32
    let (refunded, settlement) := s.settlement.refundEscrow jobId
    some (refunded.map fun _ => (), { s with settlement })

/-- The two legacy handlers read their fields with `get`, which cannot panic. -/
def handle? (c : Crypto) (tx : Transaction) (s : State) : Outcome :=
  match tx.txType with
  | .jobSubmit => applyJobSubmit? tx s
  | .jobSettle => applyJobSettle? c tx s
  | .artifactCommit => applyArtifactCommit? tx s
  | .operatorRegister => applyOperatorRegister? tx s
  | .operatorUpdate => applyOperatorUpdate? tx s
  | .reputationUpdate => applyReputationUpdate? tx s
  | .escrowDeposit => applyEscrowDeposit? tx s
  | .escrowRelease => applyEscrowRelease? tx s
  | .escrowRefund => applyEscrowRefund? tx s
  | .governanceVote | .transfer | .contractDeploy | .contractCall => some (.ok (), s)
  | .intelligenceSubmit => some (applyIntelligenceSubmit c tx s)
  | .intelligenceSettle => some (applyIntelligenceSettle tx s)

def applyTransaction? (c : Crypto) (tx : Transaction) (s : State) :
    Option (Except StateError (Option Receipt) × State) :=
  match tx.verify with
  | .error _ => some (.error .invalidTransaction, s)
  | .ok () =>
    match authorize c tx s with
    | .error err => some (.error err, s)
    | .ok () => (handle? c tx s).map fun outcome => (outcome.1.map fun _ => none, outcome.2)

-- ---------------------------------------------------------------------------
-- Against the model
-- ---------------------------------------------------------------------------

variable {c : Crypto} {tx : Transaction} {s : State}

theorem payload_checked {n : Nat} {body : Outcome}
    {out : ¬ tx.payload.length < n → Except StateError Unit × State}
    (h : ∀ hl : ¬ tx.payload.length < n, body = some (out hl)) :
    (if tx.payload.length < n then some (.error .invalidTransaction, s) else body) =
      some (if hl : tx.payload.length < n then (.error .invalidTransaction, s) else out hl) := by
  split
  · rfl
  · rename_i hl
    exact h hl

theorem applyJobSubmit?_eq : applyJobSubmit? tx s = some (applyJobSubmit tx s) := by
  refine payload_checked fun hl => ?_
  simp (disch := omega) [Bytes.slice?_eq_some]

theorem applyJobSettle?_eq : applyJobSettle? c tx s = some (applyJobSettle c tx s) := by
  refine payload_checked fun hl => ?_
  simp (disch := omega) [Bytes.slice?_eq_some]

theorem applyArtifactCommit?_eq : applyArtifactCommit? tx s = some (applyArtifactCommit tx s) := by
  unfold applyArtifactCommit? applyArtifactCommit
  split
  · rfl
  · simp [Bytes.slice?_eq_some (show 0 + 32 ≤ tx.payload.length by omega)]

theorem applyOperatorRegister?_eq :
    applyOperatorRegister? tx s = some (applyOperatorRegister tx s) := by
  refine payload_checked fun hl => ?_
  simp (disch := omega) [Bytes.slice?_eq_some]

theorem applyOperatorUpdate?_eq : applyOperatorUpdate? tx s = some (applyOperatorUpdate tx s) := by
  refine payload_checked fun hl => ?_
  simp (disch := omega) only [Bytes.slice?_eq_some]
  exact (apply_ite some _ _ _).symm

theorem applyEscrowDeposit?_eq : applyEscrowDeposit? tx s = some (applyEscrowDeposit tx s) := by
  refine payload_checked fun hl => ?_
  simp (disch := omega) [Bytes.slice?_eq_some]

theorem applyEscrowRelease?_eq : applyEscrowRelease? tx s = some (applyEscrowRelease tx s) := by
  refine payload_checked fun hl => ?_
  simp (disch := omega) [Bytes.slice?_eq_some]

theorem applyEscrowRefund?_eq : applyEscrowRefund? tx s = some (applyEscrowRefund tx s) := by
  refine payload_checked fun hl => ?_
  simp (disch := omega) [Bytes.slice?_eq_some]

end State

open OperatorRegistry

theorem OperatorRegistry.increaseReputation?_eq {r : OperatorRegistry} (h : Banded r)
    (id : Bytes 32) {delta : UInt64} (hdelta : delta.toNat < 2 ^ 63) :
    r.increaseReputation? id delta = some (r.increaseReputation id delta) := by
  unfold increaseReputation? increaseReputation Map.modify
  cases hget : r.operators.get id with
  | none => rfl
  | some operator =>
    have hle := UInt64.le_iff_toNat_le.mp (h id operator hget).bounded
    have hbound : (10000 : UInt64).toNat = 10000 := rfl
    simp only [OperatorState.increaseReputation?, checkedAdd_of_lt
      (show operator.reputation.toNat + delta.toNat < 2 ^ 64 by omega)]
    rfl

def Transaction.delta? (tx : Transaction) : Option Int64 :=
  match tx.txType with
  | .reputationUpdate => (Bytes.slice? tx.payload 32 8).map Bytes.toI64
  | _ => none

namespace State

variable {c : Crypto} {tx : Transaction} {s : State}

theorem applyReputationUpdate?_eq (h : Banded s.settlement.operatorRegistry)
    (ht : tx.txType = .reputationUpdate) :
    applyReputationUpdate? tx s =
      if tx.delta? = some Int64.minValue then none else some (applyReputationUpdate tx s) := by
  unfold applyReputationUpdate? applyReputationUpdate Transaction.delta?
  simp only [ht]
  split
  · rename_i hl
    have hnone : Bytes.slice? tx.payload 32 8 = none := dif_neg (by omega)
    simp [hnone]
  · simp only [Bytes.slice?_eq_some (show 0 + 32 ≤ tx.payload.length by omega),
      Bytes.slice?_eq_some (show 32 + 8 ≤ tx.payload.length by omega), Option.map_some,
      Option.bind_eq_bind, Option.bind_some, Option.some.injEq]
    generalize Bytes.toI64 (Bytes.slice tx.payload 32 8 _) = delta
    by_cases hsign : 0 ≤ delta
    · have hne : delta ≠ Int64.minValue := by
        rintro rfl
        exact absurd hsign (by decide)
      simp [hsign, hne, increaseReputation?_eq h _ (toNat_toUInt64_lt hsign)]
    · by_cases hleast : delta = Int64.minValue
      · rw [if_neg hsign, checkedNeg, if_pos hleast, if_pos hleast]
        rfl
      · simp [hsign, hleast, checkedNeg]

theorem handle?_eq (h : Banded s.settlement.operatorRegistry) :
    handle? c tx s =
      if tx.delta? = some Int64.minValue then none else some (handle c tx s) := by
  cases ht : tx.txType with
  | reputationUpdate =>
    simp only [handle?, handle, ht]
    exact applyReputationUpdate?_eq h ht
  | _ => simp [handle?, handle, ht, Transaction.delta?, applyJobSubmit?_eq, applyJobSettle?_eq,
      applyArtifactCommit?_eq, applyOperatorRegister?_eq, applyOperatorUpdate?_eq,
      applyEscrowDeposit?_eq, applyEscrowRelease?_eq, applyEscrowRefund?_eq]

/-- The transaction passes the checks, and its handler negates the least delta. -/
def NegatesLeast (c : Crypto) (s : State) (tx : Transaction) : Prop :=
  Admits c tx s ∧ tx.delta? = some Int64.minValue

theorem applyTransaction?_of_negatesLeast (h : Banded s.settlement.operatorRegistry)
    (hneg : NegatesLeast c s tx) : applyTransaction? c tx s = none := by
  obtain ⟨⟨hverify, hauthorize⟩, hdelta⟩ := hneg
  simp only [applyTransaction?, hverify, hauthorize, handle?_eq h, if_pos hdelta, Option.map_none]

/-- The checked transaction does what the transaction of the model does. -/
theorem applyTransaction?_eq (h : Banded s.settlement.operatorRegistry)
    (hneg : ¬ NegatesLeast c s tx) : applyTransaction? c tx s = some (applyTransaction c tx s) := by
  unfold applyTransaction? applyTransaction
  cases hverify : tx.verify with
  | error err => rfl
  | ok =>
    cases hauthorize : authorize c tx s with
    | error err => rfl
    | ok =>
      have hdelta : tx.delta? ≠ some Int64.minValue := fun hd => hneg ⟨⟨hverify, hauthorize⟩, hd⟩
      simp only [handle?_eq h, if_neg hdelta, Option.map_some]
      cases handle c tx s with
      | mk result after => cases result <;> rfl

/-- In a run no transaction panics just when none is a reputation update that passes the
checks and has the least delta. -/
theorem never_panics_iff (c : Crypto) (txs : List Transaction) :
    Trace.Always (transact c) (fun s tx => applyTransaction? c tx s ≠ none) .new txs ↔
      Trace.Always (transact c) (fun s tx => ¬ NegatesLeast c s tx) .new txs := by
  refine Trace.always_congr (I := fun s : State => Banded s.settlement.operatorRegistry)
    (fun _ tx h => banded_transact h tx) (fun s tx h => ?_) banded_new
  constructor
  · exact fun hsome hneg => hsome (applyTransaction?_of_negatesLeast h hneg)
  · intro hneg hnone
    rw [applyTransaction?_eq h hneg] at hnone
    cases hnone

/-- The delta `i64::MIN`. -/
theorem never_panics_fails :
    ¬ ∀ (c : Crypto) (txs : List Transaction),
      Trace.Always (transact c) (fun s tx => applyTransaction? c tx s ≠ none) .new txs := by
  intro h
  let c : Crypto := { blake3 := fun _ => .fill 32 0, ed25519Verify := fun _ _ _ => true }
  exact (h c [.newReputationUpdate c (.fill 32 1) Int64.minValue]).1 (by decide)

end State

end LiteVision.Truth
