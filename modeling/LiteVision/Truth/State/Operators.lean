import LiteVision.Truth.Settlement.Registry
import LiteVision.Truth.State.Transactions

/-!
# Operators

On the operator registry a transaction is at most one call of one of its
methods. Slashing and deregistration are undone by no method but `register`,
which overwrites whatever is stored for the id: they are final in the runs where
no `OperatorRegister` that passes the checks names an operator so marked.
-/

namespace LiteVision.Truth

open Lib OperatorRegistry

/-- The call that the handler of a transaction makes on the registry. -/
def Transaction.registryOp? (tx : Transaction) (height : UInt64) : Option RegistryOp :=
  match tx.txType with
  | .operatorRegister => do
    let id ← Bytes.slice? tx.payload 0 32
    let pubkey ← Bytes.slice? tx.payload 32 32
    let stake ← Bytes.slice? tx.payload 64 8
    some (.register
      { id, pubkey
        stake := max tx.fee (Bytes.toU64 stake)
        reputation := 1000
        status := .active
        region := "global"
        capabilities := []
        slashedCount := 0
        totalJobsCompleted := 0
        totalComputeUnits := 0
        lastUpdateBlock := height })
  | .reputationUpdate => do
    let target ← Bytes.slice? tx.payload 0 32
    let delta ← (Bytes.slice? tx.payload 32 8).map Bytes.toI64
    some (if 0 ≤ delta then .increaseReputation target delta.toUInt64
      else .decreaseReputation target (-delta).toUInt64)
  | _ => none

theorem Transaction.registryOp?_register {tx : Transaction} {height : UInt64}
    {operator : OperatorState} (h : tx.registryOp? height = some (.register operator)) :
    operator.status = .active := by
  cases ht : tx.txType with
  | operatorRegister =>
    simp only [registryOp?, ht, Option.bind_eq_bind, Option.bind_eq_some_iff, Option.some.injEq,
      RegistryOp.register.injEq] at h
    obtain ⟨id, -, pubkey, -, stake, -, rfl⟩ := h
    rfl
  | reputationUpdate =>
    simp only [registryOp?, ht, Option.bind_eq_bind, Option.bind_eq_some_iff,
      Option.some.injEq] at h
    obtain ⟨target, -, delta, -, h⟩ := h
    split at h <;> cases h
  | _ => simp [registryOp?, ht] at h

namespace OperatorRegistry

/-- The operator was slashed or deregistered. -/
def Removed (r : OperatorRegistry) (id : Bytes 32) : Prop :=
  ∃ operator, r.get id = some operator ∧
    (operator.status = .slashed ∨ operator.status = .deregistered)

theorem isActive_iff {r : OperatorRegistry} {id : Bytes 32} :
    r.isActive id = true ↔ ∃ operator, r.get id = some operator ∧ operator.status = .active := by
  unfold isActive get
  cases r.operators.get id <;> simp

theorem not_isActive_of_removed {r : OperatorRegistry} {id : Bytes 32} (h : Removed r id) :
    r.isActive id = false := by
  obtain ⟨operator, hget, hstatus⟩ := h
  rw [Bool.eq_false_iff]
  intro hactive
  obtain ⟨other, hother, hstatus'⟩ := isActive_iff.mp hactive
  obtain rfl := Option.some.inj (hget.symm.trans hother)
  rcases hstatus with hstatus | hstatus
  · rw [hstatus] at hstatus'
    cases hstatus'
  · rw [hstatus] at hstatus'
    cases hstatus'

theorem removed_step {r : OperatorRegistry} {id : Bytes 32} {op : RegistryOp}
    (hop : op.IsUpdate ∨ op.target ≠ id) (h : Removed r id) : Removed (r.step op) id := by
  obtain ⟨operator, hget, hstatus⟩ := h
  unfold Removed
  rw [get_step]
  split
  · rename_i hid
    have hop := hop.resolve_right fun hne => hne hid.symm
    refine ⟨op.update operator, by rw [RegistryOp.entry_eq_map hop, hget, Option.map_some], ?_⟩
    cases op with
    | register operator => exact hop.elim
    | updateStake target newStake => exact hstatus
    | slash target amount =>
      by_cases hlt : operator.stake < amount
      · simpa [RegistryOp.update, hlt] using hstatus
      · exact .inl (by simp [RegistryOp.update, hlt, OperatorState.slash])
    | deactivate target => exact .inr rfl
    | increaseReputation target delta =>
      rcases hstatus with hstatus | hstatus <;>
        simp [RegistryOp.update, OperatorState.increaseReputation, hstatus]
    | decreaseReputation target delta =>
      rcases hstatus with hstatus | hstatus <;>
        simp [RegistryOp.update, OperatorState.decreaseReputation, hstatus]
  · exact ⟨operator, hget, hstatus⟩

theorem isActive_register (r : OperatorRegistry) {operator : OperatorState}
    (h : operator.status = .active) : (r.register operator).isActive operator.id = true :=
  isActive_iff.mpr ⟨operator, Map.get_insert_self _ _ _, h⟩

end OperatorRegistry

namespace State

variable (c : Crypto)

theorem handle_registry {tx : Transaction} {s : State} (hok : (handle c tx s).1 = .ok ()) :
    (handle c tx s).2.settlement.operatorRegistry =
      (tx.registryOp? s.height).elim s.settlement.operatorRegistry
        s.settlement.operatorRegistry.step := by
  cases ht : tx.txType with
  | operatorRegister =>
    have hl : ¬ tx.payload.length < 72 := fun hl => by
      simp [handle, ht, applyOperatorRegister, hl] at hok
    simp [handle, ht, applyOperatorRegister, hl, Transaction.registryOp?,
      Bytes.slice?_eq_some (show 0 + 32 ≤ tx.payload.length by omega),
      Bytes.slice?_eq_some (show 32 + 32 ≤ tx.payload.length by omega),
      Bytes.slice?_eq_some (show 64 + 8 ≤ tx.payload.length by omega), step]
  | reputationUpdate =>
    have hl : ¬ tx.payload.length < 40 := fun hl => by
      simp [handle, ht, applyReputationUpdate, hl] at hok
    simp only [handle, ht, applyReputationUpdate, dif_neg hl, Transaction.registryOp?,
      Bytes.slice?_eq_some (show 0 + 32 ≤ tx.payload.length by omega),
      Bytes.slice?_eq_some (show 32 + 8 ≤ tx.payload.length by omega), Option.map_some,
      Option.bind_eq_bind, Option.bind_some, Option.elim_some]
    split <;> rfl
  | jobSubmit | escrowDeposit =>
    obtain ⟨jobId, amount, hd⟩ := exists_deposit c (by simp [ht]) hok
    simp [handle_deposit c hd, SettlementState.createEscrow, Transaction.registryOp?, ht]
  | jobSettle =>
    simp only [handle, ht, applyJobSettle, Transaction.registryOp?, Option.elim_none]
    split <;> rfl
  | escrowRelease =>
    simp only [handle, ht, Transaction.registryOp?, Option.elim_none]
    rcases applyEscrowRelease_cases tx s with ⟨err, heq⟩ | ⟨jobId, recipient, escrow, -, -, -, -, heq⟩
    · rw [heq]
    · rw [heq]
  | escrowRefund =>
    simp only [handle, ht, Transaction.registryOp?, Option.elim_none]
    rcases applyEscrowRefund_cases tx s with ⟨err, heq⟩ | ⟨jobId, escrow, -, -, -, heq⟩
    · rw [heq]
    · rw [heq]
  | intelligenceSubmit =>
    simp only [handle, ht, applyIntelligenceSubmit, Transaction.registryOp?, Option.elim_none]
  | intelligenceSettle =>
    simp only [handle, ht, applyIntelligenceSettle, Transaction.registryOp?, Option.elim_none]
    split
    · rfl
    · split
      · rfl
      · split <;> rfl
  | artifactCommit | operatorUpdate | governanceVote | transfer | contractDeploy | contractCall =>
    rw [handle_of_readOnly c (by simp [TransactionType.ReadOnly, ht])]
    simp [Transaction.registryOp?, ht]

theorem handle_of_registryOp {tx : Transaction} {s : State} {op : RegistryOp}
    (h : tx.registryOp? s.height = some op) : (handle c tx s).1 = .ok () := by
  cases ht : tx.txType with
  | operatorRegister =>
    simp only [Transaction.registryOp?, ht, Option.bind_eq_bind, Option.bind_eq_some_iff] at h
    obtain ⟨id, -, pubkey, -, stake, hstake, -⟩ := h
    have hl := Bytes.length_of_slice? hstake
    simp [handle, ht, applyOperatorRegister, show ¬ tx.payload.length < 72 by omega]
  | reputationUpdate =>
    simp only [Transaction.registryOp?, ht, Option.bind_eq_bind, Option.bind_eq_some_iff,
      Option.map_eq_some_iff] at h
    obtain ⟨target, -, delta, ⟨bytes, hdelta, -⟩, -⟩ := h
    have hl := Bytes.length_of_slice? hdelta
    simp [handle, ht, applyReputationUpdate, show ¬ tx.payload.length < 40 by omega]
  | _ => simp [Transaction.registryOp?, ht] at h

theorem transact_registry (s : State) (tx : Transaction) :
    ((transact c s tx).settlement.operatorRegistry = s.settlement.operatorRegistry ∧
      (Admits c tx s → tx.registryOp? s.height = none)) ∨
    ∃ op, tx.registryOp? s.height = some op ∧ Admits c tx s ∧
      (transact c s tx).settlement.operatorRegistry = s.settlement.operatorRegistry.step op := by
  by_cases hacc : Accepts c tx s
  · have hregistry := handle_registry c ((accepts_iff c).mp hacc).2
    rw [transact_of_accepts c hacc, hregistry]
    cases hop : tx.registryOp? s.height with
    | none => exact .inl ⟨rfl, fun _ => rfl⟩
    | some op => exact .inr ⟨op, rfl, ((accepts_iff c).mp hacc).1, rfl⟩
  · rw [transact_of_not_accepts c hacc]
    refine .inl ⟨rfl, fun hadmits => ?_⟩
    cases hop : tx.registryOp? s.height with
    | none => rfl
    | some op => exact absurd ((accepts_iff c).mpr ⟨hadmits, handle_of_registryOp c hop⟩) hacc

-- ---------------------------------------------------------------------------
-- Transactions and direct calls
-- ---------------------------------------------------------------------------

/-- A transaction, or a call on the registry that registers nobody. -/
inductive OperatorAction
  | transaction (tx : Transaction)
  | registry (op : RegistryOp) (h : op.IsUpdate)

def act (s : State) : OperatorAction → State
  | .transaction tx => transact c s tx
  | .registry op _ =>
    { s with settlement := { s.settlement with
        operatorRegistry := s.settlement.operatorRegistry.step op } }

/-- Once removed in a run, an operator is not active later in it. -/
def SlashingFinal (s : State) (run : List OperatorAction) : Prop :=
  ∀ before after rest, run = before ++ after ++ rest → ∀ id,
    Removed (Trace.exec (act c) s before).settlement.operatorRegistry id →
      (Trace.exec (act c) s (before ++ after)).settlement.operatorRegistry.isActive id = false

/-- No registration that passes the checks is of an operator that was removed. -/
def KeepsRemoved (s : State) : OperatorAction → Prop
  | .transaction tx => ∀ operator, tx.registryOp? s.height = some (.register operator) →
      Admits c tx s → ¬ Removed s.settlement.operatorRegistry operator.id
  | .registry .. => True

theorem removed_act {s : State} {a : OperatorAction} {id : Bytes 32}
    (h : Removed s.settlement.operatorRegistry id) (ha : KeepsRemoved c s a) :
    Removed (act c s a).settlement.operatorRegistry id := by
  cases a with
  | registry op hop => exact removed_step (.inl hop) h
  | transaction tx =>
    rcases transact_registry c s tx with ⟨hsame, -⟩ | ⟨op, hop, hacc, heq⟩
    · rw [act, hsame]
      exact h
    · rw [act, heq]
      cases op with
      | register operator =>
        apply removed_step (.inr _) h
        rintro rfl
        exact ha operator hop hacc h
      | _ => exact removed_step (.inl trivial) h

/-- Slashing and deregistration are final in a run just when no registration in
it is of a removed operator. -/
theorem slashing_final_iff (s : State) (run : List OperatorAction) :
    SlashingFinal c s run ↔ Trace.Always (act c) (KeepsRemoved c) s run := by
  constructor
  · intro hfinal
    rw [Trace.always_iff_forall]
    rintro before a after rfl
    cases a with
    | registry op hop => trivial
    | transaction tx =>
      intro operator hop hacc hremoved
      have hdead := hfinal before [.transaction tx] after (by simp) operator.id hremoved
      rcases transact_registry c (Trace.exec (act c) s before) tx with
        ⟨-, hnone⟩ | ⟨op, hop', -, heq⟩
      · rw [hnone hacc] at hop
        cases hop
      · obtain rfl := Option.some.inj (hop.symm.trans hop')
        rw [Trace.exec_concat, act, heq, step,
          isActive_register _ (Transaction.registryOp?_register hop)] at hdead
        cases hdead
  · intro halways before after rest heq id hremoved
    rw [Trace.exec_append]
    apply not_isActive_of_removed
    have hpart : before ++ after <+: run := ⟨rest, heq.symm⟩
    exact (halways.between hpart).exec
      (I := fun s => Removed s.settlement.operatorRegistry id)
      (fun _ _ h ha => removed_act c h ha) hremoved

/-- A slashed operator registers again and is active. -/
theorem slashing_final_fails :
    ¬ ∀ (c : Crypto) (run : List OperatorAction), SlashingFinal c .new run := by
  intro h
  let c : Crypto := { blake3 := fun _ => .fill 32 0, ed25519Verify := fun _ _ _ => true }
  let register := Transaction.newOperatorRegister c (.fill 32 1) (.fill 32 2) 10000 "us-east"
  have hdead := h c
    [.transaction register, .registry (.slash (.fill 32 1) 5000) trivial, .transaction register]
    [.transaction register, .registry (.slash (.fill 32 1) 5000) trivial] [.transaction register] []
    rfl (.fill 32 1) ⟨_, rfl, .inl rfl⟩
  revert hdead
  decide

end State

end LiteVision.Truth
