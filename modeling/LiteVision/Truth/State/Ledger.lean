import LiteVision.Truth.Settlement.Escrow
import LiteVision.Truth.State.Transactions

/-!
# The books of the escrows

Funds come in with the deposits of `JobSubmit` and `EscrowDeposit`, and go out
when an escrow is released or refunded; what is in between is held by the open
escrows. The books balance over a run up to the funds of open escrows that a
deposit for the same job replaced.
-/

namespace LiteVision.Truth

open Lib

/-- The types whose handlers touch the escrows. -/
def TransactionType.MovesFunds : TransactionType → Prop
  | .jobSubmit | .jobSettle | .escrowDeposit | .escrowRelease | .escrowRefund => True
  | .artifactCommit | .operatorRegister | .operatorUpdate | .reputationUpdate | .governanceVote
  | .transfer | .contractDeploy | .contractCall | .intelligenceSubmit
  | .intelligenceSettle => False

namespace State

-- ---------------------------------------------------------------------------
-- Flows of funds
-- ---------------------------------------------------------------------------

def release? (s : State) (tx : Transaction) : Option UInt64 :=
  match tx.txType with
  | .escrowRelease => do
    let jobId ← Bytes.slice? tx.payload 0 32
    let recipient ← Bytes.slice? tx.payload 32 32
    (s.settlement.releaseEscrow jobId recipient).1.toOption
  | .jobSettle => (s.settlement.getEscrow tx.sender).map fun escrow => (escrow.release tx.sender).1
  | _ => none

def refund? (s : State) (tx : Transaction) : Option UInt64 :=
  match tx.txType with
  | .escrowRefund => do
    let jobId ← Bytes.slice? tx.payload 0 32
    (s.settlement.refundEscrow jobId).1.toOption
  | _ => none

variable (c : Crypto)

instance (tx : Transaction) (s : State) : Decidable (Accepts c tx s) := by
  unfold Accepts
  infer_instance

/-- An amount, when the transaction is accepted. -/
def flow (amount : Option UInt64) (s : State) (tx : Transaction) : Nat :=
  if Accepts c tx s then amount.elim 0 UInt64.toNat else 0

def deposited (s : State) (tx : Transaction) : Nat := flow c (tx.deposit?.map Prod.snd) s tx

def paidOut (s : State) (tx : Transaction) : Nat := flow c (release? s tx) s tx

def refunded (s : State) (tx : Transaction) : Nat := flow c (refund? s tx) s tx

def openFunds (s : State) : Nat := s.settlement.jobEscrows.total JobEscrow.held

/-- The funds a deposit drops with the escrow it replaces. -/
def replaced (s : State) (tx : Transaction) : Nat :=
  if Accepts c tx s then
    tx.deposit?.elim 0 fun deposit => s.settlement.jobEscrows.weightAt JobEscrow.held deposit.1
  else 0

-- ---------------------------------------------------------------------------
-- One transaction
-- ---------------------------------------------------------------------------

theorem handle_escrows {tx : Transaction} (h : ¬ tx.txType.MovesFunds) (s : State) :
    (handle c tx s).2.settlement.jobEscrows = s.settlement.jobEscrows := by
  cases ht : tx.txType with
  | jobSubmit | jobSettle | escrowDeposit | escrowRelease | escrowRefund =>
    exact absurd (by simp [TransactionType.MovesFunds, ht]) h
  | artifactCommit | operatorUpdate | governanceVote | transfer | contractDeploy | contractCall =>
    rw [handle_of_readOnly c (by simp [TransactionType.ReadOnly, ht])]
  | operatorRegister =>
    simp only [handle, ht, applyOperatorRegister]
    split <;> rfl
  | reputationUpdate =>
    simp only [handle, ht, applyReputationUpdate]
    split <;> rfl
  | intelligenceSubmit => simp only [handle, ht, applyIntelligenceSubmit]
  | intelligenceSettle =>
    simp only [handle, ht, applyIntelligenceSettle]
    split
    · rfl
    · split
      · rfl
      · split <;> rfl

/-- What a transaction does to the escrows: nothing, open one with the deposit,
or close one and hand out what it held. -/
theorem escrows_of (s : State) (tx : Transaction) :
    ((transact c s tx).settlement.jobEscrows = s.settlement.jobEscrows ∧
      deposited c s tx = 0 ∧ replaced c s tx = 0 ∧ paidOut c s tx + refunded c s tx = 0) ∨
    (∃ jobId escrow,
      (transact c s tx).settlement.jobEscrows = s.settlement.jobEscrows.insert jobId escrow ∧
      deposited c s tx = escrow.held ∧
      replaced c s tx = s.settlement.jobEscrows.weightAt JobEscrow.held jobId ∧
      paidOut c s tx + refunded c s tx = 0) ∨
    (∃ jobId escrow closed, s.settlement.jobEscrows.get jobId = some escrow ∧
      (transact c s tx).settlement.jobEscrows = s.settlement.jobEscrows.insert jobId closed ∧
      closed.held = 0 ∧ deposited c s tx = 0 ∧ replaced c s tx = 0 ∧
      paidOut c s tx + refunded c s tx = escrow.held) := by
  by_cases hacc : Accepts c tx s
  · rw [transact_of_accepts c hacc]
    simp only [deposited, paidOut, refunded, replaced, flow, if_pos hacc]
    have hok := ((accepts_iff c).mp hacc).2
    clear hacc
    cases hd : tx.deposit? with
    | some deposit =>
      obtain ⟨jobId, amount⟩ := deposit
      refine .inr (.inl ⟨jobId, .new jobId tx.sender amount 10 s.height 500, ?_, ?_, rfl, ?_⟩)
      · rw [handle_deposit c hd]
        rfl
      · exact (JobEscrow.held_new ..).symm
      · cases ht : tx.txType <;> simp [Transaction.deposit?, ht, release?, refund?] at hd ⊢
    | none =>
      cases ht : tx.txType with
      | jobSubmit | escrowDeposit =>
        obtain ⟨jobId, amount, hd'⟩ := exists_deposit c (by simp [ht]) hok
        rw [hd] at hd'
        cases hd'
      | jobSettle =>
        have hrefund : refund? s tx = none := by simp only [refund?, ht]
        have hrelease : release? s tx = (s.settlement.jobEscrows.get tx.sender).map
            fun escrow => (escrow.release tx.sender).1 := by
          simp only [release?, ht, SettlementState.getEscrow]
        rw [hrefund, hrelease]
        rcases jobSettle_cases c ht hok with ⟨escrow, hget, ha, heq⟩ | ⟨hno, heq⟩
        · rw [hget, Option.map_some, JobEscrow.release, JobEscrow.close_active ha]
          exact .inr (.inr ⟨tx.sender, escrow, _, hget, heq, rfl, rfl, rfl,
            (JobEscrow.held_of_active ha).symm⟩)
        · refine .inl ⟨heq, rfl, rfl, ?_⟩
          cases hget : s.settlement.jobEscrows.get tx.sender with
          | none => rfl
          | some escrow =>
            rw [Option.map_some, JobEscrow.release, JobEscrow.close_inactive (hno escrow hget)]
            rfl
      | escrowRelease =>
        have hrefund : refund? s tx = none := by simp only [refund?, ht]
        obtain ⟨jobId, recipient, escrow, hjob, hrecipient, hget, ha, heq⟩ :=
          escrowRelease_ok c ht hok
        have hrelease : release? s tx = some escrow.amount := by
          simp [release?, ht, hjob, hrecipient, SettlementState.releaseEscrow,
            SettlementState.closeEscrow_active hget ha, JobEscrow.release,
            JobEscrow.close_active ha, Except.toOption]
        rw [heq, hrelease, hrefund]
        exact .inr (.inr ⟨jobId, escrow, _, hget, rfl, rfl, rfl, rfl,
          (JobEscrow.held_of_active ha).symm⟩)
      | escrowRefund =>
        have hrelease : release? s tx = none := by simp only [release?, ht]
        obtain ⟨jobId, escrow, hjob, hget, ha, heq⟩ := escrowRefund_ok c ht hok
        have hrefund : refund? s tx = some escrow.amount := by
          simp [refund?, ht, hjob, SettlementState.refundEscrow,
            SettlementState.closeEscrow_active hget ha, JobEscrow.refund,
            JobEscrow.close_active ha, Except.toOption]
        rw [heq, hrelease, hrefund]
        refine .inr (.inr ⟨jobId, escrow, _, hget, rfl, rfl, rfl, rfl, ?_⟩)
        rw [JobEscrow.held_of_active ha]
        exact Nat.zero_add _
      | artifactCommit | operatorRegister | operatorUpdate | reputationUpdate | governanceVote
      | transfer | contractDeploy | contractCall | intelligenceSubmit | intelligenceSettle =>
        have hother : (handle c tx s).2.settlement.jobEscrows = s.settlement.jobEscrows :=
          handle_escrows c (by simp [TransactionType.MovesFunds, ht]) s
        exact .inl ⟨hother, rfl, rfl, by simp [release?, refund?, ht]⟩
  · rw [transact_of_not_accepts c hacc]
    exact .inl ⟨rfl, by simp only [deposited, replaced, paidOut, refunded, flow, if_neg hacc,
      and_self]⟩

/-- One transaction keeps the books, up to the funds it replaces. -/
theorem openFunds_transact (s : State) (tx : Transaction) :
    openFunds (transact c s tx) + (paidOut c s tx + refunded c s tx + replaced c s tx) =
      openFunds s + deposited c s tx := by
  rcases escrows_of c s tx with
    ⟨hescrows, hin, hreplaced, hout⟩ | ⟨jobId, escrow, hescrows, hin, hreplaced, hout⟩ |
    ⟨jobId, escrow, closed, hget, hescrows, hclosed, hin, hreplaced, hout⟩
  · rw [openFunds, hescrows, hin, hreplaced, hout]
    rfl
  · have htotal := s.settlement.jobEscrows.total_insert JobEscrow.held jobId escrow
    rw [openFunds, hescrows, hin, hreplaced, hout, Nat.zero_add, htotal]
    rfl
  · have htotal := s.settlement.jobEscrows.total_insert JobEscrow.held jobId closed
    rw [hclosed, Map.weightAt, hget] at htotal
    rw [openFunds, hescrows, hin, hreplaced, hout, Nat.add_zero]
    exact htotal

-- ---------------------------------------------------------------------------
-- Runs
-- ---------------------------------------------------------------------------

/-- What came in is what went out and what the open escrows hold. -/
def Balanced (txs : List Transaction) : Prop :=
  Trace.sum (transact c) (deposited c) .new txs =
    Trace.sum (transact c) (paidOut c) .new txs + Trace.sum (transact c) (refunded c) .new txs +
      openFunds (Trace.exec (transact c) .new txs)

/-- A deposit that passes the checks is not for a job whose open escrow holds funds. -/
def KeepsFunds (s : State) (tx : Transaction) : Prop :=
  ∀ jobId amount, tx.deposit? = some (jobId, amount) → Admits c tx s →
    ∀ escrow, s.settlement.getEscrow jobId = some escrow → escrow.IsOpen → escrow.amount = 0

theorem replaced_eq_zero {s : State} {tx : Transaction} :
    replaced c s tx = 0 ↔ KeepsFunds c s tx := by
  cases hd : tx.deposit? with
  | none =>
    refine ⟨fun _ jobId amount hd' => by simp [hd] at hd', fun _ => ?_⟩
    simp [replaced, hd]
  | some deposit =>
    obtain ⟨jobId, amount⟩ := deposit
    have hacc : Accepts c tx s ↔ Admits c tx s := by
      rw [accepts_iff, handle_deposit c hd]
      exact and_iff_left rfl
    have hheld : s.settlement.jobEscrows.weightAt JobEscrow.held jobId = 0 ↔
        ∀ escrow, s.settlement.getEscrow jobId = some escrow → escrow.IsOpen → escrow.amount = 0 := by
      rw [Map.weightAt, SettlementState.getEscrow]
      cases s.settlement.jobEscrows.get jobId with
      | none => simp
      | some escrow => simp [JobEscrow.held, ← UInt64.toNat_inj]
    constructor
    · intro h jobId' amount' hd' hadmits
      obtain ⟨rfl, rfl⟩ := Prod.mk.inj (Option.some.inj (hd.symm.trans hd'))
      rw [replaced, if_pos (hacc.mpr hadmits), hd] at h
      exact hheld.mp h
    · intro h
      rw [replaced, hd]
      split
      · rename_i haccepts
        exact hheld.mpr (h jobId amount hd (hacc.mp haccepts))
      · rfl

/-- The books balance over a run just when no deposit replaces held funds. -/
theorem escrow_conservation_iff (txs : List Transaction) :
    Balanced c txs ↔ Trace.Always (transact c) (KeepsFunds c) .new txs := by
  have hbooks := Trace.sum_balance openFunds (openFunds_transact c) .new txs
  rw [Trace.sum_add, Trace.sum_add] at hbooks
  have hnew : openFunds .new = 0 := Map.total_empty _
  have hlost : Balanced c txs ↔ Trace.sum (transact c) (replaced c) .new txs = 0 := by
    rw [Balanced]
    omega
  rw [hlost, Trace.sum_eq_zero]
  exact Trace.always_congr (I := fun _ => True) (fun _ _ _ => trivial)
    (fun _ _ _ => replaced_eq_zero c) trivial

/-- Two deposits for one job: the second replaces the first, and its funds are gone. -/
theorem escrow_conservation_fails :
    ¬ ∀ (c : Crypto) (txs : List Transaction), Balanced c txs := by
  intro h
  let c : Crypto := { blake3 := fun _ => .fill 32 0, ed25519Verify := fun _ _ _ => true }
  have hbooks := h c [.newEscrowDeposit c (.fill 32 1) 1000, .newEscrowDeposit c (.fill 32 1) 500]
  revert hbooks
  simp only [Balanced]
  decide

end State

end LiteVision.Truth
