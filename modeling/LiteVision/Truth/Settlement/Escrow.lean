import LiteVision.Lib.Trace
import LiteVision.Truth.Settlement

/-!
# Calls on an escrow

An escrow holds its amount until it is released or refunded, frozen or not. `pays_once`:
over any sequence of calls it gives out its amount once at most, and not while it is frozen.
-/

namespace LiteVision.Truth

open Lib

namespace JobEscrow

def IsOpen (escrow : JobEscrow) : Prop := escrow.status = .active ∨ escrow.status = .frozen

instance (escrow : JobEscrow) : Decidable escrow.IsOpen := by
  unfold IsOpen
  infer_instance

def held (escrow : JobEscrow) : Nat := if escrow.IsOpen then escrow.amount.toNat else 0

theorem held_new (jobId clientId : Bytes 32) (amount percent block deadline : UInt64) :
    (new jobId clientId amount percent block deadline).held = amount.toNat := by
  simp [held, IsOpen, new]

theorem held_of_active {escrow : JobEscrow} (h : escrow.status = .active) :
    escrow.held = escrow.amount.toNat := by
  simp [held, IsOpen, h]

theorem held_of_closed {escrow : JobEscrow} (h : ¬ escrow.IsOpen) : escrow.held = 0 := if_neg h

-- ---------------------------------------------------------------------------
-- Calls
-- ---------------------------------------------------------------------------

inductive EscrowOp
  | release (recipient : Bytes 32)
  | refund
  | freeze
  | unfreeze
  deriving DecidableEq

def call (escrow : JobEscrow) : EscrowOp → UInt64 × JobEscrow
  | .release recipient => escrow.release recipient
  | .refund => escrow.refund
  | .freeze => (0, escrow.freeze)
  | .unfreeze => (0, escrow.unfreeze)

def step (escrow : JobEscrow) (op : EscrowOp) : JobEscrow := (escrow.call op).2

def paid (escrow : JobEscrow) (op : EscrowOp) : Nat := (escrow.call op).1.toNat

variable {escrow : JobEscrow} {op : EscrowOp}

/-- A call closes an active escrow and returns its amount, or returns nothing and moves
the escrow between active and frozen at most. -/
theorem call_cases (escrow : JobEscrow) (op : EscrowOp) :
    (escrow.status = .active ∧ ∃ status, (status = .released ∨ status = .refunded) ∧
      escrow.call op = (escrow.amount, { escrow with status })) ∨
    (escrow.IsOpen ∧ ∃ status, (status = .active ∨ status = .frozen) ∧
      escrow.call op = (0, { escrow with status })) ∨
    escrow.call op = (0, escrow) := by
  cases op with
  | release recipient =>
    by_cases ha : escrow.status = .active
    · exact .inl ⟨ha, .released, .inl rfl, close_active ha .released⟩
    · exact .inr (.inr (close_inactive ha .released))
  | refund =>
    by_cases ha : escrow.status = .active
    · exact .inl ⟨ha, .refunded, .inr rfl, close_active ha .refunded⟩
    · exact .inr (.inr (close_inactive ha .refunded))
  | freeze =>
    by_cases ha : escrow.status = .active
    · exact .inr (.inl ⟨.inl ha, .frozen, .inr rfl, by simp [call, freeze, ha]⟩)
    · exact .inr (.inr (by simp [call, freeze, ha]))
  | unfreeze =>
    by_cases hf : escrow.status = .frozen
    · exact .inr (.inl ⟨.inr hf, .active, .inl rfl, by simp [call, unfreeze, hf]⟩)
    · exact .inr (.inr (by simp [call, unfreeze, hf]))

theorem call_of_closed (h : ¬ escrow.IsOpen) (op : EscrowOp) : escrow.call op = (0, escrow) := by
  rcases call_cases escrow op with ⟨ha, -⟩ | ⟨ho, -⟩ | heq
  · exact absurd (.inl ha) h
  · exact absurd ho h
  · exact heq

theorem held_step (escrow : JobEscrow) (op : EscrowOp) :
    (escrow.step op).held + escrow.paid op = escrow.held := by
  unfold step paid
  rcases call_cases escrow op with ⟨ha, status, hs, heq⟩ | ⟨ho, status, hs, heq⟩ | heq
  · have hclosed : ¬ ({ escrow with status } : JobEscrow).IsOpen := by
      rcases hs with rfl | rfl <;> simp [IsOpen]
    rw [heq, held_of_active ha, held_of_closed hclosed, Nat.zero_add]
  · have hopen : ({ escrow with status } : JobEscrow).IsOpen := hs
    rw [heq, held, held, if_pos ho, if_pos hopen]
    rfl
  · rw [heq]
    rfl

theorem closed_of_paid (h : escrow.paid op ≠ 0) : ¬ (escrow.step op).IsOpen := by
  unfold step
  unfold paid at h
  rcases call_cases escrow op with ⟨-, status, hs, heq⟩ | ⟨-, status, -, heq⟩ | heq
  · rw [heq]
    rcases hs with rfl | rfl <;> simp [IsOpen]
  · rw [heq] at h
    exact absurd rfl h
  · rw [heq] at h
    exact absurd rfl h

theorem paid_of_frozen (h : escrow.status = .frozen) (op : EscrowOp) : escrow.paid op = 0 := by
  unfold paid
  rcases call_cases escrow op with ⟨ha, -⟩ | ⟨-, status, -, heq⟩ | heq
  · rw [h] at ha
    cases ha
  · rw [heq]
    rfl
  · rw [heq]
    rfl

-- ---------------------------------------------------------------------------
-- Sequences of calls
-- ---------------------------------------------------------------------------

/-- What escrows promise over a sequence of calls. -/
structure PaysOnce (escrow : JobEscrow) (ops : List EscrowOp) : Prop where
  once : Trace.sum step (fun escrow op => if escrow.paid op = 0 then 0 else 1) escrow ops ≤ 1
  bounded : Trace.sum step paid escrow ops ≤ escrow.amount.toNat
  final : ∀ before between status, before ++ between <+: ops →
    status = .released ∨ status = .refunded → (Trace.exec step escrow before).status = status →
      (Trace.exec step escrow (before ++ between)).status = status
  frozen : Trace.Always step (fun escrow op => escrow.status = .frozen → escrow.paid op = 0)
    escrow ops

theorem exec_of_closed (h : ¬ escrow.IsOpen) (ops : List EscrowOp) :
    Trace.exec step escrow ops = escrow :=
  Trace.invariant (I := fun later : JobEscrow => later = escrow)
    (by rintro _ op rfl; exact congrArg Prod.snd (call_of_closed h op)) rfl ops

theorem paid_once (escrow : JobEscrow) (ops : List EscrowOp) :
    Trace.sum step (fun escrow op => if escrow.paid op = 0 then 0 else 1) escrow ops ≤ 1 := by
  have hall : Trace.Always step (fun _ _ => True) escrow ops :=
    Trace.always_of_forall_mem fun _ _ _ => trivial
  refine hall.sum_le_one (I := fun escrow : JobEscrow => ¬ escrow.IsOpen) ?_ ?_ ?_ ?_
  · intro escrow op
    split <;> decide
  · intro escrow op _ hcount
    exact closed_of_paid fun hzero => hcount (if_pos hzero)
  · intro escrow op _ hclosed
    rwa [step, call_of_closed hclosed]
  · intro escrow op _ hclosed
    rw [paid, call_of_closed hclosed]
    rfl

theorem held_exec (escrow : JobEscrow) (ops : List EscrowOp) :
    (Trace.exec step escrow ops).held + Trace.sum step paid escrow ops = escrow.held := by
  have hbalance := Trace.sum_balance (g := fun _ _ => 0) held held_step escrow ops
  have hnone : Trace.sum step (fun _ _ => 0) escrow ops = 0 :=
    Trace.sum_eq_zero.mpr (Trace.always_of_forall_mem fun _ _ _ => rfl)
  rwa [hnone] at hbalance

/-- Each escrow that is created pays once. -/
theorem pays_once (jobId clientId : Bytes 32)
    (amount verifierReservePercent currentBlock deadlineBlocks : UInt64) (ops : List EscrowOp) :
    PaysOnce (new jobId clientId amount verifierReservePercent currentBlock deadlineBlocks) ops where
  once := paid_once _ ops
  bounded := by
    have hbalance := held_exec
      (new jobId clientId amount verifierReservePercent currentBlock deadlineBlocks) ops
    rw [held_new] at hbalance
    exact Nat.le.intro ((Nat.add_comm ..).trans hbalance)
  final := by
    rintro before between status - hstatus hbefore
    have hclosed : ¬ (Trace.exec step (new jobId clientId amount verifierReservePercent
        currentBlock deadlineBlocks) before).IsOpen := by
      rw [IsOpen, hbefore]
      rcases hstatus with rfl | rfl <;> simp
    rw [Trace.exec_append, exec_of_closed hclosed, hbefore]
  frozen := Trace.always_of_forall_mem fun op _ _ hf => paid_of_frozen hf op

end JobEscrow

end LiteVision.Truth
