import LiteVision.Truth.State.Authorization
import LiteVision.Truth.State.Ledger

/-!
# Replays

No transaction is remembered, and a nonce is looked at only as a part of the
signed message: a transaction that was accepted can be accepted again. What a
replay cannot do is close an escrow twice. Between two transactions that close
the escrow of a job there is a deposit for that job.
-/

namespace LiteVision.Truth

open Lib

namespace State

variable (c : Crypto)

-- ---------------------------------------------------------------------------
-- Opening and closing an escrow
-- ---------------------------------------------------------------------------

/-- The job has an active escrow. -/
def HasActive (s : State) (jobId : Bytes 32) : Prop :=
  ∃ escrow, s.settlement.jobEscrows.get jobId = some escrow ∧ escrow.status = .active

/-- An accepted deposit for the job. -/
def Opens (jobId : Bytes 32) (s : State) (tx : Transaction) : Prop :=
  Accepts c tx s ∧ ∃ amount, tx.deposit? = some (jobId, amount)

/-- An accepted release or refund that names the job, or an accepted settlement
by the sender of that id while the escrow is active. -/
def Closes (jobId : Bytes 32) (s : State) (tx : Transaction) : Prop :=
  Accepts c tx s ∧
    match tx.txType with
    | .escrowRelease | .escrowRefund => Bytes.slice? tx.payload 0 32 = some jobId
    | .jobSettle => tx.sender = jobId ∧ HasActive s jobId
    | _ => False

theorem not_closes_of_deposit {jobId jobId' : Bytes 32} {amount : UInt64} {s : State}
    {tx : Transaction} (h : tx.deposit? = some (jobId', amount)) : ¬ Closes c jobId s tx := by
  rintro ⟨-, hcloses⟩
  cases ht : tx.txType with
  | jobSubmit | escrowDeposit => simp [ht] at hcloses
  | _ => simp [Transaction.deposit?, ht] at h

theorem closed_cases {s s' : State} {jobId jobId' : Bytes 32} {escrow closed : JobEscrow} {P : Prop}
    (heq : s'.settlement.jobEscrows = s.settlement.jobEscrows.insert jobId' closed)
    (hget : s.settlement.jobEscrows.get jobId' = some escrow) (ha : escrow.status = .active)
    (hclosed : closed.status ≠ .active) (hP : P ↔ jobId' = jobId) :
    (P ∧ HasActive s jobId ∧ ¬ HasActive s' jobId) ∨
    (¬ P ∧ s'.settlement.jobEscrows.get jobId = s.settlement.jobEscrows.get jobId) := by
  rw [hP]
  by_cases hjob : jobId' = jobId
  · subst hjob
    refine .inl ⟨rfl, ⟨escrow, hget, ha⟩, ?_⟩
    rintro ⟨after, hafter, hactive⟩
    rw [heq, Map.get_insert_self] at hafter
    obtain rfl := Option.some.inj hafter
    exact hclosed hactive
  · exact .inr ⟨hjob, by rw [heq, Map.get_insert_ne _ _ (Ne.symm hjob)]⟩

theorem escrow_of (jobId : Bytes 32) (s : State) (tx : Transaction) :
    Opens c jobId s tx ∨
    (Closes c jobId s tx ∧ HasActive s jobId ∧ ¬ HasActive (transact c s tx) jobId) ∨
    (¬ Closes c jobId s tx ∧ (transact c s tx).settlement.jobEscrows.get jobId =
      s.settlement.jobEscrows.get jobId) := by
  by_cases hacc : Accepts c tx s
  · have hok := ((accepts_iff c).mp hacc).2
    rw [transact_of_accepts c hacc]
    cases ht : tx.txType with
    | jobSubmit | escrowDeposit =>
      obtain ⟨jobId', amount, hd⟩ := exists_deposit c (by simp [ht]) hok
      by_cases hjob : jobId' = jobId
      · subst hjob
        exact .inl ⟨hacc, amount, hd⟩
      · refine .inr (.inr ⟨not_closes_of_deposit c hd, ?_⟩)
        rw [handle_deposit c hd]
        exact Map.get_insert_ne _ _ (Ne.symm hjob)
    | jobSettle =>
      refine .inr ?_
      have hcloses : Closes c jobId s tx ↔ tx.sender = jobId ∧ HasActive s jobId := by
        simp only [Closes, ht, hacc, true_and]
      rcases jobSettle_cases c ht hok with ⟨escrow, hget, ha, heq⟩ | ⟨hno, heq⟩
      · refine closed_cases heq hget ha (by simp) (hcloses.trans ⟨And.left, ?_⟩)
        rintro rfl
        exact ⟨rfl, escrow, hget, ha⟩
      · refine .inr ⟨fun h => ?_, by rw [heq]⟩
        obtain ⟨rfl, escrow, hget, ha⟩ := hcloses.mp h
        exact hno escrow hget ha
    | escrowRelease =>
      obtain ⟨jobId', recipient, escrow, hslice, -, hget, ha, heq⟩ := escrowRelease_ok c ht hok
      have hcloses : Closes c jobId s tx ↔ jobId' = jobId := by
        simp only [Closes, ht, hacc, hslice, true_and, Option.some.injEq]
      rw [heq]
      exact .inr (closed_cases rfl hget ha (by simp) hcloses)
    | escrowRefund =>
      obtain ⟨jobId', escrow, hslice, hget, ha, heq⟩ := escrowRefund_ok c ht hok
      have hcloses : Closes c jobId s tx ↔ jobId' = jobId := by
        simp only [Closes, ht, hacc, hslice, true_and, Option.some.injEq]
      rw [heq]
      exact .inr (closed_cases rfl hget ha (by simp) hcloses)
    | artifactCommit | operatorRegister | operatorUpdate | reputationUpdate | governanceVote
    | transfer | contractDeploy | contractCall | intelligenceSubmit | intelligenceSettle =>
      refine .inr (.inr ⟨fun hcloses => by simp [Closes, ht] at hcloses, ?_⟩)
      rw [handle_escrows c (by simp [TransactionType.MovesFunds, ht]) s]
  · rw [transact_of_not_accepts c hacc]
    exact .inr (.inr ⟨fun hcloses => hacc hcloses.1, rfl⟩)

theorem not_hasActive_transact {jobId : Bytes 32} {s : State} {tx : Transaction}
    (h : ¬ HasActive s jobId) (htx : ¬ Opens c jobId s tx) : ¬ HasActive (transact c s tx) jobId := by
  rcases escrow_of c jobId s tx with hopens | ⟨-, -, hafter⟩ | ⟨-, hsame⟩
  · exact absurd hopens htx
  · exact hafter
  · unfold HasActive
    rw [hsame]
    exact h

theorem Closes.hasActive {jobId : Bytes 32} {s : State} {tx : Transaction} (h : Closes c jobId s tx) :
    HasActive s jobId ∧ ¬ HasActive (transact c s tx) jobId := by
  rcases escrow_of c jobId s tx with ⟨-, amount, hd⟩ | ⟨-, hactive⟩ | ⟨hno, -⟩
  · exact absurd h (not_closes_of_deposit c hd)
  · exact hactive
  · exact absurd h hno

/-- Between two transactions of a run that close the escrow of one job, there is
an accepted deposit for it. -/
theorem closed_once (s : State) (before between : List Transaction) (jobId : Bytes 32)
    (tx tx' : Transaction) (h : Closes c jobId (Trace.exec (transact c) s before) tx)
    (h' : Closes c jobId (Trace.exec (transact c) s (before ++ tx :: between)) tx') :
    Trace.Sometimes (transact c) (Opens c jobId) (Trace.exec (transact c) s (before ++ [tx])) between := by
  rw [Trace.exec_append, Trace.exec_cons] at h'
  rw [Trace.exec_concat]
  rcases Trace.always_not_or_sometimes (transact c) (Opens c jobId)
    (transact c (Trace.exec (transact c) s before) tx) between with hnone | hsome
  · have hclosed := hnone.exec (I := fun s => ¬ HasActive s jobId)
      (fun _ _ h htx => not_hasActive_transact c h htx) (Closes.hasActive c h).2
    exact absurd (Closes.hasActive c h').1 hclosed
  · exact hsome

/-- A deposit that is released, made again and released again. -/
theorem closed_once_release :
    let c : Crypto := { blake3 := fun _ => .fill 32 0, ed25519Verify := fun _ _ _ => true }
    let deposit := Transaction.newEscrowDeposit c (.fill 32 1) 100
    let release := Transaction.newEscrowRelease c (.fill 32 1) (.fill 32 2)
    Closes c (.fill 32 1) (Trace.exec (transact c) .new [deposit]) release ∧
      Closes c (.fill 32 1) (Trace.exec (transact c) .new [deposit, release, deposit]) release ∧
      Trace.Sometimes (transact c) (Opens c (.fill 32 1))
        (Trace.exec (transact c) .new [deposit, release]) [deposit] := by
  intro c deposit release
  have h : Closes c (.fill 32 1) (Trace.exec (transact c) .new [deposit]) release :=
    ⟨by decide, rfl⟩
  have h' : Closes c (.fill 32 1) (Trace.exec (transact c) .new [deposit, release, deposit]) release :=
    ⟨by decide, rfl⟩
  exact ⟨h, h', closed_once c .new [deposit] [deposit] (.fill 32 1) release release h h'⟩

/-- A checked transaction that was accepted with a valid signature of its sender. -/
def SignedAccept (s : State) (tx : Transaction) : Prop :=
  ¬ tx.txType.Unchecked ∧ Accepts c tx s ∧ ∃ operator,
    s.settlement.operatorRegistry.get tx.sender = some operator ∧
      tx.verifyAuthorization c operator.pubkey = .ok ()

/-- A signed reputation update that is accepted twice. -/
theorem replay_protection_fails :
    ¬ ∀ (c : Crypto) (before between : List Transaction) (tx tx' : Transaction),
      SignedAccept c (Trace.exec (transact c) .new before) tx →
        SignedAccept c (Trace.exec (transact c) .new (before ++ tx :: between)) tx' →
        ¬ (tx.sender = tx'.sender ∧ tx.nonce = tx'.nonce) := by
  intro h
  let c : Crypto := { blake3 := fun _ => .fill 32 0, ed25519Verify := fun _ _ _ => true }
  let register := Transaction.newOperatorRegister c (.fill 32 1) (.fill 32 2) 5000 "us-east"
  let tx := { Transaction.newReputationUpdate c (.fill 32 1) 500 with
    sender := .fill 32 1, signature := List.replicate 64 7 }
  have ht : ¬ tx.txType.Unchecked := fun h => h
  have hverify (pubkey : Bytes 32) : tx.verifyAuthorization c pubkey = .ok () := rfl
  have hfirst : SignedAccept c (Trace.exec (transact c) .new [register]) tx := by
    obtain ⟨operator, hget⟩ := Option.isSome_iff_exists.mp (show
      ((Trace.exec (transact c) .new [register]).settlement.operatorRegistry.get
        tx.sender).isSome = true by decide)
    exact ⟨ht, by decide, operator, hget, hverify _⟩
  have hsecond : SignedAccept c (Trace.exec (transact c) .new [register, tx]) tx := by
    obtain ⟨operator, hget⟩ := Option.isSome_iff_exists.mp (show
      ((Trace.exec (transact c) .new [register, tx]).settlement.operatorRegistry.get
        tx.sender).isSome = true by decide)
    exact ⟨ht, by decide, operator, hget, hverify _⟩
  exact h c [register] [] tx tx hfirst hsecond ⟨rfl, rfl⟩

end State

end LiteVision.Truth
