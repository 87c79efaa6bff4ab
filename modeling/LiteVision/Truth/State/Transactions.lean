import LiteVision.Lib.Trace
import LiteVision.Truth.State

/-!
# What a transaction does

A transaction is refused, by the checks or by its handler, and then changes
nothing; or it is accepted and its handler has run. A block runs its
transactions up to the first refused one, and keeps what the ones before it did.
-/

namespace LiteVision.Truth

open Lib

/-- The job a deposit is for, and its amount. -/
def Transaction.deposit? (tx : Transaction) : Option (Bytes 32 × UInt64) :=
  match tx.txType with
  | .jobSubmit =>
    if tx.payload.length < 80 then none
    else do
      let jobId ← Bytes.slice? tx.payload 0 32
      let budget ← Bytes.slice? tx.payload 64 8
      some (jobId, Bytes.toU64 budget)
  | .escrowDeposit =>
    if tx.payload.length < 40 then none
    else do
      let jobId ← Bytes.slice? tx.payload 0 32
      let amount ← Bytes.slice? tx.payload 32 8
      some (jobId, Bytes.toU64 amount)
  | _ => none

theorem Transaction.deposit?_jobSubmit {tx : Transaction} (ht : tx.txType = .jobSubmit)
    (hl : 80 ≤ tx.payload.length) :
    tx.deposit? = some (Bytes.slice tx.payload 0 32 (by omega),
      Bytes.toU64 (Bytes.slice tx.payload 64 8 (by omega))) := by
  have hjob : 0 + 32 ≤ tx.payload.length := by omega
  simp only [deposit?, ht, if_neg (not_lt.mpr hl), Bytes.slice?_eq_some hjob,
    Bytes.slice?_eq_some (show 64 + 8 ≤ tx.payload.length by omega)]
  rfl

theorem Transaction.deposit?_escrowDeposit {tx : Transaction} (ht : tx.txType = .escrowDeposit)
    (hl : 40 ≤ tx.payload.length) :
    tx.deposit? = some (Bytes.slice tx.payload 0 32 (by omega),
      Bytes.toU64 (Bytes.slice tx.payload 32 8 (by omega))) := by
  have hjob : 0 + 32 ≤ tx.payload.length := by omega
  simp only [deposit?, ht, if_neg (not_lt.mpr hl), Bytes.slice?_eq_some hjob,
    Bytes.slice?_eq_some (show 32 + 8 ≤ tx.payload.length by omega)]
  rfl

namespace State

variable (c : Crypto)

-- ---------------------------------------------------------------------------
-- Handlers
-- ---------------------------------------------------------------------------

theorem applyEscrowRelease_cases (tx : Transaction) (s : State) :
    (∃ err, applyEscrowRelease tx s = (.error err, s)) ∨
    ∃ jobId recipient escrow, Bytes.slice? tx.payload 0 32 = some jobId ∧
      Bytes.slice? tx.payload 32 32 = some recipient ∧
      s.settlement.jobEscrows.get jobId = some escrow ∧ escrow.status = .active ∧
      applyEscrowRelease tx s = (.ok (), { s with settlement := { s.settlement with
        jobEscrows := s.settlement.jobEscrows.insert jobId { escrow with status := .released } } }) := by
  by_cases hl : tx.payload.length < 64
  · exact .inl ⟨.invalidTransaction, by simp [applyEscrowRelease, hl]⟩
  · rcases s.settlement.closeEscrow_cases (Bytes.slice tx.payload 0 32 (by omega))
      (fun escrow => escrow.release (Bytes.slice tx.payload 32 32 (by omega)))
      with ⟨err, heq⟩ | ⟨escrow, hget, ha⟩
    · refine .inl ⟨err, ?_⟩
      simp only [applyEscrowRelease, dif_neg hl, SettlementState.releaseEscrow, heq]
      rfl
    · refine .inr ⟨_, _, escrow, Bytes.slice?_eq_some (by omega), Bytes.slice?_eq_some (by omega),
        hget, ha, ?_⟩
      simp only [applyEscrowRelease, dif_neg hl, SettlementState.releaseEscrow,
        SettlementState.closeEscrow_active hget ha, JobEscrow.release, JobEscrow.close_active ha]
      rfl

theorem applyEscrowRefund_cases (tx : Transaction) (s : State) :
    (∃ err, applyEscrowRefund tx s = (.error err, s)) ∨
    ∃ jobId escrow, Bytes.slice? tx.payload 0 32 = some jobId ∧
      s.settlement.jobEscrows.get jobId = some escrow ∧ escrow.status = .active ∧
      applyEscrowRefund tx s = (.ok (), { s with settlement := { s.settlement with
        jobEscrows := s.settlement.jobEscrows.insert jobId { escrow with status := .refunded } } }) := by
  by_cases hl : tx.payload.length < 32
  · exact .inl ⟨.invalidTransaction, by simp [applyEscrowRefund, hl]⟩
  · rcases s.settlement.closeEscrow_cases (Bytes.slice tx.payload 0 32 (by omega)) JobEscrow.refund
      with ⟨err, heq⟩ | ⟨escrow, hget, ha⟩
    · refine .inl ⟨err, ?_⟩
      simp only [applyEscrowRefund, dif_neg hl, SettlementState.refundEscrow, heq]
      rfl
    · refine .inr ⟨_, escrow, Bytes.slice?_eq_some (by omega), hget, ha, ?_⟩
      simp only [applyEscrowRefund, dif_neg hl, SettlementState.refundEscrow,
        SettlementState.closeEscrow_active hget ha, JobEscrow.refund, JobEscrow.close_active ha]
      rfl

theorem escrowRelease_ok {tx : Transaction} {s : State} (ht : tx.txType = .escrowRelease)
    (hok : (handle c tx s).1 = .ok ()) :
    ∃ jobId recipient escrow, Bytes.slice? tx.payload 0 32 = some jobId ∧
      Bytes.slice? tx.payload 32 32 = some recipient ∧
      s.settlement.jobEscrows.get jobId = some escrow ∧ escrow.status = .active ∧
      (handle c tx s).2 = { s with settlement := { s.settlement with
        jobEscrows := s.settlement.jobEscrows.insert jobId { escrow with status := .released } } } := by
  simp only [handle, ht] at hok ⊢
  rcases applyEscrowRelease_cases tx s with
    ⟨err, heq⟩ | ⟨jobId, recipient, escrow, hjob, hrecipient, hget, ha, heq⟩
  · rw [heq] at hok
    cases hok
  · exact ⟨jobId, recipient, escrow, hjob, hrecipient, hget, ha, by rw [heq]⟩

theorem escrowRefund_ok {tx : Transaction} {s : State} (ht : tx.txType = .escrowRefund)
    (hok : (handle c tx s).1 = .ok ()) :
    ∃ jobId escrow, Bytes.slice? tx.payload 0 32 = some jobId ∧
      s.settlement.jobEscrows.get jobId = some escrow ∧ escrow.status = .active ∧
      (handle c tx s).2 = { s with settlement := { s.settlement with
        jobEscrows := s.settlement.jobEscrows.insert jobId { escrow with status := .refunded } } } := by
  simp only [handle, ht] at hok ⊢
  rcases applyEscrowRefund_cases tx s with ⟨err, heq⟩ | ⟨jobId, escrow, hjob, hget, ha, heq⟩
  · rw [heq] at hok
    cases hok
  · exact ⟨jobId, escrow, hjob, hget, ha, by rw [heq]⟩

theorem jobSettle_cases {tx : Transaction} {s : State} (ht : tx.txType = .jobSettle)
    (hok : (handle c tx s).1 = .ok ()) :
    (∃ escrow, s.settlement.jobEscrows.get tx.sender = some escrow ∧ escrow.status = .active ∧
      (handle c tx s).2.settlement.jobEscrows =
        s.settlement.jobEscrows.insert tx.sender { escrow with status := .released }) ∨
    ((∀ escrow, s.settlement.jobEscrows.get tx.sender = some escrow → escrow.status ≠ .active) ∧
      (handle c tx s).2.settlement.jobEscrows = s.settlement.jobEscrows) := by
  have hl : ¬ tx.payload.length < 64 := fun hl => by
    simp [handle, ht, applyJobSettle, hl] at hok
  have heq : (handle c tx s).2.settlement.jobEscrows = s.settlement.jobEscrows.modify tx.sender
      fun escrow => (escrow.release tx.sender).2 := by
    simp only [handle, ht, applyJobSettle, dif_neg hl, SettlementState.anchorReceipt]
  rw [heq]
  cases hget : s.settlement.jobEscrows.get tx.sender with
  | none =>
    refine .inr ⟨?_, Map.modify_none hget _⟩
    rintro _ ⟨⟩
  | some escrow =>
    rw [Map.modify_some hget, JobEscrow.release]
    by_cases ha : escrow.status = .active
    · exact .inl ⟨escrow, rfl, ha, by rw [JobEscrow.close_active ha]⟩
    · rw [JobEscrow.close_inactive ha]
      refine .inr ⟨?_, Map.insert_eq_self.mpr hget⟩
      rintro _ ⟨⟩
      exact ha

theorem handle_deposit {tx : Transaction} {jobId : Bytes 32} {amount : UInt64}
    (h : tx.deposit? = some (jobId, amount)) (s : State) :
    handle c tx s = (.ok (), { s with
      settlement := s.settlement.createEscrow jobId tx.sender amount s.height 500 }) := by
  cases ht : tx.txType with
  | jobSubmit =>
    by_cases hl : tx.payload.length < 80
    · simp [Transaction.deposit?, ht, hl] at h
    · rw [Transaction.deposit?_jobSubmit ht (not_lt.mp hl)] at h
      obtain ⟨rfl, rfl⟩ := Prod.mk.inj (Option.some.inj h)
      simp only [handle, ht, applyJobSubmit, dif_neg hl]
  | escrowDeposit =>
    by_cases hl : tx.payload.length < 40
    · simp [Transaction.deposit?, ht, hl] at h
    · rw [Transaction.deposit?_escrowDeposit ht (not_lt.mp hl)] at h
      obtain ⟨rfl, rfl⟩ := Prod.mk.inj (Option.some.inj h)
      simp only [handle, ht, applyEscrowDeposit, dif_neg hl]
  | _ => simp [Transaction.deposit?, ht] at h

theorem exists_deposit {tx : Transaction} {s : State}
    (ht : tx.txType = .jobSubmit ∨ tx.txType = .escrowDeposit) (hok : (handle c tx s).1 = .ok ()) :
    ∃ jobId amount, tx.deposit? = some (jobId, amount) := by
  rcases ht with ht | ht
  · by_cases hl : tx.payload.length < 80
    · simp [handle, ht, applyJobSubmit, hl] at hok
    · exact ⟨_, _, Transaction.deposit?_jobSubmit ht (not_lt.mp hl)⟩
  · by_cases hl : tx.payload.length < 40
    · simp [handle, ht, applyEscrowDeposit, hl] at hok
    · exact ⟨_, _, Transaction.deposit?_escrowDeposit ht (not_lt.mp hl)⟩

theorem payload_error {short : Prop} [Decidable short] {err err' : StateError} {s : State}
    {next : ¬ short → State}
    (h : (if h : short then ((.error err', s) : Except StateError Unit × State)
      else (.ok (), next h)).1 = .error err) :
    (if h : short then ((.error err', s) : Except StateError Unit × State)
      else (.ok (), next h)).2 = s := by
  split at h
  · rename_i hshort
    rw [dif_pos hshort]
  · cases h

theorem handle_error {tx : Transaction} {s : State} {err : StateError}
    (h : (handle c tx s).1 = .error err) : (handle c tx s).2 = s := by
  cases ht : tx.txType with
  | jobSubmit =>
    simp only [handle, ht, applyJobSubmit] at h ⊢
    exact payload_error h
  | jobSettle =>
    simp only [handle, ht, applyJobSettle] at h ⊢
    exact payload_error h
  | artifactCommit =>
    simp only [handle, ht, applyArtifactCommit]
    split <;> rfl
  | operatorRegister =>
    simp only [handle, ht, applyOperatorRegister] at h ⊢
    exact payload_error h
  | operatorUpdate =>
    simp only [handle, ht, applyOperatorUpdate]
    split
    · rfl
    · split <;> rfl
  | reputationUpdate =>
    simp only [handle, ht, applyReputationUpdate] at h ⊢
    exact payload_error h
  | escrowDeposit =>
    simp only [handle, ht, applyEscrowDeposit] at h ⊢
    exact payload_error h
  | escrowRelease =>
    simp only [handle, ht] at h ⊢
    rcases applyEscrowRelease_cases tx s with ⟨err', heq⟩ | ⟨jobId, recipient, escrow, -, -, -, -, heq⟩
    · rw [heq]
    · rw [heq] at h
      cases h
  | escrowRefund =>
    simp only [handle, ht] at h ⊢
    rcases applyEscrowRefund_cases tx s with ⟨err', heq⟩ | ⟨jobId, escrow, -, -, -, heq⟩
    · rw [heq]
    · rw [heq] at h
      cases h
  | governanceVote | transfer | contractDeploy | contractCall => simp only [handle, ht]
  | intelligenceSubmit =>
    simp only [handle, ht, applyIntelligenceSubmit] at h
    cases h
  | intelligenceSettle =>
    simp only [handle, ht, applyIntelligenceSettle] at h ⊢
    split
    · rfl
    · split
      · rfl
      · rename_i hid _ _ hget
        simp only [hid, hget] at h
        split at h <;> cases h

theorem handle_frame (tx : Transaction) (s : State) :
    (handle c tx s).2 = { s with
      settlement := (handle c tx s).2.settlement
      intelligenceReceipts := (handle c tx s).2.intelligenceReceipts } := by
  cases ht : tx.txType with
  | jobSubmit =>
    simp only [handle, ht, applyJobSubmit]
    split <;> rfl
  | jobSettle =>
    simp only [handle, ht, applyJobSettle]
    split <;> rfl
  | artifactCommit =>
    simp only [handle, ht, applyArtifactCommit]
    split <;> rfl
  | operatorRegister =>
    simp only [handle, ht, applyOperatorRegister]
    split <;> rfl
  | operatorUpdate =>
    simp only [handle, ht, applyOperatorUpdate]
    split
    · rfl
    · split <;> rfl
  | reputationUpdate =>
    simp only [handle, ht, applyReputationUpdate]
    split <;> rfl
  | escrowDeposit =>
    simp only [handle, ht, applyEscrowDeposit]
    split <;> rfl
  | escrowRelease =>
    simp only [handle, ht, applyEscrowRelease]
    split <;> rfl
  | escrowRefund =>
    simp only [handle, ht, applyEscrowRefund]
    split <;> rfl
  | governanceVote | transfer | contractDeploy | contractCall => simp only [handle, ht]
  | intelligenceSubmit => simp only [handle, ht, applyIntelligenceSubmit]
  | intelligenceSettle =>
    simp only [handle, ht, applyIntelligenceSettle]
    split
    · rfl
    · split
      · rfl
      · split <;> rfl

-- ---------------------------------------------------------------------------
-- Transactions
-- ---------------------------------------------------------------------------

/-- The checks made before the handler of a transaction runs. -/
def Admits (tx : Transaction) (s : State) : Prop :=
  tx.verify = .ok () ∧ authorize c tx s = .ok ()

def Accepts (tx : Transaction) (s : State) : Prop := (applyTransaction c tx s).1 = .ok none

def transact (s : State) (tx : Transaction) : State := (applyTransaction c tx s).2

/-- The checks of a transaction, when one of them ends it. -/
def refusal (tx : Transaction) (s : State) : Option (Except StateError (Option Receipt)) :=
  match tx.verify with
  | .error _ => some (.error .invalidTransaction)
  | .ok () =>
    match authorize c tx s with
    | .error err => some (.error err)
    | .ok () => none

theorem applyTransaction_eq (tx : Transaction) (s : State) :
    applyTransaction c tx s = (refusal c tx s).elim
      ((handle c tx s).1.map fun _ => none, (handle c tx s).2) fun result => (result, s) := by
  unfold applyTransaction refusal
  cases tx.verify with
  | error err => rfl
  | ok =>
    cases authorize c tx s with
    | error err => rfl
    | ok =>
      cases handle c tx s with
      | mk result after => cases result <;> rfl

/-- A transaction is refused and leaves no trace, or its handler has done its work. -/
theorem applyTransaction_cases (tx : Transaction) (s : State) :
    (∃ err, applyTransaction c tx s = (.error err, s)) ∨
    (Admits c tx s ∧ (handle c tx s).1 = .ok () ∧
      applyTransaction c tx s = (.ok none, (handle c tx s).2)) := by
  cases hv : tx.verify with
  | error err => exact .inl ⟨.invalidTransaction, by simp only [applyTransaction, hv]⟩
  | ok =>
    cases ha : authorize c tx s with
    | error err => exact .inl ⟨err, by simp only [applyTransaction, hv, ha]⟩
    | ok =>
      cases hh : handle c tx s with
      | mk result after =>
        cases result with
        | error err =>
          have hs : (handle c tx s).2 = s := handle_error c (by rw [hh])
          rw [hh] at hs
          obtain rfl : after = s := hs
          exact .inl ⟨err, by simp only [applyTransaction, hv, ha, hh]⟩
        | ok => exact .inr ⟨⟨hv, ha⟩, rfl, by simp only [applyTransaction, hv, ha, hh]⟩

/-- A transaction that fails, whatever its type and payload, leaves the state as it was. -/
theorem applyTransaction_atomic (tx : Transaction) (s : State) (err : StateError)
    (h : (applyTransaction c tx s).1 = .error err) : (applyTransaction c tx s).2 = s := by
  rcases applyTransaction_cases c tx s with ⟨err', heq⟩ | ⟨-, -, heq⟩
  · rw [heq]
  · rw [heq] at h
    cases h

/-- The release of an escrow that nobody has created. -/
theorem applyTransaction_atomic_release :
    let c : Crypto := { blake3 := fun _ => .fill 32 0, ed25519Verify := fun _ _ _ => true }
    (applyTransaction c (.newEscrowRelease c (.fill 32 1) (.fill 32 2)) .new).2 = .new := by
  intro c
  exact applyTransaction_atomic c _ .new .escrowNotFound rfl

theorem accepts_iff {tx : Transaction} {s : State} :
    Accepts c tx s ↔ Admits c tx s ∧ (handle c tx s).1 = .ok () := by
  rcases applyTransaction_cases c tx s with ⟨err, heq⟩ | ⟨ha, hh, heq⟩
  · constructor
    · intro h
      rw [Accepts, heq] at h
      cases h
    · rintro ⟨⟨hv, ha⟩, hh⟩
      simp only [applyTransaction, hv, ha] at heq
      cases hr : handle c tx s with
      | mk result after =>
        rw [hr] at hh heq
        simp only at hh
        subst hh
        simp at heq
  · exact ⟨fun _ => ⟨ha, hh⟩, fun _ => by rw [Accepts, heq]⟩

theorem transact_of_accepts {tx : Transaction} {s : State} (h : Accepts c tx s) :
    transact c s tx = (handle c tx s).2 := by
  rcases applyTransaction_cases c tx s with ⟨err, heq⟩ | ⟨-, -, heq⟩
  · rw [Accepts, heq] at h
    cases h
  · rw [transact, heq]

theorem transact_of_not_accepts {tx : Transaction} {s : State} (h : ¬ Accepts c tx s) :
    transact c s tx = s := by
  rcases applyTransaction_cases c tx s with ⟨err, heq⟩ | ⟨-, -, heq⟩
  · rw [transact, heq]
  · exact absurd (by rw [Accepts, heq]) h

theorem transact_view (s : State) (tx : Transaction) :
    (transact c s tx).height = s.height ∧ (transact c s tx).stateRoot = s.stateRoot := by
  by_cases hacc : Accepts c tx s
  · rw [transact_of_accepts c hacc, handle_frame]
    exact ⟨rfl, rfl⟩
  · rw [transact_of_not_accepts c hacc]
    exact ⟨rfl, rfl⟩

theorem exec_view (s : State) (txs : List Transaction) :
    (Trace.exec (transact c) s txs).height = s.height ∧
      (Trace.exec (transact c) s txs).stateRoot = s.stateRoot :=
  Trace.invariant (I := fun s' => s'.height = s.height ∧ s'.stateRoot = s.stateRoot)
    (fun s' tx h => ⟨(transact_view c s' tx).1.trans h.1, (transact_view c s' tx).2.trans h.2⟩)
    ⟨rfl, rfl⟩ txs

-- ---------------------------------------------------------------------------
-- Blocks
-- ---------------------------------------------------------------------------

/-- Where a list of transactions stops: after the last one, or at one refused
once those ahead of it were accepted. -/
def StopsAt (s : State) (txs ahead : List Transaction) : Prop :=
  Trace.Always (transact c) (fun s tx => Accepts c tx s) s ahead ∧
    ∃ tx rest, txs = ahead ++ tx :: rest ∧ ¬ Accepts c tx (Trace.exec (transact c) s ahead)

theorem loop_cases (results : List (Option Receipt)) (txs : List Transaction) (s : State) :
    (Trace.Always (transact c) (fun s tx => Accepts c tx s) s txs ∧
      applyBlockTransactions.loop c results txs s =
        (.ok (results ++ txs.map fun _ => none), Trace.exec (transact c) s txs)) ∨
    ∃ ahead err, StopsAt c s txs ahead ∧
      applyBlockTransactions.loop c results txs s = (.error err, Trace.exec (transact c) s ahead) := by
  induction txs generalizing results s with
  | nil => exact .inl ⟨trivial, by simp [applyBlockTransactions.loop]⟩
  | cons tx txs ih =>
    rcases applyTransaction_cases c tx s with ⟨err, heq⟩ | ⟨-, -, heq⟩
    · refine .inr ⟨[], err, ⟨trivial, tx, txs, rfl, ?_⟩, by
        simp only [applyBlockTransactions.loop, heq, Trace.exec_nil]⟩
      simp [Accepts, heq]
    · have hacc : Accepts c tx s := by rw [Accepts, heq]
      have hstep : (handle c tx s).2 = transact c s tx := (transact_of_accepts c hacc).symm
      have hloop : applyBlockTransactions.loop c results (tx :: txs) s =
          applyBlockTransactions.loop c (results ++ [none]) txs (transact c s tx) := by
        simp only [applyBlockTransactions.loop, heq, hstep]
      rw [hloop]
      rcases ih (results ++ [none]) (transact c s tx) with
        ⟨hall, hrun⟩ | ⟨ahead, err, ⟨hall, refused, rest, htxs, hno⟩, hrun⟩
      · exact .inl ⟨⟨hacc, hall⟩, by simp [hrun]⟩
      · exact .inr ⟨tx :: ahead, err, ⟨⟨hacc, hall⟩, refused, rest, by rw [htxs]; rfl, hno⟩, hrun⟩

theorem applyBlockTransactions_cases (txs : List Transaction) (s : State) :
    (Trace.Always (transact c) (fun s tx => Accepts c tx s) s txs ∧
      applyBlockTransactions c txs s =
        (.ok (txs.map fun _ => none), Trace.exec (transact c) s txs)) ∨
    ∃ ahead err, StopsAt c s txs ahead ∧
      applyBlockTransactions c txs s = (.error err, Trace.exec (transact c) s ahead) :=
  loop_cases c [] txs s

variable {c}

theorem StopsAt.unique {s : State} {txs ahead ahead' : List Transaction} (h : StopsAt c s txs ahead)
    (h' : StopsAt c s txs ahead') : ahead = ahead' := by
  induction txs generalizing s ahead ahead' with
  | nil =>
    obtain ⟨-, tx, rest, htxs, -⟩ := h
    simp at htxs
  | cons first txs ih =>
    obtain ⟨hall, tx, rest, htxs, hno⟩ := h
    obtain ⟨hall', tx', rest', htxs', hno'⟩ := h'
    cases ahead with
    | nil =>
      obtain ⟨rfl, -⟩ := List.cons.inj htxs
      cases ahead' with
      | nil => rfl
      | cons other ahead' =>
        obtain ⟨rfl, -⟩ := List.cons.inj htxs'
        exact absurd hall'.1 hno
    | cons other ahead =>
      obtain ⟨rfl, hrest⟩ := List.cons.inj htxs
      cases ahead' with
      | nil =>
        obtain ⟨rfl, -⟩ := List.cons.inj htxs'
        exact absurd hall.1 hno'
      | cons other ahead' =>
        obtain ⟨rfl, hrest'⟩ := List.cons.inj htxs'
        rw [ih ⟨hall.2, tx, rest, hrest, hno⟩ ⟨hall'.2, tx', rest', hrest', hno'⟩]

theorem StopsAt.not_always {s : State} {txs ahead : List Transaction} (h : StopsAt c s txs ahead) :
    ¬ Trace.Always (transact c) (fun s tx => Accepts c tx s) s txs := by
  obtain ⟨-, tx, rest, rfl, hno⟩ := h
  rw [Trace.always_append]
  rintro ⟨-, hacc, -⟩
  exact hno hacc

-- ---------------------------------------------------------------------------
-- Transactions that write nothing
-- ---------------------------------------------------------------------------

end State

/-- The types whose handlers check the payload and write nothing. -/
def TransactionType.ReadOnly : TransactionType → Prop
  | .artifactCommit | .operatorUpdate | .governanceVote | .transfer | .contractDeploy
  | .contractCall => True
  | .jobSubmit | .jobSettle | .operatorRegister | .reputationUpdate | .escrowDeposit
  | .escrowRelease | .escrowRefund | .intelligenceSubmit | .intelligenceSettle => False

namespace State

variable (c : Crypto)

theorem handle_of_readOnly {tx : Transaction} (h : tx.txType.ReadOnly) (s : State) :
    (handle c tx s).2 = s := by
  cases ht : tx.txType with
  | artifactCommit =>
    simp only [handle, ht, applyArtifactCommit]
    split <;> rfl
  | operatorUpdate =>
    simp only [handle, ht, applyOperatorUpdate]
    split
    · rfl
    · split <;> rfl
  | governanceVote | transfer | contractDeploy | contractCall => simp only [handle, ht]
  | jobSubmit | jobSettle | operatorRegister | reputationUpdate | escrowDeposit | escrowRelease
  | escrowRefund | intelligenceSubmit | intelligenceSettle =>
    rw [ht] at h
    exact h.elim

end State

end LiteVision.Truth
