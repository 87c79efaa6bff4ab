import LiteVision.Lib.Rewrite
import LiteVision.Truth.State.Independence

/-!
# Transactions that leave no trace

What an accepted transaction does to a cell is read off its payload, its sender, its fee and
the height: it fills the cell, or changes the value in it. A run of accepted transactions leads
back to the state it started from when the cells are restored and no operator was registered,
since the index of stakes only grows.
-/

namespace LiteVision.Truth

open Lib

namespace Transaction

/-- The escrow that the transaction closes if it is active, and how. -/
def closes? (tx : Transaction) : Option (Bytes 32 × EscrowStatus) :=
  match tx.txType with
  | .jobSettle => some (tx.sender, .released)
  | .escrowRelease => (Bytes.slice? tx.payload 0 32).map (·, .released)
  | .escrowRefund => (Bytes.slice? tx.payload 0 32).map (·, .refunded)
  | _ => none

/-- The receipt that a settlement of a job anchors. -/
def anchors? (c : Crypto) (height : UInt64) (tx : Transaction) : Option ReceiptAnchor :=
  match tx.txType with
  | .jobSettle => (Bytes.slice? tx.payload 32 32).map fun outputHash =>
    .new c tx.sender tx.sender outputHash (.fill 32 0) 0 height
  | _ => none

def submits? (c : Crypto) (tx : Transaction) : Option Receipt :=
  match tx.txType with
  | .intelligenceSubmit =>
    some (.new c tx.sender ((Bytes.slice? tx.payload 0 32).getD (.fill 32 0))
      ((Bytes.slice? tx.payload 40 32).getD (.fill 32 0))
      (((Bytes.slice? tx.payload 32 8).map Bytes.toU64).getD 0) tx.fee)
  | _ => none

def settles? (tx : Transaction) : Option (Bytes 32) :=
  match tx.txType with
  | .intelligenceSettle => Bytes.slice? tx.payload 0 32
  | _ => none

/-- What the transaction does to a cell when it is accepted. -/
def rewrite (c : Crypto) (height : UInt64) (tx : Transaction) : (cell : Cell) → Rewrite cell.Value
  | .escrow jobId =>
    { fill := tx.deposit?.bind fun deposit =>
        if deposit.1 = jobId then some (.new jobId tx.sender deposit.2 10 height 500) else none
      change := fun escrow => tx.closes?.elim escrow fun closed =>
        if closed.1 = jobId then (escrow.close closed.2).2 else escrow }
  | .operator id =>
    { fill := (tx.registryOp? height).bind fun op =>
        if op.target = id then op.entry none else none
      change := fun operator => (tx.registryOp? height).elim operator fun op =>
        if op.target = id then op.update operator else operator }
  | .anchor id =>
    { fill := (tx.anchors? c height).filter fun receipt => receipt.receiptId = id
      change := fun receipt => receipt }
  | .receipt id =>
    { fill := (tx.submits? c).filter fun receipt => receipt.id = id
      change := fun receipt => if tx.settles? = some id then receipt.settle else receipt }

end Transaction

theorem Receipt.settle_of_settled {receipt : Receipt} (h : receipt.settled = true) :
    receipt.settle = receipt := by
  obtain ⟨id, jobId, operatorId, outputHash, computeUsed, fee, settled⟩ := receipt
  cases h
  rfl

namespace State

variable (c : Crypto)

-- ---------------------------------------------------------------------------
-- One transaction
-- ---------------------------------------------------------------------------

variable {c} {tx : Transaction} {s : State}

theorem look_handle_of_not_mem {cell : Cell} (h : cell ∉ tx.writes c s.height) :
    (handle c tx s).2.look cell = s.look cell :=
  (handle_footprint c tx s.rest).frame s rfl cell h

theorem get_insert_closed {escrows : Map (Bytes 32) JobEscrow} {id : Bytes 32} {escrow : JobEscrow}
    {status : EscrowStatus} (hd : tx.deposit? = none) (hcloses : tx.closes? = some (id, status))
    (hget : escrows.get id = some escrow) (ha : escrow.status = .active) (height : UInt64)
    (jobId : Bytes 32) : (escrows.insert id { escrow with status }).get jobId =
      (tx.rewrite c height (.escrow jobId)).apply (escrows.get jobId) := by
  simp only [Map.get_insert, Rewrite.apply, Transaction.rewrite, hd, hcloses, Option.bind_none,
    Option.none_or, Option.elim_some, eq_comm (a := jobId)]
  split
  · rename_i hsame
    rw [← hsame, hget, Option.map_some, JobEscrow.close_active ha]
  · simp

theorem escrow_handle (hok : (handle c tx s).1 = .ok ()) (jobId : Bytes 32) :
    (handle c tx s).2.look (.escrow jobId) =
      (tx.rewrite c s.height (.escrow jobId)).apply (s.look (.escrow jobId)) := by
  cases ht : tx.txType with
  | jobSubmit | escrowDeposit =>
    obtain ⟨id, amount, hd⟩ := exists_deposit c (by simp [ht]) hok
    simp only [handle_deposit c hd, look, SettlementState.createEscrow, Map.get_insert,
      Rewrite.apply, Transaction.rewrite, hd, Option.bind_some, Transaction.closes?, ht,
      Option.elim_none, Option.map_id', eq_comm (a := jobId)]
    split
    · rename_i hsame
      rw [hsame, Option.some_or]
    · rfl
  | jobSettle =>
    have hl : ¬ tx.payload.length < 64 := fun hl => by
      simp [handle, ht, applyJobSettle, hl] at hok
    simp only [handle, ht, applyJobSettle, dif_neg hl, look, SettlementState.anchorReceipt,
      Map.get_modify, Rewrite.apply, Transaction.rewrite, Transaction.deposit?, Option.bind_none,
      Option.none_or, Transaction.closes?, Option.elim_some, eq_comm (a := jobId)]
    split
    · rename_i hsame
      rw [hsame]
      rfl
    · exact Option.map_id'.symm
  | escrowRelease =>
    obtain ⟨id, recipient, escrow, hid, -, hget, ha, heq⟩ := escrowRelease_ok c ht hok
    rw [heq]
    exact get_insert_closed (by simp [Transaction.deposit?, ht])
      (by simp [Transaction.closes?, ht, hid]) hget ha s.height jobId
  | escrowRefund =>
    obtain ⟨id, escrow, hid, hget, ha, heq⟩ := escrowRefund_ok c ht hok
    rw [heq]
    exact get_insert_closed (by simp [Transaction.deposit?, ht])
      (by simp [Transaction.closes?, ht, hid]) hget ha s.height jobId
  | _ =>
    rw [look_handle_of_not_mem (by simp [Transaction.writes, ht])]
    simp [Rewrite.apply, Transaction.rewrite, Transaction.deposit?, Transaction.closes?, ht]

theorem operator_handle (hok : (handle c tx s).1 = .ok ()) (id : Bytes 32) :
    (handle c tx s).2.look (.operator id) =
      (tx.rewrite c s.height (.operator id)).apply (s.look (.operator id)) := by
  have hget (r : OperatorRegistry) : r.operators.get id = r.get id := rfl
  simp only [look, handle_registry c hok, Rewrite.apply, Transaction.rewrite, hget]
  cases hop : tx.registryOp? s.height with
  | none => simp
  | some op =>
    simp only [Option.elim_some, Option.bind_some, OperatorRegistry.get_step,
      eq_comm (a := id)]
    split
    · cases op <;> simp [OperatorRegistry.RegistryOp.entry]
    · simp

theorem anchor_handle (hok : (handle c tx s).1 = .ok ()) (id : Bytes 32) :
    (handle c tx s).2.look (.anchor id) =
      (tx.rewrite c s.height (.anchor id)).apply (s.look (.anchor id)) := by
  cases ht : tx.txType with
  | jobSettle =>
    have hl : ¬ tx.payload.length < 64 := fun hl => by
      simp [handle, ht, applyJobSettle, hl] at hok
    simp only [handle, ht, applyJobSettle, dif_neg hl, look, SettlementState.anchorReceipt,
      Map.get_insert, Rewrite.apply, Transaction.rewrite, Transaction.anchors?,
      Bytes.slice?_eq_some (show 32 + 32 ≤ tx.payload.length by omega), Option.map_some,
      Option.filter_some, eq_comm (a := id)]
    split <;> simp_all
  | _ =>
    rw [look_handle_of_not_mem (by simp [Transaction.writes, ht])]
    simp [Rewrite.apply, Transaction.rewrite, Transaction.anchors?, ht]

theorem receipt_handle (hok : (handle c tx s).1 = .ok ()) (id : Bytes 32) :
    (handle c tx s).2.look (.receipt id) =
      (tx.rewrite c s.height (.receipt id)).apply (s.look (.receipt id)) := by
  cases ht : tx.txType with
  | intelligenceSubmit =>
    simp only [handle, ht, applyIntelligenceSubmit, look, Map.get_insert, Rewrite.apply,
      Transaction.rewrite, Transaction.submits?, Transaction.settles?, Option.filter_some,
      reduceCtorEq, if_false, Option.map_id', eq_comm (a := id), decide_eq_true_eq]
    split <;> rfl
  | intelligenceSettle =>
    simp only [handle, ht, applyIntelligenceSettle, look, Rewrite.apply, Transaction.rewrite,
      Transaction.submits?, Transaction.settles?, Option.filter_none, Option.none_or] at hok ⊢
    cases hid : Bytes.slice? tx.payload 0 32 with
    | none => simp [hid] at hok
    | some receiptId =>
      cases hget : s.intelligenceReceipts.get receiptId with
      | none => simp [hid, hget] at hok
      | some receipt =>
        by_cases hsame : receiptId = id
        · subst hsame
          simp only [hget, if_true, Option.map_some]
          split
          · rename_i hsettled
            rw [hget, Receipt.settle_of_settled hsettled]
          · exact Map.get_insert_self ..
        · have hne : some receiptId ≠ some id := fun h => hsame (Option.some.inj h)
          simp only [hget, if_neg hne, Option.map_id']
          split
          · rfl
          · exact Map.get_insert_ne _ _ (Ne.symm hsame)
  | _ =>
    rw [look_handle_of_not_mem (by simp [Transaction.writes, ht])]
    simp [Rewrite.apply, Transaction.rewrite, Transaction.submits?, Transaction.settles?, ht]

theorem look_handle (hok : (handle c tx s).1 = .ok ()) (cell : Cell) :
    (handle c tx s).2.look cell = (tx.rewrite c s.height cell).apply (s.look cell) := by
  cases cell with
  | escrow jobId => exact escrow_handle hok jobId
  | operator id => exact operator_handle hok id
  | anchor id => exact anchor_handle hok id
  | receipt id => exact receipt_handle hok id

-- ---------------------------------------------------------------------------
-- The index of stakes
-- ---------------------------------------------------------------------------

theorem push?_of_ne {height : UInt64} (ht : tx.txType ≠ .operatorRegister) :
    tx.push? height = none := by
  unfold Transaction.push?
  split
  · rename_i operator hop
    cases htype : tx.txType with
    | operatorRegister => exact absurd htype ht
    | reputationUpdate =>
      simp only [Transaction.registryOp?, htype, Option.bind_eq_bind, Option.bind_eq_some_iff,
        Option.some.injEq] at hop
      obtain ⟨target, -, delta, -, hop⟩ := hop
      split at hop <;> cases hop
    | _ => simp [Transaction.registryOp?, htype] at hop
  · rfl

theorem isSome_push? {height : UInt64} (hok : (handle c tx s).1 = .ok ())
    (ht : tx.txType = .operatorRegister) : (tx.push? height).isSome := by
  have hl : ¬ tx.payload.length < 72 := fun hl => by
    simp [handle, ht, applyOperatorRegister, hl] at hok
  simp [Transaction.push?, Transaction.registryOp?, ht,
    Bytes.slice?_eq_some (show 0 + 32 ≤ tx.payload.length by omega),
    Bytes.slice?_eq_some (show 32 + 32 ≤ tx.payload.length by omega),
    Bytes.slice?_eq_some (show 64 + 8 ≤ tx.payload.length by omega)]

theorem total_pushStake (index : Map UInt64 (List (Bytes 32))) (bucket : UInt64) (id : Bytes 32) :
    (OperatorRegistry.pushStake index bucket id).total List.length =
      index.total List.length + 1 := by
  have htotal := Map.total_insert index List.length bucket ((index.get bucket).getD [] ++ [id])
  have hweight : index.weightAt List.length bucket = ((index.get bucket).getD []).length := by
    cases hget : index.get bucket with
    | none => simp [Map.weightAt, hget]
    | some ids => simp [Map.weightAt, hget]
  rw [hweight, List.length_append, List.length_singleton] at htotal
  rw [OperatorRegistry.pushStake]
  omega

theorem index_transact_of_ne (ht : tx.txType ≠ .operatorRegister) :
    (transact c s tx).settlement.operatorRegistry.stakeIndex =
      s.settlement.operatorRegistry.stakeIndex := by
  have hnone : pushed c s tx = none := by
    rw [pushed, push?_of_ne ht]
    exact Option.bind_fun_none _
  rw [transact_index, hnone]
  rfl

theorem total_index_transact (hacc : Accepts c tx s) (ht : tx.txType = .operatorRegister) :
    (transact c s tx).settlement.operatorRegistry.stakeIndex.total List.length =
      s.settlement.operatorRegistry.stakeIndex.total List.length + 1 := by
  have hsome : (tx.push? s.height).isSome := isSome_push? ((accepts_iff c).mp hacc).2 ht
  obtain ⟨push, hpush⟩ := Option.isSome_iff_exists.mp hsome
  have hpushed : pushed c s tx = some push := by
    have hresult : (applyTransaction c tx s).1 = .ok none := hacc
    rw [pushed, hresult, hpush]
    rfl
  rw [transact_index, hpushed]
  exact total_pushStake ..

-- ---------------------------------------------------------------------------
-- Runs
-- ---------------------------------------------------------------------------

variable {txs : List Transaction}

theorem look_exec (h : Trace.Always (transact c) (fun s tx => Accepts c tx s) s txs)
    (cell : Cell) : (Trace.exec (transact c) s txs).look cell =
      Rewrite.run (s.look cell) (txs.map fun tx => tx.rewrite c s.height cell) := by
  induction txs generalizing s with
  | nil => rfl
  | cons tx txs ih =>
    obtain ⟨hfirst, hrest⟩ := h
    rw [Trace.exec_cons, ih hrest, (transact_view c s tx).1, transact_of_accepts c hfirst,
      look_handle ((accepts_iff c).mp hfirst).2]
    rfl

theorem rest_exec (s : State) (txs : List Transaction) :
    (Trace.exec (transact c) s txs).rest = s.rest :=
  Trace.invariant (I := HasRest s.rest)
    (fun s' tx hrest => (transaction_footprint c tx s.rest).keeps s' hrest) rfl txs

theorem index_exec (h : ∀ tx ∈ txs, tx.txType ≠ .operatorRegister) :
    (Trace.exec (transact c) s txs).settlement.operatorRegistry.stakeIndex =
      s.settlement.operatorRegistry.stakeIndex := by
  induction txs generalizing s with
  | nil => rfl
  | cons tx txs ih =>
    obtain ⟨hfirst, hrest⟩ := List.forall_mem_cons.mp h
    rw [Trace.exec_cons, ih hrest, index_transact_of_ne hfirst]

theorem total_index_exec (h : Trace.Always (transact c) (fun s tx => Accepts c tx s) s txs) :
    (Trace.exec (transact c) s txs).settlement.operatorRegistry.stakeIndex.total List.length =
      s.settlement.operatorRegistry.stakeIndex.total List.length +
        txs.countP fun tx => tx.txType = .operatorRegister := by
  induction txs generalizing s with
  | nil => rfl
  | cons tx txs ih =>
    obtain ⟨hfirst, hrest⟩ := h
    rw [Trace.exec_cons, ih hrest, List.countP_cons]
    by_cases ht : tx.txType = .operatorRegister
    · rw [total_index_transact hfirst ht, if_pos (decide_eq_true ht)]
      omega
    · rw [index_transact_of_ne ht, if_neg (by simpa using ht), Nat.add_zero]

/-- The accepted transactions `ahead` lead back to the state: each cell is restored, and no
operator was registered. -/
def LeavesNoTrace (c : Crypto) (state : State) (ahead : List Transaction) : Prop :=
  (∀ tx ∈ ahead, tx.txType ≠ .operatorRegister) ∧
    ∀ cell, Rewrite.Restores (ahead.map fun tx => tx.rewrite c state.height cell) (state.look cell)

theorem exec_eq_self_iff (h : Trace.Always (transact c) (fun s tx => Accepts c tx s) s txs) :
    Trace.exec (transact c) s txs = s ↔ LeavesNoTrace c s txs := by
  constructor
  · intro hsame
    constructor
    · have htotal := total_index_exec h
      rw [hsame] at htotal
      have hcount : (txs.countP fun tx => tx.txType = .operatorRegister) = 0 := by omega
      simpa [List.countP_eq_zero] using hcount
    · intro cell
      rw [← Rewrite.run_eq_self_iff, ← look_exec h, hsame]
  · rintro ⟨hregister, hcells⟩
    have happart := withIndex_eq_of_look (fun cell => (look_exec h cell).trans
      (Rewrite.run_eq_self_iff.mpr (hcells cell))) (rest_exec s txs)
    have hindex := index_exec (c := c) (s := s) hregister
    calc Trace.exec (transact c) s txs
      _ = ((Trace.exec (transact c) s txs).withIndex .empty).withIndex
          (Trace.exec (transact c) s txs).settlement.operatorRegistry.stakeIndex := rfl
      _ = (s.withIndex .empty).withIndex s.settlement.operatorRegistry.stakeIndex := by
        rw [happart, hindex]
      _ = s := rfl

end State

end LiteVision.Truth
