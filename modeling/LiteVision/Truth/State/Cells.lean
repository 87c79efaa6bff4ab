import LiteVision.Lib.Footprint
import LiteVision.Truth.State.Transactions

/-!
# The cells a transaction reads and writes

A state is seen as the entries of its maps, with all the rest kept apart. The
footprint of a transaction is read off its type, its sender and its payload; the
height comes in through the id of the receipt that a settlement anchors.
-/

namespace LiteVision.Truth

open Lib

/-- A key of one of the maps that transactions work on. -/
inductive Cell
  | escrow (jobId : Bytes 32)
  | operator (id : Bytes 32)
  | anchor (id : Bytes 32)
  | receipt (id : Bytes 32)
  deriving DecidableEq

abbrev Cell.Value : Cell → Type
  | .escrow _ => JobEscrow
  | .operator _ => OperatorState
  | .anchor _ => ReceiptAnchor
  | .receipt _ => Receipt

-- ---------------------------------------------------------------------------
-- Reads and writes
-- ---------------------------------------------------------------------------

namespace Transaction

/-- The id at the front of a payload of the least length its handler asks for. -/
def named (tx : Transaction) (least : Nat) : List (Bytes 32) :=
  if tx.payload.length < least then [] else (Bytes.slice? tx.payload 0 32).toList

theorem named_of_le {tx : Transaction} {least : Nat} (hl : ¬ tx.payload.length < least)
    (h : 0 + 32 ≤ tx.payload.length) : tx.named least = [Bytes.slice tx.payload 0 32 h] := by
  rw [named, if_neg hl, Bytes.slice?_eq_some h, Option.toList_some]

def handlerReads (tx : Transaction) : List Cell :=
  match tx.txType with
  | .jobSettle => if tx.payload.length < 64 then [] else [.escrow tx.sender]
  | .operatorUpdate => (tx.named 32).map .operator
  | .reputationUpdate => (tx.named 40).map .operator
  | .escrowRelease => (tx.named 64).map .escrow
  | .escrowRefund => (tx.named 32).map .escrow
  | .intelligenceSettle => (tx.named 32).map .receipt
  | .jobSubmit | .artifactCommit | .operatorRegister | .escrowDeposit | .governanceVote | .transfer
  | .contractDeploy | .contractCall | .intelligenceSubmit => []

/-- The sender is looked up for its key, unless the type goes unchecked. -/
def reads (tx : Transaction) : List Cell :=
  match tx.txType with
  | .governanceVote | .transfer => tx.handlerReads
  | _ => .operator tx.sender :: tx.handlerReads

def writes (c : Crypto) (height : UInt64) (tx : Transaction) : List Cell :=
  match tx.txType with
  | .jobSubmit => (tx.named 80).map .escrow
  | .jobSettle =>
    (Bytes.slice? tx.payload 32 32).toList.flatMap fun outputHash =>
      [.escrow tx.sender, .anchor
        (ReceiptAnchor.new c tx.sender tx.sender outputHash (.fill 32 0) 0 height).receiptId]
  | .operatorRegister => (tx.named 72).map .operator
  | .reputationUpdate => (tx.named 40).map .operator
  | .escrowDeposit => (tx.named 40).map .escrow
  | .escrowRelease => (tx.named 64).map .escrow
  | .escrowRefund => (tx.named 32).map .escrow
  | .intelligenceSubmit =>
    let operatorId := (Bytes.slice? tx.payload 0 32).getD (.fill 32 0)
    [.receipt (c.blake3 (tx.sender.val ++ operatorId.val))]
  | .intelligenceSettle => (tx.named 32).map .receipt
  | .artifactCommit | .operatorUpdate | .governanceVote | .transfer | .contractDeploy
  | .contractCall => []

end Transaction

namespace State

-- ---------------------------------------------------------------------------
-- Cells
-- ---------------------------------------------------------------------------

def look (s : State) : (cell : Cell) → Option cell.Value
  | .escrow jobId => s.settlement.jobEscrows.get jobId
  | .operator id => s.settlement.operatorRegistry.operators.get id
  | .anchor id => s.settlement.receiptAnchors.get id
  | .receipt id => s.intelligenceReceipts.get id

/-- What no transaction writes: all but the cells and the index of stakes. -/
def rest (s : State) : State :=
  { s with
    settlement := { s.settlement with
      jobEscrows := .empty, operatorRegistry := .new, receiptAnchors := .empty }
    intelligenceReceipts := .empty }

/-- The states with a given rest. -/
def HasRest (r s : State) : Prop := s.rest = r

theorem HasRest.height {r s : State} (h : HasRest r s) : s.height = r.height := by
  rw [← show s.rest = r from h]
  rfl

def put (s : State) : (cell : Cell) → cell.Value → State
  | .escrow jobId, escrow =>
    { s with settlement := { s.settlement with
        jobEscrows := s.settlement.jobEscrows.insert jobId escrow } }
  | .operator id, operator =>
    { s with settlement := { s.settlement with
        operatorRegistry := { s.settlement.operatorRegistry with
          operators := s.settlement.operatorRegistry.operators.insert id operator } } }
  | .anchor id, anchor =>
    { s with settlement := { s.settlement with
        receiptAnchors := s.settlement.receiptAnchors.insert id anchor } }
  | .receipt id, receipt =>
    { s with intelligenceReceipts := s.intelligenceReceipts.insert id receipt }

def withIndex (s : State) (index : Map UInt64 (List (Bytes 32))) : State :=
  { s with settlement := { s.settlement with
      operatorRegistry := { s.settlement.operatorRegistry with stakeIndex := index } } }

theorem look_put_self (s : State) (cell : Cell) (value : cell.Value) :
    (s.put cell value).look cell = some value := by
  cases cell <;> exact Map.get_insert_self _ _ _

theorem look_put_ne (s : State) {cell other : Cell} (value : cell.Value) (h : other ≠ cell) :
    (s.put cell value).look other = s.look other := by
  cases cell with
  | escrow jobId =>
    cases other with
    | escrow id => exact Map.get_insert_ne _ _ fun heq => h (by rw [heq])
    | operator | anchor | receipt => rfl
  | operator id =>
    cases other with
    | operator id' => exact Map.get_insert_ne _ _ fun heq => h (by rw [heq])
    | escrow | anchor | receipt => rfl
  | anchor id =>
    cases other with
    | anchor id' => exact Map.get_insert_ne _ _ fun heq => h (by rw [heq])
    | escrow | operator | receipt => rfl
  | receipt id =>
    cases other with
    | receipt id' => exact Map.get_insert_ne _ _ fun heq => h (by rw [heq])
    | escrow | operator | anchor => rfl

theorem rest_put (s : State) (cell : Cell) (value : cell.Value) : (s.put cell value).rest = s.rest := by
  cases cell <;> rfl

theorem footprint_put {ρ : Type} {f : State → ρ × State} {r : State} {reads : List Cell} {cell : Cell}
    (g : Option cell.Value → ρ × Option cell.Value)
    (hf : ∀ s, HasRest r s → ∃ index, f s = ((g (s.look cell)).1,
      ((g (s.look cell)).2.elim s (s.put cell)).withIndex index))
    (hreads : cell ∈ reads ∨ ∃ result value, ∀ old, g old = (result, some value)) :
    Footprint look (HasRest r) f reads [cell] := by
  have hcell : ∀ s, HasRest r s → HasRest r (f s).2 ∧ (f s).1 = (g (s.look cell)).1 ∧
      (f s).2.look cell = (g (s.look cell)).2.or (s.look cell) ∧
      ∀ other, other ≠ cell → (f s).2.look other = s.look other := by
    intro s hs
    obtain ⟨index, heq⟩ := hf s hs
    rw [heq]
    cases (g (s.look cell)).2 with
    | none => exact ⟨hs, rfl, rfl, fun _ _ => rfl⟩
    | some value =>
      exact ⟨(rest_put s cell value).trans hs, rfl, look_put_self s cell value,
        fun _ hother => look_put_ne s value hother⟩
  refine Footprint.cell (fun old => ((g old).1, (g old).2.or old)) (fun s hs => (hcell s hs).1)
    (fun s hs => (hcell s hs).2.1) (fun s hs => (hcell s hs).2.2.1)
    (fun s hs => (hcell s hs).2.2.2) (hreads.imp_right ?_)
  rintro ⟨result, value, hg⟩ old old'
  simp only [hg, Option.some_or]

-- ---------------------------------------------------------------------------
-- Handlers
-- ---------------------------------------------------------------------------

variable (c : Crypto) (tx : Transaction) (r : State)

theorem footprint_createEscrow (jobId : Bytes 32) (amount : UInt64) :
    Footprint look (HasRest r)
      (fun s => ((.ok () : Except StateError Unit), { s with
        settlement := s.settlement.createEscrow jobId tx.sender amount s.height 500 }))
      [] [.escrow jobId] := by
  refine footprint_put (fun _ =>
    (.ok (), some (JobEscrow.new jobId tx.sender amount 10 r.height 500))) ?_ (.inr ⟨_, _, fun _ => rfl⟩)
  intro s hs
  refine ⟨s.settlement.operatorRegistry.stakeIndex, ?_⟩
  rw [← hs.height]
  rfl

theorem footprint_jobSubmit :
    Footprint look (HasRest r) (applyJobSubmit tx) [] ((tx.named 80).map .escrow) := by
  unfold applyJobSubmit
  refine Footprint.refuse fun hl => ?_
  rw [Transaction.named_of_le hl (by omega)]
  exact footprint_createEscrow tx r _ _

theorem footprint_escrowDeposit :
    Footprint look (HasRest r) (applyEscrowDeposit tx) [] ((tx.named 40).map .escrow) := by
  unfold applyEscrowDeposit
  refine Footprint.refuse fun hl => ?_
  rw [Transaction.named_of_le hl (by omega)]
  exact footprint_createEscrow tx r _ _

theorem footprint_closeEscrow (jobId : Bytes 32) (method : JobEscrow → UInt64 × JobEscrow) :
    Footprint look (HasRest r)
      (fun s => ((s.settlement.closeEscrow jobId method).1.map fun _ => (),
        { s with settlement := (s.settlement.closeEscrow jobId method).2 }))
      [.escrow jobId] [.escrow jobId] := by
  refine footprint_put (fun old => old.elim (.error .escrowNotFound, none) fun escrow =>
    if escrow.status ≠ .active then (.error .escrowNotActive, none)
    else (.ok (), some (method escrow).2)) ?_ (.inl (List.mem_singleton_self _))
  intro s hs
  refine ⟨s.settlement.operatorRegistry.stakeIndex, ?_⟩
  unfold SettlementState.closeEscrow
  cases hget : s.settlement.jobEscrows.get jobId with
  | none => simp only [look, hget]; rfl
  | some escrow =>
    simp only [look, hget, Option.elim_some]
    split <;> rfl

theorem footprint_escrowRelease :
    Footprint look (HasRest r) (applyEscrowRelease tx) ((tx.named 64).map .escrow)
      ((tx.named 64).map .escrow) := by
  unfold applyEscrowRelease
  refine Footprint.refuse fun hl => ?_
  rw [Transaction.named_of_le hl (by omega)]
  exact footprint_closeEscrow r _ _

theorem footprint_escrowRefund :
    Footprint look (HasRest r) (applyEscrowRefund tx) ((tx.named 32).map .escrow)
      ((tx.named 32).map .escrow) := by
  unfold applyEscrowRefund
  refine Footprint.refuse fun hl => ?_
  rw [Transaction.named_of_le hl (by omega)]
  exact footprint_closeEscrow r _ _

theorem footprint_register {id : Bytes 32} {operator : State → OperatorState}
    (hoperator : ∀ s, HasRest r s → operator s = operator r) (hid : (operator r).id = id) :
    Footprint look (HasRest r)
      (fun s => ((.ok () : Except StateError Unit), { s with settlement := { s.settlement with
        operatorRegistry := s.settlement.operatorRegistry.register (operator s) } }))
      [] [.operator id] := by
  refine footprint_put (fun _ => (.ok (), some (operator r))) ?_ (.inr ⟨_, _, fun _ => rfl⟩)
  intro s hs
  rw [hoperator s hs, ← hid]
  exact ⟨_, rfl⟩

theorem footprint_operatorRegister :
    Footprint look (HasRest r) (applyOperatorRegister tx) [] ((tx.named 72).map .operator) := by
  unfold applyOperatorRegister
  refine Footprint.refuse fun hl => ?_
  rw [Transaction.named_of_le hl (by omega)]
  exact footprint_register r (fun s hs => by rw [hs.height]) rfl

theorem footprint_operatorUpdate :
    Footprint look (HasRest r) (applyOperatorUpdate tx) ((tx.named 32).map .operator) [] := by
  unfold applyOperatorUpdate
  refine Footprint.refuse fun hl => ?_
  rw [Transaction.named_of_le hl (by omega)]
  refine Footprint.inspect (fun s hs => ?_) fun s s' hs hs' heq => ?_
  · dsimp only
    split <;> rfl
  · have hget := heq _ (List.mem_singleton_self _)
    have hactive : s.settlement.operatorRegistry.isActive (Bytes.slice tx.payload 0 32 (by omega)) =
        s'.settlement.operatorRegistry.isActive (Bytes.slice tx.payload 0 32 (by omega)) := by
      simp only [look] at hget
      unfold OperatorRegistry.isActive
      rw [hget]
    dsimp only
    rw [hactive]
    split <;> rfl

theorem footprint_modify (id : Bytes 32) (change : OperatorState → OperatorState) :
    Footprint look (HasRest r)
      (fun s => ((.ok () : Except StateError Unit), { s with settlement := { s.settlement with
        operatorRegistry := { s.settlement.operatorRegistry with
          operators := s.settlement.operatorRegistry.operators.modify id change } } }))
      [.operator id] [.operator id] := by
  refine footprint_put (fun old => (.ok (), old.map change)) ?_ (.inl (List.mem_singleton_self _))
  intro s hs
  refine ⟨s.settlement.operatorRegistry.stakeIndex, ?_⟩
  cases hget : s.settlement.operatorRegistry.operators.get id with
  | none =>
    simp only [look, hget, Map.modify_none hget]
    rfl
  | some operator =>
    simp only [look, hget, Map.modify_some hget]
    rfl

theorem footprint_reputationUpdate :
    Footprint look (HasRest r) (applyReputationUpdate tx) ((tx.named 40).map .operator)
      ((tx.named 40).map .operator) := by
  unfold applyReputationUpdate
  refine Footprint.refuse fun hl => ?_
  rw [Transaction.named_of_le hl (by omega)]
  by_cases hdelta : 0 ≤ Bytes.toI64 (Bytes.slice tx.payload 32 8 (by omega))
  · simp only [if_pos hdelta]
    exact footprint_modify r _ _
  · simp only [if_neg hdelta]
    exact footprint_modify r _ _

theorem footprint_anchorReceipt {receipt : State → ReceiptAnchor}
    (hreceipt : ∀ s, HasRest r s → receipt s = receipt r) :
    Footprint look (HasRest r)
      (fun s => ((.ok () : Except StateError Unit),
        { s with settlement := s.settlement.anchorReceipt (receipt s) }))
      [] [.anchor (receipt r).receiptId] := by
  refine footprint_put (fun _ => (.ok (), some (receipt r))) ?_ (.inr ⟨_, _, fun _ => rfl⟩)
  intro s hs
  rw [hreceipt s hs]
  exact ⟨s.settlement.operatorRegistry.stakeIndex, rfl⟩

theorem footprint_jobSettle :
    Footprint look (HasRest r) (applyJobSettle c tx)
      (if tx.payload.length < 64 then [] else [.escrow tx.sender])
      ((Bytes.slice? tx.payload 32 32).toList.flatMap fun outputHash =>
        [.escrow tx.sender, .anchor
          (ReceiptAnchor.new c tx.sender tx.sender outputHash (.fill 32 0) 0 r.height).receiptId]) := by
  unfold applyJobSettle
  refine Footprint.refuse fun hl => ?_
  rw [if_neg hl, Bytes.slice?_eq_some (show 32 + 32 ≤ tx.payload.length by omega)]
  have hclose : Footprint look (HasRest r)
      (fun s => ((), { s with settlement := { s.settlement with
        jobEscrows := s.settlement.jobEscrows.modify tx.sender fun escrow =>
          (escrow.release tx.sender).2 } }))
      [.escrow tx.sender] [.escrow tx.sender] := by
    refine footprint_put (fun old => ((), old.map fun escrow => (escrow.release tx.sender).2)) ?_
      (.inl (List.mem_singleton_self _))
    intro s hs
    refine ⟨s.settlement.operatorRegistry.stakeIndex, ?_⟩
    cases hget : s.settlement.jobEscrows.get tx.sender with
    | none =>
      simp only [look, hget, Map.modify_none hget]
      rfl
    | some escrow =>
      simp only [look, hget, Map.modify_some hget]
      rfl
  let receipt (s : State) : ReceiptAnchor :=
    .new c tx.sender tx.sender (Bytes.slice tx.payload 32 32 (by omega)) (.fill 32 0) 0 s.height
  have hreceipt : ∀ s, HasRest r s → receipt s = receipt r := by
    intro s hs
    simp only [receipt, hs.height]
  exact hclose.seq (footprint_anchorReceipt r hreceipt)

theorem footprint_insertReceipt (receipt : Receipt) :
    Footprint look (HasRest r)
      (fun s => ((.ok () : Except StateError Unit),
        { s with intelligenceReceipts := s.intelligenceReceipts.insert receipt.id receipt }))
      [] [.receipt receipt.id] := by
  refine footprint_put (fun _ => (.ok (), some receipt)) ?_ (.inr ⟨_, _, fun _ => rfl⟩)
  exact fun s _ => ⟨s.settlement.operatorRegistry.stakeIndex, rfl⟩

theorem footprint_intelligenceSubmit :
    Footprint look (HasRest r) (applyIntelligenceSubmit c tx) []
      [.receipt (c.blake3 (tx.sender.val ++ ((Bytes.slice? tx.payload 0 32).getD (.fill 32 0)).val))] :=
  footprint_insertReceipt r _

theorem footprint_intelligenceSettle :
    Footprint look (HasRest r) (applyIntelligenceSettle tx) ((tx.named 32).map .receipt)
      ((tx.named 32).map .receipt) := by
  unfold applyIntelligenceSettle Transaction.named Bytes.slice?
  by_cases hl : tx.payload.length < 32
  · simp only [dif_neg (show ¬ 0 + 32 ≤ tx.payload.length by omega), if_pos hl]
    exact Footprint.inspect (fun _ _ => rfl) fun _ _ _ _ _ => rfl
  · simp only [dif_pos (show 0 + 32 ≤ tx.payload.length by omega), if_neg hl]
    refine footprint_put (fun old => old.elim (.error .invalidTransaction, none) fun receipt =>
      (.ok (), if receipt.settled then none else some receipt.settle)) ?_
      (.inl (List.mem_singleton_self _))
    intro s hs
    refine ⟨s.settlement.operatorRegistry.stakeIndex, ?_⟩
    simp only [look]
    cases s.intelligenceReceipts.get (Bytes.slice tx.payload 0 32 (by omega)) with
    | none => rfl
    | some receipt =>
      dsimp only [Option.elim_some]
      split <;> rfl

-- ---------------------------------------------------------------------------
-- Transactions
-- ---------------------------------------------------------------------------

theorem handle_footprint :
    Footprint look (HasRest r) (handle c tx) tx.handlerReads (tx.writes c r.height) := by
  unfold handle Transaction.handlerReads Transaction.writes
  cases htype : tx.txType with
  | jobSubmit => exact footprint_jobSubmit tx r
  | jobSettle => exact footprint_jobSettle c tx r
  | operatorRegister => exact footprint_operatorRegister tx r
  | operatorUpdate => exact footprint_operatorUpdate tx r
  | reputationUpdate => exact footprint_reputationUpdate tx r
  | escrowDeposit => exact footprint_escrowDeposit tx r
  | escrowRelease => exact footprint_escrowRelease tx r
  | escrowRefund => exact footprint_escrowRefund tx r
  | intelligenceSubmit => exact footprint_intelligenceSubmit c tx r
  | intelligenceSettle => exact footprint_intelligenceSettle tx r
  | artifactCommit =>
    refine Footprint.inspect (fun s _ => ?_) fun s s' _ _ _ => ?_
    · simp only [applyArtifactCommit]
      split <;> rfl
    · simp only [applyArtifactCommit]
      split <;> rfl
  | governanceVote | transfer | contractDeploy | contractCall =>
    exact Footprint.inspect (fun _ _ => rfl) fun _ _ _ _ _ => rfl

theorem authorize_reads {s s' : State} (h : ∀ cell ∈ tx.reads, s.look cell = s'.look cell) :
    authorize c tx s = authorize c tx s' := by
  unfold Transaction.reads at h
  unfold authorize
  cases htype : tx.txType with
  | governanceVote | transfer => rfl
  | _ =>
    rw [htype] at h
    have hget : s.settlement.operatorRegistry.get tx.sender =
        s'.settlement.operatorRegistry.get tx.sender := h (.operator tx.sender) List.mem_cons_self
    dsimp only
    rw [hget]

theorem handlerReads_subset : tx.handlerReads ⊆ tx.reads := by
  unfold Transaction.reads
  cases tx.txType with
  | governanceVote | transfer => exact List.Subset.refl _
  | _ => exact List.subset_cons_self _ _

theorem transaction_footprint :
    Footprint look (HasRest r) (applyTransaction c tx) tx.reads (tx.writes c r.height) := by
  have hrefusal : ∀ s s', HasRest r s → HasRest r s' → (∀ cell ∈ tx.reads, s.look cell = s'.look cell) →
      refusal c tx s = refusal c tx s' := by
    intro s s' _ _ heq
    simp only [refusal, authorize_reads c tx heq]
  have hhandle := (handle_footprint c tx r).map fun result =>
    result.map fun _ => (none : Option Receipt)
  have hreads : tx.reads ++ tx.handlerReads ⊆ tx.reads :=
    List.append_subset.mpr ⟨List.Subset.refl _, handlerReads_subset tx⟩
  rw [funext (applyTransaction_eq c tx)]
  exact (Footprint.guard hrefusal hhandle).mono hreads (List.Subset.refl _)

end State

end LiteVision.Truth
