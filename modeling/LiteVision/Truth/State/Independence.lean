import LiteVision.Truth.State.Cells
import LiteVision.Truth.State.Operators

/-!
# Transactions that commute

Two transactions are independent when neither writes a cell that the other reads
or writes. The order of two such transactions does not show, but for the order
of the ids inside the buckets of the index of stakes: registrations push to it.
-/

namespace LiteVision.Truth

open Lib OperatorRegistry

namespace Transaction

def push? (tx : Transaction) (height : UInt64) : Option (UInt64 × Bytes 32) :=
  match tx.registryOp? height with
  | some (.register operator) => some (operator.stake / 1000, operator.id)
  | _ => none

/-- Neither transaction writes what the other reads or writes. -/
def Independent (c : Crypto) (height : UInt64) (tx tx' : Transaction) : Prop :=
  (tx.writes c height).Disjoint (tx'.reads ++ tx'.writes c height) ∧
    (tx'.writes c height).Disjoint (tx.reads ++ tx.writes c height)

instance (c : Crypto) (height : UInt64) (tx tx' : Transaction) :
    Decidable (Independent c height tx tx') := by
  unfold Independent List.Disjoint
  infer_instance

end Transaction

-- ---------------------------------------------------------------------------
-- The index of stakes
-- ---------------------------------------------------------------------------

namespace OperatorRegistry

def pushAll (index : Map UInt64 (List (Bytes 32))) (push : Option (UInt64 × Bytes 32)) :
    Map UInt64 (List (Bytes 32)) :=
  push.elim index fun p => pushStake index p.1 p.2

/-- The buckets hold the same ids. -/
def SameBuckets (index index' : Map UInt64 (List (Bytes 32))) : Prop :=
  ∀ b, (index.get b).Rel List.Perm (index'.get b)

theorem sameBuckets_refl (index : Map UInt64 (List (Bytes 32))) : SameBuckets index index := by
  intro b
  cases index.get b with
  | none => exact .none
  | some ids => exact .some (.refl ids)

theorem pushAll_comm (index : Map UInt64 (List (Bytes 32))) (push push' : Option (UInt64 × Bytes 32)) :
    SameBuckets (pushAll (pushAll index push) push') (pushAll (pushAll index push') push) := by
  cases push with
  | none => exact sameBuckets_refl _
  | some p =>
    cases push' with
    | none => exact sameBuckets_refl _
    | some p' =>
      obtain ⟨bucket, id⟩ := p
      obtain ⟨bucket', id'⟩ := p'
      intro b
      simp only [pushAll, Option.elim_some, pushStake, Map.get_insert]
      by_cases hsame : bucket' = bucket
      · subst hsame
        simp only [if_true, Option.getD_some]
        split
        · refine .some ?_
          rw [List.append_assoc, List.append_assoc]
          exact (List.Perm.swap id' id []).append_left _
        · exact sameBuckets_refl index b
      · simp only [if_neg hsame, if_neg (Ne.symm hsame)]
        by_cases hb : b = bucket
        · have hb' : b ≠ bucket' := fun h => hsame (h.symm.trans hb)
          simp only [if_pos hb, if_neg hb']
          exact .some (.refl _)
        · simp only [if_neg hb]
          split
          · exact .some (.refl _)
          · exact sameBuckets_refl index b

end OperatorRegistry

namespace State

variable {c : Crypto}

theorem step_index {tx : Transaction} {height : UInt64} {op : RegistryOp}
    (h : tx.registryOp? height = some op) (r : OperatorRegistry) :
    (r.step op).stakeIndex = pushAll r.stakeIndex (tx.push? height) := by
  cases htype : tx.txType with
  | reputationUpdate =>
    have hop := h
    simp only [Transaction.registryOp?, htype, Option.bind_eq_bind, Option.bind_eq_some_iff,
      Option.some.injEq] at hop
    obtain ⟨target, -, delta, -, hop⟩ := hop
    unfold Transaction.push?
    rw [h]
    split at hop <;> subst hop <;> rfl
  | operatorRegister =>
    have hop := h
    simp only [Transaction.registryOp?, htype, Option.bind_eq_bind, Option.bind_eq_some_iff,
      Option.some.injEq] at hop
    obtain ⟨id, -, pubkey, -, stake, -, hop⟩ := hop
    unfold Transaction.push?
    rw [h]
    subst hop
    rfl
  | _ => simp [Transaction.registryOp?, htype] at h

/-- What a transaction pushes to the index, if it is accepted. -/
def pushed (c : Crypto) (s : State) (tx : Transaction) : Option (UInt64 × Bytes 32) :=
  (applyTransaction c tx s).1.toOption.bind fun _ => tx.push? s.height

theorem transact_index (s : State) (tx : Transaction) :
    (transact c s tx).settlement.operatorRegistry.stakeIndex =
      pushAll s.settlement.operatorRegistry.stakeIndex (pushed c s tx) := by
  unfold pushed transact
  rcases applyTransaction_cases c tx s with ⟨err, heq⟩ | ⟨-, hok, heq⟩
  · rw [heq]
    rfl
  · rw [heq]
    dsimp only [Except.toOption, Option.bind_some]
    rw [handle_registry c hok]
    cases hop : tx.registryOp? s.height with
    | none =>
      unfold Transaction.push?
      rw [hop]
      rfl
    | some op => exact step_index hop _

-- ---------------------------------------------------------------------------
-- Independent transactions
-- ---------------------------------------------------------------------------

/-- Equal states, up to the order of the ids inside the buckets. -/
structure SameUpToBuckets (s s' : State) : Prop where
  apart : s.withIndex .empty = s'.withIndex .empty
  buckets : SameBuckets s.settlement.operatorRegistry.stakeIndex
    s'.settlement.operatorRegistry.stakeIndex

theorem withIndex_eq_of_look {s s' : State} (hlook : ∀ cell, s.look cell = s'.look cell)
    (hrest : s.rest = s'.rest) : s.withIndex .empty = s'.withIndex .empty := by
  have hescrows : s.settlement.jobEscrows = s'.settlement.jobEscrows :=
    Map.ext fun jobId => hlook (.escrow jobId)
  have hoperators : s.settlement.operatorRegistry.operators = s'.settlement.operatorRegistry.operators :=
    Map.ext fun id => hlook (.operator id)
  have hanchors : s.settlement.receiptAnchors = s'.settlement.receiptAnchors :=
    Map.ext fun id => hlook (.anchor id)
  have hreceipts : s.intelligenceReceipts = s'.intelligenceReceipts :=
    Map.ext fun id => hlook (.receipt id)
  simp only [rest, State.mk.injEq, SettlementState.mk.injEq, true_and, and_true] at hrest
  simp only [withIndex, State.mk.injEq, SettlementState.mk.injEq, OperatorRegistry.mk.injEq]
  tauto

/-- Independent transactions give the same results and leave the same state in
either order, up to the order of the ids inside the buckets. -/
theorem independent_commute {s : State} {tx tx' : Transaction}
    (h : Transaction.Independent c s.height tx tx') :
    (applyTransaction c tx (transact c s tx')).1 = (applyTransaction c tx s).1 ∧
      (applyTransaction c tx' (transact c s tx)).1 = (applyTransaction c tx' s).1 ∧
      SameUpToBuckets (transact c (transact c s tx) tx') (transact c (transact c s tx') tx) := by
  obtain ⟨hwrites, hwrites'⟩ := h
  have hs : HasRest s.rest s := rfl
  have htx : Footprint look (HasRest s.rest) (applyTransaction c tx) tx.reads
      (tx.writes c s.height) := transaction_footprint c tx s.rest
  have htx' : Footprint look (HasRest s.rest) (applyTransaction c tx') tx'.reads
      (tx'.writes c s.height) := transaction_footprint c tx' s.rest
  have hresult : (applyTransaction c tx (transact c s tx')).1 = (applyTransaction c tx s).1 :=
    htx.result_after htx' (List.disjoint_of_disjoint_append_right_left hwrites') hs
  have hresult' : (applyTransaction c tx' (transact c s tx)).1 = (applyTransaction c tx' s).1 :=
    htx'.result_after htx (List.disjoint_of_disjoint_append_right_left hwrites) hs
  refine ⟨hresult, hresult', withIndex_eq_of_look ?_ ?_, ?_⟩
  · exact htx.commute htx' hwrites hwrites' hs
  · exact (htx'.keeps _ (htx.keeps s hs)).trans (htx.keeps _ (htx'.keeps s hs)).symm
  · have hpushed : pushed c (transact c s tx') tx = pushed c s tx := by
      unfold pushed
      rw [hresult, (transact_view c s tx').1]
    have hpushed' : pushed c (transact c s tx) tx' = pushed c s tx' := by
      unfold pushed
      rw [hresult', (transact_view c s tx).1]
    simp only [transact_index, hpushed, hpushed']
    exact pushAll_comm _ _ _

/-- Two registrations into one bucket. -/
theorem independent_commute_registrations :
    let c : Crypto := { blake3 := fun _ => .fill 32 0, ed25519Verify := fun _ _ _ => true }
    let tx := Transaction.newOperatorRegister c (.fill 32 1) (.fill 32 3) 5000 "us-east"
    let tx' := Transaction.newOperatorRegister c (.fill 32 2) (.fill 32 4) 5500 "us-east"
    SameUpToBuckets (transact c (transact c .new tx) tx') (transact c (transact c .new tx') tx) := by
  intro c tx tx'
  have h : Transaction.Independent c (State.new).height tx tx' := by decide
  exact (independent_commute h).2.2

end State

end LiteVision.Truth
