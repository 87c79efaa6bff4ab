import LiteVision.Truth.State.Transactions

/-!
# Signatures

`apply_transaction` checks a signature when there is one and the sender is
registered with a key; an unsigned transaction goes through. The signature is
over sender, nonce and payload, so it ties a transaction down up to its type and
its fee.
-/

namespace LiteVision.Truth

open Lib

/-- The types whose transactions need no authorization. -/
def TransactionType.Unchecked : TransactionType → Prop
  | .governanceVote | .transfer => True
  | .jobSubmit | .jobSettle | .artifactCommit | .operatorRegister | .operatorUpdate
  | .reputationUpdate | .escrowDeposit | .escrowRelease | .escrowRefund | .contractDeploy
  | .contractCall | .intelligenceSubmit | .intelligenceSettle => False

/-- The types whose handlers read the fee. -/
def TransactionType.ReadsFee : TransactionType → Prop
  | .operatorRegister | .intelligenceSubmit => True
  | .jobSubmit | .jobSettle | .artifactCommit | .operatorUpdate | .reputationUpdate
  | .escrowDeposit | .escrowRelease | .escrowRefund | .governanceVote | .transfer
  | .contractDeploy | .contractCall | .intelligenceSettle => False

namespace State

variable {c : Crypto}

-- ---------------------------------------------------------------------------
-- Authorization
-- ---------------------------------------------------------------------------

theorem authorize_registered {tx : Transaction} {s : State} {operator : OperatorState}
    (ht : ¬ tx.txType.Unchecked) (hget : s.settlement.operatorRegistry.get tx.sender = some operator)
    (hsigned : tx.signature ≠ []) (hkey : operator.pubkey ≠ .fill 32 0) :
    authorize c tx s =
      (tx.verifyAuthorization c operator.pubkey).mapError fun _ => .invalidTransaction := by
  cases htype : tx.txType with
  | governanceVote | transfer =>
    rw [htype] at ht
    exact (ht trivial).elim
  | _ => simp [authorize, htype, hget, hsigned, hkey]

/-- A signed transaction of an operator with a key changes the state only if the
signature verifies under that key. -/
theorem signed_change_verified {tx : Transaction} {s : State} {operator : OperatorState}
    (ht : ¬ tx.txType.Unchecked) (hget : s.settlement.operatorRegistry.get tx.sender = some operator)
    (hsigned : tx.signature ≠ []) (hkey : operator.pubkey ≠ .fill 32 0)
    (hchange : (applyTransaction c tx s).2 ≠ s) :
    tx.verifyAuthorization c operator.pubkey = .ok () := by
  rcases applyTransaction_cases c tx s with ⟨err, heq⟩ | ⟨⟨-, hauth⟩, -, -⟩
  · rw [heq] at hchange
    exact absurd rfl hchange
  · rw [authorize_registered ht hget hsigned hkey] at hauth
    cases hverify : tx.verifyAuthorization c operator.pubkey with
    | error err =>
      rw [hverify] at hauth
      cases hauth
    | ok => rfl

/-- A signed reputation update of a registered operator. -/
theorem signed_change_verified_update :
    let c : Crypto := { blake3 := fun _ => .fill 32 0, ed25519Verify := fun _ _ _ => true }
    let s := transact c .new (.newOperatorRegister c (.fill 32 1) (.fill 32 2) 5000 "us-east")
    let tx := { Transaction.newReputationUpdate c (.fill 32 1) 500 with
      sender := .fill 32 1, signature := List.replicate 64 7 }
    (applyTransaction c tx s).2 ≠ s ∧ tx.verifyAuthorization c (.fill 32 2) = .ok () := by
  intro c s tx
  have hget : (s.settlement.operatorRegistry.get tx.sender).map OperatorState.pubkey =
      some (.fill 32 2) := by decide
  obtain ⟨operator, hget, hkey⟩ := Option.map_eq_some_iff.mp hget
  have ht : ¬ tx.txType.Unchecked := fun h => h
  have hchange : (applyTransaction c tx s).2 ≠ s := by decide
  have hverify := signed_change_verified ht hget (by decide) (by rw [hkey]; decide) hchange
  rw [hkey] at hverify
  exact ⟨hchange, hverify⟩

/-- An unsigned reputation update in the name of a registered operator. -/
theorem change_verified_fails :
    ¬ ∀ (c : Crypto) (s : State) (tx : Transaction) (operator : OperatorState),
      ¬ tx.txType.Unchecked → s.settlement.operatorRegistry.get tx.sender = some operator →
        (applyTransaction c tx s).2 ≠ s → tx.verifyAuthorization c operator.pubkey = .ok () := by
  intro h
  let c : Crypto := { blake3 := fun _ => .fill 32 0, ed25519Verify := fun _ _ _ => true }
  let s := transact c .new (.newOperatorRegister c (.fill 32 1) (.fill 32 2) 5000 "us-east")
  let tx := { Transaction.newReputationUpdate c (.fill 32 1) 500 with sender := .fill 32 1 }
  have hget : (s.settlement.operatorRegistry.get tx.sender).isSome = true := by decide
  obtain ⟨operator, hget⟩ := Option.isSome_iff_exists.mp hget
  have hverify := h c s tx operator (fun h => h) hget (by decide)
  unfold Transaction.verifyAuthorization at hverify
  rw [if_pos (by decide)] at hverify
  cases hverify

-- ---------------------------------------------------------------------------
-- What a signature binds
-- ---------------------------------------------------------------------------

theorem handle_congr {tx tx' : Transaction} (htype : tx.txType = tx'.txType)
    (hsender : tx.sender = tx'.sender) (hpayload : tx.payload = tx'.payload)
    (hfee : tx.fee = tx'.fee ∨ ¬ tx.txType.ReadsFee) (s : State) :
    handle c tx s = handle c tx' s := by
  obtain ⟨id, sender, txType, payload, nonce, fee, signature⟩ := tx
  obtain ⟨id', sender', txType', payload', nonce', fee', signature'⟩ := tx'
  dsimp only at htype hsender hpayload hfee
  subst htype hsender hpayload
  cases txType with
  | operatorRegister | intelligenceSubmit =>
    obtain rfl := hfee.resolve_right fun h => h trivial
    rfl
  | _ => rfl

theorem authorize_congr {tx tx' : Transaction} (htype : tx.txType = tx'.txType)
    (hsender : tx.sender = tx'.sender) (hnonce : tx.nonce = tx'.nonce)
    (hpayload : tx.payload = tx'.payload) (hsignature : tx.signature = tx'.signature) (s : State) :
    authorize c tx s = authorize c tx' s := by
  obtain ⟨id, sender, txType, payload, nonce, fee, signature⟩ := tx
  obtain ⟨id', sender', txType', payload', nonce', fee', signature'⟩ := tx'
  dsimp only at htype hsender hnonce hpayload hsignature
  subst htype hsender hnonce hpayload hsignature
  rfl

/-- Two transactions with the same bytes under the signature agree on sender,
nonce and payload. If they are of one type, and of one fee where it is read, a
signature that is valid for both makes them do the same in every state. -/
theorem same_message {tx tx' : Transaction} (h : tx.messagePreimage = tx'.messagePreimage) :
    (tx.sender = tx'.sender ∧ tx.nonce = tx'.nonce ∧ tx.payload = tx'.payload) ∧
      (tx.txType = tx'.txType → (tx.fee = tx'.fee ∨ ¬ tx.txType.ReadsFee) →
        tx.signature = tx'.signature → ∀ s, applyTransaction c tx s = applyTransaction c tx' s) := by
  have hfields := Transaction.messagePreimage_inj h
  refine ⟨hfields, fun htype hfee hsignature s => ?_⟩
  obtain ⟨hsender, hnonce, hpayload⟩ := hfields
  have hverify : tx.verify = tx'.verify := by simp only [Transaction.verify, htype, hpayload]
  have hauth : authorize c tx s = authorize c tx' s :=
    authorize_congr htype hsender hnonce hpayload hsignature s
  simp only [applyTransaction, hverify, hauth, handle_congr htype hsender hpayload hfee]

/-- Two signed reputation updates with the same message, though of different ids
and fees. -/
theorem same_message_updates :
    let c : Crypto :=
      { blake3 := fun _ => .fill 32 0
        ed25519Verify := fun key _ signature => key = .fill 32 2 ∧ signature = .fill 64 7 }
    let s := transact c .new (.newOperatorRegister c (.fill 32 1) (.fill 32 2) 5000 "us-east")
    let tx := { Transaction.newReputationUpdate c (.fill 32 1) 500 with
      sender := .fill 32 1, signature := List.replicate 64 7 }
    let tx' := { tx with id := .fill 32 9, fee := 9 }
    (applyTransaction c tx s).2 ≠ s ∧ applyTransaction c tx s = applyTransaction c tx' s := by
  intro c s tx tx'
  have hmessage : tx.messagePreimage = tx'.messagePreimage := rfl
  exact ⟨by decide, (same_message hmessage).2 rfl (.inr fun h => h) rfl s⟩

/-- Two registrations that differ only in the fee, which becomes the stake. -/
theorem signature_binding_fails :
    ¬ ∀ tx tx' : Transaction, tx.messagePreimage = tx'.messagePreimage →
      tx.sender = tx'.sender ∧ tx.txType = tx'.txType ∧ tx.payload = tx'.payload ∧
        tx.nonce = tx'.nonce ∧ tx.fee = tx'.fee := by
  intro h
  let c : Crypto := { blake3 := fun _ => .fill 32 0, ed25519Verify := fun _ _ _ => true }
  let tx := Transaction.newOperatorRegister c (.fill 32 1) (.fill 32 2) 5000 "us-east"
  obtain ⟨-, -, -, -, hfee⟩ := h tx { tx with fee := 9000 } rfl
  revert hfee
  decide

end State

end LiteVision.Truth
