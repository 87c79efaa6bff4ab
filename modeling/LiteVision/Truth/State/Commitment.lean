import LiteVision.Truth.State.Transactions

/-!
# The state root

What the root hash fixes of a state: the version, the height, the root of the
validator set, which jobs have escrows, which operators are registered and how
many receipts are anchored. The values in the maps, the anchors themselves, the
artifacts and the legacy receipts are not in it.
-/

namespace LiteVision.Truth

open Lib

@[ext]
structure Committed where
  version : UInt64
  height : UInt64
  validatorSetRoot : Bytes 32
  escrowIds : Finset (Bytes 32)
  operatorIds : Finset (Bytes 32)
  anchorCount : Nat
  deriving DecidableEq

/-- The counts fit in the words they are hashed as. -/
structure Committed.Fits (k : Committed) : Prop where
  escrows : k.escrowIds.card < 2 ^ 64
  operators : k.operatorIds.card < 2 ^ 64
  anchors : k.anchorCount < 2 ^ 64

namespace State

def committed (s : State) : Committed where
  version := s.version
  height := s.height
  validatorSetRoot := s.validatorSetRoot
  escrowIds := s.settlement.jobEscrows.keys
  operatorIds := s.settlement.operatorRegistry.operators.keys
  anchorCount := s.settlement.receiptAnchors.keys.card

/-- The lengths of the maps are machine words, as `HashMap::len` returns them. -/
def Addressable (s : State) : Prop := s.committed.Fits

theorem rootPreimage_congr {s s' : State} (h : s.committed = s'.committed) :
    s.rootPreimage = s'.rootPreimage := by
  obtain ⟨hversion, hheight, hroot, hescrows, hoperators, hanchors⟩ := Committed.mk.inj h
  simp only [rootPreimage, hversion, hheight, hroot, hescrows, hoperators, hanchors]

theorem rootPreimage_inj {s s' : State} (hs : s.Addressable) (hs' : s'.Addressable)
    (h : s.rootPreimage = s'.rootPreimage) : s.committed = s'.committed := by
  simp only [rootPreimage, List.append_assoc] at h
  obtain ⟨hversion, h⟩ := Bytes.append_inj h
  obtain ⟨hheight, h⟩ := Bytes.append_inj h
  obtain ⟨hroot, h⟩ := Bytes.append_inj h
  obtain ⟨hescrows, h⟩ := Bytes.append_inj h
  obtain ⟨hoperators, h⟩ := Bytes.append_inj h
  obtain ⟨hanchors, h⟩ := Bytes.append_inj h
  have hescrows := Bytes.ofU64_ofNat_inj hs.escrows hs'.escrows hescrows
  have hoperators := Bytes.ofU64_ofNat_inj hs.operators hs'.operators hoperators
  have hanchors := Bytes.ofU64_ofNat_inj hs.anchors hs'.anchors hanchors
  have hlength : ∀ {ids ids' : Finset (Bytes 32)}, ids.card = ids'.card →
      (ids.sort (· ≤ ·)).length = (ids'.sort (· ≤ ·)).length := fun hcard => by
    rw [Finset.length_sort, Finset.length_sort, hcard]
  obtain ⟨hescrowIds, h⟩ := Bytes.flatMap_append_inj (hlength hescrows) h
  obtain ⟨hoperatorIds, -⟩ := Bytes.flatMap_append_inj (s := []) (t := []) (hlength hoperators) (by
    rw [List.append_nil, List.append_nil]
    exact h)
  exact Committed.ext (Bytes.ofU64_inj hversion) (Bytes.ofU64_inj hheight) hroot
    (Map.sort_inj hescrowIds) (Map.sort_inj hoperatorIds) hanchors

/-- States of one root preimage agree on what is committed, and on nothing more. -/
theorem rootPreimage_eq_iff {s s' : State} (hs : s.Addressable) (hs' : s'.Addressable) :
    s.rootPreimage = s'.rootPreimage ↔ s.committed = s'.committed :=
  ⟨rootPreimage_inj hs hs', rootPreimage_congr⟩

/-- Two deposits of different amounts for one job. -/
theorem rootPreimage_eq_iff_deposits :
    let c : Crypto := { blake3 := fun _ => .fill 32 0, ed25519Verify := fun _ _ _ => true }
    let s := transact c .new (.newEscrowDeposit c (.fill 32 1) 100)
    let s' := transact c .new (.newEscrowDeposit c (.fill 32 1) 200)
    s.rootPreimage = s'.rootPreimage := by
  intro c s s'
  have hs : s.Addressable := ⟨by decide, by decide, by decide⟩
  have hs' : s'.Addressable := ⟨by decide, by decide, by decide⟩
  exact (rootPreimage_eq_iff hs hs').mpr (by decide)

/-- The amount in an escrow is not committed. -/
theorem commitment_fails :
    ¬ ∀ s s' : State, s.Addressable → s'.Addressable → s.rootPreimage = s'.rootPreimage →
      s.version = s'.version ∧ s.height = s'.height ∧ s.validatorSetRoot = s'.validatorSetRoot ∧
        s.settlement.jobEscrows = s'.settlement.jobEscrows ∧
        s.settlement.operatorRegistry.operators = s'.settlement.operatorRegistry.operators ∧
        s.settlement.receiptAnchors = s'.settlement.receiptAnchors ∧
        s.settlement.artifacts = s'.settlement.artifacts ∧
        s.intelligenceReceipts = s'.intelligenceReceipts := by
  intro h
  let c : Crypto := { blake3 := fun _ => .fill 32 0, ed25519Verify := fun _ _ _ => true }
  let s := transact c .new (.newEscrowDeposit c (.fill 32 1) 100)
  let s' := transact c .new (.newEscrowDeposit c (.fill 32 1) 200)
  have hcommitted : s.committed = s'.committed := by decide
  obtain ⟨-, -, -, hescrows, -⟩ := h s s' ⟨by decide, by decide, by decide⟩
    ⟨by decide, by decide, by decide⟩ (rootPreimage_congr hcommitted)
  have hamount := congrArg (fun m => (m.get (.fill 32 1)).map JobEscrow.amount) hescrows
  revert hamount
  decide

end State

end LiteVision.Truth
