import LiteVision.Storage.Partitions
import LiteVision.Lib.Ballot
import LiteVision.Lib.Tally

/-!
# Who signed a new partition

The signatures that verify are counted entry by entry, and the count may equal two
thirds of the validators. So two thirds are enough where more are due, and one
validator is enough where it signs often.
-/

namespace LiteVision.Storage.PartitionCreate

open Lib PartitionManager

variable (c : Crypto) (create : PartitionCreate) (validators : List (Bytes 32))

def verified : List (Bytes 32 × List UInt8) :=
  create.signatures.filter fun signature =>
    validators.contains signature.1 &&
      verifies c (create.messageToSign c) signature.1 signature.2

def signers : Finset (Bytes 32) :=
  validators.toFinset.filter fun validator => ∃ signature ∈ create.signatures,
    signature.1 = validator ∧ verifies c (create.messageToSign c) validator signature.2 = true

def quorumRequired : Nat := validators.length * 2 / 3

theorem foldl_verified (message : Bytes 32) (signatures : List (Bytes 32 × List UInt8)) (n : Nat) :
    signatures.foldl (fun count (publicKeyBytes, signatureBytes) =>
      if publicKeyBytes ∉ validators then count
      else if verifies c message publicKeyBytes signatureBytes then count + 1
      else count) n =
    n + (signatures.filter fun signature =>
      validators.contains signature.1 && verifies c message signature.1 signature.2).length := by
  induction signatures generalizing n with
  | nil => rfl
  | cons signature signatures ih =>
    obtain ⟨publicKeyBytes, signatureBytes⟩ := signature
    rw [List.foldl_cons, ih]
    by_cases hmem : publicKeyBytes ∈ validators
    · cases hv : verifies c message publicKeyBytes signatureBytes with
      | false => simp [hmem, hv]
      | true =>
        simp only [hmem, hv, not_true_eq_false, if_true, if_false, List.filter_cons,
          List.contains_iff_mem.mpr hmem, Bool.and_self, List.length_cons]
        omega
    · simp [hmem]

theorem verifySignatures_eq :
    create.verifySignatures c validators =
      decide (quorumRequired validators ≤ (create.verified c validators).length) := by
  have hle : (create.verified c validators).length ≤ create.signatures.length :=
    List.length_filter_le ..
  unfold verifySignatures
  dsimp only
  rw [foldl_verified, Nat.zero_add]
  by_cases hshort : create.signatures.length < validators.length * 2 / 3
  · rw [if_pos hshort, eq_comm, decide_eq_false_iff_not]
    exact Nat.not_le.mpr (Nat.lt_of_le_of_lt hle hshort)
  · rw [if_neg hshort]
    rfl

theorem signers_eq : create.signers c validators =
    ((create.verified c validators).map Prod.fst).toFinset := by
  ext validator
  simp only [signers, verified, Finset.mem_filter, List.mem_toFinset, List.mem_map,
    List.mem_filter, Bool.and_eq_true, List.contains_iff_mem]
  constructor
  · rintro ⟨hmem, signature, hin, rfl, hv⟩
    exact ⟨signature, ⟨hin, hmem, hv⟩, rfl⟩
  · rintro ⟨signature, ⟨hin, hmem, hv⟩, rfl⟩
    exact ⟨hmem, signature, hin, rfl, hv⟩

theorem card_signers : Tally.repeats ((create.verified c validators).map Prod.fst) +
    (create.signers c validators).card = (create.verified c validators).length := by
  rw [signers_eq, Tally.repeats_add_card, List.length_map]

/-- A partition is created on a true supermajority, or not at all, exactly if its id is
taken, or too few entries verify, or more than the quorum do besides the repeated ones. -/
theorem create_quorum_iff (m : PartitionManager) :
    (∀ partition, (m.createPartition c create validators).1 = .ok partition →
      2 * validators.length < 3 * (create.signers c validators).card) ↔
    (m.partitions.get create.newPartitionId).isSome = true ∨
      (create.verified c validators).length < quorumRequired validators ∨
      quorumRequired validators + Tally.repeats ((create.verified c validators).map Prod.fst) <
        (create.verified c validators).length := by
  have hcard := card_signers c create validators
  rw [← superMajority_le_iff]
  change (∀ partition, _ → quorumRequired validators + 1 ≤ _) ↔ _
  rcases createPartition_cases c m create validators with ⟨e, heq, hrefused⟩ |
    ⟨hnew, hverified, heq⟩
  · refine iff_of_true (fun partition hok => ?_) ?_
    · rw [heq] at hok
      cases hok
    · cases hget : m.partitions.get create.newPartitionId with
      | some p => exact .inl rfl
      | none =>
        have hfew := hrefused hget
        rw [verifySignatures_eq, decide_eq_false_iff_not] at hfew
        exact .inr (.inl (Nat.not_le.mp hfew))
  · rw [verifySignatures_eq, decide_eq_true_iff] at hverified
    rw [heq, hnew]
    constructor
    · intro h
      have hmany := h _ rfl
      right
      right
      omega
    · rintro (hsome | hfew | hmany) partition -
      · cases hsome
      · exact absurd hverified (Nat.not_le.mpr hfew)
      · omega

/-- One of three validators signs twice. -/
theorem create_quorum_fails :
    let c : Crypto := { blake3 := fun _ => .fill 32 0, ed25519Verify := fun _ _ _ => true }
    let validators : List (Bytes 32) := [.fill 32 1, .fill 32 2, .fill 32 3]
    let create : PartitionCreate :=
      { newPartitionId := 1, initialStateRoot := .fill 32 1, configurationHash := .fill 32 2
        governanceProposalId := .fill 32 3
        signatures := [(.fill 32 1, List.replicate 64 0), (.fill 32 1, List.replicate 64 0)] }
    validators.Nodup ∧
      (PartitionManager.new.createPartition c create validators).1 = .ok (.new 1 0) ∧
      ¬ 2 * validators.length < 3 * (create.signers c validators).card := by
  decide

end LiteVision.Storage.PartitionCreate
