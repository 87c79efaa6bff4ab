import LiteVision.Bytes
import Mathlib.Data.Set.Function

/-!
# Execution receipts

The receipt of `receipts.rs`, its hash and its signature. The hash is of the fields one
after the other, without a mark where the optional seed is left out. All of them but the
seed are there at a fixed length, so the length of the whole shows whether it is.
-/

namespace LiteVision.Intelligence

inductive TEEType where
  | none
  | sev
  | sgx
  | trustZone
  | nitro
  deriving DecidableEq

structure Attestation where
  report : List UInt8
  signature : List UInt8
  timestamp : UInt64
  teeType : TEEType
  deriving DecidableEq

structure ResourceUsage where
  gpuCycles : UInt64
  vramBytes : UInt64
  cpuCycles : UInt64
  memoryBytes : UInt64
  bandwidthBytes : UInt64
  executionTimeMs : UInt64
  deriving DecidableEq

namespace ResourceUsage

def new : ResourceUsage where
  gpuCycles := 0
  vramBytes := 0
  cpuCycles := 0
  memoryBytes := 0
  bandwidthBytes := 0
  executionTimeMs := 0

def hash (c : Crypto) (usage : ResourceUsage) : Bytes 32 :=
  c.blake3 ((Bytes.ofU64 usage.gpuCycles).val ++ (Bytes.ofU64 usage.vramBytes).val ++
    (Bytes.ofU64 usage.cpuCycles).val ++ (Bytes.ofU64 usage.memoryBytes).val ++
    (Bytes.ofU64 usage.bandwidthBytes).val ++ (Bytes.ofU64 usage.executionTimeMs).val)

end ResourceUsage

namespace Receipt

inductive ExecutionMode where
  | soft
  | deterministic
  deriving DecidableEq

end Receipt

structure Receipt where
  version : UInt32
  jobId : Bytes 32
  operatorId : Bytes 32
  kernelId : Bytes 32
  kernelVersion : UInt16 × UInt16 × UInt16
  inputHash : Bytes 32
  deterministicSeed : Option (Bytes 32)
  executionNonce : UInt64
  outputHash : Bytes 32
  resourceHash : Bytes 32
  executionMode : Receipt.ExecutionMode
  startBlockHeight : UInt64
  endBlockHeight : UInt64
  signature : List UInt8
  attestation : Option Attestation
  deriving DecidableEq

def Receipt.new (c : Crypto) (jobId operatorId kernelId : Bytes 32)
    (kernelVersion : UInt16 × UInt16 × UInt16) (inputHash outputHash : Bytes 32)
    (resources : ResourceUsage) (executionMode : Receipt.ExecutionMode)
    (startBlockHeight endBlockHeight : UInt64) : Receipt where
  version := 1
  jobId := jobId
  operatorId := operatorId
  kernelId := kernelId
  kernelVersion := kernelVersion
  inputHash := inputHash
  deterministicSeed := none
  executionNonce := 0
  outputHash := outputHash
  resourceHash := resources.hash c
  executionMode := executionMode
  startBlockHeight := startBlockHeight
  endBlockHeight := endBlockHeight
  signature := []
  attestation := none

namespace Receipt

def ExecutionMode.modeByte : ExecutionMode → UInt8
  | .soft => 0
  | .deterministic => 1

theorem ExecutionMode.modeByte_inj {mode mode' : ExecutionMode} :
    mode.modeByte = mode'.modeByte ↔ mode = mode' := by
  cases mode <;> cases mode' <;> decide

def updates (receipt : Receipt) : List (List UInt8) :=
  [(Bytes.ofU32 receipt.version).val, receipt.jobId.val, receipt.operatorId.val,
    receipt.kernelId.val, (Bytes.ofU16 receipt.kernelVersion.1).val,
    (Bytes.ofU16 receipt.kernelVersion.2.1).val, (Bytes.ofU16 receipt.kernelVersion.2.2).val,
    receipt.inputHash.val] ++
  receipt.deterministicSeed.toList.map Subtype.val ++
  [(Bytes.ofU64 receipt.executionNonce).val, receipt.outputHash.val, receipt.resourceHash.val,
    [receipt.executionMode.modeByte], (Bytes.ofU64 receipt.startBlockHeight).val,
    (Bytes.ofU64 receipt.endBlockHeight).val]

def hash (c : Crypto) (receipt : Receipt) : Bytes 32 := c.blake3 receipt.updates.flatten

/-- A key or signature of another length is refused before the check. -/
def verifySignature (c : Crypto) (receipt : Receipt) (publicKey : List UInt8) : Bool :=
  if receipt.signature.isEmpty then false
  else if hkey : publicKey.length = 32 then
    if hsignature : receipt.signature.length = 64 then
      c.ed25519Verify ⟨publicKey, hkey⟩ (receipt.hash c) ⟨receipt.signature, hsignature⟩
    else false
  else false

-- ---------------------------------------------------------------------------
-- What the hash binds
-- ---------------------------------------------------------------------------

/-- Two receipts agree on all but the signature and the attestation. -/
structure SameBody (receipt receipt' : Receipt) : Prop where
  version : receipt.version = receipt'.version
  jobId : receipt.jobId = receipt'.jobId
  operatorId : receipt.operatorId = receipt'.operatorId
  kernelId : receipt.kernelId = receipt'.kernelId
  kernelVersion : receipt.kernelVersion = receipt'.kernelVersion
  inputHash : receipt.inputHash = receipt'.inputHash
  deterministicSeed : receipt.deterministicSeed = receipt'.deterministicSeed
  executionNonce : receipt.executionNonce = receipt'.executionNonce
  outputHash : receipt.outputHash = receipt'.outputHash
  resourceHash : receipt.resourceHash = receipt'.resourceHash
  executionMode : receipt.executionMode = receipt'.executionMode
  startBlockHeight : receipt.startBlockHeight = receipt'.startBlockHeight
  endBlockHeight : receipt.endBlockHeight = receipt'.endBlockHeight

variable {receipt receipt' : Receipt}

theorem map_length_updates (receipt : Receipt) :
    receipt.updates.map List.length =
      [4, 32, 32, 32, 2, 2, 2, 32] ++ receipt.deterministicSeed.toList.map (fun _ => 32) ++
        [8, 32, 32, 1, 8, 8] := by
  cases h : receipt.deterministicSeed <;> simp [updates, h, Bytes.length_val]

theorem length_flatten_updates (receipt : Receipt) :
    receipt.updates.flatten.length = 227 + 32 * receipt.deterministicSeed.toList.length := by
  rw [List.length_flatten, map_length_updates]
  cases receipt.deterministicSeed <;> rfl

theorem flatten_updates_inj :
    receipt.updates.flatten = receipt'.updates.flatten ↔ receipt.updates = receipt'.updates := by
  refine ⟨fun h => ?_, congrArg _⟩
  have hlength := congrArg List.length h
  rw [length_flatten_updates, length_flatten_updates] at hlength
  refine List.eq_iff_flatten_eq.mpr ⟨h, ?_⟩
  rw [map_length_updates, map_length_updates]
  cases hseed : receipt.deterministicSeed <;> cases hseed' : receipt'.deterministicSeed
  case none.none => rfl
  case some.some => rfl
  all_goals simp [hseed, hseed'] at hlength

theorem updates_inj : receipt.updates = receipt'.updates ↔ SameBody receipt receipt' := by
  constructor
  · intro h
    have hlength := congrArg List.length (congrArg List.flatten h)
    rw [length_flatten_updates, length_flatten_updates] at hlength
    have hseed : receipt.deterministicSeed.toList.length =
        receipt'.deterministicSeed.toList.length := by omega
    obtain ⟨hfront, hback⟩ := List.append_inj h (by simp [hseed])
    obtain ⟨hfront, hseeds⟩ := List.append_inj hfront rfl
    have hsame := congrArg List.head? (List.map_injective_iff.mpr Subtype.val_injective hseeds)
    rw [Option.head?_toList, Option.head?_toList] at hsame
    simp only [List.cons.injEq, and_true, Subtype.val_inj, Bytes.ofU16_eq_iff, Bytes.ofU32_eq_iff,
      Bytes.ofU64_eq_iff, ExecutionMode.modeByte_inj] at hfront hback
    obtain ⟨hversion, hjob, hoperator, hkernel, hmajor, hminor, hpatch, hinput⟩ := hfront
    obtain ⟨hnonce, houtput, hresource, hmode, hstart, hend⟩ := hback
    exact ⟨hversion, hjob, hoperator, hkernel, Prod.ext hmajor (Prod.ext hminor hpatch), hinput,
      hsame, hnonce, houtput, hresource, hmode, hstart, hend⟩
  · rintro ⟨hversion, hjob, hoperator, hkernel, hkernelVersion, hinput, hseed, hnonce, houtput,
      hresource, hmode, hstart, hend⟩
    simp only [updates, hversion, hjob, hoperator, hkernel, hkernelVersion, hinput, hseed, hnonce,
      houtput, hresource, hmode, hstart, hend]

/-- As long as `blake3` does not collide on the two, receipts have one hash just when they
agree on all that is hashed. -/
theorem hash_binds_iff (c : Crypto) (inputs : Set (List UInt8))
    (hblake3 : Set.InjOn c.blake3 inputs) (receipt receipt' : Receipt)
    (hinputs : receipt.updates.flatten ∈ inputs) (hinputs' : receipt'.updates.flatten ∈ inputs) :
    receipt.hash c = receipt'.hash c ↔ SameBody receipt receipt' := by
  rw [hash, hash, hblake3.eq_iff hinputs hinputs', flatten_updates_inj, updates_inj]

/-- With and without a seed. -/
theorem hash_binds_iff_seed :
    let c : Crypto :=
      { blake3 := fun bytes => .fill 32 (.ofNat bytes.length), ed25519Verify := fun _ _ _ => true }
    let receipt := Receipt.new c (.fill 32 1) (.fill 32 2) (.fill 32 3) (1, 0, 0) (.fill 32 4)
      (.fill 32 5) .new .deterministic 100 110
    let seeded := { receipt with deterministicSeed := some (.fill 32 6) }
    receipt.hash c = seeded.hash c ↔ SameBody receipt seeded := by
  intro c receipt seeded
  have hinj : Set.InjOn c.blake3 {receipt.updates.flatten, seeded.updates.flatten} := by
    rw [Set.injOn_pair]
    intro heq
    exact absurd heq (by decide +kernel)
  exact hash_binds_iff c _ hinj receipt seeded (.inl rfl) (.inr rfl)

end Receipt

end LiteVision.Intelligence
