import LiteVision.Bytes
import LiteVision.Lib.Map
import Mathlib.Data.Set.Function

/-!
# Replay bundles

What `replay.rs` keeps of a job so that it can be run again, and the hash of it. The
hash is of the fields one after the other, without their lengths. The input is bound by
its own hash, but nothing shows where an optional state hash ends and the execution
context after it begins.
-/

namespace LiteVision.Observability

open Lib

structure ResourceLimits where
  maxGpuCycles : UInt64
  maxCpuCycles : UInt64
  maxMemoryBytes : UInt64
  maxExecutionTimeMs : UInt64
  deriving DecidableEq

def ResourceLimits.default : ResourceLimits where
  maxGpuCycles := 0xFFFFFFFFFFFFFFFF
  maxCpuCycles := 0xFFFFFFFFFFFFFFFF
  maxMemoryBytes := 64 * 1024 * 1024 * 1024
  maxExecutionTimeMs := 300000

structure KernelVersion where
  major : UInt16
  minor : UInt16
  patch : UInt16
  deriving DecidableEq

structure ReplayBundle where
  version : UInt16
  jobId : Bytes 32
  kernelId : Bytes 32
  kernelVersion : KernelVersion
  deterministicSeed : Bytes 32
  inputHash : Bytes 32
  inputBytes : List UInt8
  initialStateHash : Option (Bytes 32)
  executionContext : List UInt8
  expectedOutputHash : Bytes 32
  resourceCaps : ResourceLimits
  captureTimestampMs : UInt64
  captureSignature : Option (List UInt8)
  deriving DecidableEq

inductive ReplayError where
  | invalidVersion
  | inputHashMismatch
  | outputHashMismatch
  | executionTimeout
  | resourceExceeded
  | networkRequired
  | determinismViolation
  | signatureInvalid
  | storageError (message : String)
  deriving DecidableEq

namespace ReplayBundle

def hashBytes (c : Crypto) (data : List UInt8) : Bytes 32 := c.blake3 data

/-- The clock is read by the caller. -/
def new (c : Crypto) (jobId kernelId : Bytes 32) (kernelVersion : KernelVersion)
    (deterministicSeed : Bytes 32) (inputBytes : List UInt8) (initialStateHash : Option (Bytes 32))
    (executionContext : List UInt8) (resourceCaps : ResourceLimits) (now : UInt64) :
    ReplayBundle where
  version := 1
  jobId := jobId
  kernelId := kernelId
  kernelVersion := kernelVersion
  deterministicSeed := deterministicSeed
  inputHash := hashBytes c inputBytes
  inputBytes := inputBytes
  initialStateHash := initialStateHash
  executionContext := executionContext
  expectedOutputHash := .fill 32 0
  resourceCaps := resourceCaps
  captureTimestampMs := now
  captureSignature := none

def front (bundle : ReplayBundle) : List (List UInt8) :=
  [(Bytes.ofU16 bundle.version).val, bundle.jobId.val, bundle.kernelId.val,
    (Bytes.ofU16 bundle.kernelVersion.major).val, (Bytes.ofU16 bundle.kernelVersion.minor).val,
    (Bytes.ofU16 bundle.kernelVersion.patch).val, bundle.deterministicSeed.val,
    bundle.inputHash.val]

def back (bundle : ReplayBundle) : List (List UInt8) :=
  [bundle.expectedOutputHash.val, (Bytes.ofU64 bundle.resourceCaps.maxGpuCycles).val,
    (Bytes.ofU64 bundle.resourceCaps.maxCpuCycles).val,
    (Bytes.ofU64 bundle.resourceCaps.maxMemoryBytes).val,
    (Bytes.ofU64 bundle.resourceCaps.maxExecutionTimeMs).val,
    (Bytes.ofU64 bundle.captureTimestampMs).val]

def preimage (bundle : ReplayBundle) : List UInt8 :=
  bundle.front.flatten ++ (bundle.inputBytes ++
    ((bundle.initialStateHash.elim [] Subtype.val ++ bundle.executionContext) ++
      bundle.back.flatten))

def computeBundleHash (c : Crypto) (bundle : ReplayBundle) : Bytes 32 := c.blake3 bundle.preimage

def verify (c : Crypto) (bundle : ReplayBundle) : Except ReplayError Unit :=
  if bundle.version = 0 then .error .invalidVersion
  else if bundle.inputHash ≠ hashBytes c bundle.inputBytes then .error .inputHashMismatch
  else .ok ()

end ReplayBundle

structure ReplayEngine where
  bundles : Map (Bytes 32) ReplayBundle
  retentionWindowBlocks : UInt64

namespace ReplayEngine

def new (retentionWindowBlocks : UInt64) : ReplayEngine where
  bundles := .empty
  retentionWindowBlocks := retentionWindowBlocks

def capture (c : Crypto) (engine : ReplayEngine) (bundle : ReplayBundle) :
    Except ReplayError (Bytes 32) × ReplayEngine :=
  match bundle.verify c with
  | .error e => (.error e, engine)
  | .ok () =>
    (.ok (bundle.computeBundleHash c),
      { engine with bundles := engine.bundles.insert bundle.jobId bundle })

end ReplayEngine

namespace ReplayBundle

variable {c : Crypto} {bundle bundle' : ReplayBundle}

-- ---------------------------------------------------------------------------
-- What the hash binds
-- ---------------------------------------------------------------------------

/-- Two bundles agree on all but the signature. -/
structure Agree (bundle bundle' : ReplayBundle) : Prop where
  version : bundle.version = bundle'.version
  jobId : bundle.jobId = bundle'.jobId
  kernelId : bundle.kernelId = bundle'.kernelId
  kernelVersion : bundle.kernelVersion = bundle'.kernelVersion
  deterministicSeed : bundle.deterministicSeed = bundle'.deterministicSeed
  inputHash : bundle.inputHash = bundle'.inputHash
  inputBytes : bundle.inputBytes = bundle'.inputBytes
  initialStateHash : bundle.initialStateHash = bundle'.initialStateHash
  executionContext : bundle.executionContext = bundle'.executionContext
  expectedOutputHash : bundle.expectedOutputHash = bundle'.expectedOutputHash
  resourceCaps : bundle.resourceCaps = bundle'.resourceCaps
  captureTimestampMs : bundle.captureTimestampMs = bundle'.captureTimestampMs

/-- The other bundle has the state hash of this one in front of its context instead. -/
def Shifted (bundle bundle' : ReplayBundle) : Prop :=
  ∃ stateHash, bundle.initialStateHash = some stateHash ∧
    Agree bundle' { bundle with
      initialStateHash := none
      executionContext := stateHash.val ++ bundle.executionContext }

theorem verify_ok : bundle.verify c = .ok () ↔
    bundle.version ≠ 0 ∧ bundle.inputHash = hashBytes c bundle.inputBytes := by
  unfold verify
  split
  · rename_i hzero
    exact iff_of_false (fun h => nomatch h) fun h => h.1 hzero
  · rename_i hversion
    split
    · rename_i hne
      exact iff_of_false (fun h => nomatch h) fun h => hne h.2
    · rename_i heq
      exact iff_of_true rfl ⟨hversion, not_not.mp heq⟩

theorem length_front (bundle : ReplayBundle) :
    bundle.front.map List.length = [2, 32, 32, 2, 2, 2, 32, 32] := by
  simp [front, Bytes.length_val]

theorem length_back (bundle : ReplayBundle) :
    bundle.back.map List.length = [32, 8, 8, 8, 8, 8] := by
  simp [back, Bytes.length_val]

theorem preimage_eq_iff : bundle.preimage = bundle'.preimage ↔
    bundle.front = bundle'.front ∧ bundle.back = bundle'.back ∧
      bundle.inputBytes ++ (bundle.initialStateHash.elim [] Subtype.val ++
        bundle.executionContext) =
      bundle'.inputBytes ++ (bundle'.initialStateHash.elim [] Subtype.val ++
        bundle'.executionContext) := by
  have hfront : bundle.front.map List.length = bundle'.front.map List.length := by
    rw [length_front, length_front]
  have hback : bundle.back.flatten.length = bundle'.back.flatten.length := by
    rw [List.length_flatten, List.length_flatten, length_back, length_back]
  rw [preimage, preimage, ← List.append_assoc bundle.inputBytes,
    ← List.append_assoc bundle'.inputBytes]
  constructor
  · intro h
    obtain ⟨hf, hrest⟩ := Bytes.flatten_append_inj hfront h
    obtain ⟨hmiddle, hb⟩ := List.append_inj' hrest hback
    refine ⟨hf, List.eq_iff_flatten_eq.mpr ⟨hb, ?_⟩, hmiddle⟩
    rw [length_back, length_back]
  · rintro ⟨hf, hb, hmiddle⟩
    rw [hf, hb, hmiddle]

theorem front_inj : bundle.front = bundle'.front ↔
    bundle.version = bundle'.version ∧ bundle.jobId = bundle'.jobId ∧
      bundle.kernelId = bundle'.kernelId ∧ bundle.kernelVersion = bundle'.kernelVersion ∧
      bundle.deterministicSeed = bundle'.deterministicSeed ∧
      bundle.inputHash = bundle'.inputHash := by
  have hkernelVersion : bundle.kernelVersion = bundle'.kernelVersion ↔
      bundle.kernelVersion.major = bundle'.kernelVersion.major ∧
        bundle.kernelVersion.minor = bundle'.kernelVersion.minor ∧
        bundle.kernelVersion.patch = bundle'.kernelVersion.patch := by
    cases bundle.kernelVersion
    cases bundle'.kernelVersion
    simp only [KernelVersion.mk.injEq]
  simp only [front, List.cons.injEq, and_true, Subtype.val_inj, Bytes.ofU16_eq_iff,
    hkernelVersion, and_assoc]

theorem back_inj : bundle.back = bundle'.back ↔
    bundle.expectedOutputHash = bundle'.expectedOutputHash ∧
      bundle.resourceCaps = bundle'.resourceCaps ∧
      bundle.captureTimestampMs = bundle'.captureTimestampMs := by
  have hcaps : bundle.resourceCaps = bundle'.resourceCaps ↔
      bundle.resourceCaps.maxGpuCycles = bundle'.resourceCaps.maxGpuCycles ∧
        bundle.resourceCaps.maxCpuCycles = bundle'.resourceCaps.maxCpuCycles ∧
        bundle.resourceCaps.maxMemoryBytes = bundle'.resourceCaps.maxMemoryBytes ∧
        bundle.resourceCaps.maxExecutionTimeMs = bundle'.resourceCaps.maxExecutionTimeMs := by
    cases bundle.resourceCaps
    cases bundle'.resourceCaps
    simp only [ResourceLimits.mk.injEq]
  simp only [back, List.cons.injEq, and_true, Subtype.val_inj, Bytes.ofU64_eq_iff, hcaps, and_assoc]

theorem state_append_eq_iff {state state' : Option (Bytes 32)} {context context' : List UInt8} :
    state.elim [] Subtype.val ++ context = state'.elim [] Subtype.val ++ context' ↔
      (state = state' ∧ context = context') ∨
        (∃ stateHash, state = some stateHash ∧ state' = none ∧
          context' = stateHash.val ++ context) ∨
        ∃ stateHash, state' = some stateHash ∧ state = none ∧
          context = stateHash.val ++ context' := by
  constructor
  · intro h
    cases state with
    | none =>
      cases state' with
      | none => exact .inl ⟨rfl, h⟩
      | some stateHash => exact .inr (.inr ⟨stateHash, rfl, rfl, h⟩)
    | some stateHash =>
      cases state' with
      | none => exact .inr (.inl ⟨stateHash, rfl, rfl, h.symm⟩)
      | some stateHash' =>
        obtain ⟨rfl, rfl⟩ := Bytes.append_inj h
        exact .inl ⟨rfl, rfl⟩
  · rintro (⟨rfl, rfl⟩ | ⟨stateHash, rfl, rfl, rfl⟩ | ⟨stateHash, rfl, rfl, rfl⟩) <;> rfl

/-- Verified bundles hash the same bytes if they agree, or if one of them has its state
hash where the other has its context. -/
theorem preimage_eq_iff_agree {inputs : Set (List UInt8)} (hblake3 : Set.InjOn c.blake3 inputs)
    (hverify : bundle.verify c = .ok ()) (hverify' : bundle'.verify c = .ok ())
    (hinput : bundle.inputBytes ∈ inputs) (hinput' : bundle'.inputBytes ∈ inputs) :
    bundle.preimage = bundle'.preimage ↔
      Agree bundle bundle' ∨ Shifted bundle bundle' ∨ Shifted bundle' bundle := by
  have hhash := (verify_ok.mp hverify).2
  have hhash' := (verify_ok.mp hverify').2
  rw [preimage_eq_iff, front_inj, back_inj]
  constructor
  · rintro ⟨⟨hversion, hjob, hkernel, hkernelVersion, hseed, hinputHash⟩,
      ⟨houtput, hcaps, htimestamp⟩, hmiddle⟩
    have hbytes : bundle.inputBytes = bundle'.inputBytes :=
      hblake3 hinput hinput' (hhash.symm.trans (hinputHash.trans hhash'))
    rw [hbytes, List.append_cancel_left_eq, state_append_eq_iff] at hmiddle
    rcases hmiddle with ⟨hstate, hcontext⟩ | ⟨stateHash, hstate, hnone, hcontext⟩ |
      ⟨stateHash, hstate, hnone, hcontext⟩
    · exact .inl ⟨hversion, hjob, hkernel, hkernelVersion, hseed, hinputHash, hbytes, hstate,
        hcontext, houtput, hcaps, htimestamp⟩
    · exact .inr (.inl ⟨stateHash, hstate, hversion.symm, hjob.symm, hkernel.symm,
        hkernelVersion.symm, hseed.symm, hinputHash.symm, hbytes.symm, hnone, hcontext,
        houtput.symm, hcaps.symm, htimestamp.symm⟩)
    · exact .inr (.inr ⟨stateHash, hstate, hversion, hjob, hkernel, hkernelVersion, hseed,
        hinputHash, hbytes, hnone, hcontext, houtput, hcaps, htimestamp⟩)
  · rintro (h | ⟨stateHash, hstate, h⟩ | ⟨stateHash, hstate, h⟩)
    · refine ⟨⟨h.version, h.jobId, h.kernelId, h.kernelVersion, h.deterministicSeed, h.inputHash⟩,
        ⟨h.expectedOutputHash, h.resourceCaps, h.captureTimestampMs⟩, ?_⟩
      rw [h.inputBytes, h.initialStateHash, h.executionContext]
    · refine ⟨⟨h.version.symm, h.jobId.symm, h.kernelId.symm, h.kernelVersion.symm,
        h.deterministicSeed.symm, h.inputHash.symm⟩,
        ⟨h.expectedOutputHash.symm, h.resourceCaps.symm, h.captureTimestampMs.symm⟩, ?_⟩
      rw [h.inputBytes, h.initialStateHash, h.executionContext, hstate]
      rfl
    · refine ⟨⟨h.version, h.jobId, h.kernelId, h.kernelVersion, h.deterministicSeed, h.inputHash⟩,
        ⟨h.expectedOutputHash, h.resourceCaps, h.captureTimestampMs⟩, ?_⟩
      rw [h.inputBytes, h.initialStateHash, h.executionContext, hstate]
      rfl

theorem Shifted.not_agree (h : Shifted bundle bundle') : ¬ Agree bundle bundle' := by
  obtain ⟨stateHash, hstate, hother⟩ := h
  intro hagree
  have hnone := hstate.symm.trans (hagree.initialStateHash.trans hother.initialStateHash)
  cases hnone

theorem Agree.symm (h : Agree bundle bundle') : Agree bundle' bundle :=
  ⟨h.version.symm, h.jobId.symm, h.kernelId.symm, h.kernelVersion.symm, h.deterministicSeed.symm,
    h.inputHash.symm, h.inputBytes.symm, h.initialStateHash.symm, h.executionContext.symm,
    h.expectedOutputHash.symm, h.resourceCaps.symm, h.captureTimestampMs.symm⟩

/-- As long as `blake3` does not collide on the two and on their inputs, captured bundles
are told apart by their hashes just when neither has its state hash where the other has
its context. -/
theorem bundle_hash_binds_iff (c : Crypto) (inputs : Set (List UInt8))
    (hblake3 : Set.InjOn c.blake3 inputs) (bundle bundle' : ReplayBundle)
    (hverify : bundle.verify c = .ok ()) (hverify' : bundle'.verify c = .ok ())
    (hinputs : {bundle.preimage, bundle'.preimage, bundle.inputBytes, bundle'.inputBytes} ⊆ inputs) :
    (bundle.computeBundleHash c = bundle'.computeBundleHash c → Agree bundle bundle') ↔
      ¬ (Shifted bundle bundle' ∨ Shifted bundle' bundle) := by
  have hsame := preimage_eq_iff_agree hblake3 hverify hverify' (hinputs (by simp))
    (hinputs (by simp))
  rw [computeBundleHash, computeBundleHash, hblake3.eq_iff (hinputs (by simp)) (hinputs (by simp)),
    hsame]
  constructor
  · rintro h (hshifted | hshifted)
    · exact hshifted.not_agree (h (.inr (.inl hshifted)))
    · exact hshifted.not_agree (h (.inr (.inr hshifted))).symm
  · rintro h (hagree | hshifted)
    · exact hagree
    · exact absurd hshifted h

/-- Bundles of two jobs. -/
theorem bundle_hash_binds_iff_jobs :
    let c : Crypto :=
      { blake3 := fun bytes => .fill 32 (bytes.getD 2 0), ed25519Verify := fun _ _ _ => true }
    let bundle := ReplayBundle.new c (.fill 32 1) (.fill 32 2) ⟨1, 0, 0⟩ (.fill 32 3) [4, 4, 4]
      none [] .default 1000
    let bundle' := { bundle with jobId := .fill 32 5 }
    (bundle.computeBundleHash c = bundle'.computeBundleHash c → Agree bundle bundle') ↔
      ¬ (Shifted bundle bundle' ∨ Shifted bundle' bundle) := by
  intro c bundle bundle'
  refine bundle_hash_binds_iff c {bundle.preimage, bundle'.preimage, bundle.inputBytes} ?_
    bundle bundle' rfl rfl ?_
  · rintro a (rfl | rfl | rfl) b (rfl | rfl | rfl) heq
    case inl.inl => rfl
    case inr.inl.inr.inl => rfl
    case inr.inr.inr.inr => rfl
    all_goals exact absurd heq (by decide)
  · rintro a (rfl | rfl | rfl | rfl) <;> simp [bundle']

/-- A bundle with a state hash, and one with its bytes as the context. -/
theorem bundle_hash_binds_fails :
    ¬ ∃ c : Crypto, ∀ bundle bundle' : ReplayBundle, bundle.verify c = .ok () →
      bundle'.verify c = .ok () →
      bundle.computeBundleHash c = bundle'.computeBundleHash c → Agree bundle bundle' := by
  rintro ⟨c, h⟩
  let bundle := ReplayBundle.new c (.fill 32 1) (.fill 32 2) ⟨1, 0, 0⟩ (.fill 32 3) [4]
    (some (.fill 32 5)) [] .default 1000
  let bundle' := ReplayBundle.new c (.fill 32 1) (.fill 32 2) ⟨1, 0, 0⟩ (.fill 32 3) [4]
    none (List.replicate 32 5) .default 1000
  have hversion : (1 : UInt16) ≠ 0 := by decide
  have hagree := h bundle bundle' (verify_ok.mpr ⟨hversion, rfl⟩) (verify_ok.mpr ⟨hversion, rfl⟩) rfl
  cases hagree.initialStateHash

end ReplayBundle

end LiteVision.Observability
