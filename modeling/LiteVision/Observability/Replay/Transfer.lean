import LiteVision.Bincode
import LiteVision.Lib.History
import LiteVision.Observability.Replay

/-!
# Moving and dropping bundles

An engine exports a bundle as bytes and imports one from bytes, as in `replay.rs`. It
drops bundles that were captured too long ago. What an engine holds after a run is the
last verified bundle of each job, unless it was dropped since. `bincode` comes from
outside, as a codec.
-/

namespace LiteVision.Observability

open Lib Bincode

structure ResourceUsage where
  gpuCyclesUsed : UInt64
  cpuCyclesUsed : UInt64
  memoryBytesUsed : UInt64
  deriving DecidableEq

structure ReplayResult where
  jobId : Bytes 32
  executionOutputHash : Bytes 32
  executionTimeMs : UInt64
  resourceUsage : ResourceUsage
  success : Bool
  errorMessage : Option String
  deriving DecidableEq

-- ---------------------------------------------------------------------------
-- The format
-- ---------------------------------------------------------------------------

def KernelVersion.codec : Codec UInt8 KernelVersion :=
  (u16.pair (u16.pair u16)).record
    { toFun := fun v => (v.major, v.minor, v.patch)
      invFun := fun p => ⟨p.1, p.2.1, p.2.2⟩
      left_inv := fun _ => rfl
      right_inv := fun _ => rfl }

def ResourceLimits.codec : Codec UInt8 ResourceLimits :=
  (u64.pair (u64.pair (u64.pair u64))).record
    { toFun := fun l => (l.maxGpuCycles, l.maxCpuCycles, l.maxMemoryBytes, l.maxExecutionTimeMs)
      invFun := fun p => ⟨p.1, p.2.1, p.2.2.1, p.2.2.2⟩
      left_inv := fun _ => rfl
      right_inv := fun _ => rfl }

namespace ReplayBundle

def codec : Codec UInt8 ReplayBundle :=
  (u16.pair ((bytes 32).pair ((bytes 32).pair (KernelVersion.codec.pair ((bytes 32).pair
    ((bytes 32).pair (blob.pair ((Bincode.option (bytes 32)).pair (blob.pair ((bytes 32).pair
      (ResourceLimits.codec.pair (u64.pair (Bincode.option blob))))))))))))).record
    { toFun := fun b =>
        (b.version, b.jobId, b.kernelId, b.kernelVersion, b.deterministicSeed, b.inputHash,
          b.inputBytes, b.initialStateHash, b.executionContext, b.expectedOutputHash,
          b.resourceCaps, b.captureTimestampMs, b.captureSignature)
      invFun := fun p =>
        ⟨p.1, p.2.1, p.2.2.1, p.2.2.2.1, p.2.2.2.2.1, p.2.2.2.2.2.1, p.2.2.2.2.2.2.1,
          p.2.2.2.2.2.2.2.1, p.2.2.2.2.2.2.2.2.1, p.2.2.2.2.2.2.2.2.2.1, p.2.2.2.2.2.2.2.2.2.2.1,
          p.2.2.2.2.2.2.2.2.2.2.2.1, p.2.2.2.2.2.2.2.2.2.2.2.2⟩
      left_inv := fun _ => rfl
      right_inv := fun _ => rfl }

end ReplayBundle

-- ---------------------------------------------------------------------------
-- Operations
-- ---------------------------------------------------------------------------

def ReplayBundle.toCanonicalBytes (bincode : Codec UInt8 ReplayBundle) (bundle : ReplayBundle) :
    List UInt8 := bincode.write bundle

namespace ReplayEngine

def getBundle (engine : ReplayEngine) (jobId : Bytes 32) : Option ReplayBundle :=
  engine.bundles.get jobId

def verifyReplay (engine : ReplayEngine) (jobId outputHash : Bytes 32)
    (resourceUsage : ResourceUsage) : Except ReplayError ReplayResult :=
  match engine.bundles.get jobId with
  | none => .error (.storageError "Bundle not found")
  | some bundle =>
    if outputHash ≠ bundle.expectedOutputHash then
      .ok
        { jobId
          executionOutputHash := outputHash
          executionTimeMs := 0
          resourceUsage
          success := false
          errorMessage := some "Output hash mismatch - fraud detected" }
    else if resourceUsage.gpuCyclesUsed > bundle.resourceCaps.maxGpuCycles then
      .error .resourceExceeded
    else if resourceUsage.cpuCyclesUsed > bundle.resourceCaps.maxCpuCycles then
      .error .resourceExceeded
    else if resourceUsage.memoryBytesUsed > bundle.resourceCaps.maxMemoryBytes then
      .error .resourceExceeded
    else
      .ok
        { jobId
          executionOutputHash := outputHash
          executionTimeMs := 0
          resourceUsage
          success := true
          errorMessage := none }

/-- The fifteen seconds of a block since the epoch in which the bundle was captured. -/
def bundleBlock (bundle : ReplayBundle) : UInt64 := bundle.captureTimestampMs / 15000

def pruneOldBundles (engine : ReplayEngine) (currentBlockHeight safeWindow : UInt64) :
    ReplayEngine :=
  let threshold := saturatingSub currentBlockHeight safeWindow
  { engine with bundles := engine.bundles.retain fun _ bundle => bundleBlock bundle > threshold }

def exportBundle (bincode : Codec UInt8 ReplayBundle) (engine : ReplayEngine)
    (jobId : Bytes 32) : Option (List UInt8) :=
  (engine.bundles.get jobId).map (ReplayBundle.toCanonicalBytes bincode)

/-- What `bincode` has to say about bytes it does not accept is left to `describe`. -/
def importBundle (c : Crypto) (bincode : Codec UInt8 ReplayBundle)
    (describe : List UInt8 → String) (engine : ReplayEngine) (data : List UInt8) :
    Except ReplayError (Bytes 32) × ReplayEngine :=
  match bincode.decode data with
  | none => (.error (.storageError (describe data)), engine)
  | some bundle =>
    match bundle.verify c with
    | .error e => (.error e, engine)
    | .ok () =>
      (.ok (bundle.computeBundleHash c),
        { engine with bundles := engine.bundles.insert bundle.jobId bundle })

end ReplayEngine

-- ---------------------------------------------------------------------------
-- Runs
-- ---------------------------------------------------------------------------

inductive ReplayOp where
  | capture (bundle : ReplayBundle)
  | importBundle (data : List UInt8)
  | pruneOldBundles (currentBlockHeight safeWindow : UInt64)

namespace ReplayOp

def offers (bincode : Codec UInt8 ReplayBundle) : ReplayOp → Option ReplayBundle
  | capture bundle => some bundle
  | importBundle data => bincode.decode data
  | pruneOldBundles _ _ => none

/-- A captured bundle is one that can be written. -/
def Fits (bincode : Codec UInt8 ReplayBundle) : ReplayOp → Prop
  | capture bundle => bincode.Fits bundle
  | importBundle _ | pruneOldBundles _ _ => True

/-- The call does not touch the entry of a bundle that is held. -/
def Leaves (c : Crypto) (bincode : Codec UInt8 ReplayBundle) (bundle : ReplayBundle)
    (op : ReplayOp) : Prop :=
  (∀ bundle', op.offers bincode = some bundle' → bundle'.verify c = .ok () →
    bundle'.jobId ≠ bundle.jobId) ∧
  ∀ height window, op = pruneOldBundles height window →
    height.toNat - window.toNat < bundle.captureTimestampMs.toNat / 15000

def effect (c : Crypto) (bincode : Codec UInt8 ReplayBundle) (op : ReplayOp) :
    History.Effect (Bytes 32) ReplayBundle :=
  match op with
  | pruneOldBundles height window =>
    .sweep fun _ bundle => ReplayEngine.bundleBlock bundle > saturatingSub height window
  | capture _ | importBundle _ =>
    match op.offers bincode with
    | none => .skip
    | some bundle => if bundle.verify c = .ok () then .put bundle.jobId bundle else .skip

end ReplayOp

namespace ReplayEngine

def step (c : Crypto) (bincode : Codec UInt8 ReplayBundle) (describe : List UInt8 → String)
    (engine : ReplayEngine) : ReplayOp → ReplayEngine
  | .capture bundle => (engine.capture c bundle).2
  | .importBundle data => (engine.importBundle c bincode describe data).2
  | .pruneOldBundles height window => engine.pruneOldBundles height window

def run (c : Crypto) (bincode : Codec UInt8 ReplayBundle) (describe : List UInt8 → String)
    (window : UInt64) (ops : List ReplayOp) : ReplayEngine :=
  Trace.exec (step c bincode describe) (new window) ops

variable {c : Crypto} {bincode : Codec UInt8 ReplayBundle} {describe : List UInt8 → String}

theorem step_bundles (engine : ReplayEngine) (op : ReplayOp) :
    (engine.step c bincode describe op).bundles = (op.effect c bincode).apply engine.bundles := by
  cases op with
  | capture bundle =>
    simp only [step, capture, ReplayOp.effect, ReplayOp.offers]
    split <;> rename_i hverify <;> simp [hverify, History.Effect.apply]
  | importBundle data =>
    simp only [step, importBundle, ReplayOp.effect, ReplayOp.offers]
    cases bincode.decode data with
    | none => rfl
    | some bundle =>
      cases hverify : bundle.verify c <;> simp [hverify, History.Effect.apply]
  | pruneOldBundles height window => rfl

theorem effect_eq_put {op : ReplayOp} {jobId : Bytes 32} {bundle : ReplayBundle} :
    op.effect c bincode = .put jobId bundle ↔
      op.offers bincode = some bundle ∧ bundle.verify c = .ok () ∧ bundle.jobId = jobId := by
  have hsome (bundle' : ReplayBundle) :
      (if bundle'.verify c = .ok () then History.Effect.put bundle'.jobId bundle' else .skip) =
        .put jobId bundle ↔
      some bundle' = some bundle ∧ bundle.verify c = .ok () ∧ bundle.jobId = jobId := by
    split <;> grind
  cases op with
  | capture bundle' => exact hsome bundle'
  | importBundle data =>
    simp only [ReplayOp.effect, ReplayOp.offers]
    cases bincode.decode data with
    | none => simp
    | some bundle' => exact hsome bundle'
  | pruneOldBundles height window => simp [ReplayOp.effect, ReplayOp.offers]

theorem bundleBlock_gt {bundle : ReplayBundle} {height window : UInt64} :
    bundleBlock bundle > saturatingSub height window ↔
      height.toNat - window.toNat < bundle.captureTimestampMs.toNat / 15000 := by
  rw [gt_iff_lt, UInt64.lt_iff_toNat_lt, toNat_saturatingSub, bundleBlock, UInt64.toNat_div]
  rfl

theorem spares_effect {op : ReplayOp} {bundle : ReplayBundle} :
    (op.effect c bincode).Spares bundle.jobId bundle ↔ op.Leaves c bincode bundle := by
  have hsome (bundle' : ReplayBundle) :
      (if bundle'.verify c = .ok () then History.Effect.put bundle'.jobId bundle'
        else .skip).Spares bundle.jobId bundle ↔
      (bundle'.verify c = .ok () → bundle'.jobId ≠ bundle.jobId) := by
    split <;> simp_all [History.Effect.Spares]
  cases op with
  | capture bundle' =>
    simp only [ReplayOp.effect, ReplayOp.offers, ReplayOp.Leaves]
    simpa using hsome bundle'
  | importBundle data =>
    simp only [ReplayOp.effect, ReplayOp.offers, ReplayOp.Leaves]
    cases bincode.decode data with
    | none => simp [History.Effect.Spares]
    | some bundle' => simpa using hsome bundle'
  | pruneOldBundles height window =>
    simp [ReplayOp.effect, ReplayOp.offers, ReplayOp.Leaves, History.Effect.Spares, bundleBlock_gt]

/-- In every run, an engine holds for a job the last verified bundle that was captured or
imported for it, unless that was pruned since. -/
theorem getBundle_run_iff (c : Crypto) (bincode : Codec UInt8 ReplayBundle)
    (describe : List UInt8 → String) (window : UInt64) (ops : List ReplayOp) (jobId : Bytes 32)
    (bundle : ReplayBundle) :
    (run c bincode describe window ops).getBundle jobId = some bundle ↔
      ∃ before op after, ops = before ++ op :: after ∧
        (op.offers bincode = some bundle ∧ bundle.verify c = .ok () ∧ bundle.jobId = jobId) ∧
        ∀ later ∈ after, later.Leaves c bincode bundle := by
  have hheld : (run c bincode describe window ops).getBundle jobId = some bundle ↔
      History.Stands (ReplayOp.effect c bincode) ops jobId bundle :=
    History.get_exec_iff bundles step_bundles rfl
  rw [hheld]
  refine exists_congr fun before => exists_congr fun op => exists_congr fun after => ?_
  refine and_congr_right fun _ => ?_
  rw [effect_eq_put]
  refine and_congr_right fun ⟨_, _, hjob⟩ => ?_
  subst hjob
  simp only [spares_effect]

theorem of_getBundle {window : UInt64} {ops : List ReplayOp} {jobId : Bytes 32}
    {bundle : ReplayBundle} (hfits : ∀ op ∈ ops, op.Fits bincode)
    (h : (run c bincode describe window ops).getBundle jobId = some bundle) :
    bincode.Fits bundle ∧ bundle.verify c = .ok () ∧ bundle.jobId = jobId := by
  obtain ⟨before, op, after, rfl, hput, -⟩ :=
    (History.get_exec_iff bundles step_bundles rfl).mp h
  obtain ⟨hoffers, hverify, hjob⟩ := effect_eq_put.mp hput
  refine ⟨?_, hverify, hjob⟩
  cases op with
  | capture bundle' =>
    cases hoffers
    exact hfits (.capture bundle) (by simp)
  | importBundle data =>
    exact (Codec.decode_eq_some_iff.mp hoffers).1
  | pruneOldBundles height window => cases hoffers

-- ---------------------------------------------------------------------------
-- From one engine to another
-- ---------------------------------------------------------------------------

theorem importBundle_of_decode {engine : ReplayEngine} {data : List UInt8} {bundle : ReplayBundle}
    (hdecode : bincode.decode data = some bundle) (hverify : bundle.verify c = .ok ()) :
    engine.importBundle c bincode describe data =
      (.ok (bundle.computeBundleHash c),
        { engine with bundles := engine.bundles.insert bundle.jobId bundle }) := by
  simp only [importBundle, hdecode, hverify]

/-- What is accepted starts with the canonical bytes of a verified bundle, and that bundle is
what is stored. Nothing else is accepted, and then nothing changes. -/
theorem importBundle_ok_iff (c : Crypto) (bincode : Codec UInt8 ReplayBundle)
    (describe : List UInt8 → String) (engine : ReplayEngine) (data : List UInt8)
    (hash : Bytes 32) :
    ((engine.importBundle c bincode describe data).1 = .ok hash ↔
      ∃ bundle, bincode.Fits bundle ∧ bundle.toCanonicalBytes bincode <+: data ∧
        bundle.verify c = .ok () ∧ bundle.computeBundleHash c = hash ∧
        (engine.importBundle c bincode describe data).2 =
          { engine with bundles := engine.bundles.insert bundle.jobId bundle }) ∧
    ((∀ hash, (engine.importBundle c bincode describe data).1 ≠ .ok hash) →
      (engine.importBundle c bincode describe data).2 = engine) := by
  cases hdecode : bincode.decode data with
  | none =>
    simp only [importBundle, hdecode, reduceCtorEq, false_iff, not_exists, implies_true, and_true]
    rintro bundle ⟨hfits, hfront, -⟩
    have hsome := Codec.decode_eq_some_iff.mpr ⟨hfits, hfront⟩
    rw [hdecode] at hsome
    cases hsome
  | some bundle =>
    obtain ⟨hfits, hfront⟩ := Codec.decode_eq_some_iff.mp hdecode
    cases hverify : bundle.verify c with
    | error e =>
      simp only [importBundle, hdecode, hverify, reduceCtorEq, false_iff, not_exists, implies_true,
        and_true]
      rintro bundle' ⟨hfits', hfront', hverify', -⟩
      have hsome := Codec.decode_eq_some_iff.mpr ⟨hfits', hfront'⟩
      rw [hdecode] at hsome
      cases hsome
      rw [hverify] at hverify'
      cases hverify'
    | ok _ =>
      rw [importBundle_of_decode hdecode hverify]
      constructor
      · simp only [Except.ok.injEq]
        constructor
        · rintro rfl
          exact ⟨bundle, hfits, hfront, hverify, rfl, rfl⟩
        · rintro ⟨bundle', hfits', hfront', -, rfl, -⟩
          have hsome := Codec.decode_eq_some_iff.mpr ⟨hfits', hfront'⟩
          rw [hdecode] at hsome
          cases hsome
          rfl
      · intro h
        exact absurd rfl (h _)

/-- What one engine exports after a run, any other takes in, whatever comes after the bytes. It
then holds the same bundle, exports the same bytes, and comes to the same verdict on every
replay of the job. -/
theorem import_export (c : Crypto) (bincode : Codec UInt8 ReplayBundle)
    (describe : List UInt8 → String) (window : UInt64) (ops : List ReplayOp)
    (hfits : ∀ op ∈ ops, op.Fits bincode) (jobId : Bytes 32) (data : List UInt8)
    (hexport : (run c bincode describe window ops).exportBundle bincode jobId = some data)
    (engine : ReplayEngine) (trailing : List UInt8) :
    let (result, engine') := engine.importBundle c bincode describe (data ++ trailing)
    (∃ bundle, (run c bincode describe window ops).getBundle jobId = some bundle ∧
      result = .ok (bundle.computeBundleHash c) ∧ engine'.getBundle jobId = some bundle) ∧
    engine'.exportBundle bincode jobId = some data ∧
    (∀ outputHash usage, engine'.verifyReplay jobId outputHash usage =
      (run c bincode describe window ops).verifyReplay jobId outputHash usage) ∧
    ∀ other, other ≠ jobId → engine'.getBundle other = engine.getBundle other := by
  obtain ⟨bundle, hget, rfl⟩ := Option.map_eq_some_iff.mp hexport
  obtain ⟨hbundle, hverify, rfl⟩ := of_getBundle hfits hget
  have hdecode : bincode.decode (bundle.toCanonicalBytes bincode ++ trailing) = some bundle :=
    Codec.decode_write hbundle trailing
  rw [importBundle_of_decode hdecode hverify]
  refine ⟨⟨bundle, hget, rfl, Map.get_insert_self ..⟩, ?_, ?_, ?_⟩
  · simp [exportBundle]
  · intro outputHash usage
    simp only [verifyReplay, Map.get_insert_self, hget]
  · intro other hother
    exact Map.get_insert_ne _ _ hother

/-- A bundle that was captured, sent with a byte too many. -/
theorem import_export_captured :
    let c : Crypto :=
      { blake3 := fun bytes => .fill 32 (bytes.getD 0 0), ed25519Verify := fun _ _ _ => true }
    let bundle := ReplayBundle.new c (.fill 32 1) (.fill 32 2) ⟨1, 0, 0⟩ (.fill 32 3) [4, 4]
      (some (.fill 32 5)) [6] .default 1000
    let bytes := bundle.toCanonicalBytes ReplayBundle.codec
    ((new 7).importBundle c ReplayBundle.codec (fun _ => "") (bytes ++ [9])).2.exportBundle
      ReplayBundle.codec (.fill 32 1) = some bytes := by
  intro c bundle bytes
  have hfits : ReplayBundle.codec.Fits bundle := by
    simp [ReplayBundle.codec, KernelVersion.codec, ResourceLimits.codec, bundle, ReplayBundle.new]
  have hverify : bundle.verify c = .ok () := by
    rw [ReplayBundle.verify_ok]
    exact ⟨by decide, rfl⟩
  have hexport : (run c ReplayBundle.codec (fun _ => "") 7 [.capture bundle]).exportBundle
      ReplayBundle.codec (.fill 32 1) = some bytes := by
    simp only [run, Trace.exec_cons, Trace.exec_nil, step, capture, hverify, exportBundle]
    exact congrArg (Option.map _) (Map.get_insert_self _ bundle.jobId bundle)
  exact (import_export c ReplayBundle.codec (fun _ => "") 7 [.capture bundle]
    (by simpa [ReplayOp.Fits] using hfits) (.fill 32 1) bytes hexport (new 7) [9]).2.1

end ReplayEngine

end LiteVision.Observability
