import LiteVision.Bytes
import Mathlib.Data.Set.Function

/-!
# Running a kernel

The executor of `kernel.rs` with its native sandbox, which returns its input as the
output. The times it measures come from outside, as an `Elapsed`. They are hashed with
the output, so two runs agree on the hash just when they took the same time.
-/

namespace LiteVision.Intelligence

structure KernelParam where
  name : String
  paramType : String
  deriving DecidableEq

structure KernelSpec where
  id : Bytes 32
  version : UInt32
  name : String
  inputSchema : List KernelParam
  outputSchema : List KernelParam
  computeBound : UInt64
  memoryBound : UInt64
  deterministic : Bool
  resourceProfileHash : Bytes 32
  deriving DecidableEq

namespace KernelSpec

def computeId (c : Crypto) (name : String) (version : UInt32) (metadata : List UInt8) : Bytes 32 :=
  c.blake3 (name.toUTF8.toList ++ (Bytes.ofU32 version).val ++ metadata)

def new (c : Crypto) (name : String) (version : UInt32) (computeBound memoryBound : UInt64)
    (deterministic : Bool) : KernelSpec where
  id := computeId c name version []
  version := version
  name := name
  inputSchema := []
  outputSchema := []
  computeBound := computeBound
  memoryBound := memoryBound
  deterministic := deterministic
  resourceProfileHash := .fill 32 0

end KernelSpec

structure KernelOutput where
  jobId : Bytes 32
  outputHash : Bytes 32
  computeUsed : UInt64
  memoryUsed : UInt64
  output : List UInt8
  deterministic : Bool
  deriving DecidableEq

structure KernelExecutionContext where
  jobId : Bytes 32
  operatorId : Bytes 32
  blockHeight : UInt64
  deterministicSeed : Option (Bytes 32)
  budget : UInt64
  memoryLimit : UInt64
  startTime : UInt64
  deriving DecidableEq

namespace KernelExecutionContext

def new (jobId operatorId : Bytes 32) (blockHeight : UInt64) : KernelExecutionContext where
  jobId := jobId
  operatorId := operatorId
  blockHeight := blockHeight
  deterministicSeed := none
  budget := 0
  memoryLimit := 0
  startTime := 0

def withBudget (ctx : KernelExecutionContext) (budget : UInt64) : KernelExecutionContext :=
  { ctx with budget := budget }

def withDeterministicSeed (ctx : KernelExecutionContext) (seed : Bytes 32) :
    KernelExecutionContext :=
  { ctx with deterministicSeed := some seed }

def canExecute (ctx : KernelExecutionContext) (spec : KernelSpec) : Bool :=
  spec.computeBound ≤ ctx.budget && (ctx.memoryLimit == 0 || spec.memoryBound ≤ ctx.memoryLimit)

def withMemoryLimit (ctx : KernelExecutionContext) (limit : UInt64) : KernelExecutionContext :=
  { ctx with memoryLimit := limit }

end KernelExecutionContext

/-- What the two clocks of one execution show: the sandbox counts nanoseconds, the
executor around it milliseconds. -/
structure Elapsed where
  nanos : UInt64
  millis : UInt64
  deriving DecidableEq

structure NativeSandbox where
  code : Option (List UInt8)
  computeUsed : UInt64
  memoryUsed : UInt64
  deriving DecidableEq

namespace NativeSandbox

def new : NativeSandbox where
  code := none
  computeUsed := 0
  memoryUsed := 0

/-- The budget is not looked at. -/
def execute (sandbox : NativeSandbox) (input : List UInt8) (_budget : UInt64) (elapsed : Elapsed) :
    Except String (List UInt8) × NativeSandbox :=
  (.ok input,
    { sandbox with
      computeUsed := max elapsed.nanos 1
      memoryUsed := .ofNat input.length })

end NativeSandbox

structure KernelExecutor where
  sandbox : NativeSandbox
  context : Option KernelExecutionContext
  deriving DecidableEq

namespace KernelExecutor

def new : KernelExecutor where
  sandbox := .new
  context := none

def withContext (executor : KernelExecutor) (context : KernelExecutionContext) : KernelExecutor :=
  { executor with context := some context }

/-- The measured time is part of what is hashed. -/
def execute (c : Crypto) (executor : KernelExecutor) (spec : KernelSpec) (input : List UInt8)
    (elapsed : Elapsed) : Except String KernelOutput × KernelExecutor :=
  match executor.context with
  | none => (.error "No execution context", executor)
  | some ctx =>
    if ctx.budget < spec.computeBound then
      (.error "Insufficient budget for kernel execution", executor)
    else if 0 < ctx.memoryLimit ∧ ctx.memoryLimit < spec.memoryBound then
      (.error "Insufficient memory for kernel execution", executor)
    else
      let (result, sandbox) := executor.sandbox.execute input spec.computeBound elapsed
      let executor := { executor with sandbox := sandbox }
      match result with
      | .error e => (.error e, executor)
      | .ok output =>
        let outputHash := c.blake3 (output ++ (Bytes.ofU64 elapsed.millis).val ++
          (ctx.deterministicSeed.elim [] Subtype.val))
        (.ok {
          jobId := ctx.jobId
          outputHash := outputHash
          computeUsed := elapsed.millis
          memoryUsed := .ofNat output.length
          output := output
          deterministic := spec.deterministic }, executor)

def executeDeterministic (c : Crypto) (executor : KernelExecutor) (spec : KernelSpec)
    (input : List UInt8) (seed : Bytes 32) (elapsed : Elapsed) :
    Except String KernelOutput × KernelExecutor :=
  match executor.context with
  | none => (.error "No execution context", executor)
  | some ctx =>
    execute c { executor with context := some (ctx.withDeterministicSeed seed) } spec input elapsed

-- ---------------------------------------------------------------------------
-- Two runs
-- ---------------------------------------------------------------------------

def hashed (input : List UInt8) (seed : Bytes 32) (elapsed : Elapsed) : List UInt8 :=
  input ++ (Bytes.ofU64 elapsed.millis).val ++ seed.val

theorem hashed_inj (input : List UInt8) (seed : Bytes 32) {elapsed elapsed' : Elapsed} :
    hashed input seed elapsed = hashed input seed elapsed' ↔ elapsed.millis = elapsed'.millis := by
  constructor
  · intro h
    rw [hashed, hashed, List.append_cancel_right_eq, List.append_cancel_left_eq] at h
    exact Bytes.ofU64_inj (Subtype.ext h)
  · intro h
    rw [hashed, hashed, h]

theorem executeDeterministic_ok (c : Crypto) {executor : KernelExecutor} {spec : KernelSpec}
    {ctx : KernelExecutionContext} (hctx : executor.context = some ctx)
    (hpaid : ctx.canExecute spec = true) (input : List UInt8) (seed : Bytes 32)
    (elapsed : Elapsed) :
    (executor.executeDeterministic c spec input seed elapsed).1 = .ok {
      jobId := ctx.jobId
      outputHash := c.blake3 (hashed input seed elapsed)
      computeUsed := elapsed.millis
      memoryUsed := .ofNat input.length
      output := input
      deterministic := spec.deterministic } := by
  simp only [KernelExecutionContext.canExecute, Bool.and_eq_true, Bool.or_eq_true,
    decide_eq_true_eq, beq_iff_eq] at hpaid
  have hbudget : ¬ ctx.budget < spec.computeBound := UInt64.not_lt.mpr hpaid.1
  have hmemory : ¬ (0 < ctx.memoryLimit ∧ ctx.memoryLimit < spec.memoryBound) := by
    rintro ⟨hpos, hlt⟩
    rcases hpaid.2 with hzero | hle
    · rw [hzero] at hpos
      exact absurd hpos (by decide)
    · exact UInt64.not_lt.mpr hle hlt
  rw [executeDeterministic, hctx]
  dsimp only [execute, KernelExecutionContext.withDeterministicSeed]
  rw [if_neg hbudget, if_neg hmemory]
  rfl

/-- Two runs return the same hash and the same output. -/
def Agree (c : Crypto) (spec : KernelSpec) (input : List UInt8) (seed : Bytes 32)
    (executor executor' : KernelExecutor) (elapsed elapsed' : Elapsed) : Prop :=
  ∃ output output',
    (executor.executeDeterministic c spec input seed elapsed).1 = .ok output ∧
    (executor'.executeDeterministic c spec input seed elapsed').1 = .ok output' ∧
    output.outputHash = output'.outputHash ∧ output.output = output'.output

/-- As long as `blake3` has no collision among what is hashed, two runs agree just when they
took as many milliseconds. -/
theorem reproducible_iff (c : Crypto) (inputs : Set (List UInt8))
    (hblake3 : Set.InjOn c.blake3 inputs) (spec : KernelSpec) (ctx : KernelExecutionContext)
    (hpaid : ctx.canExecute spec = true) (input : List UInt8) (seed : Bytes 32)
    (executor executor' : KernelExecutor) (hctx : executor.context = some ctx)
    (hctx' : executor'.context = some ctx) (elapsed elapsed' : Elapsed)
    (hinputs : hashed input seed elapsed ∈ inputs) (hinputs' : hashed input seed elapsed' ∈ inputs) :
    Agree c spec input seed executor executor' elapsed elapsed' ↔
      elapsed.millis = elapsed'.millis := by
  have hrun := executeDeterministic_ok c hctx hpaid input seed elapsed
  have hrun' := executeDeterministic_ok c hctx' hpaid input seed elapsed'
  rw [← hashed_inj input seed, ← hblake3.eq_iff hinputs hinputs']
  constructor
  · rintro ⟨output, output', hok, hok', hhash, -⟩
    obtain rfl := Except.ok.inj (hrun.symm.trans hok)
    obtain rfl := Except.ok.inj (hrun'.symm.trans hok')
    exact hhash
  · intro hhash
    exact ⟨_, _, hrun, hrun', hhash, rfl⟩

theorem reproducible_iff_same_time :
    let c : Crypto :=
      { blake3 := fun bytes => .fill 32 (bytes.headD 0), ed25519Verify := fun _ _ _ => true }
    let ctx := ((KernelExecutionContext.new (.fill 32 1) (.fill 32 2) 100).withBudget
      2000).withMemoryLimit 2048
    let executor := KernelExecutor.new.withContext ctx
    Agree c (.new c "test" 1 1000 1024 true) [1, 2, 3] (.fill 32 7) executor executor
      ⟨1500000, 1⟩ ⟨1900000, 1⟩ := by
  intro c ctx executor
  exact (reproducible_iff c {hashed [1, 2, 3] (.fill 32 7) ⟨1500000, 1⟩} (Set.injOn_singleton _ _)
    (.new c "test" 1 1000 1024 true) ctx rfl [1, 2, 3] (.fill 32 7) executor executor rfl rfl
    ⟨1500000, 1⟩ ⟨1900000, 1⟩ rfl rfl).mpr rfl

/-- One millisecond, or two. -/
theorem reproducible_fails :
    ¬ ∀ (c : Crypto) (spec : KernelSpec), spec.deterministic = true →
      ∀ (ctx : KernelExecutionContext), ctx.canExecute spec = true →
      ∀ (input : List UInt8) (seed : Bytes 32) (executor executor' : KernelExecutor),
        executor.context = some ctx → executor'.context = some ctx →
        ∀ elapsed elapsed', Agree c spec input seed executor executor' elapsed elapsed' := by
  intro h
  let c : Crypto :=
    { blake3 := fun bytes => .fill 32 (bytes.headD 0), ed25519Verify := fun _ _ _ => true }
  let spec := KernelSpec.new c "test" 1 1000 1024 true
  let ctx := (KernelExecutionContext.new (.fill 32 1) (.fill 32 2) 100).withBudget 2000
  obtain ⟨output, output', hok, hok', hhash, -⟩ := h c spec rfl ctx rfl [] (.fill 32 7)
    (KernelExecutor.new.withContext ctx) (KernelExecutor.new.withContext ctx) rfl rfl ⟨1000000, 1⟩
    ⟨2000000, 2⟩
  have hrun := fun elapsed => executeDeterministic_ok c
    (show (KernelExecutor.new.withContext ctx).context = some ctx from rfl)
    (show ctx.canExecute spec = true from rfl) [] (.fill 32 7) elapsed
  obtain rfl := Except.ok.inj ((hrun ⟨1000000, 1⟩).symm.trans hok)
  obtain rfl := Except.ok.inj ((hrun ⟨2000000, 2⟩).symm.trans hok')
  exact absurd hhash (by decide)

end KernelExecutor

end LiteVision.Intelligence
