import LiteVision.Intelligence.Receipts
import LiteVision.Lib.Map
import LiteVision.Lib.Trace
import Mathlib.Data.List.Induction

/-!
# Metering

The `MeteringEngine` of `receipts.rs`. A receipt is taken in once, whatever its signature and
attestation; each one counts as a job of its operator. No call brings in usage or fees, so
every fee is zero.
-/

namespace LiteVision.Intelligence

open Lib

structure OperatorMetering where
  totalJobs : UInt64
  successfulJobs : UInt64
  failedJobs : UInt64
  totalGpuCycles : UInt64
  totalCpuCycles : UInt64
  totalFeesEarned : UInt64
  deriving DecidableEq

def OperatorMetering.new : OperatorMetering where
  totalJobs := 0
  successfulJobs := 0
  failedJobs := 0
  totalGpuCycles := 0
  totalCpuCycles := 0
  totalFeesEarned := 0

/-- An operator with some jobs, modulo the size of the counter, and nothing else. -/
def OperatorMetering.ofJobs (jobs : Nat) : OperatorMetering :=
  { OperatorMetering.new with totalJobs := .ofNat jobs }

inductive MeteringError where
  | duplicateReceipt
  | receiptNotFound
  | invalidSignature
  | resourceExceeded
  deriving DecidableEq

structure MeteringEngine where
  receipts : Map (Bytes 32) Receipt
  resourceTotals : Map (Bytes 32) ResourceUsage
  operatorUsage : Map (Bytes 32) OperatorMetering

namespace MeteringEngine

def new : MeteringEngine where
  receipts := .empty
  resourceTotals := .empty
  operatorUsage := .empty

variable (c : Crypto)

/-- The count of jobs wraps around. -/
def submitReceipt (engine : MeteringEngine) (receipt : Receipt) :
    Except MeteringError (Bytes 32) × MeteringEngine :=
  let receiptHash := receipt.hash c
  if (engine.receipts.get receiptHash).isSome then (.error .duplicateReceipt, engine)
  else
    let operatorMetering := (engine.operatorUsage.get receipt.operatorId).getD .new
    (.ok receiptHash,
      { receipts := engine.receipts.insert receiptHash receipt
        resourceTotals := engine.resourceTotals.insert receiptHash .new
        operatorUsage := engine.operatorUsage.insert receipt.operatorId
          { operatorMetering with totalJobs := operatorMetering.totalJobs + 1 } })

def getReceipt (engine : MeteringEngine) (receiptHash : Bytes 32) : Option Receipt :=
  engine.receipts.get receiptHash

/-- The first receipt of the job in the order of the map. -/
def getReceiptForJob (it : Map.Iteration (Bytes 32) Receipt) (engine : MeteringEngine)
    (jobId : Bytes 32) : Option Receipt :=
  ((it.entries engine.receipts).map Prod.snd).find? fun receipt => receipt.jobId = jobId

def verifyReceipt (engine : MeteringEngine) (receipt : Receipt) (publicKey : List UInt8) :
    Except MeteringError Bool :=
  if (engine.receipts.get (receipt.hash c)).isSome then
    .ok (receipt.verifySignature c publicKey)
  else .error .receiptNotFound

def calculateFee (engine : MeteringEngine) (receipt : Receipt) (pricePerCycle : UInt64) : UInt64 :=
  let usage := (engine.resourceTotals.get (receipt.hash c)).getD .new
  let gpuFee := (usage.gpuCycles / 1000000) * pricePerCycle
  let cpuFee := (usage.cpuCycles / 1000000) * (pricePerCycle / 10)
  gpuFee + cpuFee

def getOperatorMetering (engine : MeteringEngine) (operatorId : Bytes 32) :
    Option OperatorMetering :=
  engine.operatorUsage.get operatorId

def run (submitted : List Receipt) : MeteringEngine :=
  Trace.exec (fun engine receipt => (submitReceipt c engine receipt).2) new submitted

-- ---------------------------------------------------------------------------
-- Which receipts are held
-- ---------------------------------------------------------------------------

variable {c} {submitted : List Receipt} {receipt : Receipt}

theorem run_concat (submitted : List Receipt) (receipt : Receipt) :
    run c (submitted ++ [receipt]) = (submitReceipt c (run c submitted) receipt).2 :=
  Trace.exec_concat receipt

/-- Of the receipts with one hash the first is held. -/
theorem getReceipt_run (c : Crypto) (submitted : List Receipt) (receiptHash : Bytes 32) :
    (run c submitted).getReceipt receiptHash =
      submitted.find? fun receipt => receipt.hash c = receiptHash := by
  induction submitted using List.reverseRecOn with
  | nil => rfl
  | append_singleton submitted receipt ih =>
    rw [run_concat, List.find?_append, ← ih]
    simp only [submitReceipt, getReceipt]
    cases hheld : (run c submitted).receipts.get (receipt.hash c) with
    | some held =>
      by_cases heq : receipt.hash c = receiptHash
      · subst heq
        simp [hheld]
      · simp [heq]
    | none =>
      by_cases heq : receipt.hash c = receiptHash
      · subst heq
        simp [hheld]
      · simp [heq, Map.get_insert_ne _ _ (Ne.symm heq)]

theorem getReceipt_run_isSome {receiptHash : Bytes 32} :
    ((run c submitted).getReceipt receiptHash).isSome ↔
      ∃ receipt ∈ submitted, receipt.hash c = receiptHash := by
  simp [getReceipt_run]

theorem getReceiptForJob_run_isSome (it : Map.Iteration (Bytes 32) Receipt) {jobId : Bytes 32}
    (hjob : ∀ receipt ∈ submitted, ∀ receipt' ∈ submitted, receipt.hash c = receipt'.hash c →
      receipt.jobId = receipt'.jobId) :
    ((run c submitted).getReceiptForJob it jobId).isSome ↔
      ∃ receipt ∈ submitted, receipt.jobId = jobId := by
  simp only [getReceiptForJob, List.find?_isSome, List.mem_map, decide_eq_true_iff]
  have hget (receiptHash : Bytes 32) := getReceipt_run c submitted receiptHash
  constructor
  · rintro ⟨receipt, ⟨entry, hentry, rfl⟩, rfl⟩
    have hheld := (it.mem _ _ _).mp hentry
    exact ⟨entry.2, List.mem_of_find?_eq_some ((hget entry.1).symm.trans hheld), rfl⟩
  · rintro ⟨receipt, hmem, rfl⟩
    obtain ⟨held, hheld⟩ := Option.isSome_iff_exists.mp
      (getReceipt_run_isSome.mpr ⟨receipt, hmem, rfl⟩)
    have hfind := (hget (receipt.hash c)).symm.trans hheld
    refine ⟨held, ⟨(receipt.hash c, held), (it.mem _ _ _).mpr hheld, rfl⟩, ?_⟩
    exact hjob held (List.mem_of_find?_eq_some hfind) receipt hmem
      (by simpa using List.find?_some hfind)

theorem resourceTotals_run {receiptHash : Bytes 32} {usage : ResourceUsage}
    (h : (run c submitted).resourceTotals.get receiptHash = some usage) : usage = .new := by
  induction submitted using List.reverseRecOn with
  | nil => cases h
  | append_singleton submitted receipt ih =>
    rw [run_concat, submitReceipt] at h
    split at h
    · exact ih h
    · rcases Map.of_get_insert h with ⟨-, hnew⟩ | ⟨-, hold⟩
      · exact hnew
      · exact ih hold

def jobsOf (engine : MeteringEngine) (operatorId : Bytes 32) : Nat :=
  engine.receipts.count fun receipt => receipt.operatorId = operatorId

theorem jobsOf_insert {engine : MeteringEngine} {operatorId receiptHash : Bytes 32}
    (hnew : engine.receipts.get receiptHash = none) :
    (engine.receipts.insert receiptHash receipt).count (fun held => held.operatorId = operatorId) =
      engine.jobsOf operatorId + if receipt.operatorId = operatorId then 1 else 0 := by
  have habsent :
      receiptHash ∉ engine.receipts.holders fun held => held.operatorId = operatorId := by
    rw [Map.mem_holders]
    simp [hnew]
  unfold jobsOf Map.count
  split
  · rename_i hoperator
    rw [Map.holders_insert_of_pos _ _ (by simpa using hoperator),
      Finset.card_insert_of_notMem habsent]
  · rename_i hoperator
    rw [Map.holders_insert_of_neg _ _ (by simpa using hoperator), Finset.erase_eq_of_notMem habsent]
    rfl

theorem jobsOf_submitReceipt (engine : MeteringEngine) (operatorId : Bytes 32) :
    (submitReceipt c engine receipt).2.jobsOf operatorId = engine.jobsOf operatorId +
      if (engine.getReceipt (receipt.hash c)).isSome then 0
      else if receipt.operatorId = operatorId then 1 else 0 := by
  rw [submitReceipt, getReceipt]
  split
  · rfl
  · rename_i hnew
    exact jobsOf_insert (by simpa using hnew)

theorem getOperatorMetering_run (c : Crypto) (submitted : List Receipt) (operatorId : Bytes 32) :
    (run c submitted).getOperatorMetering operatorId =
      if (run c submitted).jobsOf operatorId = 0 then none
      else some (.ofJobs ((run c submitted).jobsOf operatorId)) := by
  induction submitted using List.reverseRecOn with
  | nil => simp [run, new, getOperatorMetering, jobsOf]
  | append_singleton submitted receipt ih =>
    rw [run_concat, jobsOf_submitReceipt]
    rw [getOperatorMetering] at ih ⊢
    rw [submitReceipt, getReceipt]
    split
    · exact ih
    · dsimp only
      rw [Map.get_insert]
      split
      · rename_i hsame
        subst hsame
        rw [if_pos rfl, if_neg (Nat.succ_ne_zero _), ih]
        split
        · rename_i hnone
          rw [hnone]
          rfl
        · simp [OperatorMetering.ofJobs, UInt64.ofNat_add]
      · rename_i hother
        rw [if_neg (Ne.symm hother)]
        exact ih

theorem calculateFee_run (c : Crypto) (submitted : List Receipt) (receipt : Receipt)
    (pricePerCycle : UInt64) : (run c submitted).calculateFee c receipt pricePerCycle = 0 := by
  have husage : ((run c submitted).resourceTotals.get (receipt.hash c)).getD .new = .new := by
    cases htotal : (run c submitted).resourceTotals.get (receipt.hash c) with
    | none => rfl
    | some usage => exact resourceTotals_run htotal
  rw [calculateFee, husage]
  simp [ResourceUsage.new]

/-- As long as `blake3` does not collide on what is submitted or asked for: the engine holds the
first receipt of each body, and verifies any receipt of that body by its own signature; it finds
one for each job; of each operator it counts the receipts that it holds; and whatever was
submitted, every fee is zero. -/
theorem metering_run (c : Crypto) (inputs : Set (List UInt8)) (hblake3 : Set.InjOn c.blake3 inputs)
    (submitted : List Receipt) (hin : ∀ receipt ∈ submitted, receipt.updates.flatten ∈ inputs) :
    let engine := run c submitted
    (∀ receiptHash receipt, engine.getReceipt receiptHash = some receipt ↔
      receipt.hash c = receiptHash ∧ ∃ before after, submitted = before ++ receipt :: after ∧
        ∀ earlier ∈ before, ¬ earlier.SameBody receipt) ∧
    (∀ receipt : Receipt, receipt.updates.flatten ∈ inputs → ∀ publicKey valid,
      engine.verifyReceipt c receipt publicKey = .ok valid ↔
        (∃ held ∈ submitted, held.SameBody receipt) ∧
          receipt.verifySignature c publicKey = valid) ∧
    (∀ it jobId, (engine.getReceiptForJob it jobId).isSome ↔
      ∃ receipt ∈ submitted, receipt.jobId = jobId) ∧
    (∀ operatorId, engine.getOperatorMetering operatorId =
      if engine.jobsOf operatorId = 0 then none else some (.ofJobs (engine.jobsOf operatorId))) ∧
    ∀ receipt pricePerCycle, engine.calculateFee c receipt pricePerCycle = 0 := by
  intro engine
  have hhash {receipt receipt' : Receipt} (h : receipt.updates.flatten ∈ inputs)
      (h' : receipt'.updates.flatten ∈ inputs) :
      receipt.hash c = receipt'.hash c ↔ receipt.SameBody receipt' := by
    rw [Receipt.hash, Receipt.hash, hblake3.eq_iff h h', Receipt.flatten_updates_inj,
      Receipt.updates_inj]
  have hjob (receipt) (hmem : receipt ∈ submitted) (receipt') (hmem' : receipt' ∈ submitted)
      (heq : receipt.hash c = receipt'.hash c) : receipt.jobId = receipt'.jobId :=
    ((hhash (hin receipt hmem) (hin receipt' hmem')).mp heq).jobId
  refine ⟨fun receiptHash receipt => ?_, fun receipt hreceipt publicKey valid => ?_,
    fun it jobId => getReceiptForJob_run_isSome it hjob, getOperatorMetering_run c submitted,
    calculateFee_run c submitted⟩
  · rw [getReceipt_run, List.find?_eq_some_iff_append, decide_eq_true_iff]
    refine and_congr_right fun heq => exists_congr fun before => exists_congr fun after => ?_
    refine and_congr_right fun hsplit => forall₂_congr fun earlier hmem => ?_
    subst hsplit
    rw [← heq, Bool.not_eq_true', decide_eq_false_iff_not,
      hhash (hin earlier (by simp [hmem])) (hin receipt (by simp))]
  · have hheld : (engine.getReceipt (receipt.hash c)).isSome ↔
        ∃ held ∈ submitted, held.SameBody receipt := by
      rw [getReceipt_run_isSome]
      exact exists_congr fun held => and_congr_right fun hmem => hhash (hin held hmem) hreceipt
    rw [← hheld, verifyReceipt, getReceipt]
    split
    · rename_i hsome
      simp [hsome]
    · rename_i hnone
      simp [hnone]

/-- Two receipts that differ in their signatures only. -/
theorem metering_run_resigned :
    let c : Crypto := { blake3 := fun _ => .fill 32 0, ed25519Verify := fun _ _ _ => true }
    let receipt := Receipt.new c (.fill 32 1) (.fill 32 2) (.fill 32 3) (1, 0, 0) (.fill 32 4)
      (.fill 32 5) .new .deterministic 100 110
    let signed := { receipt with signature := List.replicate 64 7 }
    (run c [signed, receipt]).getReceipt (.fill 32 0) = some signed := by
  intro c receipt signed
  have hsame : signed.updates.flatten = receipt.updates.flatten := rfl
  have hrun := metering_run c {receipt.updates.flatten} (Set.injOn_singleton ..) [signed, receipt]
    (by simp [hsame])
  exact (hrun.1 (.fill 32 0) signed).mpr ⟨rfl, [], [receipt], rfl, by simp⟩

end MeteringEngine

end LiteVision.Intelligence
