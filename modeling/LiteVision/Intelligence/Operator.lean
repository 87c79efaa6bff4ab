import LiteVision.Bytes
import LiteVision.Lib.Index
import LiteVision.Lib.Trace

/-!
# The operator registry

The registry of `operator.rs`: operators by id, and for each kernel a list of the ids that were
registered with it. To register again replaces the operator but adds to the lists, so a kernel
finds an operator once for each time it was registered with that kernel, and always as it is
now, whatever it supports now.
-/

namespace LiteVision.Intelligence

open Lib
open Lib.Map (Iteration)

structure OperatorCapabilities where
  gpuModels : List String
  vramGb : UInt32
  kernelsSupported : List (Bytes 32)
  maxConcurrentJobs : UInt32
  deriving DecidableEq

inductive OperatorStatus where
  | registered
  | active
  | suspended
  | deregistered
  deriving DecidableEq

structure Operator where
  id : Bytes 32
  pubkey : Bytes 32
  capabilities : OperatorCapabilities
  stake : UInt64
  reputation : UInt64
  status : OperatorStatus
  region : String
  deriving DecidableEq

namespace Operator

def new (id pubkey : Bytes 32) (capabilities : OperatorCapabilities) : Operator where
  id := id
  pubkey := pubkey
  capabilities := capabilities
  stake := 0
  reputation := 1000
  status := .registered
  region := "global"

def activate (operator : Operator) : Operator := { operator with status := .active }

def suspend (operator : Operator) : Operator := { operator with status := .suspended }

def updateReputation (operator : Operator) (delta : Int64) : Operator :=
  let newRep := min (max (operator.reputation.toInt64 + delta) 0) 10000
  { operator with reputation := newRep.toUInt64 }

end Operator

structure OperatorRegistry where
  operators : Map (Bytes 32) Operator
  capabilityIndex : Map (Bytes 32) (List (Bytes 32))

namespace OperatorRegistry

def new : OperatorRegistry := ⟨.empty, .empty⟩

def register (registry : OperatorRegistry) (operator : Operator) : OperatorRegistry where
  operators := registry.operators.insert operator.id operator
  capabilityIndex := operator.capabilities.kernelsSupported.foldl
    (fun index kernel => index.insert kernel (index.bucket kernel ++ [operator.id]))
    registry.capabilityIndex

def get (registry : OperatorRegistry) (id : Bytes 32) : Option Operator := registry.operators.get id

def getByCapability (registry : OperatorRegistry) (kernelId : Bytes 32) : List Operator :=
  (registry.capabilityIndex.bucket kernelId).filterMap registry.operators.get

def getActive (registry : OperatorRegistry) (it : Iteration (Bytes 32) Operator) : List Operator :=
  ((it.entries registry.operators).map Prod.snd).filter fun operator => operator.status = .active

inductive Call where
  | register (operator : Operator)
  | activate (id : Bytes 32)
  | suspend (id : Bytes 32)
  | updateReputation (id : Bytes 32) (delta : Int64)

def step (registry : OperatorRegistry) : Call → OperatorRegistry
  | .register operator => registry.register operator
  | .activate id => { registry with operators := registry.operators.modify id Operator.activate }
  | .suspend id => { registry with operators := registry.operators.modify id Operator.suspend }
  | .updateReputation id delta =>
    { registry with operators := registry.operators.modify id (·.updateReputation delta) }

def Call.registered : Call → Option Operator
  | .register operator => some operator
  | _ => none

def lastRegistered (run : List Call) (id : Bytes 32) : Option Operator :=
  (run.filterMap Call.registered).reverse.find? (·.id = id)

/-- What can have become of an operator since it was registered. -/
structure Since (operator registered : Operator) : Prop where
  same : { operator with reputation := registered.reputation, status := registered.status } =
    registered
  reputation : operator.reputation = registered.reputation ∨ operator.reputation ≤ 10000

-- ---------------------------------------------------------------------------
-- One call
-- ---------------------------------------------------------------------------

variable {registry : OperatorRegistry} {operator registered : Operator} {id : Bytes 32}

theorem Since.refl (operator : Operator) : Since operator operator := ⟨rfl, .inl rfl⟩

theorem Since.id_eq (h : Since operator registered) : operator.id = registered.id :=
  (congrArg Operator.id h.same : _)

theorem reputation_updateReputation (operator : Operator) (delta : Int64) :
    (operator.updateReputation delta).reputation ≤ 10000 := by
  have hclamp (x : Int64) : (min (max x 0) 10000).toUInt64 ≤ 10000 := by
    have hmin : min (max x 0) 10000 = if max x 0 ≤ 10000 then max x 0 else 10000 := rfl
    have hmax : max x 0 = if x ≤ 0 then 0 else x := rfl
    have hten : (10000 : Int64).toInt = 10000 := by decide
    have hzero : (0 : Int64).toInt = 0 := by decide
    have hbounds : 0 ≤ (min (max x 0) 10000).toInt ∧ (min (max x 0) 10000).toInt ≤ 10000 := by
      rw [hmin, hmax]
      by_cases hx : x ≤ 0
      · rw [if_pos hx]
        decide
      · rw [if_neg hx]
        rw [Int64.le_iff_toInt_le, hzero] at hx
        split
        · rename_i h
          rw [Int64.le_iff_toInt_le, hten] at h
          omega
        · omega
    generalize min (max x 0) 10000 = y at hbounds ⊢
    have hcond := BitVec.toInt_eq_toNat_cond y.toBitVec
    have hlt := y.toBitVec.isLt
    have hword : y.toUInt64.toNat = y.toBitVec.toNat := rfl
    have hint : y.toInt = y.toBitVec.toInt := rfl
    have hbound : (10000 : UInt64).toNat = 10000 := rfl
    rw [UInt64.le_iff_toNat_le, hword, hbound]
    split at hcond <;> omega
  exact hclamp _

theorem bucket_register (registry : OperatorRegistry) (operator : Operator) (kernelId : Bytes 32) :
    (registry.register operator).capabilityIndex.bucket kernelId =
      registry.capabilityIndex.bucket kernelId ++
        List.replicate (operator.capabilities.kernelsSupported.count kernelId) operator.id := by
  rw [register]
  generalize registry.capabilityIndex = index
  induction operator.capabilities.kernelsSupported generalizing index with
  | nil => simp
  | cons kernel kernels ih =>
    rw [List.foldl_cons, ih, Map.bucket_insert, List.count_cons]
    by_cases hkernel : kernelId = kernel
    · simp [hkernel, List.replicate_succ]
    · have hne : (kernel == kernelId) = false := beq_false_of_ne (Ne.symm hkernel)
      simp [hkernel, hne]

theorem since_modify {operators : Map (Bytes 32) Operator} {last : Bytes 32 → Option Operator}
    (h : ∀ id, Option.Rel Since (operators.get id) (last id)) (key : Bytes 32)
    {f : Operator → Operator} (hf : ∀ operator registered, Since operator registered →
      Since (f operator) registered) (id : Bytes 32) :
    Option.Rel Since ((operators.modify key f).get id) (last id) := by
  rw [Map.get_modify]
  split
  · rename_i hid
    subst hid
    have hbefore := h id
    generalize operators.get id = operator at hbefore ⊢
    generalize last id = registered at hbefore ⊢
    cases hbefore with
    | some hsince => exact .some (hf _ _ hsince)
    | none => exact .none
  · exact h id

-- ---------------------------------------------------------------------------
-- Runs
-- ---------------------------------------------------------------------------

theorem lastRegistered_concat (run : List Call) (call : Call) (id : Bytes 32) :
    lastRegistered (run ++ [call]) id =
      match call.registered with
      | some operator => if id = operator.id then some operator else lastRegistered run id
      | none => lastRegistered run id := by
  unfold lastRegistered
  rw [List.filterMap_append, List.reverse_append]
  cases hcall : call.registered with
  | none => simp [hcall]
  | some operator =>
    by_cases hid : id = operator.id
    · simp [hcall, hid]
    · have hne : decide (operator.id = id) = false := decide_eq_false (Ne.symm hid)
      simp [hcall, hid, hne]

theorem since_exec (run : List Call) (id : Bytes 32) :
    Option.Rel Since ((Trace.exec step new run).get id) (lastRegistered run id) := by
  induction run using List.reverseRecOn generalizing id with
  | nil =>
    rw [Trace.exec_nil, get, new, Map.get_empty]
    exact .none
  | append_singleton run call ih =>
    rw [Trace.exec_concat, lastRegistered_concat]
    cases call with
    | register operator =>
      rw [step, get, register, Map.get_insert]
      dsimp only [Call.registered]
      split
      · exact .some (.refl operator)
      · exact ih id
    | activate key =>
      exact since_modify (f := Operator.activate) ih key (fun _ _ h => ⟨h.same, h.reputation⟩) id
    | suspend key =>
      exact since_modify (f := Operator.suspend) ih key (fun _ _ h => ⟨h.same, h.reputation⟩) id
    | updateReputation key delta =>
      exact since_modify (f := (·.updateReputation delta)) ih key
        (fun operator _ h => ⟨h.same, .inr (reputation_updateReputation operator delta)⟩) id

theorem bucket_exec (run : List Call) (kernelId : Bytes 32) :
    (Trace.exec step new run).capabilityIndex.bucket kernelId =
      (run.filterMap Call.registered).flatMap fun operator =>
        List.replicate (operator.capabilities.kernelsSupported.count kernelId) operator.id := by
  induction run using List.reverseRecOn with
  | nil => exact Map.bucket_empty kernelId
  | append_singleton run call ih =>
    rw [Trace.exec_concat, List.filterMap_append, List.flatMap_append]
    cases call with
    | register operator => simp [step, bucket_register, ih, Call.registered]
    | activate key => simp [step, ih, Call.registered]
    | suspend key => simp [step, ih, Call.registered]
    | updateReputation key delta => simp [step, ih, Call.registered]

theorem isSome_get (run : List Call) (id : Bytes 32) :
    ((Trace.exec step new run).get id).isSome ↔
      ∃ operator ∈ run.filterMap Call.registered, operator.id = id := by
  have hsince := since_exec run id
  have hlast : (lastRegistered run id).isSome ↔
      ∃ operator ∈ run.filterMap Call.registered, operator.id = id := by
    simp [lastRegistered]
  rw [← hlast]
  generalize (Trace.exec step new run).get id = found at hsince ⊢
  generalize lastRegistered run id = last at hsince ⊢
  cases hsince <;> simp

/-- Over every run. An operator is as it was registered last, but for its status and, within the
bounds, its reputation. A kernel finds an operator once for each time it was registered with
the kernel, in the order of the registrations and always as it is now; the active operators
are those that are active now, each once. -/
theorem registry_run (it : Iteration (Bytes 32) Operator) (run : List Call) :
    let registry := Trace.exec step new run
    (∀ id, Option.Rel Since (registry.get id) (lastRegistered run id)) ∧
    (∀ kernelId, (registry.getByCapability kernelId).map Operator.id =
      (run.filterMap Call.registered).flatMap fun operator =>
        List.replicate (operator.capabilities.kernelsSupported.count kernelId) operator.id) ∧
    (∀ kernelId, ∀ operator ∈ registry.getByCapability kernelId,
      registry.get operator.id = some operator) ∧
    ((registry.getActive it).map Operator.id).Nodup ∧
    ∀ operator, operator ∈ registry.getActive it ↔
      registry.get operator.id = some operator ∧ operator.status = .active := by
  intro registry
  have hid (id : Bytes 32) (operator : Operator) (hget : registry.get id = some operator) :
      operator.id = id := by
    have hsince := since_exec run id
    rw [show (Trace.exec step new run).get id = some operator from hget] at hsince
    cases hlast : lastRegistered run id with
    | none =>
      rw [hlast] at hsince
      cases hsince
    | some registered =>
      rw [hlast] at hsince
      cases hsince with
      | some h => exact h.id_eq.trans (by simpa using List.find?_some hlast)
  refine ⟨since_exec run, fun kernelId => ?_, fun kernelId operator hmem => ?_, ?_,
    fun operator => ?_⟩
  · rw [← bucket_exec, getByCapability, List.map_filterMap]
    refine (List.filterMap_congr fun id hmem => ?_).trans List.filterMap_some
    have hsome : (registry.get id).isSome := by
      rw [bucket_exec] at hmem
      obtain ⟨operator, hoperator, hid⟩ := List.mem_flatMap.mp hmem
      exact (isSome_get run id).mpr ⟨operator, hoperator, (List.eq_of_mem_replicate hid).symm⟩
    obtain ⟨operator, hget⟩ := Option.isSome_iff_exists.mp hsome
    rw [show registry.operators.get id = some operator from hget, Option.map_some,
      hid id operator hget]
  · obtain ⟨id, -, hget⟩ := List.mem_filterMap.mp hmem
    rw [hid id operator hget]
    exact hget
  · have hids : ((it.entries registry.operators).map Prod.snd).map Operator.id =
        (it.entries registry.operators).map Prod.fst := by
      rw [List.map_map]
      exact List.map_congr_left fun e he => hid e.1 e.2 ((it.mem _ _ _).mp he)
    exact (List.filter_sublist.map Operator.id).nodup (hids ▸ it.nodup registry.operators)
  · simp only [getActive, List.mem_filter, List.mem_map, decide_eq_true_eq]
    refine and_congr_left fun _ => ⟨?_, fun hget => ?_⟩
    · rintro ⟨⟨id, found⟩, he, rfl⟩
      have hget := (it.mem _ _ _).mp he
      rw [hid id found hget]
      exact hget
    · exact ⟨(operator.id, operator), (it.mem _ _ _).mpr hget, rfl⟩

end OperatorRegistry

end LiteVision.Intelligence
