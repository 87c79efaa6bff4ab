import LiteVision.Bytes
import LiteVision.Lib.Map

/-!
# Routing

The router of `routing.rs`: from a list of operator snapshots it keeps the eligible
ones, scores them by weights that depend on the quality of service, and takes the best
`k`, with a tie-break from a seed in deterministic mode.
-/

namespace LiteVision.Intelligence.Routing

open Lib

-- ---------------------------------------------------------------------------
-- Requests and decisions
-- ---------------------------------------------------------------------------

inductive QoSClass where
  | lowLatency
  | balanced
  | highAssurance
  | deterministicCritical
  deriving DecidableEq

inductive ExecutionMode where
  | deterministic
  | adaptive
  deriving DecidableEq

inductive ActivationPolicy where
  | parallel
  | sequential
  | majority
  | firstValid
  deriving DecidableEq

structure ScoringWeights where
  similarity : UInt32
  reputation : UInt32
  latency : UInt32
  price : UInt32
  load : UInt32
  deriving DecidableEq

namespace QoSClass

def defaultK : QoSClass → UInt32
  | .lowLatency => 1
  | .balanced => 2
  | .highAssurance => 3
  | .deterministicCritical => 3

def weights : QoSClass → ScoringWeights
  | .lowLatency =>
    { similarity := 10, reputation := 20, latency := 50, price := 10, load := 10 }
  | .balanced =>
    { similarity := 20, reputation := 25, latency := 20, price := 25, load := 10 }
  | .highAssurance =>
    { similarity := 20, reputation := 40, latency := 10, price := 20, load := 10 }
  | .deterministicCritical =>
    { similarity := 25, reputation := 35, latency := 10, price := 15, load := 15 }

theorem defaultK_pos (qosClass : QoSClass) : 0 < qosClass.defaultK := by
  cases qosClass <;> decide

end QoSClass

structure RouteConstraint where
  region : Option String
  minReputation : Option UInt64
  minStake : Option UInt64
  maxLoad : Option Float
  requiredCapabilities : Option (List (Bytes 32))
  deriving DecidableEq

structure JobTicket where
  redundancyPolicy : ActivationPolicy
  qosClass : QoSClass
  executionMode : ExecutionMode
  maxPricePerUnit : UInt64
  minReputation : UInt64
  deriving DecidableEq

structure RouteRequest where
  jobId : Bytes 32
  kernelId : Bytes 32
  inputSize : UInt64
  budget : UInt64
  deadline : UInt64
  constraints : List RouteConstraint
  redundancyFactor : UInt32
  qosClass : QoSClass
  executionMode : ExecutionMode
  blockHeightReference : UInt64
  jobTicket : JobTicket
  deriving DecidableEq

structure OperatorScore where
  operatorId : Bytes 32
  score : UInt64
  reputation : UInt64
  price : UInt64
  latencyMs : UInt32
  load : Float
  similarity : UInt32
  deriving DecidableEq

structure RouteDecision where
  jobId : Bytes 32
  selectedOperators : List OperatorScore
  k : Nat
  redundancyPolicy : ActivationPolicy
  seed : Option UInt64
  deriving DecidableEq

-- ---------------------------------------------------------------------------
-- Operators
-- ---------------------------------------------------------------------------

structure OperatorSnapshot where
  id : Bytes 32
  isActive : Bool
  supportsKernel : Bool
  stake : UInt64
  reputation : UInt64
  region : String
  budget : UInt64
  price : UInt64
  latency : UInt32
  maxConcurrent : UInt32
  vramGb : UInt32
  deriving DecidableEq

class OperatorInfo (T : Type) where
  id : T → Bytes 32
  isActive : T → Bool
  supportsKernel : T → Bytes 32 → Bool
  stake : T → UInt64
  reputation : T → UInt64
  region : T → String
  budget : T → UInt64
  price : T → UInt64
  latency : T → UInt32
  maxConcurrent : T → UInt32
  vramGb : T → UInt32

/-- The kernel that is asked for has the id of the operator. -/
def OperatorSnapshot.fromOperator {T : Type} [OperatorInfo T] (op : T) : OperatorSnapshot where
  id := OperatorInfo.id op
  isActive := OperatorInfo.isActive op
  supportsKernel := OperatorInfo.supportsKernel op (OperatorInfo.id op)
  stake := OperatorInfo.stake op
  reputation := OperatorInfo.reputation op
  region := OperatorInfo.region op
  budget := OperatorInfo.budget op
  price := OperatorInfo.price op
  latency := OperatorInfo.latency op
  maxConcurrent := OperatorInfo.maxConcurrent op
  vramGb := OperatorInfo.vramGb op

structure OperatorMetrics where
  operatorId : Bytes 32
  currentLoad : Float
  latencyMs : UInt32
  successRate : Float
  fraudCount : UInt32
  uptimeBlocks : UInt64
  lastUpdate : UInt64
  deriving DecidableEq

/-- The arithmetic on `u32` saturates. -/
def OperatorMetrics.reputationScore (metrics : OperatorMetrics) : UInt32 :=
  let base := (metrics.successRate * 1000.0).toUInt32
  let fraudPenalty := min metrics.fraudCount 10 * 50
  let uptimeBonus := min (metrics.uptimeBlocks / 10000).toUInt32 100
  .ofNat (min (base.toNat - fraudPenalty.toNat + uptimeBonus.toNat) (2 ^ 32 - 1))

-- ---------------------------------------------------------------------------
-- The router
-- ---------------------------------------------------------------------------

structure Thalamus where
  metrics : Map (Bytes 32) OperatorMetrics
  qosWeights : Map QoSClass ScoringWeights
  partitionPreference : Option String

namespace Thalamus

def new : Thalamus where
  metrics := .empty
  qosWeights := (((Map.empty.insert .lowLatency (QoSClass.weights .lowLatency)).insert
    .balanced (QoSClass.weights .balanced)).insert
    .highAssurance (QoSClass.weights .highAssurance)).insert
    .deterministicCritical (QoSClass.weights .deterministicCritical)
  partitionPreference := none

def withPartition (partition : String) : Thalamus :=
  { new with partitionPreference := some partition }

def updateMetrics (thalamus : Thalamus) (metrics : OperatorMetrics) : Thalamus :=
  { thalamus with metrics := thalamus.metrics.insert metrics.operatorId metrics }

def determineK (request : RouteRequest) : Nat :=
  if 0 < request.redundancyFactor then request.redundancyFactor.toNat
  else request.qosClass.defaultK.toNat

/-- Each field is checked against the first constraint that sets it. -/
def isEligible (thalamus : Thalamus) (operator : OperatorSnapshot) (request : RouteRequest) :
    Bool :=
  if !operator.isActive then false
  else if !operator.supportsKernel then false
  else if (request.constraints.findSome? (·.minStake)).any (operator.stake < ·) then false
  else if (request.constraints.findSome? (·.region)).any (operator.region != ·) then false
  else if (request.constraints.findSome? (·.maxLoad)).any fun maxLoad =>
      (thalamus.metrics.get operator.id).any fun metrics => metrics.currentLoad > maxLoad then false
  else if (request.constraints.findSome? (·.minReputation)).any (operator.reputation < ·) then false
  else if operator.budget < request.budget then false
  else if operator.maxConcurrent == 0 then false
  else true

def filterEligible (thalamus : Thalamus) (operators : List OperatorSnapshot)
    (request : RouteRequest) : List (Fin operators.length) :=
  (List.finRange operators.length).filter fun i => thalamus.isEligible (operators.get i) request

def filterFallback (thalamus : Thalamus) (operators : List OperatorSnapshot)
    (request : RouteRequest) (excluded : List (Bytes 32)) : List (Fin operators.length) :=
  (List.finRange operators.length).filter fun i =>
    !excluded.contains (operators.get i).id && thalamus.isEligible (operators.get i) request

def calculateReputationScore (operator : OperatorSnapshot) (metrics : Option OperatorMetrics) :
    UInt32 :=
  match metrics with
  | some metrics => metrics.reputationScore
  | none => (min (operator.reputation / 10) 1000).toUInt32

def calculateLatencyScore (operator : OperatorSnapshot) (metrics : Option OperatorMetrics) :
    UInt32 :=
  let latency := (metrics.map (·.latencyMs)).getD operator.latency
  if latency = 0 then 100 else min (1000 / latency) 100

def calculatePriceScore (operator : OperatorSnapshot) (request : RouteRequest) : UInt32 :=
  let price := operator.price
  if price = 0 then 100
  else
    let budget := request.budget
    if budget > price then (min ((budget - price) * 100 / budget) 100).toUInt32 else 0

def calculateLoadScore (metrics : Option OperatorMetrics) : UInt32 :=
  let load := (metrics.map (·.currentLoad)).getD 0.0
  ((1.0 - load) * 100.0).toUInt32

def calculateSimilarityScore (thalamus : Thalamus) (operator : OperatorSnapshot) : UInt32 :=
  (if operator.supportsKernel then 1 else 0) * 50 +
    (if operator.region = thalamus.partitionPreference.getD "" then 30 else 0) +
    min (operator.vramGb / 8 * 20) 20

def calculateScore (thalamus : Thalamus) (request : RouteRequest) (operator : OperatorSnapshot) :
    OperatorScore :=
  let weights := (thalamus.qosWeights.get request.qosClass).getD (QoSClass.weights .balanced)
  let metrics := thalamus.metrics.get operator.id
  let repScore := calculateReputationScore operator metrics
  let latScore := calculateLatencyScore operator metrics
  let priceScore := calculatePriceScore operator request
  let loadScore := calculateLoadScore metrics
  let simScore := thalamus.calculateSimilarityScore operator
  let total := (weights.similarity.toUInt64 * simScore.toUInt64 +
    weights.reputation.toUInt64 * repScore.toUInt64 +
    weights.latency.toUInt64 * latScore.toUInt64 +
    weights.price.toUInt64 * priceScore.toUInt64 +
    weights.load.toUInt64 * loadScore.toUInt64) / 100
  { operatorId := operator.id
    score := total
    reputation := repScore.toUInt64
    price := operator.price
    latencyMs := latScore
    load := (metrics.map (·.currentLoad)).getD 0.0
    similarity := simScore }

def calculateScores (thalamus : Thalamus) (operators : List OperatorSnapshot)
    (eligible : List (Fin operators.length)) (request : RouteRequest) : List OperatorScore :=
  eligible.map fun i => thalamus.calculateScore request (operators.get i)

-- ---------------------------------------------------------------------------
-- Selection
-- ---------------------------------------------------------------------------

def deterministicTiebreak (operatorId : Bytes 32) (seed : UInt64) : UInt64 :=
  operatorId.val.foldl (fun hasher b => hasher * 31 + b.toUInt64) seed % 1000

/-- A stable sort by falling score. -/
def adaptiveSelect (scores : List OperatorScore) (k : Nat) : List OperatorScore :=
  (scores.mergeSort fun a b => b.score ≤ a.score).take k

/-- The tie-break is added to the score, and wraps. -/
def deterministicSelect (scores : List OperatorScore) (k : Nat) (seed : UInt64) :
    List OperatorScore :=
  let sorted := scores.map fun s =>
    { s with score := s.score + deterministicTiebreak s.operatorId seed }
  (sorted.mergeSort fun a b => b.score ≤ a.score).take k

def generateSeed (request : RouteRequest) : UInt64 :=
  let seed := request.jobId.val.zipIdx.foldl
    (fun seed b => seed + b.1.toUInt64 * (31 : UInt64) ^ b.2) 0
  seed + request.blockHeightReference * 37

def route (thalamus : Thalamus) (operators : List OperatorSnapshot) (request : RouteRequest) :
    RouteDecision :=
  let k := determineK request
  let eligible := thalamus.filterEligible operators request
  if eligible.isEmpty || k == 0 then
    { jobId := request.jobId
      selectedOperators := []
      k := 0
      redundancyPolicy := request.jobTicket.redundancyPolicy
      seed := none }
  else
    let scores := thalamus.calculateScores operators eligible request
    let seed := match request.executionMode with
      | .deterministic => some (generateSeed request)
      | .adaptive => none
    let selected := match request.executionMode with
      | .deterministic => deterministicSelect scores k (generateSeed request)
      | .adaptive => adaptiveSelect scores k
    { jobId := request.jobId
      selectedOperators := selected
      k := k
      redundancyPolicy := request.jobTicket.redundancyPolicy
      seed := seed }

def fallbackRoute (thalamus : Thalamus) (operators : List OperatorSnapshot)
    (request : RouteRequest) (excluded : List (Bytes 32)) : RouteDecision :=
  let k := determineK request
  let eligible := thalamus.filterFallback operators request excluded
  if eligible.isEmpty || k == 0 then
    { jobId := request.jobId
      selectedOperators := []
      k := 0
      redundancyPolicy := request.jobTicket.redundancyPolicy
      seed := match request.executionMode with
        | .deterministic => some (generateSeed request)
        | .adaptive => none }
  else
    let scores := thalamus.calculateScores operators eligible request
    let selected := match request.executionMode with
      | .deterministic =>
        deterministicSelect scores k (request.blockHeightReference * .ofNat excluded.length)
      | .adaptive => adaptiveSelect scores k
    { jobId := request.jobId
      selectedOperators := selected
      k := k
      redundancyPolicy := request.jobTicket.redundancyPolicy
      seed := none }

end Thalamus

end LiteVision.Intelligence.Routing
