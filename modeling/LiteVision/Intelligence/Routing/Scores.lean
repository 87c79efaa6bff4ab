import LiteVision.Intelligence.Routing.Selection
import LiteVision.Words

/-!
# Scores without overflow

A better operator should not score less, and no product in a score should overflow. Two of
them can: that of the budget left by the price, and that of the memory. Where they fit, the
weights of the router keep the sum in a word, and every part of a score is monotone.
-/

namespace LiteVision.Intelligence.Routing

open Lib

variable {thalamus : Thalamus} {request : RouteRequest} {operator a b : OperatorSnapshot}

-- ---------------------------------------------------------------------------
-- Checked scores
-- ---------------------------------------------------------------------------

namespace Thalamus

/-- A router that its constructors and `update_metrics` made. -/
inductive Reachable : Thalamus → Prop
  | new : Reachable new
  | withPartition (partition : String) : Reachable (withPartition partition)
  | updateMetrics {thalamus : Thalamus} (metrics : OperatorMetrics) :
    Reachable thalamus → Reachable (thalamus.updateMetrics metrics)

def checkedPriceScore (operator : OperatorSnapshot) (request : RouteRequest) : Option UInt32 :=
  let price := operator.price
  if price = 0 then some 100
  else
    let budget := request.budget
    if budget > price then
      (checkedMul (budget - price) 100).map fun product => (min (product / budget) 100).toUInt32
    else some 0

def checkedSimilarityScore (thalamus : Thalamus) (operator : OperatorSnapshot) : Option UInt32 :=
  (checkedMulU32 (if operator.supportsKernel then 1 else 0) 50).bind fun kernel =>
    (checkedAddU32 kernel
      (if operator.region = thalamus.partitionPreference.getD "" then 30 else 0)).bind fun both =>
      (checkedMulU32 (operator.vramGb / 8) 20).bind fun vram => checkedAddU32 both (min vram 20)

def addWeighted (total : Option UInt64) (weight score : UInt32) : Option UInt64 :=
  total.bind fun total =>
    (checkedMul weight.toUInt64 score.toUInt64).bind fun product => checkedAdd total product

/-- The weighted sum of `calculate_scores` as in a debug build. -/
def checkedTotal (weights : ScoringWeights)
    (simScore repScore latScore priceScore loadScore : UInt32) : Option UInt64 :=
  let similarity := checkedMul weights.similarity.toUInt64 simScore.toUInt64
  let reputation := addWeighted similarity weights.reputation repScore
  let latency := addWeighted reputation weights.latency latScore
  let price := addWeighted latency weights.price priceScore
  (addWeighted price weights.load loadScore).map fun total => total / 100

/-- `calculate_scores` for one operator, as in a debug build. The other operations neither
overflow nor divide by zero: they saturate or stay far below. -/
def checkedScore (thalamus : Thalamus) (request : RouteRequest) (operator : OperatorSnapshot) :
    Option OperatorScore :=
  let weights := (thalamus.qosWeights.get request.qosClass).getD (QoSClass.weights .balanced)
  let metrics := thalamus.metrics.get operator.id
  let repScore := calculateReputationScore operator metrics
  let latScore := calculateLatencyScore operator metrics
  let loadScore := calculateLoadScore metrics
  (checkedPriceScore operator request).bind fun priceScore =>
    (thalamus.checkedSimilarityScore operator).bind fun simScore =>
      (checkedTotal weights simScore repScore latScore priceScore loadScore).map fun total =>
        { operatorId := operator.id
          score := total
          reputation := repScore.toUInt64
          price := operator.price
          latencyMs := latScore
          load := (metrics.map (·.currentLoad)).getD 0.0
          similarity := simScore }

end Thalamus

/-- The memory times 20, and a hundred times what the price leaves of the budget, fit. -/
structure Fits (request : RouteRequest) (operator : OperatorSnapshot) : Prop where
  vram : (operator.vramGb / 8).toNat * 20 < 2 ^ 32
  price : operator.price ≠ 0 → operator.price < request.budget →
    (request.budget - operator.price).toNat * 100 < 2 ^ 64

theorem checkedPriceScore_eq (hprice : operator.price ≠ 0 → operator.price < request.budget →
      (request.budget - operator.price).toNat * 100 < 2 ^ 64) :
    Thalamus.checkedPriceScore operator request =
      some (Thalamus.calculatePriceScore operator request) := by
  unfold Thalamus.checkedPriceScore Thalamus.calculatePriceScore
  dsimp only
  split
  · rfl
  · rename_i hne
    split
    · rename_i hlt
      rw [checkedMul_of_lt (hprice hne hlt)]
      rfl
    · rfl

theorem price_of_checkedPriceScore {score : UInt32}
    (h : Thalamus.checkedPriceScore operator request = some score) (hne : operator.price ≠ 0)
    (hlt : operator.price < request.budget) :
    (request.budget - operator.price).toNat * 100 < 2 ^ 64 := by
  unfold Thalamus.checkedPriceScore at h
  dsimp only at h
  rw [if_neg hne, if_pos hlt] at h
  obtain ⟨_, hproduct, -⟩ := Option.map_eq_some_iff.mp h
  exact lt_of_checkedMul hproduct

theorem toNat_similarity_lt (thalamus : Thalamus) (operator : OperatorSnapshot) :
    ((if operator.supportsKernel then 1 else 0) * 50 +
        if operator.region = thalamus.partitionPreference.getD "" then 30 else 0 : UInt32).toNat +
      (min (operator.vramGb / 8 * 20) 20).toNat < 2 ^ 32 := by
  have hmin : (min (operator.vramGb / 8 * 20) 20).toNat ≤ 20 := by
    rw [toNat_minU32]
    exact Nat.min_le_right _ _
  have hrest : ((if operator.supportsKernel then 1 else 0) * 50 +
      if operator.region = thalamus.partitionPreference.getD "" then 30 else 0 : UInt32).toNat ≤
        80 := by
    split <;> split <;> decide
  omega

theorem checkedSimilarityScore_eq (hvram : (operator.vramGb / 8).toNat * 20 < 2 ^ 32) :
    thalamus.checkedSimilarityScore operator =
      some (thalamus.calculateSimilarityScore operator) := by
  have hkernel : checkedMulU32 (if operator.supportsKernel then 1 else 0) 50 =
      some ((if operator.supportsKernel then 1 else 0) * 50) := by
    split <;> rfl
  have hboth : checkedAddU32 ((if operator.supportsKernel then 1 else 0) * 50)
      (if operator.region = thalamus.partitionPreference.getD "" then 30 else 0) =
      some ((if operator.supportsKernel then 1 else 0) * 50 +
        if operator.region = thalamus.partitionPreference.getD "" then 30 else 0) := by
    split <;> split <;> rfl
  have hproduct : checkedMulU32 (operator.vramGb / 8) 20 = some (operator.vramGb / 8 * 20) :=
    if_pos hvram
  rw [Thalamus.checkedSimilarityScore, hkernel, Option.bind_some, hboth, Option.bind_some,
    hproduct, Option.bind_some]
  exact if_pos (toNat_similarity_lt thalamus operator)

theorem vram_of_checkedSimilarityScore {score : UInt32}
    (h : thalamus.checkedSimilarityScore operator = some score) :
    (operator.vramGb / 8).toNat * 20 < 2 ^ 32 := by
  obtain ⟨_, -, h⟩ := Option.bind_eq_some_iff.mp h
  obtain ⟨_, -, h⟩ := Option.bind_eq_some_iff.mp h
  obtain ⟨_, hvram, -⟩ := Option.bind_eq_some_iff.mp h
  by_contra hover
  have hnone : checkedMulU32 (operator.vramGb / 8) 20 = none := if_neg hover
  cases hnone.symm.trans hvram

-- ---------------------------------------------------------------------------
-- The weighted sum
-- ---------------------------------------------------------------------------

/-- No weight is more than a hundred. -/
structure ScoringWeights.Small (weights : ScoringWeights) : Prop where
  similarity : weights.similarity.toNat ≤ 100
  reputation : weights.reputation.toNat ≤ 100
  latency : weights.latency.toNat ≤ 100
  price : weights.price.toNat ≤ 100
  load : weights.load.toNat ≤ 100

theorem QoSClass.small_weights (qosClass : QoSClass) : qosClass.weights.Small := by
  cases qosClass <;> constructor <;> decide

/-- A checked sum is the one that wraps, and its number is `n`. -/
def IsSum (sum : Option UInt64) (total : UInt64) (n : Nat) : Prop :=
  sum = some total ∧ total.toNat = n

theorem weighted_le {weight : UInt32} (hweight : weight.toNat ≤ 100) (score : UInt32) :
    weight.toNat * score.toNat ≤ 100 * 2 ^ 32 :=
  Nat.mul_le_mul hweight score.toNat_lt.le

theorem isSum_weighted {weight : UInt32} (hweight : weight.toNat ≤ 100) (score : UInt32) :
    IsSum (checkedMul weight.toUInt64 score.toUInt64) (weight.toUInt64 * score.toUInt64)
      (weight.toNat * score.toNat) := by
  have hbound := weighted_le hweight score
  have hfits : weight.toUInt64.toNat * score.toUInt64.toNat < 2 ^ 64 := by
    rw [UInt32.toNat_toUInt64, UInt32.toNat_toUInt64]
    omega
  refine ⟨checkedMul_of_lt hfits, ?_⟩
  rw [toNat_mul_of_lt hfits, UInt32.toNat_toUInt64, UInt32.toNat_toUInt64]

theorem IsSum.addWeighted {sum : Option UInt64} {total : UInt64} {n : Nat}
    (hsum : IsSum sum total n) {weight : UInt32} (hweight : weight.toNat ≤ 100) (score : UInt32)
    (hn : n ≤ 400 * 2 ^ 32) :
    IsSum (Thalamus.addWeighted sum weight score) (total + weight.toUInt64 * score.toUInt64)
      (n + weight.toNat * score.toNat) := by
  obtain ⟨rfl, rfl⟩ := hsum
  obtain ⟨hproduct, hword⟩ := isSum_weighted hweight score
  have hbound := weighted_le hweight score
  have hfits : total.toNat + (weight.toUInt64 * score.toUInt64).toNat < 2 ^ 64 := by omega
  constructor
  · rw [Thalamus.addWeighted, Option.bind_some, hproduct, Option.bind_some,
      checkedAdd_of_lt hfits]
  · rw [toNat_add_of_lt hfits, hword]

theorem isSum_checkedTotal {weights : ScoringWeights} (hweights : weights.Small)
    (simScore repScore latScore priceScore loadScore : UInt32) :
    IsSum (Thalamus.checkedTotal weights simScore repScore latScore priceScore loadScore)
      ((weights.similarity.toUInt64 * simScore.toUInt64 +
        weights.reputation.toUInt64 * repScore.toUInt64 +
        weights.latency.toUInt64 * latScore.toUInt64 +
        weights.price.toUInt64 * priceScore.toUInt64 +
        weights.load.toUInt64 * loadScore.toUInt64) / 100)
      ((weights.similarity.toNat * simScore.toNat + weights.reputation.toNat * repScore.toNat +
        weights.latency.toNat * latScore.toNat + weights.price.toNat * priceScore.toNat +
        weights.load.toNat * loadScore.toNat) / 100) := by
  have hsim := weighted_le hweights.similarity simScore
  have hrep := weighted_le hweights.reputation repScore
  have hlat := weighted_le hweights.latency latScore
  have hpri := weighted_le hweights.price priceScore
  have hfirst := isSum_weighted hweights.similarity simScore
  have hsecond := hfirst.addWeighted hweights.reputation repScore (by omega)
  have hthird := hsecond.addWeighted hweights.latency latScore (by omega)
  have hfourth := hthird.addWeighted hweights.price priceScore (by omega)
  obtain ⟨hsum, hnumber⟩ := hfourth.addWeighted hweights.load loadScore (by omega)
  constructor
  · rw [Thalamus.checkedTotal, hsum]
    rfl
  · rw [UInt64.toNat_div, hnumber]
    rfl

-- ---------------------------------------------------------------------------
-- One score
-- ---------------------------------------------------------------------------

theorem Thalamus.Reachable.qosWeights (h : thalamus.Reachable) :
    thalamus.qosWeights = Thalamus.new.qosWeights := by
  induction h with
  | new => rfl
  | withPartition partition => rfl
  | updateMetrics metrics _ ih => exact ih

theorem Thalamus.Reachable.small_weights (h : thalamus.Reachable) (qosClass : QoSClass) :
    ((thalamus.qosWeights.get qosClass).getD (QoSClass.weights .balanced)).Small := by
  have hget : thalamus.qosWeights.get qosClass = some qosClass.weights := by
    rw [h.qosWeights]
    cases qosClass <;> rfl
  rw [hget]
  exact qosClass.small_weights

theorem checkedScore_of_fits (hreachable : thalamus.Reachable) (hfits : Fits request operator) :
    thalamus.checkedScore request operator = some (thalamus.calculateScore request operator) := by
  have hsum := (isSum_checkedTotal (hreachable.small_weights request.qosClass)
    (thalamus.calculateSimilarityScore operator)
    (Thalamus.calculateReputationScore operator (thalamus.metrics.get operator.id))
    (Thalamus.calculateLatencyScore operator (thalamus.metrics.get operator.id))
    (Thalamus.calculatePriceScore operator request)
    (Thalamus.calculateLoadScore (thalamus.metrics.get operator.id))).1
  rw [Thalamus.checkedScore, checkedPriceScore_eq hfits.price, Option.bind_some,
    checkedSimilarityScore_eq hfits.vram, Option.bind_some, hsum]
  rfl

theorem fits_of_checkedScore {score : OperatorScore}
    (h : thalamus.checkedScore request operator = some score) : Fits request operator := by
  obtain ⟨_, hprice, h⟩ := Option.bind_eq_some_iff.mp h
  obtain ⟨_, hsim, -⟩ := Option.bind_eq_some_iff.mp h
  exact ⟨vram_of_checkedSimilarityScore hsim, price_of_checkedPriceScore hprice⟩

-- ---------------------------------------------------------------------------
-- Better operators
-- ---------------------------------------------------------------------------

theorem toNat_toUInt32_min {x : UInt64} {n : Nat} (hn : n ≤ 1000) :
    (min x (.ofNat n)).toUInt32.toNat = min x.toNat n := by
  have hword : (UInt64.ofNat n).toNat = n :=
    UInt64.toNat_ofNat_of_lt' (Nat.lt_of_le_of_lt hn (by decide))
  rw [UInt64.toNat_toUInt32, toNat_min, hword, Nat.mod_eq_of_lt]
  omega

theorem toNat_calculateReputationScore (operator : OperatorSnapshot) :
    (Thalamus.calculateReputationScore operator none).toNat =
      min (operator.reputation.toNat / 10) 1000 :=
  toNat_toUInt32_min (n := 1000) (by decide)

theorem toNat_calculateLatencyScore (operator : OperatorSnapshot) :
    (Thalamus.calculateLatencyScore operator none).toNat =
      if operator.latency.toNat = 0 then 100 else min (1000 / operator.latency.toNat) 100 := by
  change (if operator.latency = 0 then 100
    else min (1000 / operator.latency) 100 : UInt32).toNat = _
  by_cases hzero : operator.latency = 0
  · rw [if_pos hzero, hzero]
    rfl
  · have hne : operator.latency.toNat ≠ 0 := fun h => hzero (UInt32.toNat_inj.mp h)
    rw [if_neg hzero, if_neg hne, toNat_minU32, UInt32.toNat_div]
    rfl

theorem Fits.toNat_calculatePriceScore (hfits : Fits request operator) :
    (Thalamus.calculatePriceScore operator request).toNat =
      if operator.price.toNat = 0 then 100
      else if operator.price.toNat < request.budget.toNat then
        min ((request.budget.toNat - operator.price.toNat) * 100 / request.budget.toNat) 100
      else 0 := by
  unfold Thalamus.calculatePriceScore
  dsimp only
  by_cases hzero : operator.price = 0
  · rw [if_pos hzero, hzero]
    rfl
  · have hne : operator.price.toNat ≠ 0 := fun h => hzero (UInt64.toNat_inj.mp h)
    rw [if_neg hzero, if_neg hne]
    by_cases hlt : operator.price < request.budget
    · have hword := UInt64.lt_iff_toNat_lt.mp hlt
      have hsub : (request.budget - operator.price).toNat =
          request.budget.toNat - operator.price.toNat :=
        UInt64.toNat_sub_of_le _ _ (UInt64.le_of_lt hlt)
      have hproduct := hfits.price hzero hlt
      have hmul : ((request.budget - operator.price) * 100).toNat =
          (request.budget - operator.price).toNat * 100 := by
        rw [UInt64.toNat_mul]
        exact Nat.mod_eq_of_lt hproduct
      rw [if_pos hlt, if_pos hword, ← hsub, ← hmul, ← UInt64.toNat_div]
      exact toNat_toUInt32_min (n := 100) (by decide)
    · have hword : ¬ operator.price.toNat < request.budget.toNat :=
        mt UInt64.lt_iff_toNat_lt.mpr hlt
      rw [if_neg hlt, if_neg hword]
      rfl

theorem Fits.toNat_calculateSimilarityScore (hfits : Fits request operator) :
    (thalamus.calculateSimilarityScore operator).toNat =
      ((if operator.supportsKernel then 1 else 0) * 50 +
        if operator.region = thalamus.partitionPreference.getD "" then 30 else 0 : UInt32).toNat +
      min (operator.vramGb.toNat / 8 * 20) 20 := by
  have hdiv : (operator.vramGb / 8).toNat = operator.vramGb.toNat / 8 := UInt32.toNat_div ..
  have hmul : (operator.vramGb / 8 * 20).toNat = operator.vramGb.toNat / 8 * 20 := by
    rw [toNat_mulU32_of_lt hfits.vram, hdiv]
    rfl
  have hsum := toNat_addU32_of_lt (toNat_similarity_lt thalamus operator)
  rw [toNat_minU32, hmul] at hsum
  exact hsum

theorem reputationScore_mono (h : b.reputation ≤ a.reputation) :
    (Thalamus.calculateReputationScore b none).toNat ≤
      (Thalamus.calculateReputationScore a none).toNat := by
  have hdiv : b.reputation.toNat / 10 ≤ a.reputation.toNat / 10 :=
    Nat.div_le_div_right (UInt64.le_iff_toNat_le.mp h)
  rw [toNat_calculateReputationScore, toNat_calculateReputationScore]
  omega

theorem latencyScore_mono (h : a.latency ≤ b.latency) :
    (Thalamus.calculateLatencyScore b none).toNat ≤
      (Thalamus.calculateLatencyScore a none).toNat := by
  have hle := UInt32.le_iff_toNat_le.mp h
  rw [toNat_calculateLatencyScore, toNat_calculateLatencyScore]
  by_cases hzero : a.latency.toNat = 0
  · rw [if_pos hzero]
    split <;> omega
  · have hdiv : 1000 / b.latency.toNat ≤ 1000 / a.latency.toNat :=
      Nat.div_le_div_left hle (Nat.pos_of_ne_zero hzero)
    rw [if_neg hzero, if_neg (by omega)]
    omega

theorem priceScore_mono (ha : Fits request a) (hb : Fits request b) (h : a.price ≤ b.price) :
    (Thalamus.calculatePriceScore b request).toNat ≤
      (Thalamus.calculatePriceScore a request).toNat := by
  have hle := UInt64.le_iff_toNat_le.mp h
  rw [ha.toNat_calculatePriceScore, hb.toNat_calculatePriceScore]
  by_cases hzero : a.price.toNat = 0
  · rw [if_pos hzero]
    split
    · omega
    · split <;> omega
  · rw [if_neg hzero, if_neg (by omega)]
    by_cases hlt : b.price.toNat < request.budget.toNat
    · have hdiv : (request.budget.toNat - b.price.toNat) * 100 / request.budget.toNat ≤
          (request.budget.toNat - a.price.toNat) * 100 / request.budget.toNat :=
        Nat.div_le_div_right (Nat.mul_le_mul_right 100 (Nat.sub_le_sub_left hle _))
      rw [if_pos hlt, if_pos (by omega)]
      omega
    · rw [if_neg hlt]
      exact Nat.zero_le _

theorem similarityScore_mono (ha : Fits request a) (hb : Fits request b)
    (hkernel : a.supportsKernel = b.supportsKernel) (hregion : a.region = b.region)
    (h : b.vramGb ≤ a.vramGb) :
    (thalamus.calculateSimilarityScore b).toNat ≤ (thalamus.calculateSimilarityScore a).toNat := by
  have hdiv : b.vramGb.toNat / 8 ≤ a.vramGb.toNat / 8 :=
    Nat.div_le_div_right (UInt32.le_iff_toNat_le.mp h)
  rw [ha.toNat_calculateSimilarityScore, hb.toNat_calculateSimilarityScore, hkernel, hregion]
  omega

/-- An operator that is at least as good as another in every respect. -/
structure AtLeast (a b : OperatorSnapshot) : Prop where
  region : a.region = b.region
  reputation : b.reputation ≤ a.reputation
  latency : a.latency ≤ b.latency
  price : a.price ≤ b.price
  vramGb : b.vramGb ≤ a.vramGb

theorem toNat_score (hreachable : thalamus.Reachable)
    (hnone : thalamus.metrics.get operator.id = none) {weights : ScoringWeights}
    (hweights : (thalamus.qosWeights.get request.qosClass).getD (QoSClass.weights .balanced) =
      weights) :
    (thalamus.calculateScore request operator).score.toNat =
      (weights.similarity.toNat * (thalamus.calculateSimilarityScore operator).toNat +
        weights.reputation.toNat * (Thalamus.calculateReputationScore operator none).toNat +
        weights.latency.toNat * (Thalamus.calculateLatencyScore operator none).toNat +
        weights.price.toNat * (Thalamus.calculatePriceScore operator request).toNat +
        weights.load.toNat * (Thalamus.calculateLoadScore none).toNat) / 100 := by
  have hsmall : weights.Small := hweights ▸ hreachable.small_weights request.qosClass
  have hsum := (isSum_checkedTotal hsmall (thalamus.calculateSimilarityScore operator)
    (Thalamus.calculateReputationScore operator none)
    (Thalamus.calculateLatencyScore operator none)
    (Thalamus.calculatePriceScore operator request) (Thalamus.calculateLoadScore none)).2
  rw [Thalamus.calculateScore, hnone, hweights]
  exact hsum

theorem score_mono (hreachable : thalamus.Reachable) (ha : Fits request a) (hb : Fits request b)
    (hkernel : a.supportsKernel = b.supportsKernel) (hnoneA : thalamus.metrics.get a.id = none)
    (hnoneB : thalamus.metrics.get b.id = none) (h : AtLeast a b) :
    (thalamus.calculateScore request b).score ≤ (thalamus.calculateScore request a).score := by
  rw [UInt64.le_iff_toNat_le, toNat_score hreachable hnoneA rfl, toNat_score hreachable hnoneB rfl]
  have hsimilarity : (thalamus.calculateSimilarityScore b).toNat ≤
      (thalamus.calculateSimilarityScore a).toNat :=
    similarityScore_mono ha hb hkernel h.region h.vramGb
  have hreputation := reputationScore_mono h.reputation
  have hlatency := latencyScore_mono h.latency
  have hprice := priceScore_mono ha hb h.price
  apply Nat.div_le_div_right
  gcongr

/-- No operation in the score of an operator overflows just when its two products fit. Two
operators score without overflow, the better one at least as much as the other, just when
the products of both fit. -/
theorem scores_monotone_iff (thalamus : Thalamus) (request : RouteRequest)
    (hreachable : thalamus.Reachable) :
    (∀ operator : OperatorSnapshot,
      thalamus.checkedScore request operator ≠ none ↔ Fits request operator) ∧
    ∀ a b : OperatorSnapshot,
      thalamus.isEligible a request = true → thalamus.isEligible b request = true →
      thalamus.metrics.get a.id = none → thalamus.metrics.get b.id = none → AtLeast a b →
      ((∃ scoreA scoreB, thalamus.checkedScore request a = some scoreA ∧
          thalamus.checkedScore request b = some scoreB ∧
          thalamus.calculateScore request a = scoreA ∧
          thalamus.calculateScore request b = scoreB ∧ scoreB.score ≤ scoreA.score) ↔
        Fits request a ∧ Fits request b) := by
  refine ⟨fun operator => ⟨fun h => ?_, fun h => ?_⟩, ?_⟩
  · obtain ⟨score, hscore⟩ := Option.ne_none_iff_exists'.mp h
    exact fits_of_checkedScore hscore
  · rw [checkedScore_of_fits hreachable h]
    exact Option.some_ne_none _
  · intro a b heligibleA heligibleB hnoneA hnoneB hbetter
    have hkernel : a.supportsKernel = b.supportsKernel :=
      (isEligible_iff.mp heligibleA).supportsKernel.trans
        (isEligible_iff.mp heligibleB).supportsKernel.symm
    constructor
    · rintro ⟨scoreA, scoreB, hscoreA, hscoreB, -⟩
      exact ⟨fits_of_checkedScore hscoreA, fits_of_checkedScore hscoreB⟩
    · rintro ⟨ha, hb⟩
      exact ⟨_, _, checkedScore_of_fits hreachable ha, checkedScore_of_fits hreachable hb, rfl, rfl,
        score_mono hreachable ha hb hkernel hnoneA hnoneB hbetter⟩

def withVram (vramGb : UInt32) : OperatorSnapshot :=
  { plainOperator (.fill 32 1) with vramGb }

theorem isEligible_withVram (vramGb : UInt32) :
    Thalamus.new.isEligible (withVram vramGb) plainRequest = true :=
  isEligible_plainOperator (.fill 32 1)

theorem atLeast_withVram {vramGb vramGb' : UInt32} (h : vramGb' ≤ vramGb) :
    AtLeast (withVram vramGb) (withVram vramGb') :=
  ⟨rfl, UInt64.le_refl _, UInt32.le_refl _, UInt64.le_refl _, h⟩

theorem fits_withVram {vramGb : UInt32} (h : (vramGb / 8).toNat * 20 < 2 ^ 32) :
    Fits plainRequest (withVram vramGb) :=
  ⟨h, fun _ _ => (by decide : ((5000 : UInt64) - 500).toNat * 100 < 2 ^ 64)⟩

theorem scores_monotone_iff_vram :
    (Thalamus.new.calculateScore plainRequest (withVram 4)).score ≤
      (Thalamus.new.calculateScore plainRequest (withVram 16)).score := by
  obtain ⟨_, _, -, -, rfl, rfl, hle⟩ :=
    ((scores_monotone_iff Thalamus.new plainRequest .new).2 (withVram 16) (withVram 4)
      (isEligible_withVram 16) (isEligible_withVram 4) (Map.get_empty _) (Map.get_empty _)
      (atLeast_withVram (by decide))).mpr ⟨fits_withVram (by decide), fits_withVram (by decide)⟩
  exact hle

/-- The product of a memory of 1717986920 overflows. Where it wraps, to four, the operator
scores less than one with a memory of 16. -/
theorem scores_monotone_fails :
    (¬ ∀ (thalamus : Thalamus) (request : RouteRequest) (operator : OperatorSnapshot),
      thalamus.Reachable → thalamus.isEligible operator request = true →
      thalamus.metrics.get operator.id = none → thalamus.checkedScore request operator ≠ none) ∧
    ¬ ∀ (thalamus : Thalamus) (request : RouteRequest) (a b : OperatorSnapshot),
      thalamus.Reachable → thalamus.isEligible a request = true →
      thalamus.isEligible b request = true → thalamus.metrics.get a.id = none →
      thalamus.metrics.get b.id = none → AtLeast a b →
      (thalamus.calculateScore request b).score ≤ (thalamus.calculateScore request a).score := by
  constructor
  · intro h
    obtain ⟨score, hscore⟩ := Option.ne_none_iff_exists'.mp (h Thalamus.new plainRequest
      (withVram 1717986920) .new (isEligible_withVram _) (Map.get_empty _))
    exact absurd (fits_of_checkedScore hscore).vram (by decide)
  · intro h
    have hle := h Thalamus.new plainRequest (withVram 1717986920) (withVram 16) .new
      (isEligible_withVram _) (isEligible_withVram _) (Map.get_empty _) (Map.get_empty _)
      (atLeast_withVram (by decide))
    have hsmall : (Thalamus.new.calculateSimilarityScore (withVram 1717986920)).toNat = 54 := by
      decide
    have hgreat : (Thalamus.new.calculateSimilarityScore (withVram 16)).toNat = 70 := by decide
    have hweights : (Thalamus.new.qosWeights.get plainRequest.qosClass).getD
        (QoSClass.weights .balanced) = QoSClass.weights .balanced := rfl
    have hweight : (QoSClass.weights .balanced).similarity.toNat = 20 := by decide
    have hreputation : Thalamus.calculateReputationScore (withVram 1717986920) none =
      Thalamus.calculateReputationScore (withVram 16) none := rfl
    have hlatency : Thalamus.calculateLatencyScore (withVram 1717986920) none =
      Thalamus.calculateLatencyScore (withVram 16) none := rfl
    have hprice : Thalamus.calculatePriceScore (withVram 1717986920) plainRequest =
      Thalamus.calculatePriceScore (withVram 16) plainRequest := rfl
    -- only the similarities differ, by 16
    rw [UInt64.le_iff_toNat_le, toNat_score .new (Map.get_empty _) hweights,
      toNat_score .new (Map.get_empty _) hweights, hsmall, hgreat, hweight, hreputation, hlatency,
      hprice] at hle
    omega

end LiteVision.Intelligence.Routing
