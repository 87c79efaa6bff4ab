import LiteVision.Intelligence.Routing.Selection

/-!
# Selected positions

Both entry points filter the positions of the list, score them, sort them by falling score
and keep the first `k`. So what they select are the operators at distinct positions, as
many as there are up to `k`, and without tie-break none that is left has a higher score.
None of this depends on how an operator is scored.
-/

namespace LiteVision.Intelligence.Routing

open Lib

variable {thalamus : Thalamus} {operators : List OperatorSnapshot} {request : RouteRequest}
  {scores : List OperatorScore} {mode : ExecutionMode} {k n : Nat} {seed : UInt64}

def OperatorScore.ranked (mode : ExecutionMode) (seed : UInt64) (s : OperatorScore) : UInt64 :=
  match mode with
  | .deterministic => s.tiebroken seed
  | .adaptive => s.score

/-- The positions of the first `k` scores in the order of a mode. -/
def firsts (score : Fin n → OperatorScore) (eligible : List (Fin n)) (mode : ExecutionMode)
    (k : Nat) (seed : UInt64) : List (Fin n) :=
  (eligible.mergeSort (ranks fun i => (score i).ranked mode seed)).take k

/-- The score with which a position is returned. -/
def returnedScore (score : Fin n → OperatorScore) (mode : ExecutionMode) (seed : UInt64)
    (i : Fin n) : OperatorScore :=
  { score i with score := (score i).ranked mode seed }

theorem select_eq (mode : ExecutionMode) (scores : List OperatorScore) (k : Nat) (seed : UInt64) :
    select mode scores k seed =
      ((scores.mergeSort (ranks (OperatorScore.ranked mode seed))).take k).map fun s =>
        { s with score := s.ranked mode seed } := by
  cases mode with
  | deterministic => exact deterministicSelect_eq scores k seed
  | adaptive => exact (List.map_id _).symm

theorem select_map (score : Fin n → OperatorScore) (eligible : List (Fin n)) (mode : ExecutionMode)
    (k : Nat) (seed : UInt64) :
    select mode (eligible.map score) k seed =
      (firsts score eligible mode k seed).map (returnedScore score mode seed) := by
  rw [select_eq, ← List.map_mergeSort (r := ranks fun i => (score i).ranked mode seed),
    ← List.map_take, List.map_map]
  · rfl
  · exact fun _ _ _ _ => rfl

-- ---------------------------------------------------------------------------
-- The first positions
-- ---------------------------------------------------------------------------

section Firsts

variable {score : Fin n → OperatorScore} {eligible : List (Fin n)} {i j : Fin n}

theorem mem_of_mem_firsts (h : i ∈ firsts score eligible mode k seed) : i ∈ eligible :=
  List.mem_mergeSort.mp (List.mem_of_mem_take h)

theorem nodup_firsts (h : eligible.Nodup) : (firsts score eligible mode k seed).Nodup :=
  (List.take_sublist _ _).nodup ((List.mergeSort_perm _ _).nodup_iff.mpr h)

theorem length_firsts :
    (firsts score eligible mode k seed).length = min k eligible.length := by
  rw [firsts, List.length_take, List.length_mergeSort]

theorem pairwise_firsts : (firsts score eligible mode k seed).Pairwise fun i j =>
    (score j).ranked mode seed ≤ (score i).ranked mode seed := by
  have hsorted := List.pairwise_mergeSort (ranks_trans fun i => (score i).ranked mode seed)
    (ranks_total _) eligible
  exact (hsorted.sublist (List.take_sublist _ _)).imp fun h => of_decide_eq_true h

theorem ranked_le_of_mem_firsts (hj : j ∈ firsts score eligible mode k seed) (hi : i ∈ eligible)
    (hleft : i ∉ firsts score eligible mode k seed) :
    (score i).ranked mode seed ≤ (score j).ranked mode seed := by
  have hsorted := List.pairwise_mergeSort (ranks_trans fun i => (score i).ranked mode seed)
    (ranks_total _) eligible
  have hmem : i ∈ eligible.mergeSort (ranks fun i => (score i).ranked mode seed) :=
    List.mem_mergeSort.mpr hi
  rw [← List.take_append_drop k (eligible.mergeSort _)] at hsorted hmem
  have hdrop := (List.mem_append.mp hmem).resolve_left hleft
  exact of_decide_eq_true ((List.pairwise_append.mp hsorted).2.2 j hj i hdrop)

/-- A position comes before another if it is sorted by more, or by as much and is in
front of it. -/
def Precedes (score : Fin n → OperatorScore) (mode : ExecutionMode) (seed : UInt64)
    (i j : Fin n) : Prop :=
  (score j).ranked mode seed < (score i).ranked mode seed ∨
    ((score j).ranked mode seed = (score i).ranked mode seed ∧ i < j)

instance : DecidableRel (Precedes score mode seed) :=
  fun _ _ => inferInstanceAs (Decidable (_ ∨ _))

theorem Precedes.asymm (i j : Fin n) (h : Precedes score mode seed i j) :
    ¬ Precedes score mode seed j i := by
  rintro (hlt' | ⟨heq', hplace'⟩)
  · rcases h with hlt | ⟨heq, -⟩
    · exact UInt64.lt_asymm hlt hlt'
    · exact UInt64.ne_of_lt hlt' heq.symm
  · rcases h with hlt | ⟨-, hplace⟩
    · exact UInt64.ne_of_lt hlt heq'.symm
    · exact Nat.lt_asymm hplace hplace'

/-- The first `k` are the ones that fewer than `k` come before. -/
theorem mem_firsts_iff (heligible : eligible.Pairwise (· < ·)) :
    i ∈ firsts score eligible mode k seed ↔
      i ∈ eligible ∧ eligible.countP (fun j => Precedes score mode seed j i) < k := by
  have hsorted : (eligible.mergeSort (ranks fun i => (score i).ranked mode seed)).Pairwise
      (Precedes score mode seed) := by
    refine (Ranking.pairwise_mergeSort_stable (ranks_trans _) (ranks_total _) heligible).imp ?_
    rintro a b ⟨hle, hplace⟩
    by_cases hlt : (score b).ranked mode seed < (score a).ranked mode seed
    · exact .inl hlt
    · have hge := UInt64.not_lt.mp hlt
      exact .inr ⟨UInt64.le_antisymm (of_decide_eq_true hle) hge, hplace (decide_eq_true hge)⟩
  have hperm := List.mergeSort_perm eligible (ranks fun i => (score i).ranked mode seed)
  rw [firsts, Ranking.mem_take_iff Precedes.asymm hsorted, hperm.mem_iff, hperm.countP_eq]

end Firsts

-- ---------------------------------------------------------------------------
-- The filters
-- ---------------------------------------------------------------------------

theorem pairwise_filter_finRange (p : Fin n → Bool) :
    ((List.finRange n).filter p).Pairwise (· < ·) :=
  (List.pairwise_lt_finRange n).sublist List.filter_sublist

theorem length_filter_finRange (operators : List OperatorSnapshot) (p : OperatorSnapshot → Bool) :
    ((List.finRange operators.length).filter fun i => p (operators.get i)).length =
      operators.countP p := by
  have hall : (List.finRange operators.length).map operators.get = operators :=
    List.map_get_finRange operators
  conv_rhs => rw [← hall, List.countP_map]
  exact (List.countP_eq_length_filter ..).symm

def Thalamus.routePositions (thalamus : Thalamus) (operators : List OperatorSnapshot)
    (request : RouteRequest) : List (Fin operators.length) :=
  firsts (fun i => thalamus.calculateScore request (operators.get i))
    (thalamus.filterEligible operators request) request.executionMode
    (Thalamus.determineK request) (Thalamus.generateSeed request)

def Thalamus.fallbackPositions (thalamus : Thalamus) (operators : List OperatorSnapshot)
    (request : RouteRequest) (excluded : List (Bytes 32)) : List (Fin operators.length) :=
  firsts (fun i => thalamus.calculateScore request (operators.get i))
    (thalamus.filterFallback operators request excluded) request.executionMode
    (Thalamus.determineK request) (request.blockHeightReference * .ofNat excluded.length)

theorem route_eq_map (thalamus : Thalamus) (operators : List OperatorSnapshot)
    (request : RouteRequest) :
    (thalamus.route operators request).selectedOperators =
      (thalamus.routePositions operators request).map
        (returnedScore (fun i => thalamus.calculateScore request (operators.get i))
          request.executionMode (Thalamus.generateSeed request)) := by
  rw [selected_route, Thalamus.calculateScores, select_map]
  rfl

theorem fallbackRoute_eq_map (thalamus : Thalamus) (operators : List OperatorSnapshot)
    (request : RouteRequest) (excluded : List (Bytes 32)) :
    (thalamus.fallbackRoute operators request excluded).selectedOperators =
      (thalamus.fallbackPositions operators request excluded).map
        (returnedScore (fun i => thalamus.calculateScore request (operators.get i))
          request.executionMode (request.blockHeightReference * .ofNat excluded.length)) := by
  rw [selected_fallbackRoute, Thalamus.calculateScores, select_map]
  rfl

-- ---------------------------------------------------------------------------
-- Any score
-- ---------------------------------------------------------------------------

/-- The total of an operator, for any score of its load. -/
def Thalamus.totalWith (thalamus : Thalamus) (request : RouteRequest) (operator : OperatorSnapshot)
    (loadScore : UInt32) : UInt64 :=
  let weights := (thalamus.qosWeights.get request.qosClass).getD (QoSClass.weights .balanced)
  let metrics := thalamus.metrics.get operator.id
  (weights.similarity.toUInt64 * (thalamus.calculateSimilarityScore operator).toUInt64 +
    weights.reputation.toUInt64 * (Thalamus.calculateReputationScore operator metrics).toUInt64 +
    weights.latency.toUInt64 * (Thalamus.calculateLatencyScore operator metrics).toUInt64 +
    weights.price.toUInt64 * (Thalamus.calculatePriceScore operator request).toUInt64 +
    weights.load.toUInt64 * loadScore.toUInt64) / 100

def Thalamus.total (thalamus : Thalamus) (request : RouteRequest) (operator : OperatorSnapshot) :
    UInt64 :=
  thalamus.totalWith request operator
    (Thalamus.calculateLoadScore (thalamus.metrics.get operator.id))

/-- `calculate_scores` for one operator, with any total. -/
def Thalamus.calculateScoreWith (thalamus : Thalamus) (total : OperatorSnapshot → UInt64)
    (request : RouteRequest) (operator : OperatorSnapshot) : OperatorScore :=
  { thalamus.calculateScore request operator with score := total operator }

theorem calculateScoreWith_total (thalamus : Thalamus) (request : RouteRequest) :
    thalamus.calculateScoreWith (thalamus.total request) request =
      thalamus.calculateScore request :=
  rfl

def Thalamus.routeWith (thalamus : Thalamus) (total : OperatorSnapshot → UInt64)
    (operators : List OperatorSnapshot) (request : RouteRequest) : List OperatorScore :=
  select request.executionMode
    ((thalamus.filterEligible operators request).map fun i =>
      thalamus.calculateScoreWith total request (operators.get i))
    (Thalamus.determineK request) (Thalamus.generateSeed request)

def Thalamus.fallbackWith (thalamus : Thalamus) (total : OperatorSnapshot → UInt64)
    (operators : List OperatorSnapshot) (request : RouteRequest) (excluded : List (Bytes 32)) :
    List OperatorScore :=
  select request.executionMode
    ((thalamus.filterFallback operators request excluded).map fun i =>
      thalamus.calculateScoreWith total request (operators.get i))
    (Thalamus.determineK request) (request.blockHeightReference * .ofNat excluded.length)

/-- The scores are those of distinct positions that pass, `k` of them or all there are;
without tie-break they fall, and no position that is left has a higher one. -/
def Selects (operators : List OperatorSnapshot) (passes : OperatorSnapshot → Bool)
    (score : OperatorSnapshot → OperatorScore) (mode : ExecutionMode) (k : Nat) (seed : UInt64)
    (selected : List OperatorScore) : Prop :=
  ∃ positions : List (Fin operators.length),
    positions.Nodup ∧ (∀ i ∈ positions, passes (operators.get i) = true) ∧
    positions.length = min k (operators.countP passes) ∧
    selected = positions.map (returnedScore (fun i => score (operators.get i)) mode seed) ∧
    (mode = .adaptive →
      selected.Pairwise (fun s t => t.score ≤ s.score) ∧
      ∀ i, passes (operators.get i) = true → i ∉ positions → ∀ j ∈ positions,
        (score (operators.get i)).score ≤ (score (operators.get j)).score)

theorem selects_select (operators : List OperatorSnapshot) (passes : OperatorSnapshot → Bool)
    (score : OperatorSnapshot → OperatorScore) (mode : ExecutionMode) (k : Nat) (seed : UInt64) :
    Selects operators passes score mode k seed
      (select mode (((List.finRange operators.length).filter fun i =>
        passes (operators.get i)).map fun i => score (operators.get i)) k seed) := by
  rw [select_map]
  refine ⟨_, nodup_firsts ((List.nodup_finRange _).filter _), fun i hi => ?_, ?_, rfl, ?_⟩
  · exact (List.mem_filter.mp (mem_of_mem_firsts hi)).2
  · rw [length_firsts, length_filter_finRange]
  · rintro rfl
    refine ⟨List.pairwise_map.mpr pairwise_firsts, fun i hi hleft j hj => ?_⟩
    exact ranked_le_of_mem_firsts hj (List.mem_filter.mpr ⟨List.mem_finRange i, hi⟩) hleft

/-- What is selected, in both entry points and modes, whatever the total of an operator is:
for any score of its load, in exact arithmetic and in words that wrap. -/
theorem selection_complete (thalamus : Thalamus) (operators : List OperatorSnapshot)
    (request : RouteRequest) (excluded : List (Bytes 32)) :
    (∀ total : OperatorSnapshot → UInt64,
      Selects operators (thalamus.isEligible · request)
        (thalamus.calculateScoreWith total request) request.executionMode
        (Thalamus.determineK request) (Thalamus.generateSeed request)
        (thalamus.routeWith total operators request) ∧
      Selects operators
        (fun operator => !excluded.contains operator.id && thalamus.isEligible operator request)
        (thalamus.calculateScoreWith total request) request.executionMode
        (Thalamus.determineK request) (request.blockHeightReference * .ofNat excluded.length)
        (thalamus.fallbackWith total operators request excluded)) ∧
    (thalamus.route operators request).selectedOperators =
      thalamus.routeWith (thalamus.total request) operators request ∧
    (thalamus.fallbackRoute operators request excluded).selectedOperators =
      thalamus.fallbackWith (thalamus.total request) operators request excluded := by
  refine ⟨fun total => ⟨selects_select .., selects_select ..⟩, ?_, ?_⟩
  · rw [selected_route, Thalamus.routeWith, calculateScoreWith_total, Thalamus.calculateScores]
  · rw [selected_fallbackRoute, Thalamus.fallbackWith, calculateScoreWith_total,
      Thalamus.calculateScores]

end LiteVision.Intelligence.Routing
