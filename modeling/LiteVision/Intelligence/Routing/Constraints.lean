import LiteVision.Intelligence.Routing

/-!
# Constraints of a request

Every selected operator should satisfy all constraints of the request. The router checks
each field against the first constraint that sets it, so the others are respected, in
every state and for every list of operators, just when the first is the strictest.
-/

namespace LiteVision.Intelligence.Routing

open Lib

/-- The snapshot satisfies the four fields of a constraint that can be checked. -/
structure Thalamus.Meets (thalamus : Thalamus) (operator : OperatorSnapshot)
    (constraint : RouteConstraint) : Prop where
  region : ∀ region, constraint.region = some region → operator.region = region
  minReputation : ∀ minReputation, constraint.minReputation = some minReputation →
    minReputation ≤ operator.reputation
  minStake : ∀ minStake, constraint.minStake = some minStake → minStake ≤ operator.stake
  maxLoad : ∀ maxLoad metrics, constraint.maxLoad = some maxLoad →
    thalamus.metrics.get operator.id = some metrics → ¬ metrics.currentLoad > maxLoad

/-- What a request asks of an operator. -/
structure Thalamus.Serves (thalamus : Thalamus) (request : RouteRequest)
    (operator : OperatorSnapshot) : Prop where
  isActive : operator.isActive = true
  supportsKernel : operator.supportsKernel = true
  budget : request.budget ≤ operator.budget
  meets : ∀ constraint ∈ request.constraints, thalamus.Meets operator constraint

/-- The score is the one of the snapshot, up to a tie-break. -/
def Thalamus.ScoreOf (thalamus : Thalamus) (request : RouteRequest) (operator : OperatorSnapshot)
    (score : OperatorScore) : Prop :=
  ∃ total, score = { thalamus.calculateScore request operator with score := total }

/-- Every selected operator comes from a snapshot of the list that serves the request. -/
def Thalamus.Respects (thalamus : Thalamus) (operators : List OperatorSnapshot)
    (request : RouteRequest) (decision : RouteDecision) : Prop :=
  ∀ score ∈ decision.selectedOperators, ∃ operator ∈ operators,
    thalamus.ScoreOf request operator score ∧ thalamus.Serves request operator

/-- For every field, the first constraint that sets it is the strictest. -/
structure RouteRequest.FirstDecides (request : RouteRequest) : Prop where
  region : ∀ first, request.constraints.findSome? (·.region) = some first →
    ∀ constraint ∈ request.constraints, ∀ region, constraint.region = some region → first = region
  minReputation : ∀ first, request.constraints.findSome? (·.minReputation) = some first →
    ∀ constraint ∈ request.constraints, ∀ minReputation,
      constraint.minReputation = some minReputation → minReputation ≤ first
  minStake : ∀ first, request.constraints.findSome? (·.minStake) = some first →
    ∀ constraint ∈ request.constraints, ∀ minStake, constraint.minStake = some minStake →
      minStake ≤ first
  maxLoad : ∀ first, request.constraints.findSome? (·.maxLoad) = some first →
    ∀ constraint ∈ request.constraints, ∀ maxLoad, constraint.maxLoad = some maxLoad →
      ∀ load : Float, load > maxLoad → load > first

variable {thalamus : Thalamus} {operators : List OperatorSnapshot} {request : RouteRequest}
  {operator : OperatorSnapshot} {score : OperatorScore} {scores : List OperatorScore} {k : Nat}

-- ---------------------------------------------------------------------------
-- Eligible operators
-- ---------------------------------------------------------------------------

/-- What `is_eligible` checks. -/
structure Thalamus.Eligible (thalamus : Thalamus) (operator : OperatorSnapshot)
    (request : RouteRequest) : Prop where
  isActive : operator.isActive = true
  supportsKernel : operator.supportsKernel = true
  minStake : ∀ first, request.constraints.findSome? (·.minStake) = some first →
    first ≤ operator.stake
  region : ∀ first, request.constraints.findSome? (·.region) = some first →
    operator.region = first
  maxLoad : ∀ first metrics, request.constraints.findSome? (·.maxLoad) = some first →
    thalamus.metrics.get operator.id = some metrics → ¬ metrics.currentLoad > first
  minReputation : ∀ first, request.constraints.findSome? (·.minReputation) = some first →
    first ≤ operator.reputation
  budget : request.budget ≤ operator.budget
  maxConcurrent : operator.maxConcurrent ≠ 0

theorem ite_false_iff {p : Prop} [Decidable p] {b : Bool} :
    (if p then false else b) = true ↔ ¬ p ∧ b = true := by
  by_cases hp : p <;> simp [hp]

theorem isEligible_iff :
    thalamus.isEligible operator request = true ↔ thalamus.Eligible operator request := by
  simp only [Thalamus.isEligible, ite_false_iff, Option.any_eq_true, decide_eq_true_eq,
    Bool.not_eq_true', Bool.not_eq_false, bne_iff_ne, beq_iff_eq, not_exists, not_and, not_not,
    UInt64.not_lt, and_true]
  constructor
  · rintro ⟨hactive, hkernel, hstake, hregion, hload, hreputation, hbudget, hconcurrent⟩
    exact ⟨hactive, hkernel, hstake, hregion,
      fun first metrics hfirst => hload first hfirst metrics, hreputation, hbudget, hconcurrent⟩
  · rintro ⟨hactive, hkernel, hstake, hregion, hload, hreputation, hbudget, hconcurrent⟩
    exact ⟨hactive, hkernel, hstake, hregion,
      fun first hfirst metrics => hload first metrics hfirst, hreputation, hbudget, hconcurrent⟩

theorem isEligible_of_nil (hnil : request.constraints = []) (hactive : operator.isActive = true)
    (hkernel : operator.supportsKernel = true) (hbudget : request.budget ≤ operator.budget)
    (hconcurrent : operator.maxConcurrent ≠ 0) : thalamus.isEligible operator request = true := by
  refine isEligible_iff.mpr ⟨hactive, hkernel, ?_, ?_, ?_, ?_, hbudget, hconcurrent⟩
  all_goals
    rw [hnil]
    intros
    contradiction

theorem exists_findSome {A B : Type} {f : A → Option B} {l : List A} {a : A} {b : B} (ha : a ∈ l)
    (hb : f a = some b) : ∃ first, l.findSome? f = some first := by
  have hsome : (l.findSome? f).isSome := List.findSome?_isSome_iff.mpr ⟨a, ha, by rw [hb]; rfl⟩
  exact Option.isSome_iff_exists.mp hsome

/-- Where the first value of every field is the strictest, the check is the whole one. -/
theorem RouteRequest.FirstDecides.serves (h : request.FirstDecides)
    (heligible : thalamus.Eligible operator request) : thalamus.Serves request operator := by
  refine ⟨heligible.isActive, heligible.supportsKernel, heligible.budget, fun constraint hmem => ?_⟩
  constructor
  case region =>
    intro region hregion
    obtain ⟨first, hfirst⟩ := exists_findSome (f := (·.region)) hmem hregion
    exact (heligible.region first hfirst).trans (h.region first hfirst constraint hmem _ hregion)
  case minReputation =>
    intro minReputation hset
    obtain ⟨first, hfirst⟩ := exists_findSome (f := (·.minReputation)) hmem hset
    exact UInt64.le_trans (h.minReputation first hfirst constraint hmem _ hset)
      (heligible.minReputation first hfirst)
  case minStake =>
    intro minStake hset
    obtain ⟨first, hfirst⟩ := exists_findSome (f := (·.minStake)) hmem hset
    exact UInt64.le_trans (h.minStake first hfirst constraint hmem _ hset)
      (heligible.minStake first hfirst)
  case maxLoad =>
    intro maxLoad metrics hset hmetrics habove
    obtain ⟨first, hfirst⟩ := exists_findSome (f := (·.maxLoad)) hmem hset
    exact heligible.maxLoad first metrics hfirst hmetrics
      (h.maxLoad first hfirst constraint hmem _ hset _ habove)

-- ---------------------------------------------------------------------------
-- Selected operators
-- ---------------------------------------------------------------------------

theorem mem_adaptiveSelect (h : score ∈ Thalamus.adaptiveSelect scores k) : score ∈ scores :=
  List.mem_mergeSort.mp (List.mem_of_mem_take h)

theorem mem_deterministicSelect {seed : UInt64}
    (h : score ∈ Thalamus.deterministicSelect scores k seed) :
    ∃ s ∈ scores, ∃ total, score = { s with score := total } := by
  obtain ⟨s, hs, rfl⟩ := List.mem_map.mp (List.mem_mergeSort.mp (List.mem_of_mem_take h))
  exact ⟨s, hs, _, rfl⟩

/-- Both ways to select, as `route` and `fallback_route` choose between them. -/
def select (mode : ExecutionMode) (scores : List OperatorScore) (k : Nat) (seed : UInt64) :
    List OperatorScore :=
  match mode with
  | .deterministic => Thalamus.deterministicSelect scores k seed
  | .adaptive => Thalamus.adaptiveSelect scores k

theorem mem_select {mode : ExecutionMode} {seed : UInt64} (h : score ∈ select mode scores k seed) :
    ∃ s ∈ scores, ∃ total, score = { s with score := total } := by
  cases mode with
  | deterministic => exact mem_deterministicSelect h
  | adaptive => exact ⟨score, mem_adaptiveSelect h, score.score, rfl⟩

theorem length_select (mode : ExecutionMode) (scores : List OperatorScore) (k : Nat)
    (seed : UInt64) : (select mode scores k seed).length = min k scores.length := by
  cases mode with
  | deterministic =>
    rw [select, Thalamus.deterministicSelect, List.length_take, List.length_mergeSort,
      List.length_map]
  | adaptive => rw [select, Thalamus.adaptiveSelect, List.length_take, List.length_mergeSort]

theorem determineK_pos (request : RouteRequest) : 0 < Thalamus.determineK request := by
  unfold Thalamus.determineK
  split
  · rename_i h
    exact UInt32.lt_iff_toNat_lt.mp h
  · exact UInt32.lt_iff_toNat_lt.mp request.qosClass.defaultK_pos

theorem select_nil (mode : ExecutionMode) (k : Nat) (seed : UInt64) :
    select mode [] k seed = [] := by
  rw [← List.length_eq_zero_iff, length_select]
  exact Nat.min_zero k

theorem selected_route (thalamus : Thalamus) (operators : List OperatorSnapshot)
    (request : RouteRequest) :
    (thalamus.route operators request).selectedOperators =
      select request.executionMode
        (thalamus.calculateScores operators (thalamus.filterEligible operators request) request)
        (Thalamus.determineK request) (Thalamus.generateSeed request) := by
  have hk : (Thalamus.determineK request == 0) = false :=
    beq_false_of_ne (Nat.pos_iff_ne_zero.mp (determineK_pos request))
  unfold Thalamus.route
  dsimp only
  rw [hk, Bool.or_false]
  cases heligible : thalamus.filterEligible operators request with
  | nil => exact (select_nil ..).symm
  | cons i eligible => cases hmode : request.executionMode <;> rfl

theorem selected_fallbackRoute (thalamus : Thalamus) (operators : List OperatorSnapshot)
    (request : RouteRequest) (excluded : List (Bytes 32)) :
    (thalamus.fallbackRoute operators request excluded).selectedOperators =
      select request.executionMode
        (thalamus.calculateScores operators
          (thalamus.filterFallback operators request excluded) request)
        (Thalamus.determineK request)
        (request.blockHeightReference * .ofNat excluded.length) := by
  have hk : (Thalamus.determineK request == 0) = false :=
    beq_false_of_ne (Nat.pos_iff_ne_zero.mp (determineK_pos request))
  unfold Thalamus.fallbackRoute
  dsimp only
  rw [hk, Bool.or_false]
  cases heligible : thalamus.filterFallback operators request excluded with
  | nil => exact (select_nil ..).symm
  | cons i eligible => cases hmode : request.executionMode <;> rfl

theorem scoreOf_of_mem_select {eligible : List (Fin operators.length)} {mode : ExecutionMode}
    {seed : UInt64}
    (h : score ∈ select mode (thalamus.calculateScores operators eligible request) k seed) :
    ∃ i ∈ eligible, thalamus.ScoreOf request (operators.get i) score := by
  obtain ⟨s, hs, total, rfl⟩ := mem_select h
  obtain ⟨i, hi, rfl⟩ := List.mem_map.mp hs
  exact ⟨i, hi, total, rfl⟩

theorem eligible_of_route (h : score ∈ (thalamus.route operators request).selectedOperators) :
    ∃ operator ∈ operators, thalamus.ScoreOf request operator score ∧
      thalamus.Eligible operator request := by
  rw [selected_route] at h
  obtain ⟨i, hi, hscore⟩ := scoreOf_of_mem_select h
  exact ⟨operators.get i, List.get_mem _ _, hscore,
    isEligible_iff.mp (List.mem_filter.mp hi).2⟩

theorem eligible_of_fallbackRoute {excluded : List (Bytes 32)}
    (h : score ∈ (thalamus.fallbackRoute operators request excluded).selectedOperators) :
    ∃ operator ∈ operators, thalamus.ScoreOf request operator score ∧
      thalamus.Eligible operator request := by
  rw [selected_fallbackRoute] at h
  obtain ⟨i, hi, hscore⟩ := scoreOf_of_mem_select h
  have hboth := (Bool.and_eq_true _ _).mp (List.mem_filter.mp hi).2
  exact ⟨operators.get i, List.get_mem _ _, hscore, isEligible_iff.mp hboth.2⟩

-- ---------------------------------------------------------------------------
-- One operator
-- ---------------------------------------------------------------------------

theorem serves_of_respects
    (h : thalamus.Respects [operator] request (thalamus.route [operator] request))
    (heligible : thalamus.Eligible operator request) : thalamus.Serves request operator := by
  have hpositions : thalamus.filterEligible [operator] request = [0] := by
    have hone : List.finRange [operator].length = [0] := rfl
    rw [Thalamus.filterEligible, hone]
    exact List.filter_cons_of_pos (isEligible_iff.mpr heligible)
  have hlength : (thalamus.route [operator] request).selectedOperators.length ≠ 0 := by
    have hk := determineK_pos request
    rw [selected_route, length_select, hpositions]
    simp only [Thalamus.calculateScores, List.map_cons, List.map_nil, List.length_cons,
      List.length_nil]
    omega
  obtain ⟨score, hscore⟩ := List.exists_mem_of_length_pos (Nat.pos_of_ne_zero hlength)
  obtain ⟨operator', hmem, -, hserves⟩ := h score hscore
  obtain rfl := List.mem_singleton.mp hmem
  exact hserves

/-- An operator that every first value lets through. -/
def RouteRequest.candidate (request : RouteRequest) : OperatorSnapshot where
  id := .fill 32 0
  isActive := true
  supportsKernel := true
  stake := 0xFFFFFFFFFFFFFFFF
  reputation := 0xFFFFFFFFFFFFFFFF
  region := (request.constraints.findSome? (·.region)).getD ""
  budget := 0xFFFFFFFFFFFFFFFF
  price := 0
  latency := 0
  maxConcurrent := 1
  vramGb := 0

theorem le_max (x : UInt64) : x ≤ 0xFFFFFFFFFFFFFFFF := by
  have hx : x.toNat < 2 ^ 64 := x.toNat_lt
  exact UInt64.le_iff_toNat_le.mpr (Nat.le_of_lt_succ hx)

theorem eligible_candidate (request : RouteRequest) :
    Thalamus.new.Eligible request.candidate request where
  isActive := rfl
  supportsKernel := rfl
  minStake first _ := le_max first
  region first hfirst := by rw [RouteRequest.candidate, hfirst]; rfl
  maxLoad first metrics _ hmetrics := by cases (Map.get_empty _).symm.trans hmetrics
  minReputation first _ := le_max first
  budget := le_max _
  maxConcurrent := (by decide : (1 : UInt32) ≠ 0)

/-- A request that is respected by the choice from one operator, whoever that is, has
the strictest values first. -/
theorem firstDecides_of (h : ∀ (thalamus : Thalamus) (operator : OperatorSnapshot),
    thalamus.Respects [operator] request (thalamus.route [operator] request)) :
    request.FirstDecides := by
  have hcandidate := eligible_candidate request
  constructor
  case region =>
    intro first hfirst constraint hmem region hregion
    have hserves := serves_of_respects (h Thalamus.new request.candidate) hcandidate
    exact (hcandidate.region first hfirst).symm.trans
      ((hserves.meets constraint hmem).region region hregion)
  case minReputation =>
    intro first hfirst constraint hmem minReputation hset
    -- an operator with no more than the first value asks for
    have heligible : Thalamus.new.Eligible { request.candidate with reputation := first } request :=
      { hcandidate with
        minReputation := fun first' hfirst' => by
          obtain rfl := Option.some.inj (hfirst.symm.trans hfirst')
          exact UInt64.le_refl first }
    have hserves := serves_of_respects (h _ _) heligible
    exact (hserves.meets constraint hmem).minReputation _ hset
  case minStake =>
    intro first hfirst constraint hmem minStake hset
    have heligible : Thalamus.new.Eligible { request.candidate with stake := first } request :=
      { hcandidate with
        minStake := fun first' hfirst' => by
          obtain rfl := Option.some.inj (hfirst.symm.trans hfirst')
          exact UInt64.le_refl first }
    have hserves := serves_of_respects (h _ _) heligible
    exact (hserves.meets constraint hmem).minStake _ hset
  case maxLoad =>
    intro first hfirst constraint hmem maxLoad hset load habove
    by_contra hnot
    -- an operator with this load
    let metrics : OperatorMetrics := ⟨.fill 32 0, load, 0, 0, 0, 0, 0⟩
    have hget : (Thalamus.new.updateMetrics metrics).metrics.get request.candidate.id =
        some metrics := Map.get_insert_self ..
    have heligible : (Thalamus.new.updateMetrics metrics).Eligible request.candidate request :=
      { hcandidate with
        maxLoad := fun first' metrics' hfirst' hmetrics' => by
          obtain rfl := Option.some.inj (hfirst.symm.trans hfirst')
          obtain rfl := Option.some.inj (hget.symm.trans hmetrics')
          exact hnot }
    have hserves := serves_of_respects (h _ _) heligible
    exact (hserves.meets constraint hmem).maxLoad maxLoad metrics hset hget habove

-- ---------------------------------------------------------------------------
-- Every state, every list
-- ---------------------------------------------------------------------------

theorem respects_of_eligible
    (h : ∀ operator ∈ operators, thalamus.Eligible operator request →
      thalamus.Serves request operator) (excluded : List (Bytes 32)) :
    thalamus.Respects operators request (thalamus.route operators request) ∧
      thalamus.Respects operators request
        (thalamus.fallbackRoute operators request excluded) := by
  constructor
  · intro score hscore
    obtain ⟨operator, hmem, hof, heligible⟩ := eligible_of_route hscore
    exact ⟨operator, hmem, hof, h operator hmem heligible⟩
  · intro score hscore
    obtain ⟨operator, hmem, hof, heligible⟩ := eligible_of_fallbackRoute hscore
    exact ⟨operator, hmem, hof, h operator hmem heligible⟩

/-- The selected operators of a request satisfy all its constraints, in every state and
for every list, just when the first value of every field is the strictest; and in one
state, as soon as every eligible operator of the list satisfies them. -/
theorem respects_constraints_iff (request : RouteRequest) :
    ((∀ (thalamus : Thalamus) (operators : List OperatorSnapshot) (excluded : List (Bytes 32)),
      thalamus.Respects operators request (thalamus.route operators request) ∧
        thalamus.Respects operators request (thalamus.fallbackRoute operators request excluded)) ↔
      request.FirstDecides) ∧
    ∀ (thalamus : Thalamus) (operators : List OperatorSnapshot) (excluded : List (Bytes 32)),
      (∀ operator ∈ operators, thalamus.isEligible operator request = true →
        thalamus.Serves request operator) →
      thalamus.Respects operators request (thalamus.route operators request) ∧
        thalamus.Respects operators request
          (thalamus.fallbackRoute operators request excluded) := by
  refine ⟨⟨fun h => ?_, fun h thalamus operators excluded => ?_⟩,
    fun thalamus operators excluded h => ?_⟩
  · exact firstDecides_of fun thalamus operator => (h thalamus [operator] []).1
  · exact respects_of_eligible (fun _ _ heligible => h.serves heligible) excluded
  · refine respects_of_eligible (fun operator hmem heligible => ?_) excluded
    exact h operator hmem (isEligible_iff.mpr heligible)

/-- A request whose second constraint asks for more stake than the first. -/
theorem respects_constraints_fails :
    ¬ ∀ (thalamus : Thalamus) (operators : List OperatorSnapshot) (request : RouteRequest),
      thalamus.Respects operators request (thalamus.route operators request) := by
  intro h
  let request : RouteRequest :=
    { jobId := .fill 32 1, kernelId := .fill 32 1, inputSize := 1024, budget := 5000
      deadline := 1000
      constraints := [⟨none, none, some 1000, none, none⟩, ⟨none, none, some 2000, none, none⟩]
      redundancyFactor := 0, qosClass := .balanced, executionMode := .adaptive
      blockHeightReference := 100, jobTicket := ⟨.parallel, .balanced, .adaptive, 1000, 0⟩ }
  have hfirst : request.FirstDecides := firstDecides_of fun thalamus operator =>
    h thalamus [operator] request
  have hle : (2000 : UInt64) ≤ 1000 := hfirst.minStake 1000 rfl ⟨none, none, some 2000, none, none⟩
    (List.mem_cons_of_mem _ List.mem_cons_self) 2000 rfl
  exact absurd hle (by decide)

end LiteVision.Intelligence.Routing
