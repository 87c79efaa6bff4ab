import LiteVision.Intelligence.Routing.Positions

/-!
# Selections that can be repeated

With the seed of a decision its selection should be repeated. `route` records the seed it
draws by. `fallback_route` draws by another one and records none, so its decisions can be
repeated only where there is nothing to select.
-/

namespace LiteVision.Intelligence.Routing

open Lib

variable {thalamus : Thalamus} {operators : List OperatorSnapshot} {request : RouteRequest}
  {excluded : List (Bytes 32)}

/-- With the recorded seed the scores of the positions that passed give the selection. -/
def Thalamus.Auditable (thalamus : Thalamus) (operators : List OperatorSnapshot)
    (request : RouteRequest) (passing : List (Fin operators.length)) (decision : RouteDecision) :
    Prop :=
  ∃ seed, decision.seed = some seed ∧
    decision.selectedOperators =
      Thalamus.deterministicSelect (thalamus.calculateScores operators passing request)
        (Thalamus.determineK request) seed

/-- The decisions of both entry points can be repeated, and without excluded operators
they are the same selection. -/
structure Thalamus.Repeatable (thalamus : Thalamus) (operators : List OperatorSnapshot)
    (request : RouteRequest) (excluded : List (Bytes 32)) : Prop where
  route : thalamus.Auditable operators request (thalamus.filterEligible operators request)
    (thalamus.route operators request)
  fallback : thalamus.Auditable operators request
    (thalamus.filterFallback operators request excluded)
    (thalamus.fallbackRoute operators request excluded)
  same : excluded = [] →
    (thalamus.fallbackRoute operators request excluded).selectedOperators.map (·.operatorId) =
      (thalamus.route operators request).selectedOperators.map (·.operatorId)

theorem determineK_beq_zero (request : RouteRequest) :
    (Thalamus.determineK request == 0) = false :=
  beq_false_of_ne (Nat.pos_iff_ne_zero.mp (determineK_pos request))

theorem seed_route (hmode : request.executionMode = .deterministic)
    (hsome : thalamus.filterEligible operators request ≠ []) :
    (thalamus.route operators request).seed = some (Thalamus.generateSeed request) := by
  have hpassing : (thalamus.filterEligible operators request).isEmpty = false :=
    List.isEmpty_eq_false_iff.mpr hsome
  unfold Thalamus.route
  dsimp only
  rw [determineK_beq_zero, hpassing, hmode]
  rfl

theorem seed_fallbackRoute (hmode : request.executionMode = .deterministic) :
    (thalamus.fallbackRoute operators request excluded).seed =
      if thalamus.filterFallback operators request excluded = [] then
        some (Thalamus.generateSeed request)
      else none := by
  unfold Thalamus.fallbackRoute
  dsimp only
  rw [determineK_beq_zero, hmode]
  cases thalamus.filterFallback operators request excluded <;> rfl

theorem auditable_route (hmode : request.executionMode = .deterministic)
    (hsome : thalamus.filterEligible operators request ≠ []) :
    thalamus.Auditable operators request (thalamus.filterEligible operators request)
      (thalamus.route operators request) := by
  refine ⟨Thalamus.generateSeed request, seed_route hmode hsome, ?_⟩
  rw [selected_route, hmode]
  rfl

theorem auditable_fallbackRoute_iff (hmode : request.executionMode = .deterministic) :
    thalamus.Auditable operators request (thalamus.filterFallback operators request excluded)
        (thalamus.fallbackRoute operators request excluded) ↔
      thalamus.filterFallback operators request excluded = [] := by
  constructor
  · rintro ⟨seed, hseed, -⟩
    rw [seed_fallbackRoute hmode] at hseed
    split at hseed
    · assumption
    · cases hseed
  · intro hnone
    refine ⟨Thalamus.generateSeed request, ?_, ?_⟩
    · rw [seed_fallbackRoute hmode, if_pos hnone]
    · rw [selected_fallbackRoute, hmode, hnone]
      exact (select_nil .deterministic _ _).trans (select_nil .deterministic _ _).symm

theorem filterEligible_ne_nil
    (hsome : ∃ operator ∈ operators, thalamus.isEligible operator request = true) :
    thalamus.filterEligible operators request ≠ [] := by
  obtain ⟨operator, hmem, heligible⟩ := hsome
  obtain ⟨i, rfl⟩ := List.get_of_mem hmem
  exact List.ne_nil_of_mem (List.mem_filter.mpr ⟨List.mem_finRange i, heligible⟩)

theorem filterFallback_eq_nil_iff :
    thalamus.filterFallback operators request excluded = [] ↔
      ∀ operator ∈ operators, thalamus.isEligible operator request = true →
        operator.id ∈ excluded := by
  rw [Thalamus.filterFallback, List.filter_eq_nil_iff]
  constructor
  · intro h operator hmem heligible
    obtain ⟨i, rfl⟩ := List.get_of_mem hmem
    have hpasses := h i (List.mem_finRange i)
    rw [heligible, Bool.and_true, Bool.not_eq_true', Bool.not_eq_false] at hpasses
    exact List.contains_iff_mem.mp hpasses
  · intro h i _ hboth
    obtain ⟨hkept, heligible⟩ := (Bool.and_eq_true _ _).mp hboth
    have hexcluded := h _ (List.get_mem operators i) heligible
    rw [List.contains_iff_mem.mpr hexcluded] at hkept
    cases hkept

/-- With an eligible operator, `route` can always be repeated, and both entry points can
just when every eligible operator is excluded, so that the fallback selects none. -/
theorem auditable_iff (thalamus : Thalamus) (operators : List OperatorSnapshot)
    (request : RouteRequest) (excluded : List (Bytes 32))
    (hmode : request.executionMode = .deterministic)
    (hsome : ∃ operator ∈ operators, thalamus.isEligible operator request = true) :
    thalamus.Auditable operators request (thalamus.filterEligible operators request)
        (thalamus.route operators request) ∧
      (thalamus.Repeatable operators request excluded ↔
        ∀ operator ∈ operators, thalamus.isEligible operator request = true →
          operator.id ∈ excluded) := by
  have hroute := auditable_route hmode (filterEligible_ne_nil hsome)
  refine ⟨hroute, ?_⟩
  rw [← filterFallback_eq_nil_iff, ← auditable_fallbackRoute_iff hmode]
  refine ⟨fun h => h.fallback, fun h => ⟨hroute, h, ?_⟩⟩
  rintro rfl
  -- without excluded operators the eligible one would have been selected
  have hnone := filterFallback_eq_nil_iff.mp ((auditable_fallbackRoute_iff hmode).mp h)
  obtain ⟨operator, hmem, heligible⟩ := hsome
  cases hnone operator hmem heligible

theorem auditable_iff_excluded :
    Thalamus.new.Repeatable [plainOperator (.fill 32 1)] plainRequest [.fill 32 1] := by
  refine (auditable_iff Thalamus.new [plainOperator (.fill 32 1)] plainRequest [.fill 32 1] rfl
    ⟨_, List.mem_cons_self, isEligible_plainOperator _⟩).2.mpr fun operator hmem _ => ?_
  obtain rfl := List.mem_singleton.mp hmem
  exact List.mem_cons_self

-- ---------------------------------------------------------------------------
-- Two seeds
-- ---------------------------------------------------------------------------

theorem toNat_tiebroken_calculateScore (thalamus : Thalamus) (request : RouteRequest)
    (operator : OperatorSnapshot) (seed : UInt64) :
    ((thalamus.calculateScore request operator).tiebroken seed).toNat =
      (thalamus.calculateScore request operator).score.toNat +
        (Thalamus.deterministicTiebreak operator.id seed).toNat := by
  have hscore : (thalamus.calculateScore request operator).score.toNat ≤ (2 ^ 64 - 1) / 100 := by
    rw [← calculateScoreWith_total]
    change (_ / 100 : UInt64).toNat ≤ _
    rw [UInt64.toNat_div]
    exact Nat.div_le_div_right (Nat.le_sub_one_of_lt (UInt64.toNat_lt _))
  have hbreak : (Thalamus.deterministicTiebreak operator.id seed).toNat < 1000 := by
    rw [Thalamus.deterministicTiebreak, UInt64.toNat_mod]
    exact Nat.mod_lt _ (by decide)
  refine toNat_add_of_lt ?_
  change (thalamus.calculateScore request operator).score.toNat +
    (Thalamus.deterministicTiebreak operator.id seed).toNat < 2 ^ 64
  omega

theorem mergeSort_pair {A : Type} (le : A → A → Bool) (a b : A) :
    [a, b].mergeSort le = if le a b then [a, b] else [b, a] := by
  simp [List.mergeSort, List.MergeSort.Internal.splitInTwo, List.merge]

theorem ranks_plainOperators (id id' : Bytes 32) (seed : UInt64) :
    ranks (OperatorScore.tiebroken seed)
        (Thalamus.new.calculateScore plainRequest (plainOperator id))
        (Thalamus.new.calculateScore plainRequest (plainOperator id')) =
      decide (Thalamus.deterministicTiebreak id' seed ≤
        Thalamus.deterministicTiebreak id seed) := by
  have hscore : (Thalamus.new.calculateScore plainRequest (plainOperator id')).score =
      (Thalamus.new.calculateScore plainRequest (plainOperator id)).score := by
    simp only [Thalamus.calculateScore, Thalamus.new, plainOperator, Map.get_empty]
    rfl
  rw [ranks, decide_eq_decide, UInt64.le_iff_toNat_le, UInt64.le_iff_toNat_le,
    toNat_tiebroken_calculateScore, toNat_tiebroken_calculateScore, hscore]
  exact Nat.add_le_add_iff_left

theorem select_plainOperators (id id' : Bytes 32) (seed : UInt64) :
    (select .deterministic (Thalamus.new.calculateScores [plainOperator id, plainOperator id']
      (Thalamus.new.filterEligible [plainOperator id, plainOperator id'] plainRequest) plainRequest)
      1 seed).map (·.operatorId) =
    [if Thalamus.deterministicTiebreak id' seed ≤ Thalamus.deterministicTiebreak id seed then id
      else id'] := by
  have hboth : [plainOperator id, plainOperator id'].filter
      (Thalamus.new.isEligible · plainRequest) = [plainOperator id, plainOperator id'] := by
    simp [isEligible_plainOperator]
  rw [calculateScores_filterEligible, hboth, select, deterministicSelect_eq, List.map_cons,
    List.map_cons, List.map_nil, mergeSort_pair, ranks_plainOperators]
  simp only [decide_eq_true_eq]
  split <;> rfl

/-- A fallback that selects records no seed, and it may select another operator than the
route, also without excluded ones. -/
theorem auditable_fails :
    (¬ ∀ (thalamus : Thalamus) (operators : List OperatorSnapshot) (request : RouteRequest)
        (excluded : List (Bytes 32)), request.executionMode = .deterministic →
      (∃ operator ∈ operators, thalamus.isEligible operator request = true) →
      thalamus.Auditable operators request (thalamus.filterFallback operators request excluded)
        (thalamus.fallbackRoute operators request excluded)) ∧
    ¬ ∀ (thalamus : Thalamus) (operators : List OperatorSnapshot) (request : RouteRequest),
      request.executionMode = .deterministic →
      (∃ operator ∈ operators, thalamus.isEligible operator request = true) →
      (thalamus.fallbackRoute operators request []).selectedOperators.map (·.operatorId) =
        (thalamus.route operators request).selectedOperators.map (·.operatorId) := by
  let a := plainOperator (.fill 32 1)
  let b := plainOperator (.fill 32 4)
  have hsome : ∃ operator ∈ [a, b], Thalamus.new.isEligible operator plainRequest = true :=
    ⟨a, List.mem_cons_self, isEligible_plainOperator _⟩
  constructor
  · intro h
    have hnone := (auditable_fallbackRoute_iff rfl).mp
      (h Thalamus.new [a, b] plainRequest [] rfl hsome)
    cases filterFallback_eq_nil_iff.mp hnone a List.mem_cons_self (isEligible_plainOperator _)
  · intro h
    have hsame := h Thalamus.new [a, b] plainRequest rfl hsome
    have hfilter : Thalamus.new.filterFallback [a, b] plainRequest [] =
        Thalamus.new.filterEligible [a, b] plainRequest := rfl
    rw [selected_route, selected_fallbackRoute, hfilter] at hsame
    have hids := (select_plainOperators _ _ _).symm.trans
      (hsame.trans (select_plainOperators _ _ _))
    exact absurd hids (by decide +kernel)

end LiteVision.Intelligence.Routing
