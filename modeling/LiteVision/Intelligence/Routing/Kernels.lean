import LiteVision.Intelligence.Routing.Positions

/-!
# Kernels of a request

A selected operator should support the kernel of the request. A snapshot is taken before
there is a request, and asks the operator about the kernel that has its own id. So an
operator that says yes to that one is selected for any other.
-/

namespace LiteVision.Intelligence.Routing

variable {T : Type} [OperatorInfo T] {thalamus : Thalamus} {request : RouteRequest}

def snapshots (ops : List T) : List OperatorSnapshot := ops.map OperatorSnapshot.fromOperator

theorem length_snapshots (ops : List T) : (snapshots ops).length = ops.length :=
  List.length_map OperatorSnapshot.fromOperator

def operatorAt (ops : List T) (i : Fin (snapshots ops).length) : T :=
  ops.get (i.cast (length_snapshots ops))

/-- Every operator that either entry point selects supports the kernel of the request. -/
def SelectsSupporting (thalamus : Thalamus) (ops : List T) (request : RouteRequest)
    (excluded : List (Bytes 32)) : Prop :=
  (∀ i ∈ thalamus.routePositions (snapshots ops) request,
    OperatorInfo.supportsKernel (operatorAt ops i) request.kernelId = true) ∧
  ∀ i ∈ thalamus.fallbackPositions (snapshots ops) request excluded,
    OperatorInfo.supportsKernel (operatorAt ops i) request.kernelId = true

/-- Fewer than `k` of the positions that pass come before this one. -/
def Leads (thalamus : Thalamus) (operators : List OperatorSnapshot) (request : RouteRequest)
    (passing : List (Fin operators.length)) (seed : UInt64) (i : Fin operators.length) : Prop :=
  i ∈ passing ∧
    passing.countP (fun j =>
      Precedes (fun i => thalamus.calculateScore request (operators.get i)) request.executionMode
        seed j i) < Thalamus.determineK request

/-- Whoever supports the kernel with its own id, and can be selected at all, supports this one. -/
def AnswersFor (ops : List T) (kernelId : Bytes 32) : Prop :=
  ∀ op ∈ ops, OperatorInfo.isActive op = true →
    OperatorInfo.supportsKernel op (OperatorInfo.id op) = true →
    OperatorInfo.maxConcurrent op ≠ 0 → OperatorInfo.supportsKernel op kernelId = true

theorem get_snapshots (ops : List T) (i : Fin (snapshots ops).length) :
    (snapshots ops).get i = .fromOperator (operatorAt ops i) :=
  List.getElem_map OperatorSnapshot.fromOperator

theorem operatorAt_mem (ops : List T) (i : Fin (snapshots ops).length) :
    operatorAt ops i ∈ ops :=
  List.get_mem ..

theorem AnswersFor.supports {ops : List T} (h : AnswersFor ops request.kernelId)
    {i : Fin (snapshots ops).length}
    (heligible : thalamus.isEligible ((snapshots ops).get i) request = true) :
    OperatorInfo.supportsKernel (operatorAt ops i) request.kernelId = true := by
  have hchecked := isEligible_iff.mp heligible
  rw [get_snapshots] at hchecked
  exact h _ (operatorAt_mem ops i) hchecked.isActive hchecked.supportsKernel
    hchecked.maxConcurrent

theorem AnswersFor.selectsSupporting {ops : List T} (h : AnswersFor ops request.kernelId)
    (thalamus : Thalamus) (excluded : List (Bytes 32)) :
    SelectsSupporting thalamus ops request excluded := by
  constructor
  · intro i hi
    exact h.supports (List.mem_filter.mp (mem_of_mem_firsts hi)).2
  · intro i hi
    have hboth := (List.mem_filter.mp (mem_of_mem_firsts hi)).2
    exact h.supports ((Bool.and_eq_true _ _).mp hboth).2

/-- A request without constraints, for as many operators as there can be. -/
def openRequest (kernelId : Bytes 32) : RouteRequest where
  jobId := .fill 32 0
  kernelId := kernelId
  inputSize := 0
  budget := 0
  deadline := 0
  constraints := []
  redundancyFactor := 0xFFFFFFFF
  qosClass := .balanced
  executionMode := .adaptive
  blockHeightReference := 0
  jobTicket := ⟨.parallel, .balanced, .adaptive, 0, 0⟩

theorem isEligible_openRequest (kernelId : Bytes 32) {operator : OperatorSnapshot}
    (hactive : operator.isActive = true) (hkernel : operator.supportsKernel = true)
    (hconcurrent : operator.maxConcurrent ≠ 0) :
    Thalamus.new.isEligible operator (openRequest kernelId) = true :=
  isEligible_of_nil rfl hactive hkernel UInt64.zero_le hconcurrent

theorem answersFor_of_selectsSupporting {ops : List T} {kernelId : Bytes 32}
    (hlength : ops.length < 2 ^ 32)
    (h : SelectsSupporting Thalamus.new ops (openRequest kernelId) []) :
    AnswersFor ops kernelId := by
  intro op hop hactive hkernel hconcurrent
  obtain ⟨m, hm⟩ := List.get_of_mem hop
  let i : Fin (snapshots ops).length := m.cast (length_snapshots ops).symm
  have hat : operatorAt ops i = op := hm
  have heligible :
      Thalamus.new.isEligible ((snapshots ops).get i) (openRequest kernelId) = true := by
    rw [get_snapshots, hat]
    exact isEligible_openRequest kernelId hactive hkernel hconcurrent
  have hpasses : i ∈ Thalamus.new.filterEligible (snapshots ops) (openRequest kernelId) :=
    List.mem_filter.mpr ⟨List.mem_finRange i, heligible⟩
  have hfew : (Thalamus.new.filterEligible (snapshots ops) (openRequest kernelId)).length ≤
      Thalamus.determineK (openRequest kernelId) := by
    have hk : Thalamus.determineK (openRequest kernelId) = 2 ^ 32 - 1 := rfl
    refine (List.length_filter_le _ _).trans ?_
    rw [List.length_finRange, length_snapshots, hk]
    omega
  have hselected : i ∈ Thalamus.new.routePositions (snapshots ops) (openRequest kernelId) := by
    rw [Thalamus.routePositions, firsts, List.take_of_length_le]
    · exact List.mem_mergeSort.mpr hpasses
    · rwa [List.length_mergeSort]
  exact hat ▸ h.1 i hselected

/-- Both entry points return the scores of the positions they select. Of all requests for a
kernel: the operators there support it just when no operator that can be selected supports
the kernel with its own id and not this one. Of one request: just when those that pass, and
that fewer than `k` others precede, do. -/
theorem kernel_support_iff (ops : List T) :
    (ops.length < 2 ^ 32 → ∀ kernelId : Bytes 32,
      ((∀ (thalamus : Thalamus) (request : RouteRequest) (excluded : List (Bytes 32)),
        request.kernelId = kernelId → SelectsSupporting thalamus ops request excluded) ↔
      AnswersFor ops kernelId)) ∧
    ∀ (thalamus : Thalamus) (request : RouteRequest) (excluded : List (Bytes 32)),
      (AnswersFor ops request.kernelId → SelectsSupporting thalamus ops request excluded) ∧
      (thalamus.route (snapshots ops) request).selectedOperators =
        (thalamus.routePositions (snapshots ops) request).map
          (returnedScore (fun i => thalamus.calculateScore request ((snapshots ops).get i))
            request.executionMode (Thalamus.generateSeed request)) ∧
      (thalamus.fallbackRoute (snapshots ops) request excluded).selectedOperators =
        (thalamus.fallbackPositions (snapshots ops) request excluded).map
          (returnedScore (fun i => thalamus.calculateScore request ((snapshots ops).get i))
            request.executionMode (request.blockHeightReference * .ofNat excluded.length)) ∧
      (SelectsSupporting thalamus ops request excluded ↔
        ∀ i, Leads thalamus (snapshots ops) request
              (thalamus.filterEligible (snapshots ops) request) (Thalamus.generateSeed request) i ∨
            Leads thalamus (snapshots ops) request
              (thalamus.filterFallback (snapshots ops) request excluded)
              (request.blockHeightReference * .ofNat excluded.length) i →
          OperatorInfo.supportsKernel (operatorAt ops i) request.kernelId = true) := by
  refine ⟨fun hlength kernelId => ⟨fun h => ?_, ?_⟩, fun thalamus request excluded =>
    ⟨fun h => h.selectsSupporting thalamus excluded, route_eq_map .., fallbackRoute_eq_map .., ?_⟩⟩
  · exact answersFor_of_selectsSupporting hlength (h _ _ _ rfl)
  · rintro h thalamus request excluded rfl
    exact h.selectsSupporting thalamus excluded
  · simp only [SelectsSupporting, Thalamus.routePositions, Thalamus.fallbackPositions,
      mem_firsts_iff (pairwise_filter_finRange _), Thalamus.filterEligible, Thalamus.filterFallback,
      Leads, or_imp, forall_and]

@[reducible] def soleKernel (id kernelId : Bytes 32) : OperatorInfo Unit where
  id _ := id
  isActive _ := true
  supportsKernel _ asked := asked = kernelId
  stake _ := 1000
  reputation _ := 800
  region _ := "us-east"
  budget _ := 10000
  price _ := 500
  latency _ := 50
  maxConcurrent _ := 10
  vramGb _ := 16

theorem kernel_support_iff_one :
    let _ := soleKernel (.fill 32 1) (.fill 32 1)
    SelectsSupporting Thalamus.new [()] (openRequest (.fill 32 1)) [] := by
  intro _
  refine ((kernel_support_iff [()]).1 (by decide) (.fill 32 1)).mpr ?_ _ _ _ rfl
  exact fun _ _ _ _ _ => rfl

/-- An operator that supports the kernel with its own id, and is asked for another one. -/
theorem kernel_support_fails :
    ¬ ∀ (T : Type) [OperatorInfo T] (thalamus : Thalamus) (ops : List T) (request : RouteRequest)
      (excluded : List (Bytes 32)), SelectsSupporting thalamus ops request excluded := by
  intro h
  let _ := soleKernel (.fill 32 1) (.fill 32 1)
  have hall := answersFor_of_selectsSupporting (by decide)
    (h Unit Thalamus.new [()] (openRequest (.fill 32 2)) [])
  have hsupports : OperatorInfo.supportsKernel () (.fill 32 2) = true :=
    hall () List.mem_cons_self rfl (by decide) (by decide)
  exact absurd hsupports (by decide)

end LiteVision.Intelligence.Routing
