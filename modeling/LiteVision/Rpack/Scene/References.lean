import LiteVision.Rpack.Scene.Acyclicity

/-!
# References to nodes

A scene refers to its nodes in seven places. `validate_references` goes through the edges,
the constraints and the animations; what cameras, lights and parents refer to it does not
look at, so it names a dangling one of these only if one of the others dangles there too.
-/

namespace LiteVision.Rpack.References

/-- A node together with what it refers to. -/
structure Node extends Rpack.Node where
  parentId : Option UInt64
  deriving DecidableEq

structure Camera where
  cameraId : UInt64
  transformNode : UInt64
  deriving DecidableEq

structure Light where
  lightId : UInt64
  transformNode : UInt64
  deriving DecidableEq

structure Constraint where
  constraintId : UInt64
  targetA : UInt64
  targetB : Option UInt64
  deriving DecidableEq

structure Animation where
  animationId : UInt64
  targetNode : UInt64
  deriving DecidableEq

structure SceneIR where
  nodes : List Node
  edges : List Edge
  cameras : List Camera
  lights : List Light
  constraints : List Constraint
  animations : List Animation
  deriving DecidableEq

inductive ValidationError where
  | invalidEdgeSource (id : UInt64)
  | invalidEdgeTarget (id : UInt64)
  | invalidConstraintTarget (id : UInt64)
  | invalidAnimationTarget (id : UInt64)
  | cyclicGraph
  deriving DecidableEq

def ValidationError.id : ValidationError → Option UInt64
  | .invalidEdgeSource id => some id
  | .invalidEdgeTarget id => some id
  | .invalidConstraintTarget id => some id
  | .invalidAnimationTarget id => some id
  | .cyclicGraph => none

namespace SceneIR

/-- The part of the scene that the cycle check looks at. -/
def graph (scene : SceneIR) : Rpack.SceneIR where
  nodes := scene.nodes.map Node.toNode
  edges := scene.edges

def nodeIds (scene : SceneIR) : List UInt64 := scene.graph.nodeIds

/-- `if !node_ids.contains(&id) { errors.push(error(id)) }`. -/
def require (scene : SceneIR) (error : UInt64 → ValidationError) (id : UInt64) :
    List ValidationError :=
  if id ∈ scene.nodeIds then [] else [error id]

def validateReferences (scene : SceneIR) : List ValidationError :=
  (scene.edges.flatMap fun edge =>
      scene.require .invalidEdgeSource edge.source ++
        scene.require .invalidEdgeTarget edge.target) ++
    (scene.constraints.flatMap fun constraint =>
      scene.require .invalidConstraintTarget constraint.targetA ++
        match constraint.targetB with
        | some targetB => scene.require .invalidConstraintTarget targetB
        | none => []) ++
    scene.animations.flatMap fun anim => scene.require .invalidAnimationTarget anim.targetNode

-- ---------------------------------------------------------------------------
-- What the errors name
-- ---------------------------------------------------------------------------

/-- The ids that edges, constraints and animations refer to. -/
def Checked (scene : SceneIR) (id : UInt64) : Prop :=
  (∃ edge ∈ scene.edges, edge.source = id ∨ edge.target = id) ∨
    (∃ constraint ∈ scene.constraints, constraint.targetA = id ∨ constraint.targetB = some id) ∨
    ∃ anim ∈ scene.animations, anim.targetNode = id

/-- The ids that cameras, lights and nodes refer to. -/
def Unchecked (scene : SceneIR) (id : UInt64) : Prop :=
  (∃ camera ∈ scene.cameras, camera.transformNode = id) ∨
    (∃ light ∈ scene.lights, light.transformNode = id) ∨
    ∃ node ∈ scene.nodes, node.parentId = some id

def Referenced (scene : SceneIR) (id : UInt64) : Prop := scene.Checked id ∨ scene.Unchecked id

def Named (scene : SceneIR) (id : UInt64) : Prop :=
  ∃ error ∈ scene.validateReferences, error.id = some id

variable {scene : SceneIR} {id : UInt64}

theorem mem_require {error : UInt64 → ValidationError} {e : ValidationError} :
    e ∈ scene.require error id ↔ id ∉ scene.nodeIds ∧ e = error id := by
  unfold require
  split <;> simp [*]

theorem exists_id {error : ValidationError} (h : error ∈ scene.validateReferences) :
    ∃ id, error.id = some id ∧ scene.Checked id ∧ id ∉ scene.nodeIds := by
  rw [validateReferences, List.mem_append, List.mem_append] at h
  rcases h with (hedges | hconstraints) | hanims
  · obtain ⟨edge, hedge, hmem⟩ := List.mem_flatMap.mp hedges
    rcases List.mem_append.mp hmem with hsource | htarget
    · obtain ⟨hnot, rfl⟩ := mem_require.mp hsource
      exact ⟨edge.source, rfl, .inl ⟨edge, hedge, .inl rfl⟩, hnot⟩
    · obtain ⟨hnot, rfl⟩ := mem_require.mp htarget
      exact ⟨edge.target, rfl, .inl ⟨edge, hedge, .inr rfl⟩, hnot⟩
  · obtain ⟨constraint, hconstraint, hmem⟩ := List.mem_flatMap.mp hconstraints
    rcases List.mem_append.mp hmem with htargetA | htargetB
    · obtain ⟨hnot, rfl⟩ := mem_require.mp htargetA
      exact ⟨constraint.targetA, rfl, .inr (.inl ⟨constraint, hconstraint, .inl rfl⟩), hnot⟩
    · cases htarget : constraint.targetB with
      | none =>
        rw [htarget] at htargetB
        exact absurd htargetB List.not_mem_nil
      | some targetB =>
        rw [htarget] at htargetB
        obtain ⟨hnot, rfl⟩ := mem_require.mp htargetB
        exact ⟨targetB, rfl, .inr (.inl ⟨constraint, hconstraint, .inr htarget⟩), hnot⟩
  · obtain ⟨anim, hanim, hmem⟩ := List.mem_flatMap.mp hanims
    obtain ⟨hnot, rfl⟩ := mem_require.mp hmem
    exact ⟨anim.targetNode, rfl, .inr (.inr ⟨anim, hanim, rfl⟩), hnot⟩

theorem Checked.named (h : scene.Checked id) (hnot : id ∉ scene.nodeIds) : scene.Named id := by
  have hrequired (error : UInt64 → ValidationError) (herror : (error id).id = some id)
      (hmem : ∀ e ∈ scene.require error id, e ∈ scene.validateReferences) : scene.Named id :=
    ⟨error id, hmem _ (mem_require.mpr ⟨hnot, rfl⟩), herror⟩
  have hedges {edge : Edge} (hedge : edge ∈ scene.edges) {e : ValidationError}
      (h : e ∈ scene.require .invalidEdgeSource edge.source ++
        scene.require .invalidEdgeTarget edge.target) : e ∈ scene.validateReferences :=
    List.mem_append_left _ (List.mem_append_left _ (List.mem_flatMap.mpr ⟨edge, hedge, h⟩))
  rcases h with ⟨edge, hedge, rfl | rfl⟩ | ⟨constraint, hconstraint, htarget⟩ | ⟨anim, hanim, rfl⟩
  · exact hrequired .invalidEdgeSource rfl
      fun e he => hedges hedge (List.mem_append_left _ he)
  · exact hrequired .invalidEdgeTarget rfl
      fun e he => hedges hedge (List.mem_append_right _ he)
  · refine hrequired .invalidConstraintTarget rfl fun e he => ?_
    refine List.mem_append_left _ (List.mem_append_right _ ?_)
    refine List.mem_flatMap.mpr ⟨constraint, hconstraint, ?_⟩
    rcases htarget with rfl | htargetB
    · exact List.mem_append_left _ he
    · rw [htargetB]
      exact List.mem_append_right _ he
  · refine hrequired .invalidAnimationTarget rfl fun e he => ?_
    exact List.mem_append_right _ (List.mem_flatMap.mpr ⟨anim, hanim, he⟩)

theorem named_iff : scene.Named id ↔ scene.Checked id ∧ id ∉ scene.nodeIds := by
  constructor
  · rintro ⟨error, hmem, hid⟩
    obtain ⟨id', hid', hchecked⟩ := exists_id hmem
    obtain rfl := Option.some.inj (hid'.symm.trans hid)
    exact hchecked
  · exact fun h => h.1.named h.2

theorem validateReferences_eq_nil :
    scene.validateReferences = [] ↔ ∀ id, scene.Checked id → id ∈ scene.nodeIds := by
  rw [List.eq_nil_iff_forall_not_mem]
  constructor
  · intro h id hchecked
    by_contra hnot
    obtain ⟨error, hmem, -⟩ := named_iff.mpr ⟨hchecked, hnot⟩
    exact h error hmem
  · intro h error hmem
    obtain ⟨id, -, hchecked, hnot⟩ := exists_id hmem
    exact hnot (h id hchecked)

/-- Without errors every reference is to a node, and every dangling one is named. -/
structure ReferencesFound (scene : SceneIR) : Prop where
  valid : scene.validateReferences = [] → ∀ id, scene.Referenced id → id ∈ scene.nodeIds
  named : ∀ id, scene.Referenced id → id ∉ scene.nodeIds → scene.Named id

/-- The check is complete just when nothing dangles of what it leaves out, or something that
it looks at dangles at the same id. -/
theorem references_found_iff (scene : SceneIR) :
    scene.ReferencesFound ↔
      ∀ id, scene.Unchecked id → id ∈ scene.nodeIds ∨ scene.Checked id := by
  constructor
  · intro h id hunchecked
    by_cases hmem : id ∈ scene.nodeIds
    · exact .inl hmem
    · exact .inr (named_iff.mp (h.named id (.inr hunchecked) hmem)).1
  · intro h
    have hnamed : ∀ id, scene.Referenced id → id ∉ scene.nodeIds → scene.Named id := by
      intro id hreferenced hnot
      rcases hreferenced with hchecked | hunchecked
      · exact named_iff.mpr ⟨hchecked, hnot⟩
      · exact named_iff.mpr ⟨(h id hunchecked).resolve_left hnot, hnot⟩
    refine ⟨fun hnil id hreferenced => ?_, hnamed⟩
    by_contra hnot
    obtain ⟨error, hmem, -⟩ := hnamed id hreferenced hnot
    rw [hnil] at hmem
    exact List.not_mem_nil hmem

/-- A camera of a scene without nodes. -/
theorem references_found_fails : ¬ ∀ scene : SceneIR, scene.ReferencesFound := by
  intro h
  have hcamera := (h ⟨[], [], [⟨1, 7⟩], [], [], []⟩).valid rfl 7
    (.inr (.inl ⟨⟨1, 7⟩, List.mem_singleton_self _, rfl⟩))
  exact absurd hcamera (by decide)

end SceneIR

end LiteVision.Rpack.References
