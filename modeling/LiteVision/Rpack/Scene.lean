import LiteVision.Lib.Acyclic
import LiteVision.Lib.Map
import Mathlib.Data.List.Nodup

/-!
# Scenes

A scene is a list of nodes and a list of edges between node ids; an edge may name an id
that no node has. `is_acyclic` counts the edges into each node, takes the nodes without
any, and lets go of the edges out of each node it takes. The scene has no cycle if all
nodes are taken.
-/

namespace LiteVision.Rpack

open Lib

structure Node where
  nodeId : UInt64
  deriving DecidableEq

structure Edge where
  source : UInt64
  target : UInt64
  deriving DecidableEq

structure SceneIR where
  nodes : List Node
  edges : List Edge
  deriving DecidableEq

namespace SceneIR

def new : SceneIR where
  nodes := []
  edges := []

def addNode (scene : SceneIR) (node : Node) : UInt64 × SceneIR :=
  let id := UInt64.ofNat scene.nodes.length
  (id, { scene with nodes := scene.nodes ++ [{ node with nodeId := id }] })

def addEdge (scene : SceneIR) (edge : Edge) : SceneIR :=
  { scene with edges := scene.edges ++ [edge] }

-- ---------------------------------------------------------------------------
-- The check
-- ---------------------------------------------------------------------------

/-- `entry(node_id).or_insert(0)`. -/
def enter (inDegree : Map UInt64 Nat) (nodeId : UInt64) : Map UInt64 Nat :=
  match inDegree.get nodeId with
  | some _ => inDegree
  | none => inDegree.insert nodeId 0

def inDegree (scene : SceneIR) : Map UInt64 Nat :=
  scene.edges.foldl (fun inDegree edge => inDegree.modify edge.target (· + 1))
    (scene.nodes.foldl (fun inDegree node => enter inDegree node.nodeId) .empty)

/-- The loop over the edges out of a node; `none` if a degree would go below zero. -/
def release (nodeId : UInt64) : List Edge → Map UInt64 Nat → List UInt64 →
    Option (Map UInt64 Nat × List UInt64)
  | [], inDegree, queue => some (inDegree, queue)
  | edge :: edges, inDegree, queue =>
    if edge.source = nodeId then
      match inDegree.get edge.target with
      | none => release nodeId edges inDegree queue
      | some 0 => none
      | some (degree + 1) =>
        release nodeId edges (inDegree.insert edge.target degree)
          (if degree = 0 then queue ++ [edge.target] else queue)
    else release nodeId edges inDegree queue

/-- Whatever is put into the queue has been let go of, so the loop over the queue ends. -/
theorem release_measure {nodeId : UInt64} {edges : List Edge} {inDegree : Map UInt64 Nat}
    {queue : List UInt64} {released : Map UInt64 Nat × List UInt64}
    (h : release nodeId edges inDegree queue = some released) :
    released.1.total id + released.2.length ≤ inDegree.total id + queue.length := by
  induction edges generalizing inDegree queue with
  | nil =>
    obtain rfl := Option.some.inj h
    exact Nat.le_refl _
  | cons edge edges ih =>
    rw [release] at h
    split at h
    · split at h
      · exact ih h
      · cases h
      · rename_i degree hdegree
        have hrest := ih h
        have hinsert := Map.total_insert inDegree id edge.target degree
        rw [Map.weightAt_some hdegree] at hinsert
        simp only [id_eq] at hinsert
        split at hrest
        · rw [List.length_append, List.length_singleton] at hrest
          omega
        · omega
    · exact ih h

/-- The loop over the queue, with the number of nodes taken. -/
def visit (edges : List Edge) (queue : List UInt64) (inDegree : Map UInt64 Nat) (visited : Nat) :
    Option Nat :=
  match queue with
  | [] => some visited
  | nodeId :: queue =>
    match _h : release nodeId edges inDegree queue with
    | none => none
    | some released => visit edges released.2 released.1 (visited + 1)
  termination_by inDegree.total id + queue.length
  decreasing_by
    have := release_measure _h
    rw [List.length_cons]
    omega

def isAcyclic (it : Map.Iteration UInt64 Nat) (scene : SceneIR) : Option Bool :=
  let queue := ((it.entries scene.inDegree).filter fun entry => entry.2 = 0).map Prod.fst
  (visit scene.edges queue scene.inDegree 0).map fun visited => visited = scene.nodes.length

end SceneIR

end LiteVision.Rpack
