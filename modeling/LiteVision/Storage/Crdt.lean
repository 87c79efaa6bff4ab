import LiteVision.Bytes
import LiteVision.Lib.Map
import LiteVision.Lib.Replication
import Mathlib.Data.Finset.Max
import Mathlib.Data.Prod.Lex
import Mathlib.Data.UInt

/-!
# Replicated data types

`crdt.rs`: counters, a set, a register and a graph, each with local updates and a
merge. The maps are B-trees, so every loop runs over ascending keys.
-/

namespace LiteVision.Storage

open Lib
open Map (Iteration)

scoped instance linearOrderUInt64 : LinearOrder UInt64 where
  le_refl := UInt64.le_refl
  le_trans _ _ _ := UInt64.le_trans
  lt_iff_le_not_ge a b := by
    rw [UInt64.lt_iff_toNat_lt, UInt64.le_iff_toNat_le, UInt64.le_iff_toNat_le]
    exact lt_iff_le_not_ge
  le_antisymm _ _ := UInt64.le_antisymm
  le_total := UInt64.le_total
  toDecidableLE := inferInstance

structure OperationId where
  replicaId : UInt64
  logicalClock : UInt64
  deriving DecidableEq, Repr

/-- The derived order compares the fields as they are declared. -/
instance OperationId.linearOrder : LinearOrder OperationId :=
  LinearOrder.lift' (fun id => toLex (id.replicaId, id.logicalClock)) <| by
    rintro ⟨r, c⟩ ⟨r', c'⟩ h
    cases h
    rfl

-- ---------------------------------------------------------------------------
-- Version vectors
-- ---------------------------------------------------------------------------

structure VersionVector where
  clocks : Map UInt64 UInt64

namespace VersionVector

def new : VersionVector := ⟨.empty⟩

def increment (v : VersionVector) (replicaId : UInt64) : VersionVector :=
  ⟨v.clocks.insert replicaId ((v.clocks.get replicaId).getD 0 + 1)⟩

def get (v : VersionVector) (replicaId : UInt64) : UInt64 := (v.clocks.get replicaId).getD 0

def merge (v other : VersionVector) : VersionVector :=
  ⟨v.clocks.mergeWith .ascending (fun _ entry clock => some (max (entry.getD 0) clock))
    other.clocks⟩

def dominates (v other : VersionVector) : Bool :=
  (Iteration.ascending.entries other.clocks).all fun e => !decide (v.get e.1 < e.2)

end VersionVector

-- ---------------------------------------------------------------------------
-- Counters
-- ---------------------------------------------------------------------------

structure GCounter where
  counts : Map UInt64 UInt64
  replicaId : UInt64

namespace GCounter

def new (replicaId : UInt64) : GCounter := ⟨.empty, replicaId⟩

def increment (c : GCounter) : GCounter :=
  { c with counts := c.counts.insert c.replicaId ((c.counts.get c.replicaId).getD 0 + 1) }

def get (c : GCounter) : UInt64 := ((Iteration.ascending.entries c.counts).map Prod.snd).sum

def merge (c other : GCounter) : GCounter :=
  { c with
    counts := c.counts.mergeWith .ascending
      (fun _ entry count => some (max (entry.getD 0) count)) other.counts }

inductive Call where
  | increment
  deriving DecidableEq

def object : Replication.Object GCounter Call where
  update c
    | .increment => c.increment
  merge := merge

end GCounter

structure PNCounter where
  positive : GCounter
  negative : GCounter

namespace PNCounter

def new (replicaId : UInt64) : PNCounter := ⟨.new replicaId, .new replicaId⟩

def increment (c : PNCounter) : PNCounter := { c with positive := c.positive.increment }

def decrement (c : PNCounter) : PNCounter := { c with negative := c.negative.increment }

def get (c : PNCounter) : Int64 := c.positive.get.toInt64 - c.negative.get.toInt64

def merge (c other : PNCounter) : PNCounter :=
  { c with
    positive := c.positive.merge other.positive
    negative := c.negative.merge other.negative }

inductive Call where
  | increment
  | decrement
  deriving DecidableEq

def object : Replication.Object PNCounter Call where
  update c
    | .increment => c.increment
    | .decrement => c.decrement
  merge := merge

end PNCounter

-- ---------------------------------------------------------------------------
-- The set
-- ---------------------------------------------------------------------------

structure ORSet (T : Type) where
  elements : Map T (Finset OperationId)
  tombstones : Map T (Finset OperationId)
  clock : UInt64
  replicaId : UInt64

namespace ORSet

variable {T : Type} [LinearOrder T]

def new (replicaId : UInt64) : ORSet T := ⟨.empty, .empty, 0, replicaId⟩

def nextOpId (s : ORSet T) : OperationId × ORSet T :=
  let clock := s.clock + 1
  (⟨s.replicaId, clock⟩, { s with clock := clock })

def add (s : ORSet T) (element : T) : ORSet T :=
  let (opId, s) := s.nextOpId
  { s with elements := s.elements.insert element (insert opId ((s.elements.get element).getD ∅)) }

/-- Only the greatest of the ids gets a tombstone. -/
def remove (s : ORSet T) (element : T) : Bool × ORSet T :=
  match s.elements.get element with
  | some ids =>
    if h : ids.Nonempty then
      let tombstoneSet := (s.tombstones.get element).getD ∅
      (true, { s with
        tombstones := s.tombstones.insert element (insert (ids.max' h) tombstoneSet) })
    else (false, s)
  | none => (false, s)

/-- Some id of `ids` is not in `tombstones`. -/
def anyActive (ids tombstones : Finset OperationId) : Bool := decide (∃ id ∈ ids, id ∉ tombstones)

def contains (s : ORSet T) (element : T) : Bool :=
  match s.elements.get element, s.tombstones.get element with
  | some ids, some tombstones => anyActive ids tombstones
  | some ids, none => decide ids.Nonempty
  | none, _ => false

def get (s : ORSet T) : List T :=
  ((Iteration.ascending.entries s.elements).filter fun (element, ids) =>
    match s.tombstones.get element with
    | some tombstones => anyActive ids tombstones
    | none => decide ids.Nonempty).map Prod.fst

/-- One round of the first loop of `merge`: elements with a tombstone of `self` are skipped. -/
def mergeIds (tombstones : Map T (Finset OperationId)) (element : T)
    (selfIds : Option (Finset OperationId)) (otherIds : Finset OperationId) :
    Option (Finset OperationId) :=
  let wasRemoved := ((tombstones.get element).map fun t => decide t.Nonempty).getD false
  if wasRemoved then none
  else some (selfIds.getD ∅ ∪ otherIds.filter fun id =>
    ((tombstones.get element).map fun t => decide (id ∈ t)).getD false = false)

def merge (s other : ORSet T) : ORSet T :=
  { s with
    elements := s.elements.mergeWith .ascending (mergeIds s.tombstones) other.elements
    tombstones := s.tombstones.mergeWith .ascending
      (fun _ selfTombstones otherTombstones => some (selfTombstones.getD ∅ ∪ otherTombstones))
      other.tombstones
    clock := max s.clock other.clock }

inductive Call (T : Type) where
  | add (element : T)
  | remove (element : T)
  deriving DecidableEq

def object : Replication.Object (ORSet T) (Call T) where
  update s
    | .add element => s.add element
    | .remove element => (s.remove element).2
  merge := merge

end ORSet

-- ---------------------------------------------------------------------------
-- The register
-- ---------------------------------------------------------------------------

structure LWWRegister (T : Type) where
  value : Option T
  timestamp : UInt64
  replicaId : UInt64

namespace LWWRegister

variable {T : Type}

def new (replicaId : UInt64) : LWWRegister T := ⟨none, 0, replicaId⟩

def set (r : LWWRegister T) (value : T) (timestamp : UInt64) : LWWRegister T :=
  if timestamp > r.timestamp ∨ (timestamp = r.timestamp ∧ r.replicaId > r.replicaId) then
    { r with value := some value, timestamp := timestamp }
  else r

def get (r : LWWRegister T) : Option T := r.value

def merge (r other : LWWRegister T) : LWWRegister T :=
  if other.timestamp > r.timestamp ∨
      (other.timestamp = r.timestamp ∧ other.replicaId > r.replicaId) then
    { value := other.value, timestamp := other.timestamp, replicaId := other.replicaId }
  else r

inductive Call (T : Type) where
  | set (value : T) (timestamp : UInt64)
  deriving DecidableEq

def object : Replication.Object (LWWRegister T) (Call T) where
  update r
    | .set value timestamp => r.set value timestamp
  merge := merge

end LWWRegister

-- ---------------------------------------------------------------------------
-- Maps
-- ---------------------------------------------------------------------------

/-- For a key of both maps `merge_value` is called, and what it returns is dropped. -/
def mergeOrMap {K V : Type} [LinearOrder K] (left right : Map K V) (mergeValue : V → V → V) :
    Map K V :=
  left.mergeWith .ascending (fun _ existing value =>
    match existing with
    | some existing =>
      let _ := mergeValue existing value
      none
    | none => some value) right

-- ---------------------------------------------------------------------------
-- The graph
-- ---------------------------------------------------------------------------

structure CRDTGraph where
  nodes : ORSet UInt64
  edges : Map UInt64 (ORSet UInt64)
  edgeTombstones : Map (UInt64 ×ₗ UInt64) (Finset OperationId)
  clock : UInt64
  replicaId : UInt64

namespace CRDTGraph

def new (replicaId : UInt64) : CRDTGraph := ⟨.new replicaId, .empty, .empty, 0, replicaId⟩

def addNode (g : CRDTGraph) (nodeId : UInt64) : CRDTGraph :=
  { g with nodes := g.nodes.add nodeId }

def addEdge (g : CRDTGraph) (source target : UInt64) : CRDTGraph :=
  let edgeSet := (g.edges.get source).getD (.new g.replicaId)
  { g with clock := g.clock + 1, edges := g.edges.insert source (edgeSet.add target) }

def removeEdge (g : CRDTGraph) (source target : UInt64) : CRDTGraph :=
  let clock := g.clock + 1
  let opId : OperationId := ⟨g.replicaId, clock⟩
  let key := toLex (source, target)
  { g with
    clock := clock
    edgeTombstones :=
      g.edgeTombstones.insert key (insert opId ((g.edgeTombstones.get key).getD ∅)) }

def getNeighbors (g : CRDTGraph) (node : UInt64) : List UInt64 :=
  ((g.edges.get node).map fun set =>
    set.get.filter fun neighbor =>
      (g.edgeTombstones.get (toLex (node, neighbor))).isNone).getD []

def merge (g other : CRDTGraph) : CRDTGraph :=
  { g with
    nodes := g.nodes.merge other.nodes
    edges := g.edges.mergeWith .ascending
      (fun _ selfEdges otherEdges => some ((selfEdges.getD (.new g.replicaId)).merge otherEdges))
      other.edges
    edgeTombstones := g.edgeTombstones.mergeWith .ascending
      (fun _ selfTombstones otherTombstones => some (selfTombstones.getD ∅ ∪ otherTombstones))
      other.edgeTombstones
    clock := max g.clock other.clock }

inductive Call where
  | addNode (nodeId : UInt64)
  | addEdge (source target : UInt64)
  | removeEdge (source target : UInt64)
  deriving DecidableEq

def object : Replication.Object CRDTGraph Call where
  update g
    | .addNode nodeId => g.addNode nodeId
    | .addEdge source target => g.addEdge source target
    | .removeEdge source target => g.removeEdge source target
  merge := merge

end CRDTGraph

-- ---------------------------------------------------------------------------
-- Anti-entropy
-- ---------------------------------------------------------------------------

structure AntiEntropy (S : Type) where
  state : S
  versionVector : VersionVector

structure AntiEntropyAgent (S Delta : Type) where
  computeDelta : S → S → Delta
  applyDelta : S → Delta → S

namespace AntiEntropy

variable {S Delta : Type}

def new (state : S) : AntiEntropy S := ⟨state, .new⟩

def sync (self other : AntiEntropy S) (agent : AntiEntropyAgent S Delta) : AntiEntropy S :=
  if self.versionVector.dominates other.versionVector then self
  else
    let updates := agent.computeDelta self.state other.state
    { state := agent.applyDelta self.state updates
      versionVector := self.versionVector.merge other.versionVector }

end AntiEntropy

end LiteVision.Storage
