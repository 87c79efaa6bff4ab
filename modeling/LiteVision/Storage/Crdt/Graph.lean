import LiteVision.Storage.Crdt.OrSet

/-!
# What a graph has seen

The sets inside a graph are only ever added to, so a merge loses none of their
elements, and a removed edge is remembered by a map of its own. What a graph
answers depends on nothing but the calls that went into it.
-/

namespace LiteVision.Storage

open Lib Replication

-- ---------------------------------------------------------------------------
-- Sets without tombstones
-- ---------------------------------------------------------------------------

namespace ORSet

variable {T : Type} [LinearOrder T]

/-- A set from which nothing was removed, with the elements `P`. -/
structure Holds (s : ORSet T) (P : T → Prop) : Prop where
  unburied : ∀ x, s.buried x = ∅
  contains : ∀ x, s.contains x = true ↔ P x

variable {a b : ORSet T} {P Q : T → Prop}

theorem holds_new (r : UInt64) : Holds (new r : ORSet T) fun _ => False where
  unburied _ := rfl
  contains x := by simp [contains_iff]

theorem Holds.congr (h : Holds a P) (hiff : ∀ x, P x ↔ Q x) : Holds a Q :=
  ⟨h.unburied, fun x => (h.contains x).trans (hiff x)⟩

theorem Holds.add (h : Holds a P) (x : T) : Holds (a.add x) fun y => y = x ∨ P y := by
  refine ⟨h.unburied, fun y => ?_⟩
  have hold := h.contains y
  rw [contains_iff, h.unburied] at hold
  rw [contains_iff, ids_add, buried_add, h.unburied, ← hold]
  by_cases hy : y = x
  · subst hy
    simp
  · simp [hy]

theorem survives_iff (ha : Holds a P) (hb : ∀ x, b.buried x = ∅) (x : T) :
    Survives a b x ↔ P x := by
  rw [← ha.contains, contains_iff, Survives]
  simp [ha.unburied, hb]

theorem Holds.merge (ha : Holds a P) (hb : Holds b Q) : Holds (a.merge b) fun x => P x ∨ Q x := by
  refine ⟨fun x => ?_, fun x => ?_⟩
  · rw [buried_merge, ha.unburied, hb.unburied, Finset.union_empty]
  · rw [contains_merge, survives_iff ha hb.unburied, survives_iff hb ha.unburied]
    simp [ha.unburied]

end ORSet

-- ---------------------------------------------------------------------------
-- Graphs
-- ---------------------------------------------------------------------------

namespace CRDTGraph

variable {ι : Type} {g h : CRDTGraph} {S U : Finset (Event ι Call)}

def edgeSet (g : CRDTGraph) (n : UInt64) : ORSet UInt64 := (g.edges.get n).getD (.new g.replicaId)

def removed (g : CRDTGraph) (n v : UInt64) : Bool := (g.edgeTombstones.get (toLex (n, v))).isSome

def Called (S : Finset (Event ι Call)) (call : Call) : Prop := ∃ e ∈ S, e.call = call

/-- The graph is what the calls of the history make it. -/
structure Reached (g : CRDTGraph) (S : Finset (Event ι Call)) : Prop where
  nodes : g.nodes.Holds fun v => Called S (.addNode v)
  edges : ∀ n, (g.edgeSet n).Holds fun v => Called S (.addEdge n v)
  removed : ∀ n v, g.removed n v = true ↔ Called S (.removeEdge n v)

theorem getNeighbors_eq (g : CRDTGraph) (n : UInt64) :
    g.getNeighbors n = (g.edgeSet n).get.filter fun v => !g.removed n v := by
  unfold getNeighbors edgeSet removed
  cases g.edges.get n with
  | none => simp [ORSet.get_eq, ORSet.new]
  | some set => simp

theorem edgeSet_addEdge (g : CRDTGraph) (source target n : UInt64) :
    (g.addEdge source target).edgeSet n =
      if n = source then (g.edgeSet source).add target else g.edgeSet n := by
  simp only [edgeSet, addEdge, Map.get_insert]
  split <;> rfl

theorem removed_removeEdge (g : CRDTGraph) (source target n v : UInt64) :
    (g.removeEdge source target).removed n v = true ↔
      (source = n ∧ target = v) ∨ g.removed n v = true := by
  simp only [removed, removeEdge, Map.get_insert]
  by_cases hkey : toLex (n, v) = toLex (source, target)
  · obtain ⟨rfl, rfl⟩ := Prod.mk.inj (toLex_inj.mp hkey)
    simp
  · have hne : ¬ (source = n ∧ target = v) := by
      rintro ⟨rfl, rfl⟩
      exact hkey rfl
    simp [hkey, hne]

theorem removed_merge (g h : CRDTGraph) (n v : UInt64) :
    (g.merge h).removed n v = true ↔ g.removed n v = true ∨ h.removed n v = true := by
  simp only [removed, merge, Map.get_mergeWith]
  cases h.edgeTombstones.get (toLex (n, v)) <;> simp

theorem edgeSet_merge (g h : CRDTGraph) (n : UInt64) :
    (g.merge h).edgeSet n = (h.edges.get n).elim (g.edgeSet n) (g.edgeSet n).merge := by
  simp only [edgeSet, merge, Map.get_mergeWith]
  cases h.edges.get n <;> simp

theorem reached_new (r : UInt64) : Reached (new r) (∅ : Finset (Event ι Call)) where
  nodes := (ORSet.holds_new r).congr fun v => by simp [Called]
  edges n := (ORSet.holds_new r).congr fun v => by simp [Called]
  removed n v := by simp [removed, new, Called]

theorem Reached.mem_getNeighbors {n v : UInt64} (hg : Reached g S) :
    v ∈ g.getNeighbors n ↔ Called S (.addEdge n v) ∧ ¬ Called S (.removeEdge n v) := by
  rw [getNeighbors_eq, List.mem_filter, ORSet.mem_get, (hg.edges n).contains, ← hg.removed,
    Bool.not_eq_true, Bool.not_eq_true']

theorem Reached.tombstones_eq_none {n v : UInt64} (hg : Reached g S) :
    g.edgeTombstones.get (toLex (n, v)) = none ↔ ¬ Called S (.removeEdge n v) := by
  rw [← hg.removed n v, CRDTGraph.removed, Bool.not_eq_true, Option.isSome_eq_false_iff,
    Option.isNone_iff_eq_none]

variable [DecidableEq ι]

theorem called_insert {e : Event ι Call} {call : Call} :
    Called (insert e S) call ↔ call = e.call ∨ Called S call := by
  simp [Called, eq_comm]

theorem called_union {call : Call} : Called (S ∪ U) call ↔ Called S call ∨ Called U call := by
  simp only [Called, Finset.mem_union, or_and_right, exists_or]

theorem Reached.update (hg : Reached g S) (e : Event ι Call) :
    Reached (object.update g e.call) (insert e S) := by
  obtain ⟨time, replica, call⟩ := e
  cases call with
  | addNode w =>
    constructor
    case nodes => exact (hg.nodes.add w).congr fun v => by simp [called_insert]
    case edges => exact fun n => (hg.edges n).congr fun v => by simp [called_insert]
    case removed => exact fun n v => (hg.removed n v).trans (by simp [called_insert])
  | addEdge source target =>
    constructor
    case nodes => exact hg.nodes.congr fun v => by simp [called_insert]
    case edges =>
      intro n
      change ((g.addEdge source target).edgeSet n).Holds _
      rw [edgeSet_addEdge]
      split
      · rename_i hn
        subst hn
        exact ((hg.edges n).add target).congr fun v => by simp [called_insert]
      · rename_i hn
        exact (hg.edges n).congr fun v => by simp [called_insert, hn]
    case removed => exact fun n v => (hg.removed n v).trans (by simp [called_insert])
  | removeEdge source target =>
    constructor
    case nodes => exact hg.nodes.congr fun v => by simp [called_insert]
    case edges => exact fun n => (hg.edges n).congr fun v => by simp [called_insert]
    case removed =>
      intro n v
      rw [called_insert, ← hg.removed n v, Call.removeEdge.injEq, eq_comm (a := n),
        eq_comm (a := v)]
      exact removed_removeEdge g source target n v

theorem Reached.merge (hg : Reached g S) (hh : Reached h U) : Reached (g.merge h) (S ∪ U) := by
  constructor
  case nodes => exact (hg.nodes.merge hh.nodes).congr fun v => called_union.symm
  case edges =>
    intro n
    have hother := hh.edges n
    rw [edgeSet] at hother
    rw [edgeSet_merge]
    cases hn : h.edges.get n with
    | none =>
      -- no edge out of `n` has reached the other graph
      rw [hn] at hother
      refine (hg.edges n).congr fun v => ?_
      rw [called_union, ← hother.contains v]
      simp [ORSet.contains_iff]
    | some set =>
      rw [hn] at hother
      exact ((hg.edges n).merge hother).congr fun v => called_union.symm
  case removed =>
    intro n v
    rw [removed_merge, called_union, hg.removed, hh.removed]

theorem reached_run (ids : ι → UInt64) (ops : List (Op ι Call)) (i : ι) :
    let net := object.run (fun i => new (ids i)) ops
    Reached (net.now i).state (net.now i).seen := by
  refine forall_held (P := fun _ n => Reached n.state n.seen) ?_ ?_ ?_ ops i _ (Net.held_now _ i)
  · exact fun i => reached_new (ids i)
  · exact fun i n e hn _ _ => hn.update e
  · exact fun i j n m hn hm _ => hn.merge hm

/-- A replica answers by the calls that reached it: its own and those merged in. -/
theorem graph_answers (ids : ι → UInt64) (ops : List (Op ι Call)) :
    let net := object.run (fun i => new (ids i)) ops
    (∀ i n v, v ∈ (net.now i).state.getNeighbors n ↔
      Called (net.now i).seen (.addEdge n v) ∧ ¬ Called (net.now i).seen (.removeEdge n v)) ∧
    (∀ i v, v ∈ (net.now i).state.nodes.get ↔ Called (net.now i).seen (.addNode v)) ∧
    ∀ i j, (∀ call, Called (net.now i).seen call ↔ Called (net.now j).seen call) →
      (∀ n, (net.now i).state.getNeighbors n = (net.now j).state.getNeighbors n) ∧
        (net.now i).state.nodes.get = (net.now j).state.nodes.get := by
  intro net
  have hreached := reached_run ids ops
  refine ⟨fun i n v => ?_, fun i v => ?_, fun i j hsame => ⟨fun n => ?_, ?_⟩⟩
  · exact (hreached i).mem_getNeighbors
  · rw [ORSet.mem_get, (hreached i).nodes.contains]
  · have hremoved : ∀ v, (net.now i).state.removed n v = (net.now j).state.removed n v := by
      intro v
      rw [Bool.eq_iff_iff, (hreached i).removed, (hreached j).removed, hsame]
    have hget : ((net.now i).state.edgeSet n).get = ((net.now j).state.edgeSet n).get := by
      apply ORSet.get_congr
      intro v
      rw [Bool.eq_iff_iff, ((hreached i).edges n).contains, ((hreached j).edges n).contains, hsame]
    rw [getNeighbors_eq, getNeighbors_eq, hget]
    simp only [hremoved]
  · apply ORSet.get_congr
    intro v
    rw [Bool.eq_iff_iff, (hreached i).nodes.contains, (hreached j).nodes.contains, hsame]

end CRDTGraph

end LiteVision.Storage
