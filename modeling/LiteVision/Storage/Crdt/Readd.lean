import LiteVision.Storage.Crdt.Graph

/-!
# Adding an edge again

A removed edge leaves a tombstone under its own key, and no call takes one away. So an
edge that is added is there, until it is removed or something is merged, just when the
graph has no tombstone of it.
-/

namespace LiteVision.Storage.CRDTGraph

open Lib Replication

variable {ι : Type} [DecidableEq ι] {i : ι} {u v : UInt64} {net : Net ι CRDTGraph Call}

/-- A step that does not remove the edge at `i` and merges nothing into `i`. -/
def Quiet (i : ι) (u v : UInt64) : Op ι Call → Prop
  | .update j call => j = i → call ≠ .removeEdge u v
  | .merge j _ _ => j ≠ i

/-- The edge was added at `i` or before, and never removed. -/
def Kept (i : ι) (u v : UInt64) (net : Net ι CRDTGraph Call) : Prop :=
  Called (net.now i).seen (.addEdge u v) ∧ ¬ Called (net.now i).seen (.removeEdge u v)

theorem called_update {call call' : Call} :
    Called ((object.step net (.update i call)).now i).seen call' ↔
      call' = call ∨ Called (net.now i).seen call' := by
  rw [Object.step, Net.now_put_self]
  exact called_insert

theorem Kept.step (h : Kept i u v net) {op : Op ι Call} (hquiet : Quiet i u v op) :
    Kept i u v (object.step net op) := by
  cases op with
  | update j call =>
    by_cases hj : j = i
    · subst hj
      refine ⟨called_update.mpr (.inr h.1), fun hcalled => ?_⟩
      rcases called_update.mp hcalled with hcall | hold
      · exact hquiet rfl hcall.symm
      · exact h.2 hold
    · rw [Kept, Object.step_update_now_ne (Ne.symm hj)]
      exact h
  | merge j k age =>
    rw [Kept, Object.step_merge_now_ne (Ne.symm hquiet)]
    exact h

theorem kept_addEdge :
    Kept i u v (object.step net (.update i (.addEdge u v))) ↔
      ¬ Called (net.now i).seen (.removeEdge u v) := by
  rw [Kept, called_update, called_update]
  simp

theorem run_append (init : ι → CRDTGraph) (ops later : List (Op ι Call)) :
    object.run init (ops ++ later) = Trace.exec object.step (object.run init ops) later :=
  Trace.exec_append ops later

/-- An edge added at a replica is there, right after the call and until a step there
removes it or merges, just when the replica has no tombstone of it: when no removal of
it has reached the replica. -/
theorem readd_edge_iff (ids : ι → UInt64) (ops : List (Op ι Call)) (i : ι) (u v : UInt64) :
    let net := object.run (fun i => new (ids i)) ops
    let added := object.step net (.update i (.addEdge u v))
    (v ∈ (added.now i).state.getNeighbors u ↔
      (net.now i).state.edgeTombstones.get (toLex (u, v)) = none) ∧
    ((∀ later, (∀ op ∈ later, Quiet i u v op) →
        v ∈ ((Trace.exec object.step added later).now i).state.getNeighbors u) ↔
      (net.now i).state.edgeTombstones.get (toLex (u, v)) = none) ∧
    ((net.now i).state.edgeTombstones.get (toLex (u, v)) = none ↔
      ¬ Called (net.now i).seen (.removeEdge u v)) := by
  intro net added
  have htombstones := (reached_run ids ops i).tombstones_eq_none (n := u) (v := v)
  have hneighbors : ∀ later, v ∈ ((Trace.exec object.step added later).now i).state.getNeighbors u ↔
      Kept i u v (Trace.exec object.step added later) := by
    intro later
    have hreached := reached_run ids (ops ++ .update i (.addEdge u v) :: later) i
    rw [run_append] at hreached
    exact hreached.mem_getNeighbors
  have hright : v ∈ (added.now i).state.getNeighbors u ↔
      (net.now i).state.edgeTombstones.get (toLex (u, v)) = none :=
    (hneighbors []).trans (kept_addEdge.trans htombstones.symm)
  refine ⟨hright, ⟨fun h => ?_, fun h later hquiet => ?_⟩, htombstones⟩
  · exact hright.mp (h [] fun op hop => by cases hop)
  · have hkept : Kept i u v added := kept_addEdge.mpr (htombstones.mp h)
    have hsteps : Trace.Always object.step (fun _ op => Quiet i u v op) added later :=
      Trace.always_of_forall_mem fun op hop _ => hquiet op hop
    exact (hneighbors later).mpr (hsteps.exec (fun _ _ hs hop => hs.step hop) hkept)

/-- One replica that removes an edge and adds it again. -/
theorem readd_edge_fails :
    ¬ ∀ (ops : List (Op Unit Call)) (u v : UInt64),
      v ∈ ((object.run (fun _ => new 1)
        (ops ++ [.update () (.addEdge u v)])).now ()).state.getNeighbors u := by
  intro h
  have hreached := reached_run (fun _ : Unit => 1)
    ([.update () (.addEdge 1 2), .update () (.removeEdge 1 2)] ++ [.update () (.addEdge 1 2)]) ()
  refine (hreached.mem_getNeighbors.mp (h _ 1 2)).2 ?_
  rw [Object.run_concat, called_update]
  exact .inr (called_update.mpr (.inl rfl))

end LiteVision.Storage.CRDTGraph
