import LiteVision.Rpack.Scene

/-!
# The cycle check

The degree of a node counts the edges into it whose source has not been taken. A node is
put into the queue when that is zero, so it is taken after everything that leads to it.
-/

namespace LiteVision.Rpack.SceneIR

open Lib

def Link (scene : SceneIR) (id id' : UInt64) : Prop :=
  ∃ edge ∈ scene.edges, edge.source = id ∧ edge.target = id'

def nodeIds (scene : SceneIR) : List UInt64 := scene.nodes.map Node.nodeId

variable {scene : SceneIR} {edges : List Edge} {inDegree : Map UInt64 Nat}
  {front taken queue : List UInt64} {nodeId : UInt64} {degree : UInt64 → Nat}

-- ---------------------------------------------------------------------------
-- One node
-- ---------------------------------------------------------------------------

/-- The degrees are as given, and the nodes of degree zero have been put into the queue,
once each. -/
structure Waiting (front queue : List UInt64) (inDegree : Map UInt64 Nat)
    (degree : UInt64 → Nat) : Prop where
  nodup : (front ++ queue).Nodup
  degree : ∀ id d, inDegree.get id = some d → d = degree id
  zero : ∀ id, id ∈ front ++ queue ↔ inDegree.get id = some 0

theorem Waiting.lower (h : Waiting front queue inDegree degree) {target : UInt64} {d : Nat}
    (hget : inDegree.get target = some (d + 1)) {degree' : UInt64 → Nat}
    (hself : degree' target = d) (hother : ∀ id, id ≠ target → degree' id = degree id) :
    Waiting front (if d = 0 then queue ++ [target] else queue) (inDegree.insert target d)
      degree' := by
  have hnew : target ∉ front ++ queue := by
    rw [h.zero, hget]
    simp
  have hmem (id : UInt64) : id ∈ front ++ (if d = 0 then queue ++ [target] else queue) ↔
      id ∈ front ++ queue ∨ (d = 0 ∧ id = target) := by
    split
    · rename_i hzero
      simp [hzero, or_assoc]
    · rename_i hzero
      simp [hzero]
  refine ⟨?_, fun id e hinsert => ?_, fun id => ?_⟩
  · split
    · rw [← List.append_assoc]
      exact List.nodup_append_comm.mpr (List.nodup_cons.mpr ⟨hnew, h.nodup⟩)
    · exact h.nodup
  · rcases Map.of_get_insert hinsert with ⟨rfl, rfl⟩ | ⟨hne, hold⟩
    · exact hself.symm
    · rw [hother id hne]
      exact h.degree id e hold
  · rw [hmem, Map.get_insert]
    split
    · rename_i heq
      simp [heq, hnew]
    · rename_i hne
      simp [hne, h.zero]

def between (edges : List Edge) (nodeId id : UInt64) : Nat :=
  edges.countP fun edge => edge.target = id ∧ edge.source = nodeId

theorem between_cons_target {edge : Edge} (hsource : edge.source = nodeId) :
    between (edge :: edges) nodeId edge.target = between edges nodeId edge.target + 1 :=
  List.countP_cons_of_pos (by simp [hsource])

theorem between_cons_ne {edge : Edge} {id : UInt64}
    (h : ¬ (edge.target = id ∧ edge.source = nodeId)) :
    between (edge :: edges) nodeId id = between edges nodeId id :=
  List.countP_cons_of_neg (by simpa using h)

/-- The loop lets go of all edges out of the node, and of nothing twice. -/
theorem release_spec (edges : List Edge) {inDegree : Map UInt64 Nat} {queue : List UInt64}
    (h : Waiting front queue inDegree fun id => degree id + between edges nodeId id) :
    ∃ released, release nodeId edges inDegree queue = some released ∧
      Waiting front released.2 released.1 degree ∧ released.1.keys = inDegree.keys := by
  induction edges generalizing inDegree queue with
  | nil => exact ⟨(inDegree, queue), rfl, h, rfl⟩
  | cons edge edges ih =>
    rw [release]
    split
    · rename_i hsource
      have hother (id : UInt64) (hne : id ≠ edge.target) :
          between (edge :: edges) nodeId id = between edges nodeId id :=
        between_cons_ne fun hedge => hne hedge.1.symm
      split
      · rename_i hnone
        refine ih ⟨h.nodup, fun id d hget => ?_, h.zero⟩
        rw [h.degree id d hget, hother]
        rintro rfl
        cases hnone.symm.trans hget
      · rename_i hzero
        have hdegree := h.degree edge.target 0 hzero
        rw [between_cons_target hsource] at hdegree
        omega
      · rename_i d hget
        have hdegree := h.degree edge.target (d + 1) hget
        rw [between_cons_target hsource] at hdegree
        have hlower : Waiting front (if d = 0 then queue ++ [edge.target] else queue)
            (inDegree.insert edge.target d) fun id => degree id + between edges nodeId id :=
          h.lower hget (by omega) fun id hne => by rw [hother id hne]
        obtain ⟨released, hrelease, hwaiting, hkeys⟩ := ih hlower
        refine ⟨released, hrelease, hwaiting, hkeys.trans ?_⟩
        rw [Map.keys_insert, Finset.insert_eq_of_mem (Map.mem_keys.mpr ⟨d + 1, hget⟩)]
    · rename_i hsource
      refine ih ⟨h.nodup, fun id d hget => ?_, h.zero⟩
      rw [h.degree id d hget, between_cons_ne fun hedge => hsource hedge.2]

-- ---------------------------------------------------------------------------
-- All nodes
-- ---------------------------------------------------------------------------

/-- The edges into a node whose source has not been taken. -/
def held (edges : List Edge) (taken : List UInt64) (id : UInt64) : Nat :=
  edges.countP fun edge => edge.target = id ∧ edge.source ∉ taken

theorem held_eq_zero {id : UInt64} :
    held edges taken id = 0 ↔ ∀ edge ∈ edges, edge.target = id → edge.source ∈ taken := by
  simp only [held, List.countP_eq_zero, decide_eq_true_eq, not_and, not_not]

theorem held_concat (hnew : nodeId ∉ taken) (edges : List Edge) (id : UInt64) :
    held edges taken id = held edges (taken ++ [nodeId]) id + between edges nodeId id := by
  induction edges with
  | nil => rfl
  | cons edge edges ih =>
    have hedge : (if edge.target = id ∧ edge.source ∉ taken then 1 else 0) =
        (if edge.target = id ∧ edge.source ∉ taken ++ [nodeId] then 1 else 0) +
          if edge.target = id ∧ edge.source = nodeId then 1 else 0 := by
      by_cases hsource : edge.source = nodeId
      · simp [hsource, hnew]
      · simp [hsource]
    simp only [held, between, List.countP_cons, decide_eq_true_eq] at ih ⊢
    rw [ih, hedge]
    omega

/-- What the loop over the queue keeps. -/
structure Counted (scene : SceneIR) (taken queue : List UInt64) (inDegree : Map UInt64 Nat) :
    Prop where
  waiting : Waiting taken queue inDegree (held scene.edges taken)
  keys : inDegree.keys = scene.nodeIds.toFinset
  order : Acyclic.Topological scene.Link taken

theorem Counted.take (h : Counted scene taken (nodeId :: queue) inDegree) :
    ∃ released, release nodeId scene.edges inDegree queue = some released ∧
      Counted scene (taken ++ [nodeId]) released.2 released.1 := by
  have hwaiting := h.waiting
  have hnodup : (taken ++ [nodeId] ++ queue).Nodup := by
    rw [List.append_assoc]
    exact hwaiting.nodup
  have hnew : nodeId ∉ taken := fun hmem =>
    (List.nodup_append.mp hwaiting.nodup).2.2 nodeId hmem nodeId List.mem_cons_self rfl
  have hnext : Waiting (taken ++ [nodeId]) queue inDegree fun id =>
      held scene.edges (taken ++ [nodeId]) id + between scene.edges nodeId id := by
    refine ⟨hnodup, fun id d hget => ?_, fun id => ?_⟩
    · rw [hwaiting.degree id d hget]
      exact held_concat hnew scene.edges id
    · rw [List.append_assoc]
      exact hwaiting.zero id
  obtain ⟨released, hrelease, hreleased, hkeys⟩ := release_spec scene.edges hnext
  refine ⟨released, hrelease, hreleased, hkeys.trans h.keys, h.order.concat ?_⟩
  -- its degree is zero, so the sources of all edges into it have been taken
  have hzero : inDegree.get nodeId = some 0 :=
    (hwaiting.zero nodeId).mp (List.mem_append_right taken List.mem_cons_self)
  have hheld := held_eq_zero.mp (hwaiting.degree nodeId 0 hzero).symm
  rintro _ ⟨edge, hedge, rfl, htarget⟩
  exact hheld edge hedge htarget

theorem visit_spec {visited : Nat} (h : Counted scene taken queue inDegree)
    (hvisited : visited = taken.length) :
    ∃ taken' inDegree', visit scene.edges queue inDegree visited = some taken'.length ∧
      Counted scene taken' [] inDegree' := by
  fun_induction visit scene.edges queue inDegree visited generalizing taken with
  | case1 inDegree visited => exact ⟨taken, inDegree, congrArg some hvisited, h⟩
  | case2 inDegree visited nodeId queue hnone =>
    obtain ⟨released, hrelease, -⟩ := h.take
    cases hnone.symm.trans hrelease
  | case3 inDegree visited nodeId queue released hrelease ih =>
    obtain ⟨released', hrelease', hnext⟩ := h.take
    obtain rfl := Option.some.inj (hrelease.symm.trans hrelease')
    exact ih hnext (by rw [hvisited, List.length_append, List.length_singleton])

-- ---------------------------------------------------------------------------
-- The whole scene
-- ---------------------------------------------------------------------------

theorem enter_get (inDegree : Map UInt64 Nat) (nodeId id : UInt64) :
    (enter inDegree nodeId).get id = if id = nodeId then some ((inDegree.get id).getD 0)
      else inDegree.get id := by
  rw [enter]
  split
  · rename_i d hget
    split
    · rename_i heq
      rw [heq, hget]
      rfl
    · rfl
  · rename_i hnone
    rw [Map.get_insert]
    split
    · rename_i heq
      rw [heq, hnone]
      rfl
    · rfl

theorem enter_foldl (nodes : List Node) (inDegree : Map UInt64 Nat) (id : UInt64) :
    (nodes.foldl (fun inDegree node => enter inDegree node.nodeId) inDegree).get id =
      if id ∈ nodes.map Node.nodeId then some ((inDegree.get id).getD 0)
      else inDegree.get id := by
  induction nodes generalizing inDegree with
  | nil => simp
  | cons node nodes ih =>
    rw [List.foldl_cons, ih, enter_get]
    by_cases hself : id = node.nodeId <;> by_cases hrest : id ∈ nodes.map Node.nodeId <;>
      simp [hself, hrest]

theorem held_nil_cons (edge : Edge) (edges : List Edge) (id : UInt64) :
    held (edge :: edges) [] id = held edges [] id + if edge.target = id then 1 else 0 := by
  simp [held, List.countP_cons]

theorem modify_foldl (edges : List Edge) (inDegree : Map UInt64 Nat) (id : UInt64) :
    (edges.foldl (fun inDegree edge => inDegree.modify edge.target (· + 1)) inDegree).get id =
      (inDegree.get id).map (· + held edges [] id) := by
  induction edges generalizing inDegree with
  | nil => simp [held]
  | cons edge edges ih =>
    rw [List.foldl_cons, ih, Map.get_modify, held_nil_cons]
    by_cases htarget : edge.target = id
    · subst htarget
      rw [if_pos rfl, if_pos rfl, Option.map_map]
      exact congrArg (Option.map · _) (funext fun d => by simp only [Function.comp_apply]; omega)
    · rw [if_neg (Ne.symm htarget), if_neg htarget, Nat.add_zero]

theorem inDegree_get (scene : SceneIR) (id : UInt64) :
    scene.inDegree.get id = if id ∈ scene.nodeIds then some (held scene.edges [] id) else none := by
  rw [inDegree, modify_foldl, enter_foldl, Map.get_empty, nodeIds]
  split
  · rw [Option.map_some, Option.getD_none, Nat.zero_add]
  · rfl

theorem new_counted (it : Map.Iteration UInt64 Nat) (scene : SceneIR) :
    Counted scene []
      (((it.entries scene.inDegree).filter fun entry => entry.2 = 0).map Prod.fst)
      scene.inDegree := by
  refine ⟨⟨?_, fun id d hget => ?_, fun id => ?_⟩, ?_, .nil⟩
  · exact (List.filter_sublist.map Prod.fst).nodup (it.nodup scene.inDegree)
  · rw [inDegree_get] at hget
    split at hget
    · exact (Option.some.inj hget).symm
    · cases hget
  · rw [List.nil_append, ← it.mem]
    simp
  · ext id
    rw [Map.mem_keys, inDegree_get, List.mem_toFinset]
    split <;> simp [*]

theorem isAcyclic_spec (it : Map.Iteration UInt64 Nat) (scene : SceneIR) :
    ∃ taken inDegree, Counted scene taken [] inDegree ∧
      scene.isAcyclic it = some (decide (taken.length = scene.nodes.length)) := by
  obtain ⟨taken, inDegree, hvisit, hcounted⟩ := visit_spec (new_counted it scene)
    (show 0 = ([] : List UInt64).length from rfl)
  exact ⟨taken, inDegree, hcounted, by rw [isAcyclic, hvisit]; rfl⟩

theorem Counted.untaken (h : Counted scene taken [] inDegree) {id : UInt64}
    (hnode : id ∈ scene.nodeIds) (hid : id ∉ taken) : ∃ id', id' ∉ taken ∧ scene.Link id' id := by
  have hkey : id ∈ inDegree.keys := by
    rw [h.keys]
    exact List.mem_toFinset.mpr hnode
  obtain ⟨d, hget⟩ := Map.mem_keys.mp hkey
  by_contra hback
  have hheld : held scene.edges taken id = 0 := by
    refine held_eq_zero.mpr fun edge hedge htarget => ?_
    by_contra hsource
    exact hback ⟨edge.source, hsource, edge, hedge, rfl, htarget⟩
  have hzero := h.waiting.zero id
  rw [List.append_nil, hget, h.waiting.degree id d hget, hheld] at hzero
  exact hid (hzero.mpr rfl)

theorem Counted.taken_eq_iff (h : Counted scene taken [] inDegree) (hids : scene.nodeIds.Nodup) :
    taken.length = scene.nodes.length ↔ ∀ id ∈ scene.nodeIds, id ∈ taken := by
  have hnodup : taken.Nodup := by
    have := h.waiting.nodup
    rwa [List.append_nil] at this
  have hsubset : taken ⊆ scene.nodeIds := by
    intro id hid
    have hzero := (h.waiting.zero id).mp (by rwa [List.append_nil])
    have hkey := Map.mem_keys.mpr ⟨0, hzero⟩
    rw [h.keys] at hkey
    exact List.mem_toFinset.mp hkey
  have hlength : scene.nodeIds.length = scene.nodes.length := List.length_map _
  rw [← hlength]
  constructor
  · intro heq id hid
    exact ((List.subperm_of_subset hnodup hsubset).perm_of_length_le heq.ge).mem_iff.mpr hid
  · intro hall
    exact ((List.perm_ext_iff_of_nodup hnodup hids).mpr fun id =>
      ⟨fun hid => hsubset hid, hall id⟩).length_eq

/-- Whatever the order in which the nodes are found: the check comes to an end without an
underflow, and a scene that passes has no cycle through a node; if no edge dangles, the
scenes that pass are those without a cycle. -/
theorem isAcyclic_iff (it : Map.Iteration UInt64 Nat) (scene : SceneIR)
    (hids : scene.nodeIds.Nodup) :
    ∃ acyclic, scene.isAcyclic it = some acyclic ∧
      (acyclic = true → ∀ id ∈ scene.nodeIds, ¬ Relation.TransGen scene.Link id id) ∧
      ((∀ edge ∈ scene.edges, edge.source ∈ scene.nodeIds ∧ edge.target ∈ scene.nodeIds) →
        (acyclic = true ↔ ∀ id, ¬ Relation.TransGen scene.Link id id)) := by
  obtain ⟨taken, inDegree, hcounted, hacyclic⟩ := isAcyclic_spec it scene
  have htaken := hcounted.taken_eq_iff hids
  have hsound (hall : ∀ id ∈ scene.nodeIds, id ∈ taken) (id : UInt64) (hid : id ∈ scene.nodeIds) :
      ¬ Relation.TransGen scene.Link id id :=
    hcounted.order.not_transGen (hall id hid)
  refine ⟨_, hacyclic, fun htrue => hsound (htaken.mp (of_decide_eq_true htrue)),
    fun hends => ?_⟩
  rw [decide_eq_true_iff, htaken]
  constructor
  · intro hall id hcycle
    obtain ⟨_, -, edge, hedge, -, rfl⟩ := Relation.TransGen.tail'_iff.mp hcycle
    exact hsound hall edge.target (hends edge hedge).2 hcycle
  · intro hnone
    by_contra hleft
    simp only [not_forall] at hleft
    obtain ⟨id, hid, hmissing⟩ := hleft
    -- from every node that was not taken one can go back to another such node
    have hback : ∀ id ∈ scene.nodeIds.toFinset.filter (· ∉ taken),
        ∃ id' ∈ scene.nodeIds.toFinset.filter (· ∉ taken), scene.Link id' id := by
      intro id hid
      rw [Finset.mem_filter, List.mem_toFinset] at hid
      obtain ⟨id', hmissing', edge, hedge, hsource, htarget⟩ := hcounted.untaken hid.1 hid.2
      refine ⟨id', ?_, edge, hedge, hsource, htarget⟩
      rw [Finset.mem_filter, List.mem_toFinset, ← hsource]
      exact ⟨(hends edge hedge).1, hsource ▸ hmissing'⟩
    obtain ⟨a, -, hcycle⟩ := Acyclic.exists_transGen
      ⟨id, Finset.mem_filter.mpr ⟨List.mem_toFinset.mpr hid, hmissing⟩⟩ hback
    exact hnone a hcycle

-- ---------------------------------------------------------------------------
-- Scenes that were put together
-- ---------------------------------------------------------------------------

def Numbered (scene : SceneIR) : Prop :=
  scene.nodeIds = (List.range scene.nodes.length).map UInt64.ofNat

theorem new_numbered : new.Numbered := rfl

theorem addNode_numbered (h : scene.Numbered) (node : Node) : (scene.addNode node).2.Numbered := by
  simp only [Numbered, nodeIds, addNode, List.map_append, List.length_append,
    List.length_singleton, List.range_succ] at h ⊢
  rw [h]
  rfl

theorem addEdge_numbered (h : scene.Numbered) (edge : Edge) : (scene.addEdge edge).Numbered := h

theorem Numbered.nodup (h : scene.Numbered) (hfew : scene.nodes.length ≤ 2 ^ 64) :
    scene.nodeIds.Nodup := by
  rw [h]
  refine List.Nodup.map_on (fun i hi j hj heq => ?_) List.nodup_range
  have hi' := List.mem_range.mp hi
  have hj' := List.mem_range.mp hj
  have hword := congrArg UInt64.toNat heq
  rwa [UInt64.toNat_ofNat_of_lt' (by simp [UInt64.size]; omega),
    UInt64.toNat_ofNat_of_lt' (by simp [UInt64.size]; omega)] at hword

/-- Two nodes, two edges from one to the other and one from nowhere. -/
theorem isAcyclic_iff_dangling :
    let _ : LinearOrder UInt64 := .lift' UInt64.toNat fun _ _ => UInt64.toNat_inj.mp
    let it : Map.Iteration UInt64 Nat := .ascending
    let nodes := (new.addNode ⟨0⟩).2.addNode ⟨0⟩
    let scene := ((nodes.2.addEdge ⟨0, 1⟩).addEdge ⟨0, 1⟩).addEdge ⟨7, 1⟩
    ∃ acyclic, scene.isAcyclic it = some acyclic ∧
      (acyclic = true → ∀ id ∈ scene.nodeIds, ¬ Relation.TransGen scene.Link id id) ∧
      ((∀ edge ∈ scene.edges, edge.source ∈ scene.nodeIds ∧ edge.target ∈ scene.nodeIds) →
        (acyclic = true ↔ ∀ id, ¬ Relation.TransGen scene.Link id id)) := by
  intro _ it nodes scene
  exact isAcyclic_iff it scene (by decide)

end LiteVision.Rpack.SceneIR
