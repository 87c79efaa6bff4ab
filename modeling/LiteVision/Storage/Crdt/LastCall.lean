import LiteVision.Storage.Crdt.OrSet

/-!
# Membership and the last call

A replica that merges nothing should hold an element exactly if the last call on it
was an add. It does, as long as no remove finds two ids of its element without a
tombstone.
-/

namespace LiteVision.Storage.ORSet

open Lib Replication

variable {T : Type} [LinearOrder T] {ι : Type} [DecidableEq ι]

/-- After an add the element is there: its id is not buried, or it was there before. -/
def AddKeeps (s : ORSet T) (x : T) : Prop := s.nextOpId.1 ∉ s.buried x ∨ s.contains x = true

/-- All ids of the element but the greatest are buried. -/
def RemoveKeeps (s : ORSet T) (x : T) : Prop :=
  ∀ id ∈ s.ids x, id ∈ s.buried x ∨ ∀ j ∈ s.ids x, j ≤ id

def Keeps (net : Net ι (ORSet T) (Call T)) : Op ι (Call T) → Prop
  | .update i (.add x) => AddKeeps (net.now i).state x
  | .update i (.remove x) => RemoveKeeps (net.now i).state x
  | .merge _ _ _ => True

def RemovesKeep (net : Net ι (ORSet T) (Call T)) : Op ι (Call T) → Prop
  | .update i (.remove x) => RemoveKeeps (net.now i).state x
  | _ => True

instance (s : ORSet T) (x : T) : Decidable (AddKeeps s x) := inferInstanceAs (Decidable (_ ∨ _))

instance (s : ORSet T) (x : T) : Decidable (RemoveKeeps s x) :=
  inferInstanceAs (Decidable (∀ id ∈ s.ids x, id ∈ s.buried x ∨ ∀ j ∈ s.ids x, j ≤ id))

instance (net : Net ι (ORSet T) (Call T)) : DecidablePred (Keeps net)
  | .update i (.add x) => inferInstanceAs (Decidable (AddKeeps (net.now i).state x))
  | .update i (.remove x) => inferInstanceAs (Decidable (RemoveKeeps (net.now i).state x))
  | .merge _ _ _ => .isTrue trivial

/-- The clock of the replica that adds does not wrap around. -/
def Clocked (net : Net ι (ORSet T) (Call T)) : Op ι (Call T) → Prop
  | .update i (.add _) => (net.now i).state.clock.toNat + 1 < 2 ^ 64
  | _ => True

-- ---------------------------------------------------------------------------
-- Calls that have their effect in order
-- ---------------------------------------------------------------------------

/-- A call after which `x` may be at `i` again. -/
def Returns (i : ι) (x : T) : Op ι (Call T) → Prop
  | .update j (.add y) => j = i ∧ y = x
  | .update _ (.remove _) => False
  | .merge j _ _ => j = i

/-- Whether the last call on `x` at `i` was an add. -/
def lastIsAdd (i : ι) (x : T) (ops : List (Op ι (Call T))) : Bool :=
  ops.foldl (fun last op =>
    match op with
    | .update j (.add y) => if j = i ∧ y = x then true else last
    | .update j (.remove y) => if j = i ∧ y = x then false else last
    | .merge _ _ _ => last) false

def network (ids : ι → UInt64) (ops : List (Op ι (Call T))) : Net ι (ORSet T) (Call T) :=
  object.run (fun i => new (ids i)) ops

structure Sequential (ids : ι → UInt64) (ops : List (Op ι (Call T))) : Prop where
  /-- An element just added is there. -/
  added : ∀ before i x, before ++ [.update i (.add x)] <+: ops →
    ((network ids (before ++ [.update i (.add x)])).now i).state.contains x = true
  /-- An element removed is gone until it is added again or something is merged. -/
  removed : ∀ before i x between, before ++ .update i (.remove x) :: between <+: ops →
    (((network ids before).now i).state.remove x).1 = true → (∀ op ∈ between, ¬ Returns i x op) →
    ((network ids (before ++ .update i (.remove x) :: between)).now i).state.contains x = false
  /-- Where nothing was merged, the last call decides. -/
  last : ∀ before i x, before <+: ops → (∀ j age, .merge i j age ∉ before) →
    ((network ids before).now i).state.contains x = lastIsAdd i x before

-- ---------------------------------------------------------------------------
-- One call
-- ---------------------------------------------------------------------------

section Calls

variable {s : ORSet T} {x y : T}

theorem contains_add_self : (s.add x).contains x = true ↔ AddKeeps s x := by
  rw [contains_iff, ids_add, if_pos rfl, buried_add, AddKeeps, contains_iff]
  simp only [Finset.mem_insert, exists_eq_or_imp]

theorem contains_add_ne (s : ORSet T) (h : y ≠ x) : (s.add x).contains y = s.contains y := by
  apply contains_congr
  · rw [ids_add, if_neg h]
  · rw [buried_add]

theorem contains_remove_self : (s.remove x).2.contains x = false ↔ RemoveKeeps s x := by
  rw [not_contains_iff, ids_remove, RemoveKeeps]
  by_cases h : (s.ids x).Nonempty
  · rw [buried_remove_self h]
    refine forall₂_congr fun id hid => ?_
    rw [Finset.mem_insert, or_comm]
    refine or_congr Iff.rfl ⟨?_, fun hmax => ?_⟩
    · rintro rfl j hj
      exact Finset.le_max' _ j hj
    · exact le_antisymm (Finset.le_max' _ id hid) (hmax _ (Finset.max'_mem _ h))
  · simp [Finset.not_nonempty_iff_eq_empty.mp h]

theorem contains_remove_ne (s : ORSet T) (h : y ≠ x) :
    (s.remove x).2.contains y = s.contains y :=
  contains_congr (ids_remove s x y) (buried_remove_of_ne s h)

theorem not_contains_remove (h : s.contains y = false) : (s.remove x).2.contains y = false := by
  rw [not_contains_iff] at h ⊢
  intro id hid
  rw [ids_remove] at hid
  exact buried_subset_remove s x y (h id hid)

theorem removeKeeps_of_not_found (h : (s.remove x).1 = false) : RemoveKeeps s x := by
  rcases s.remove_cases x with ⟨hne, heq⟩ | ⟨hempty, -⟩
  · rw [heq] at h
    cases h
  · intro id hid
    rw [hempty] at hid
    exact absurd hid (Finset.notMem_empty id)

end Calls

-- ---------------------------------------------------------------------------
-- Runs
-- ---------------------------------------------------------------------------

variable {ids : ι → UInt64} {ops : List (Op ι (Call T))} {net : Net ι (ORSet T) (Call T)}

@[simp] theorem network_concat (ops : List (Op ι (Call T))) (op : Op ι (Call T)) :
    network ids (ops ++ [op]) = object.step (network ids ops) op :=
  Object.run_concat ops op

theorem contains_step_add_self {i : ι} {x : T} (h : AddKeeps (net.now i).state x) :
    ((object.step net (.update i (.add x))).now i).state.contains x = true := by
  rw [Object.step_update_now]
  exact contains_add_self.mpr h

theorem contains_step_remove_self {i : ι} {x : T} (h : RemoveKeeps (net.now i).state x) :
    ((object.step net (.update i (.remove x))).now i).state.contains x = false := by
  rw [Object.step_update_now]
  exact contains_remove_self.mpr h

theorem contains_step_of_ne {i j : ι} {x y : T} {call : Call T}
    (hcall : call = .add y ∨ call = .remove y) (h : ¬ (j = i ∧ y = x)) :
    ((object.step net (.update j call)).now i).state.contains x =
      (net.now i).state.contains x := by
  by_cases hj : j = i
  · subst hj
    have hy : x ≠ y := fun heq => h ⟨rfl, heq.symm⟩
    rw [Object.step_update_now]
    rcases hcall with rfl | rfl
    · exact contains_add_ne _ hy
    · exact contains_remove_ne _ hy
  · rw [Object.step_update_now_ne (Ne.symm hj)]

theorem not_contains_step {i : ι} {x : T} (h : (net.now i).state.contains x = false)
    (op : Op ι (Call T)) (hop : ¬ Returns i x op) :
    ((object.step net op).now i).state.contains x = false := by
  cases op with
  | update j call =>
    cases call with
    | add y => rw [contains_step_of_ne (.inl rfl) hop, h]
    | remove y =>
      by_cases hj : j = i
      · subst hj
        rw [Object.step_update_now]
        exact not_contains_remove h
      · rw [Object.step_update_now_ne (Ne.symm hj), h]
  | merge j k age => rw [Object.step_merge_now_ne (Ne.symm hop), h]

theorem keeps_before (h : Trace.Always object.step Keeps (start fun i => new (ids i)) ops)
    {before : List (Op ι (Call T))} (hbefore : before <+: ops) :
    Trace.Always object.step Keeps (start fun i => new (ids i)) before := by
  obtain ⟨after, rfl⟩ := hbefore
  exact ((Trace.always_append before after).mp h).1

theorem keeps_last {before : List (Op ι (Call T))} {op : Op ι (Call T)}
    (h : Trace.Always object.step Keeps (start fun i => new (ids i)) (before ++ [op])) :
    Keeps (network ids before) op :=
  ((Trace.always_concat op).mp h).2

theorem lastIsAdd_concat (i : ι) (x : T) (ops : List (Op ι (Call T))) (op : Op ι (Call T)) :
    lastIsAdd i x (ops ++ [op]) =
      match op with
      | .update j (.add y) => if j = i ∧ y = x then true else lastIsAdd i x ops
      | .update j (.remove y) => if j = i ∧ y = x then false else lastIsAdd i x ops
      | .merge _ _ _ => lastIsAdd i x ops := by
  rw [lastIsAdd, List.foldl_append]
  rfl

theorem contains_eq_lastIsAdd (i : ι) (x : T) (before : List (Op ι (Call T)))
    (h : Trace.Always object.step Keeps (start fun i => new (ids i)) before)
    (hmerge : ∀ j age, .merge i j age ∉ before) :
    ((network ids before).now i).state.contains x = lastIsAdd i x before := by
  induction before using List.reverseRecOn with
  | nil => rfl
  | append_singleton before op ih =>
    have hstep := keeps_last h
    have hbefore := ih ((Trace.always_concat op).mp h).1 fun j age hin =>
      hmerge j age (List.mem_append_left _ hin)
    rw [network_concat, lastIsAdd_concat]
    cases op with
    | update j call =>
      cases call with
      | add y =>
        by_cases hself : j = i ∧ y = x
        · obtain ⟨rfl, rfl⟩ := hself
          simpa using contains_step_add_self hstep
        · rw [contains_step_of_ne (.inl rfl) hself, hbefore]
          simp only [hself, if_false]
      | remove y =>
        by_cases hself : j = i ∧ y = x
        · obtain ⟨rfl, rfl⟩ := hself
          simpa using contains_step_remove_self hstep
        · rw [contains_step_of_ne (.inr rfl) hself, hbefore]
          simp only [hself, if_false]
    | merge j k age =>
      have hne : i ≠ j := by
        rintro rfl
        exact hmerge k age (List.mem_append_right _ List.mem_cons_self)
      rw [Object.step_merge_now_ne hne, hbefore]

theorem sequential_iff_keeps :
    Sequential ids ops ↔ Trace.Always object.step Keeps (start fun i => new (ids i)) ops := by
  constructor
  · intro h
    rw [Trace.always_iff_forall]
    rintro before op after rfl
    cases op with
    | update i call =>
      cases call with
      | add x =>
        have hadded := h.added before i x ⟨after, by simp⟩
        rw [network_concat, Object.step_update_now] at hadded
        exact contains_add_self.mp hadded
      | remove x =>
        cases hfound : (((network ids before).now i).state.remove x).1 with
        | false => exact removeKeeps_of_not_found hfound
        | true =>
          have hremoved := h.removed before i x [] ⟨after, by simp⟩ hfound
            fun op hop => absurd hop List.not_mem_nil
          rw [network_concat, Object.step_update_now] at hremoved
          exact contains_remove_self.mp hremoved
    | merge i j age => trivial
  · intro h
    constructor
    case added =>
      intro before i x hbefore
      rw [network_concat]
      exact contains_step_add_self (keeps_last (keeps_before h hbefore))
    case removed =>
      intro before i x between hbefore _ hbetween
      induction between using List.reverseRecOn with
      | nil =>
        rw [network_concat]
        exact contains_step_remove_self (keeps_last (keeps_before h hbefore))
      | append_singleton between op ih =>
        rw [← List.cons_append, ← List.append_assoc] at hbefore ⊢
        rw [network_concat]
        apply not_contains_step _ op (hbetween op (List.mem_append_right _ List.mem_cons_self))
        exact ih ((List.prefix_append _ _).trans hbefore) fun op hop =>
          hbetween op (List.mem_append_left _ hop)
    case last =>
      intro before i x hbefore hmerge
      exact contains_eq_lastIsAdd i x before (keeps_before h hbefore) hmerge

-- ---------------------------------------------------------------------------
-- New ids
-- ---------------------------------------------------------------------------

/-- Every state writes under the id of its replica, and no id is ahead of its clock. -/
structure Stamped (ids : ι → UInt64) (net : Net ι (ORSet T) (Call T)) : Prop where
  replicaId : ∀ j n, net.Held j n → n.state.replicaId = ids j
  clock : ∀ j n, net.Held j n → ∀ x, ∀ id ∈ n.state.ids x ∪ n.state.buried x, ∀ i,
    id.replicaId = ids i → id.logicalClock ≤ (net.now i).state.clock

omit [DecidableEq ι] in
theorem stamped_start (ids : ι → UInt64) :
    Stamped ids (start fun i => (new (ids i) : ORSet T)) where
  replicaId j n hn := by rw [Net.held_start hn]; rfl
  clock j n hn x id hid := by simp [Net.held_start hn] at hid

theorem Stamped.put (hs : Stamped ids net) {i : ι} {n : Node ι (ORSet T) (Call T)}
    (hid : n.state.replicaId = ids i) (hclock : (net.now i).state.clock ≤ n.state.clock)
    (hids : ∀ x, ∀ id ∈ n.state.ids x ∪ n.state.buried x, ∀ k, id.replicaId = ids k →
      id.logicalClock ≤ (net.now k).state.clock ∨ (k = i ∧ id.logicalClock ≤ n.state.clock)) :
    Stamped ids (net.put i n) := by
  have hnow (k : ι) : (net.now k).state.clock ≤ ((net.put i n).now k).state.clock :=
    Net.le_put (fun n : Node ι (ORSet T) (Call T) => n.state.clock) hclock k
  constructor
  case replicaId =>
    intro j m hm
    rcases Net.held_put.mp hm with ⟨rfl, rfl⟩ | hold
    · exact hid
    · exact hs.replicaId j m hold
  case clock =>
    intro j m hm x id hin k hk
    rcases Net.held_put.mp hm with ⟨rfl, rfl⟩ | hold
    · rcases hids x id hin k hk with hle | ⟨rfl, hle⟩
      · exact hle.trans (hnow k)
      · rwa [Net.now_put_self]
    · exact (hs.clock j m hold x id hin k hk).trans (hnow k)

theorem clock_remove (s : ORSet T) (x : T) :
    (s.remove x).2.replicaId = s.replicaId ∧ (s.remove x).2.clock = s.clock := by
  rcases s.remove_cases x with ⟨h, heq⟩ | ⟨-, heq⟩
  · rw [heq]
    exact ⟨rfl, rfl⟩
  · rw [heq]
    exact ⟨rfl, rfl⟩

theorem mem_ids_add {s : ORSet T} {x y : T} {id : OperationId}
    (h : id ∈ (s.add x).ids y ∪ (s.add x).buried y) :
    id = s.nextOpId.1 ∨ id ∈ s.ids y ∪ s.buried y := by
  rw [ids_add, buried_add] at h
  rcases Finset.mem_union.mp h with hin | hin
  · split at hin
    · rename_i hy
      subst hy
      exact (Finset.mem_insert.mp hin).imp_right (Finset.mem_union_left _)
    · exact .inr (Finset.mem_union_left _ hin)
  · exact .inr (Finset.mem_union_right _ hin)

theorem mem_ids_remove {s : ORSet T} {x y : T} {id : OperationId}
    (h : id ∈ (s.remove x).2.ids y ∪ (s.remove x).2.buried y) : id ∈ s.ids y ∪ s.buried y := by
  rw [ids_remove] at h
  rcases Finset.mem_union.mp h with hin | hin
  · exact Finset.mem_union_left _ hin
  · by_cases hy : y = x
    · subst hy
      rcases s.remove_cases y with ⟨hne, -⟩ | ⟨-, heq⟩
      · rw [buried_remove_self hne] at hin
        rcases Finset.mem_insert.mp hin with rfl | hold
        · exact Finset.mem_union_left _ (Finset.max'_mem _ hne)
        · exact Finset.mem_union_right _ hold
      · rw [heq] at hin
        exact Finset.mem_union_right _ hin
    · rw [buried_remove_of_ne s hy] at hin
      exact Finset.mem_union_right _ hin

theorem mem_ids_merge {a b : ORSet T} {x : T} {id : OperationId}
    (h : id ∈ (a.merge b).ids x ∪ (a.merge b).buried x) :
    id ∈ a.ids x ∪ a.buried x ∨ id ∈ b.ids x ∪ b.buried x := by
  rw [ids_merge, buried_merge] at h
  simp only [Finset.mem_union] at h ⊢
  split at h
  · rw [Finset.mem_union] at h
    tauto
  · tauto

omit [LinearOrder T] in
theorem clock_nextOpId {s : ORSet T} (h : s.clock.toNat + 1 < 2 ^ 64) :
    s.clock < s.nextOpId.1.logicalClock := by
  rw [UInt64.lt_iff_toNat_lt, show s.nextOpId.1.logicalClock = s.clock + 1 from rfl,
    toNat_add_of_lt h]
  exact Nat.lt_succ_self _

theorem Stamped.step (hs : Stamped ids net) (op : Op ι (Call T)) (hop : Clocked net op)
    (hids : Function.Injective ids) : Stamped ids (object.step net op) := by
  rcases object.step_cases net op with ⟨i, call, rfl, heq⟩ | ⟨i, j, age, n, -, hn, heq⟩ |
    ⟨i, j, age, -, heq⟩
  · rw [heq]
    have hself := net.held_now i
    have hreplica := hs.replicaId i _ hself
    cases call with
    | add x =>
      have hlt := clock_nextOpId hop
      apply hs.put
      case hid => exact hreplica
      case hclock => exact hlt.le
      case hids =>
        intro y id hin k hk
        rcases mem_ids_add hin with rfl | hold
        · exact .inr ⟨hids (hk.symm.trans hreplica), le_refl _⟩
        · exact .inl (hs.clock i _ hself y id hold k hk)
    | remove x =>
      obtain ⟨hsameId, hsameClock⟩ := clock_remove (net.now i).state x
      apply hs.put
      case hid => exact hsameId.trans hreplica
      case hclock => exact hsameClock.ge
      case hids =>
        intro y id hin k hk
        exact .inl (hs.clock i _ hself y id (mem_ids_remove hin) k hk)
  · rw [heq]
    have hself := net.held_now i
    have hreplica := hs.replicaId i _ hself
    apply hs.put
    case hid => exact hreplica
    case hclock => exact le_max_left _ _
    case hids =>
      intro y id hin k hk
      left
      rcases mem_ids_merge hin with hmem | hmem
      · exact hs.clock i _ hself y id hmem k hk
      · exact hs.clock j n hn y id hmem k hk
  · rwa [heq]

omit [DecidableEq ι] in
theorem Stamped.addKeeps (hs : Stamped ids net) {i : ι}
    (h : (net.now i).state.clock.toNat + 1 < 2 ^ 64) (x : T) : AddKeeps (net.now i).state x := by
  left
  intro hin
  have hself := net.held_now i
  have hle := hs.clock i _ hself x _ (Finset.mem_union_right _ hin) i (hs.replicaId i _ hself)
  exact absurd (clock_nextOpId h) (not_lt.mpr hle)

theorem keeps_iff_removesKeep (hids : Function.Injective ids)
    (hclock : Trace.Always object.step Clocked (start fun i => (new (ids i) : ORSet T)) ops) :
    Trace.Always object.step Keeps (start fun i => new (ids i)) ops ↔
      Trace.Always object.step RemovesKeep (start fun i => new (ids i)) ops := by
  have hkeep : ∀ (net : Net ι (ORSet T) (Call T)) op, Stamped ids net → Clocked net op →
      RemovesKeep net op → Keeps net op := by
    intro net op hs hop hkeeps
    cases op with
    | update i call =>
      cases call with
      | add x => exact hs.addKeeps hop x
      | remove x => exact hkeeps
    | merge i j age => trivial
  have hweak : ∀ (net : Net ι (ORSet T) (Call T)) op, Keeps net op → RemovesKeep net op := by
    intro net op hkeeps
    cases op with
    | update i call =>
      cases call with
      | add x => trivial
      | remove x => exact hkeeps
    | merge i j age => trivial
  constructor
  · intro h
    exact h.imp (I := fun _ => True) (fun _ _ _ _ => trivial) (fun net op _ => hweak net op) trivial
  · intro h
    refine (Trace.always_and.mpr ⟨hclock, h⟩).imp (fun net op hs hop => hs.step op hop.1 hids)
      (fun net op hs hop => hkeep net op hs hop.1 hop.2) (stamped_start ids)

/-- The calls on a replica have their effect in order exactly if every add makes an id
without a tombstone, as it does while no clock wraps around, and every remove finds all
ids of its element but the greatest buried. -/
theorem sequential_iff (ids : ι → UInt64) (ops : List (Op ι (Call T))) :
    (Sequential ids ops ↔ Trace.Always object.step Keeps (start fun i => new (ids i)) ops) ∧
    (Function.Injective ids →
      Trace.Always object.step Clocked (start fun i => (new (ids i) : ORSet T)) ops →
      (Sequential ids ops ↔
        Trace.Always object.step RemovesKeep (start fun i => new (ids i)) ops)) := by
  refine ⟨sequential_iff_keeps, fun hids hclock => ?_⟩
  rw [sequential_iff_keeps]
  exact keeps_iff_removesKeep hids hclock

/-- An element added twice and removed once. -/
theorem sequential_fails :
    let ids : Unit → UInt64 := fun _ => 1
    ¬ Sequential ids ([.update () (.add 42), .update () (.add 42), .update () (.remove 42)] :
      List (Op Unit (Call UInt64))) := by
  intro ids h
  have hkeeps := sequential_iff_keeps.mp h
  revert hkeeps
  decide

end LiteVision.Storage.ORSet
