import LiteVision.Lib.Trace
import Mathlib.Algebra.BigOperators.Group.Finset.Basic
import Mathlib.Data.Finset.Card
import Mathlib.Logic.Function.Basic

/-!
# Replicated objects

Replicas hold states of one type. A replica updates its own state, or merges into
it a state of some replica: the present one or one it had before, as a message may
come late, twice or out of order. What an update does depends on nothing else, so
the events a state has `seen` are bookkeeping.
-/

namespace LiteVision.Lib.Replication

/-- One call at one replica; no two have the same time. -/
structure Event (ι υ : Type) where
  time : Nat
  replica : ι
  call : υ
  deriving DecidableEq

structure Node (ι σ υ : Type) where
  state : σ
  seen : Finset (Event ι υ)

/-- The replicas now, and before each step of the run, latest first. -/
structure Net (ι σ υ : Type) where
  now : ι → Node ι σ υ
  past : List (ι → Node ι σ υ)

inductive Op (ι υ : Type) where
  | update (i : ι) (call : υ)
  /-- Merge into `i` the state that `j` had `age` steps ago. -/
  | merge (i j : ι) (age : Nat)
  deriving DecidableEq

structure Object (σ υ : Type) where
  update : σ → υ → σ
  merge : σ → σ → σ

variable {ι σ υ : Type}

def start (init : ι → σ) : Net ι σ υ := ⟨fun i => ⟨init i, ∅⟩, []⟩

namespace Net

def versions (s : Net ι σ υ) : List (ι → Node ι σ υ) := s.now :: s.past

def Held (s : Net ι σ υ) (j : ι) (n : Node ι σ υ) : Prop := ∃ v ∈ s.versions, v j = n

variable [DecidableEq ι]

def put (s : Net ι σ υ) (i : ι) (n : Node ι σ υ) : Net ι σ υ :=
  ⟨Function.update s.now i n, s.versions⟩

variable {s : Net ι σ υ} {i j k : ι} {n m : Node ι σ υ}

omit [DecidableEq ι] in
theorem held_now (s : Net ι σ υ) (i : ι) : s.Held i (s.now i) := ⟨s.now, List.mem_cons_self, rfl⟩

omit [DecidableEq ι] in
theorem held_start {init : ι → σ} (h : (start init : Net ι σ υ).Held i n) : n = ⟨init i, ∅⟩ := by
  obtain ⟨v, hv, rfl⟩ := h
  obtain rfl := List.mem_singleton.mp hv
  rfl

@[simp] theorem now_put_self (s : Net ι σ υ) (i : ι) (n : Node ι σ υ) : (s.put i n).now i = n :=
  Function.update_self ..

theorem now_put_ne (s : Net ι σ υ) (n : Node ι σ υ) (h : j ≠ i) : (s.put i n).now j = s.now j :=
  Function.update_of_ne h ..

/-- A node that is ahead of the one it replaces leaves no replica behind. -/
theorem le_put {α : Type} [Preorder α] (f : Node ι σ υ → α) (h : f (s.now i) ≤ f n) (j : ι) :
    f (s.now j) ≤ f ((s.put i n).now j) := by
  by_cases hj : j = i
  · subst hj
    rwa [now_put_self]
  · rw [now_put_ne s n hj]

theorem held_put : (s.put i n).Held j m ↔ (j = i ∧ m = n) ∨ s.Held j m := by
  constructor
  · rintro ⟨v, hv, rfl⟩
    rcases List.mem_cons.mp hv with rfl | hold
    · by_cases hj : j = i
      · subst hj
        exact .inl ⟨rfl, now_put_self s j n⟩
      · right
        rw [now_put_ne s n hj]
        exact held_now s j
    · exact .inr ⟨v, hold, rfl⟩
  · rintro (⟨rfl, rfl⟩ | ⟨v, hv, rfl⟩)
    · exact ⟨_, List.mem_cons_self, now_put_self s j m⟩
    · exact ⟨v, List.mem_cons_of_mem _ hv, rfl⟩

end Net

-- ---------------------------------------------------------------------------
-- Steps
-- ---------------------------------------------------------------------------

namespace Object

variable [DecidableEq ι] [DecidableEq υ] (obj : Object σ υ)

def updated (n : Node ι σ υ) (e : Event ι υ) : Node ι σ υ :=
  ⟨obj.update n.state e.call, insert e n.seen⟩

def merged (n m : Node ι σ υ) : Node ι σ υ := ⟨obj.merge n.state m.state, n.seen ∪ m.seen⟩

/-- A state older than the run is no state to merge. -/
def step (s : Net ι σ υ) : Op ι υ → Net ι σ υ
  | .update i call => s.put i (obj.updated (s.now i) ⟨s.past.length, i, call⟩)
  | .merge i j age =>
    match s.versions[age]? with
    | some v => s.put i (obj.merged (s.now i) (v j))
    | none => s

def run (init : ι → σ) (ops : List (Op ι υ)) : Net ι σ υ := Trace.exec obj.step (start init) ops

variable {obj} {s : Net ι σ υ} {init : ι → σ}

@[simp] theorem run_concat (ops : List (Op ι υ)) (op : Op ι υ) :
    obj.run init (ops ++ [op]) = obj.step (obj.run init ops) op :=
  Trace.exec_concat op

theorem step_cases (obj : Object σ υ) (s : Net ι σ υ) (op : Op ι υ) :
    (∃ i call, op = .update i call ∧
      obj.step s op = s.put i (obj.updated (s.now i) ⟨s.past.length, i, call⟩)) ∨
    (∃ i j age n, op = .merge i j age ∧ s.Held j n ∧
      obj.step s op = s.put i (obj.merged (s.now i) n)) ∨
    (∃ i j age, op = .merge i j age ∧ obj.step s op = s) := by
  cases op with
  | update i call => exact .inl ⟨i, call, rfl, rfl⟩
  | merge i j age =>
    right
    cases hv : s.versions[age]? with
    | none => exact .inr ⟨i, j, age, rfl, by simp only [step, hv]⟩
    | some v =>
      refine .inl ⟨i, j, age, v j, rfl, ⟨v, List.mem_of_getElem? hv, rfl⟩, ?_⟩
      simp only [step, hv]

theorem step_update_now (obj : Object σ υ) (s : Net ι σ υ) (i : ι) (call : υ) :
    ((obj.step s (.update i call)).now i).state = obj.update (s.now i).state call := by
  simp [step, updated]

theorem step_update_now_ne {i j : ι} (h : j ≠ i) (call : υ) :
    (obj.step s (.update i call)).now j = s.now j :=
  Net.now_put_ne s _ h

theorem step_merge_now_ne {i j : ι} (h : j ≠ i) (k : ι) (age : Nat) :
    (obj.step s (.merge i k age)).now j = s.now j := by
  simp only [step]
  cases s.versions[age]? with
  | none => rfl
  | some v => exact Net.now_put_ne s _ h

end Object

-- ---------------------------------------------------------------------------
-- Causal histories
-- ---------------------------------------------------------------------------

/-- Of what each replica did, one of two states has seen all that the other has. -/
def Comparable (S T : Finset (Event ι υ)) : Prop :=
  ∀ r, (∀ e ∈ S, e.replica = r → e ∈ T) ∨ ∀ e ∈ T, e.replica = r → e ∈ S

theorem Comparable.symm {S T : Finset (Event ι υ)} (h : Comparable S T) : Comparable T S :=
  fun r => (h r).symm

/-- What a replica did is seen there first, and elsewhere in the order it was done. -/
structure Causal (s : Net ι σ υ) : Prop where
  early : ∀ i n, s.Held i n → ∀ e ∈ n.seen, e.time < s.past.length
  own : ∀ i n, s.Held i n → ∀ e ∈ n.seen, e ∈ (s.now e.replica).seen
  comparable : ∀ i j n m, s.Held i n → s.Held j m → Comparable n.seen m.seen

section Causal

variable [DecidableEq ι] {s : Net ι σ υ} {i : ι} {n : Node ι σ υ}

omit [DecidableEq ι] in
theorem Causal.start (init : ι → σ) : Causal (start init : Net ι σ υ) where
  early i n h e he := by simp [Net.held_start h] at he
  own i n h e he := by simp [Net.held_start h] at he
  comparable i j n m hn _ r := by
    left
    intro e he
    simp [Net.held_start hn] at he

/-- A replica may take a state that has seen a new call of its own and what others have
seen, if it compares with all of them. -/
theorem Causal.put (hs : Causal s) (hgrow : (s.now i).seen ⊆ n.seen)
    (hseen : ∀ e ∈ n.seen,
      (e.time = s.past.length ∧ e.replica = i) ∨ ∃ j m, s.Held j m ∧ e ∈ m.seen)
    (hcomp : ∀ j m, s.Held j m → Comparable n.seen m.seen) : Causal (s.put i n) := by
  have hnow (j : ι) : (s.now j).seen ⊆ ((s.put i n).now j).seen := Net.le_put Node.seen hgrow j
  constructor
  case early =>
    intro j m hm e he
    rcases Net.held_put.mp hm with ⟨rfl, rfl⟩ | hold
    · rcases hseen e he with ⟨htime, -⟩ | ⟨k, m', hm', hin⟩
      · rw [htime]
        exact Nat.lt_succ_self _
      · exact Nat.lt_succ_of_lt (hs.early k m' hm' e hin)
    · exact Nat.lt_succ_of_lt (hs.early j m hold e he)
  case own =>
    intro j m hm e he
    rcases Net.held_put.mp hm with ⟨rfl, rfl⟩ | hold
    · rcases hseen e he with ⟨-, heq⟩ | ⟨k, m', hm', hin⟩
      · rwa [heq, Net.now_put_self]
      · exact hnow _ (hs.own k m' hm' e hin)
    · exact hnow _ (hs.own j m hold e he)
  case comparable =>
    intro j k m m' hm hm'
    rcases Net.held_put.mp hm with ⟨rfl, rfl⟩ | hold <;>
      rcases Net.held_put.mp hm' with ⟨rfl, rfl⟩ | hold'
    · exact fun r => .inl fun e he _ => he
    · exact hcomp k m' hold'
    · exact (hcomp j m hold).symm
    · exact hs.comparable j k m m' hold hold'

variable [DecidableEq υ] {obj : Object σ υ}

theorem Comparable.union {S T U : Finset (Event ι υ)} (hS : Comparable S U)
    (hT : Comparable T U) : Comparable (S ∪ T) U := by
  intro r
  rcases hS r with hsub | hsup
  · rcases hT r with hsub' | hsup'
    · left
      intro e he heq
      rcases Finset.mem_union.mp he with hin | hin
      · exact hsub e hin heq
      · exact hsub' e hin heq
    · exact .inr fun e he heq => Finset.mem_union_right _ (hsup' e he heq)
  · exact .inr fun e he heq => Finset.mem_union_left _ (hsup e he heq)

omit [DecidableEq ι] [DecidableEq υ] in
theorem Causal.fresh (hs : Causal s) {j : ι} {m : Node ι σ υ} (hm : s.Held j m) (i : ι) (call : υ) :
    (⟨s.past.length, i, call⟩ : Event ι υ) ∉ m.seen :=
  fun he => Nat.lt_irrefl _ (hs.early j m hm _ he)

theorem Causal.comparable_insert (hs : Causal s) (e : Event ι υ) {j : ι} {m : Node ι σ υ}
    (hm : s.Held j m) : Comparable (insert e (s.now e.replica).seen) m.seen := by
  intro r
  by_cases hr : r = e.replica
  · right
    intro e' he heq
    have hin := hs.own j m hm e' he
    rw [heq, hr] at hin
    exact Finset.mem_insert_of_mem hin
  · rcases hs.comparable _ j _ m (s.held_now e.replica) hm r with hsub | hsup
    · left
      intro e' he heq
      rcases Finset.mem_insert.mp he with rfl | hold
      · exact absurd heq.symm hr
      · exact hsub e' hold heq
    · exact .inr fun e' he heq => Finset.mem_insert_of_mem (hsup e' he heq)

theorem Causal.step (hs : Causal s) (op : Op ι υ) : Causal (obj.step s op) := by
  rcases obj.step_cases s op with ⟨i, call, -, heq⟩ | ⟨i, j, age, n, -, hn, heq⟩ |
    ⟨i, j, age, -, heq⟩
  · rw [heq]
    apply hs.put
    case hgrow => exact Finset.subset_insert _ _
    case hseen =>
      intro e he
      rcases Finset.mem_insert.mp he with rfl | hold
      · exact .inl ⟨rfl, rfl⟩
      · exact .inr ⟨i, _, s.held_now i, hold⟩
    case hcomp => exact fun j m hm => hs.comparable_insert ⟨s.past.length, i, call⟩ hm
  · rw [heq]
    apply hs.put
    case hgrow => exact Finset.subset_union_left
    case hseen =>
      intro e he
      rcases Finset.mem_union.mp he with hold | hnew
      · exact .inr ⟨i, _, s.held_now i, hold⟩
      · exact .inr ⟨j, n, hn, hnew⟩
    case hcomp =>
      intro k m hm
      exact (hs.comparable i k _ m (s.held_now i) hm).union (hs.comparable j k n m hn hm)
  · rwa [heq]

/-- What holds of a state and the events it has seen when it is created, and is kept
by updates and merges, holds of every state of every run. -/
theorem forall_held {P : ι → Node ι σ υ → Prop} {init : ι → σ} (hstart : ∀ i, P i ⟨init i, ∅⟩)
    (hupdate : ∀ i n e, P i n → e.replica = i → e ∉ n.seen → P i (obj.updated n e))
    (hmerge : ∀ i j n m, P i n → P j m → Comparable n.seen m.seen → P i (obj.merged n m))
    (ops : List (Op ι υ)) : ∀ i n, (obj.run init ops).Held i n → P i n := by
  have hinv : Causal (obj.run init ops) ∧ ∀ i n, (obj.run init ops).Held i n → P i n := by
    refine Trace.invariant (I := fun s => Causal s ∧ ∀ i n, s.Held i n → P i n) ?_ ?_ ops
    case refine_2 =>
      refine ⟨Causal.start init, fun i n h => ?_⟩
      rw [Net.held_start h]
      exact hstart i
    rintro s op ⟨hs, hP⟩
    refine ⟨hs.step op, ?_⟩
    rcases obj.step_cases s op with ⟨i, call, -, heq⟩ | ⟨i, j, age, m, -, hm, heq⟩ |
      ⟨i, j, age, -, heq⟩
    · rw [heq]
      intro k n hn
      rcases Net.held_put.mp hn with ⟨rfl, rfl⟩ | hold
      · exact hupdate k _ _ (hP k _ (s.held_now k)) rfl (hs.fresh (s.held_now k) k call)
      · exact hP k n hold
    · rw [heq]
      intro k n hn
      rcases Net.held_put.mp hn with ⟨rfl, rfl⟩ | hold
      · exact hmerge k j _ m (hP k _ (s.held_now k)) (hP j m hm)
          (hs.comparable k j _ m (s.held_now k) hm)
      · exact hP k n hold
    · rwa [heq]
  exact hinv.2

end Causal

-- ---------------------------------------------------------------------------
-- Counting events
-- ---------------------------------------------------------------------------

section Counting

variable [DecidableEq ι] [DecidableEq υ] {κ : Type} [DecidableEq κ] {ids : ι → κ}

def number (p : υ → Prop) [DecidablePred p] (S : Finset (Event ι υ)) : Nat :=
  (S.filter fun e => p e.call).card

def counted (ids : ι → κ) (p : υ → Prop) [DecidablePred p] (k : κ) (S : Finset (Event ι υ)) : Nat :=
  (S.filter fun e => p e.call ∧ ids e.replica = k).card

variable {p : υ → Prop} [DecidablePred p] {S T : Finset (Event ι υ)} {k : κ}

theorem counted_insert {e : Event ι υ} (h : e ∉ S) :
    counted ids p k (insert e S) =
      counted ids p k S + if p e.call ∧ ids e.replica = k then 1 else 0 := by
  unfold counted
  rw [Finset.filter_insert]
  split
  · rw [Finset.card_insert_of_notMem fun hin => h (Finset.mem_of_mem_filter e hin)]
  · rfl

omit [DecidableEq ι] [DecidableEq υ] in
theorem number_mono (h : S ⊆ T) : number p S ≤ number p T :=
  Finset.card_le_card (Finset.filter_subset_filter _ h)

omit [DecidableEq ι] [DecidableEq υ] in
theorem counted_le : counted ids p k S ≤ number p S := by
  apply Finset.card_le_card
  intro _ he
  obtain ⟨hin, hp, -⟩ := Finset.mem_filter.mp he
  exact Finset.mem_filter.mpr ⟨hin, hp⟩

omit [DecidableEq ι] [DecidableEq υ] in
theorem number_eq_sum {names : Finset κ} (h : ∀ k, counted ids p k S ≠ 0 → k ∈ names) :
    number p S = ∑ k ∈ names, counted ids p k S := by
  have hmaps : ∀ e ∈ S.filter fun e => p e.call, ids e.replica ∈ names := by
    intro e he
    obtain ⟨hin, hp⟩ := Finset.mem_filter.mp he
    apply h
    apply Finset.card_ne_zero_of_mem (a := e)
    exact Finset.mem_filter.mpr ⟨hin, hp, rfl⟩
  rw [number, Finset.card_eq_sum_card_fiberwise hmaps]
  refine Finset.sum_congr rfl fun k _ => ?_
  rw [counted, Finset.filter_filter]

theorem counted_union (hids : Function.Injective ids) (h : Comparable S T) :
    counted ids p k (S ∪ T) = max (counted ids p k S) (counted ids p k T) := by
  unfold counted
  rw [Finset.filter_union]
  have hsub : (S.filter fun e => p e.call ∧ ids e.replica = k) ⊆
        (T.filter fun e => p e.call ∧ ids e.replica = k) ∨
      (T.filter fun e => p e.call ∧ ids e.replica = k) ⊆
        (S.filter fun e => p e.call ∧ ids e.replica = k) := by
    by_cases hk : ∃ r, ids r = k
    · obtain ⟨r, rfl⟩ := hk
      refine (h r).imp (fun hST e he => ?_) fun hTS e he => ?_
      · obtain ⟨hin, hp, heq⟩ := Finset.mem_filter.mp he
        exact Finset.mem_filter.mpr ⟨hST e hin (hids heq), hp, heq⟩
      · obtain ⟨hin, hp, heq⟩ := Finset.mem_filter.mp he
        exact Finset.mem_filter.mpr ⟨hTS e hin (hids heq), hp, heq⟩
    · left
      intro e he
      exact absurd ⟨e.replica, (Finset.mem_filter.mp he).2.2⟩ hk
  rcases hsub with hST | hTS
  · rw [Finset.union_eq_right.mpr hST, Nat.max_eq_right (Finset.card_le_card hST)]
  · rw [Finset.union_eq_left.mpr hTS, Nat.max_eq_left (Finset.card_le_card hTS)]

end Counting

end LiteVision.Lib.Replication
