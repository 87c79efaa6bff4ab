import LiteVision.Storage.Crdt
import LiteVision.Words
import Mathlib.Algebra.Order.BigOperators.Group.List
import Mathlib.Algebra.Ring.Nat

/-!
# What a counter counts

The entry a counter has for a replica is the number of its calls it has seen. A
merge takes maxima, and of what one replica did one state always has seen all that
the other has, so nothing is lost and nothing counts twice.
-/

namespace LiteVision.Storage

open Lib Replication
open Map (Iteration)

theorem toNat_max (a b : UInt64) : (max a b).toNat = max a.toNat b.toNat := by
  rcases le_total a b with h | h
  · rw [max_eq_right h, max_eq_right (UInt64.le_iff_toNat_le.mp h)]
  · rw [max_eq_left h, max_eq_left (UInt64.le_iff_toNat_le.mp h)]

variable {ι : Type} [DecidableEq ι] {ids : ι → UInt64}

-- ---------------------------------------------------------------------------
-- One counter
-- ---------------------------------------------------------------------------

section GCounter

variable {υ : Type} [DecidableEq υ] {p : υ → Prop} [DecidablePred p]
variable {c d : GCounter} {S T : Finset (Event ι υ)} {e : Event ι υ}

theorem GCounter.toNat_get (h : c.counts.total UInt64.toNat < 2 ^ 64) :
    c.get.toNat = c.counts.total UInt64.toNat := by
  have hsum := Iteration.ascending.sum_entries c.counts UInt64.toNat
  have hmap : ((Iteration.ascending.entries c.counts).map fun e => e.2.toNat) =
      ((Iteration.ascending.entries c.counts).map Prod.snd).map UInt64.toNat := by
    rw [List.map_map]
    rfl
  rw [hmap] at hsum
  rw [GCounter.get, toNat_sum_of_lt (by omega), hsum]

/-- Each entry of `c` is the number of calls of the kind `p` made under that id, as long
as there are fewer than a word can count. -/
def Counts (ids : ι → UInt64) (p : υ → Prop) [DecidablePred p] (c : GCounter)
    (S : Finset (Event ι υ)) : Prop :=
  number p S < 2 ^ 64 → ∀ k, c.counts.weightAt UInt64.toNat k = counted ids p k S

omit [DecidableEq ι] [DecidableEq υ] in
theorem Counts.get (hc : Counts ids p c S) (h : number p S < 2 ^ 64) :
    c.get.toNat = number p S := by
  have hentries := hc h
  have hkeys : ∀ k, counted ids p k S ≠ 0 → k ∈ c.counts.keys := by
    intro k hk
    rw [← hentries k] at hk
    cases hget : c.counts.get k with
    | none => exact absurd (Map.weightAt_none hget _) hk
    | some v => exact Map.mem_keys.mpr ⟨v, hget⟩
  have htotal : c.counts.total UInt64.toNat = number p S := by
    rw [number_eq_sum hkeys, Map.total]
    exact Finset.sum_congr rfl fun k _ => hentries k
  rw [GCounter.toNat_get (by omega), htotal]

omit [DecidableEq ι] [DecidableEq υ] in
theorem counts_new (r : UInt64) : Counts ids p (.new r) (∅ : Finset (Event ι υ)) := fun _ _ => rfl

theorem Counts.increment (hc : Counts ids p c S) (hid : c.replicaId = ids e.replica)
    (hp : p e.call) (hnew : e ∉ S) : Counts ids p c.increment (insert e S) := by
  intro hlt k
  have hentries := hc (lt_of_le_of_lt (number_mono (Finset.subset_insert e S)) hlt)
  rw [GCounter.increment, Map.weightAt_insert, counted_insert hnew, hentries]
  by_cases hk : k = c.replicaId
  · subst hk
    have hbound : counted ids p c.replicaId (insert e S) < 2 ^ 64 := lt_of_le_of_lt counted_le hlt
    rw [counted_insert hnew, if_pos ⟨hp, hid.symm⟩] at hbound
    have hold : ((c.counts.get c.replicaId).getD 0).toNat = counted ids p c.replicaId S := by
      rw [← hentries, Map.weightAt]
      cases c.counts.get c.replicaId <;> rfl
    have hword : ((c.counts.get c.replicaId).getD 0 + 1).toNat =
        ((c.counts.get c.replicaId).getD 0).toNat + 1 := by
      apply toNat_add_of_lt
      rw [hold]
      exact hbound
    rw [if_pos rfl, if_pos ⟨hp, hid.symm⟩, hword, hold]
  · have hne : ¬ (p e.call ∧ ids e.replica = k) := fun h => hk (h.2.symm.trans hid.symm)
    rw [if_neg hk, if_neg hne, Nat.add_zero]

theorem Counts.skip (hc : Counts ids p c S) (hp : ¬ p e.call) (hnew : e ∉ S) :
    Counts ids p c (insert e S) := by
  intro hlt k
  have hentries := hc (lt_of_le_of_lt (number_mono (Finset.subset_insert e S)) hlt)
  rw [counted_insert hnew, if_neg fun h => hp h.1, Nat.add_zero, hentries]

theorem weightAt_merge (c d : GCounter) (k : UInt64) :
    (c.merge d).counts.weightAt UInt64.toNat k =
      max (c.counts.weightAt UInt64.toNat k) (d.counts.weightAt UInt64.toNat k) := by
  simp only [Map.weightAt, GCounter.merge, Map.get_mergeWith]
  cases d.counts.get k with
  | none => simp
  | some n =>
    simp only [Option.elim_some, Option.some_or, toNat_max]
    cases c.counts.get k <;> rfl

theorem Counts.merge (hids : Function.Injective ids) (hc : Counts ids p c S)
    (hd : Counts ids p d T) (h : Comparable S T) : Counts ids p (c.merge d) (S ∪ T) := by
  intro hlt k
  have hS := hc (lt_of_le_of_lt (number_mono Finset.subset_union_left) hlt)
  have hT := hd (lt_of_le_of_lt (number_mono Finset.subset_union_right) hlt)
  rw [weightAt_merge, counted_union hids h, hS, hT]

end GCounter

-- ---------------------------------------------------------------------------
-- Replicated counters
-- ---------------------------------------------------------------------------

def GCounter.increments (S : Finset (Event ι GCounter.Call)) : Nat := number (· = .increment) S

def PNCounter.increments (S : Finset (Event ι PNCounter.Call)) : Nat := number (· = .increment) S

def PNCounter.decrements (S : Finset (Event ι PNCounter.Call)) : Nat := number (· = .decrement) S

/-- The counter at `i` writes under its own id, and counts what it has seen. -/
def GCounter.Fits (ids : ι → UInt64) (i : ι) (n : Node ι GCounter GCounter.Call) : Prop :=
  n.state.replicaId = ids i ∧ Counts ids (· = .increment) n.state n.seen

def PNCounter.Fits (ids : ι → UInt64) (i : ι) (n : Node ι PNCounter PNCounter.Call) : Prop :=
  n.state.positive.replicaId = ids i ∧ n.state.negative.replicaId = ids i ∧
    Counts ids (· = .increment) n.state.positive n.seen ∧
    Counts ids (· = .decrement) n.state.negative n.seen

theorem gcounter_fits (hids : Function.Injective ids) (ops : List (Op ι GCounter.Call)) (i : ι) :
    GCounter.Fits ids i ((GCounter.object.run (fun i => .new (ids i)) ops).now i) := by
  refine forall_held (P := GCounter.Fits ids) ?_ ?_ ?_ ops i _ (Net.held_now _ i)
  · intro i
    exact ⟨rfl, counts_new (ids i)⟩
  · rintro i n ⟨time, replica, call⟩ ⟨hid, hc⟩ rfl hnew
    cases call with
    | increment => exact ⟨hid, hc.increment hid rfl hnew⟩
  · rintro i j n m ⟨hid, hc⟩ ⟨-, hd⟩ hcomp
    exact ⟨hid, hc.merge hids hd hcomp⟩

theorem pncounter_fits (hids : Function.Injective ids) (ops : List (Op ι PNCounter.Call)) (i : ι) :
    PNCounter.Fits ids i ((PNCounter.object.run (fun i => .new (ids i)) ops).now i) := by
  refine forall_held (P := PNCounter.Fits ids) ?_ ?_ ?_ ops i _ (Net.held_now _ i)
  · intro i
    exact ⟨rfl, rfl, counts_new (ids i), counts_new (ids i)⟩
  · rintro i n ⟨time, replica, call⟩ ⟨hpid, hnid, hpos, hneg⟩ rfl hnew
    cases call with
    | increment => exact ⟨hpid, hnid, hpos.increment hpid rfl hnew, hneg.skip (by rintro ⟨⟩) hnew⟩
    | decrement => exact ⟨hpid, hnid, hpos.skip (by rintro ⟨⟩) hnew, hneg.increment hnid rfl hnew⟩
  · rintro i j n m ⟨hpid, hnid, hpos, hneg⟩ ⟨-, -, hpos', hneg'⟩ hcomp
    exact ⟨hpid, hnid, hpos.merge hids hpos' hcomp, hneg.merge hids hneg' hcomp⟩

theorem PNCounter.toInt_get {c : PNCounter} {m n : Nat} (hm : c.positive.get.toNat = m)
    (hn : c.negative.get.toNat = n) (hlow : -2 ^ 63 ≤ (m : Int) - n)
    (hhigh : (m : Int) - n < 2 ^ 63) : c.get.toInt = m - n := by
  have hword (x : UInt64) : x.toInt64.toInt = (x.toNat : Int).bmod (2 ^ 64) :=
    BitVec.toInt_eq_toNat_bmod x.toBitVec
  rw [PNCounter.get, Int64.toInt_sub, hword, hword, hm, hn, ← Int.sub_bmod]
  apply Int.bmod_eq_of_le_mul_two <;> omega

/-- A counter is the number of increments less the number of decrements it has seen. -/
theorem counters_count (hids : Function.Injective ids) :
    (∀ (ops : List (Op ι GCounter.Call)) (i : ι),
      let net := GCounter.object.run (fun i => .new (ids i)) ops
      GCounter.increments (net.now i).seen < 2 ^ 64 →
      (net.now i).state.get.toNat = GCounter.increments (net.now i).seen ∧
        ∀ j, (net.now j).seen = (net.now i).seen →
          (net.now j).state.get = (net.now i).state.get) ∧
    ∀ (ops : List (Op ι PNCounter.Call)) (i : ι),
      let net := PNCounter.object.run (fun i => .new (ids i)) ops
      let up := PNCounter.increments (net.now i).seen
      let down := PNCounter.decrements (net.now i).seen
      up < 2 ^ 64 → down < 2 ^ 64 → -2 ^ 63 ≤ (up : Int) - down → (up : Int) - down < 2 ^ 63 →
      (net.now i).state.get.toInt = up - down ∧
        ∀ j, (net.now j).seen = (net.now i).seen →
          (net.now j).state.get = (net.now i).state.get := by
  constructor
  · intro ops i net hlt
    have hget := (gcounter_fits hids ops i).2.get hlt
    refine ⟨hget, fun j hseen => ?_⟩
    have hget' := (gcounter_fits hids ops j).2.get (by rw [hseen]; exact hlt)
    rw [hseen] at hget'
    exact UInt64.toNat_inj.mp (hget'.trans hget.symm)
  · intro ops i net up down hup hdown hlow hhigh
    have hat : ∀ j, (net.now j).seen = (net.now i).seen →
        (net.now j).state.get.toInt = up - down := by
      intro j hseen
      obtain ⟨-, -, hpos, hneg⟩ := pncounter_fits hids ops j
      rw [hseen] at hpos hneg
      exact PNCounter.toInt_get (hpos.get hup) (hneg.get hdown) hlow hhigh
    refine ⟨hat i rfl, fun j hseen => ?_⟩
    exact Int64.toInt_inj.mp ((hat j hseen).trans (hat i rfl).symm)

/-- Three calls at two replicas; the state merged twice is one that was overtaken. -/
theorem counters_count_two_replicas :
    let ids : Bool → UInt64 := fun i => if i then 1 else 2
    let net := PNCounter.object.run (fun i => .new (ids i))
      [.update false .decrement, .update true .increment, .update false .increment,
        .merge true false 1, .merge true false 2]
    (net.now true).state.get.toInt = 1 - 1 := by
  intro ids net
  have hids : Function.Injective ids := by decide
  have hup : PNCounter.increments (net.now true).seen = 1 := by decide
  have hdown : PNCounter.decrements (net.now true).seen = 1 := by decide
  have hcount := (counters_count hids).2 _ true (by rw [hup]; decide) (by rw [hdown]; decide)
    (by rw [hup, hdown]; decide) (by rw [hup, hdown]; decide)
  rw [hup, hdown] at hcount
  exact hcount.1

end LiteVision.Storage
