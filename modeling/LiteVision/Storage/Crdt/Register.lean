import LiteVision.Storage.Crdt

/-!
# Who wrote a register last

A write is told from others by its timestamp and the id it is written under. A merge
takes over the id with the value, so that a later write goes under an id that is not
its replica's own.
-/

namespace LiteVision.Storage.LWWRegister

open Lib Replication

variable {T : Type} {a b r : LWWRegister T}

def Converge (a b : LWWRegister T) : Prop := (a.merge b).get = (b.merge a).get

/-- One write is not two. -/
def SameWrite (a b : LWWRegister T) : Prop :=
  a.timestamp = b.timestamp → a.replicaId = b.replicaId → a.value = b.value

theorem merge_cases (a b : LWWRegister T) :
    (a.timestamp ≤ b.timestamp ∧ a.merge b = b) ∨ a.merge b = a := by
  by_cases h : b.timestamp > a.timestamp ∨
      (b.timestamp = a.timestamp ∧ b.replicaId > a.replicaId)
  · left
    refine ⟨?_, if_pos h⟩
    rcases h with hlt | ⟨heq, -⟩
    · exact le_of_lt hlt
    · exact heq.ge
  · exact .inr (if_neg h)

theorem set_cases (r : LWWRegister T) (value : T) (timestamp : UInt64) :
    (r.timestamp < timestamp ∧
      r.set value timestamp = { r with value := some value, timestamp := timestamp }) ∨
    (¬ r.timestamp < timestamp ∧ r.set value timestamp = r) := by
  by_cases h : r.timestamp < timestamp
  · exact .inl ⟨h, if_pos (.inl h)⟩
  · refine .inr ⟨h, if_neg ?_⟩
    rintro (hlt | ⟨-, hself⟩)
    · exact h hlt
    · exact lt_irrefl _ hself

theorem converge_iff : Converge a b ↔ SameWrite a b := by
  unfold Converge SameWrite merge get
  rcases lt_trichotomy a.timestamp b.timestamp with ht | ht | ht
  · simp [ht, ht.ne, ht.ne', not_lt.mpr ht.le]
  · rcases lt_trichotomy a.replicaId b.replicaId with hid | hid | hid
    · simp [ht, hid, hid.ne, not_lt.mpr hid.le]
    · simp [ht, hid]
    · simp [ht, hid, hid.ne', not_lt.mpr hid.le]
  · simp [ht, ht.ne, ht.ne', not_lt.mpr ht.le]

-- ---------------------------------------------------------------------------
-- Writing under one's own id
-- ---------------------------------------------------------------------------

variable {ι : Type} [DecidableEq ι] [DecidableEq T] {ids : ι → UInt64}
variable {net : Net ι (LWWRegister T) (Call T)}

/-- A write that takes effect goes under the id of its replica. -/
def OwnWrite (ids : ι → UInt64) (net : Net ι (LWWRegister T) (Call T)) : Op ι (Call T) → Prop
  | .update i (.set _ timestamp) =>
    (net.now i).state.timestamp < timestamp → (net.now i).state.replicaId = ids i
  | .merge _ _ _ => True

/-- No register is ahead of the replica whose id it has, and one write is not two. -/
structure Owned (ids : ι → UInt64) (net : Net ι (LWWRegister T) (Call T)) : Prop where
  stamp : ∀ j n, net.Held j n → ∀ i, n.state.replicaId = ids i →
    n.state.timestamp ≤ (net.now i).state.timestamp
  same : ∀ j k n m, net.Held j n → net.Held k m → SameWrite n.state m.state

omit [DecidableEq ι] [DecidableEq T] in
theorem owned_start (ids : ι → UInt64) :
    Owned ids (start fun i => (new (ids i) : LWWRegister T)) where
  stamp j n hn i _ := by rw [Net.held_start hn]; exact Nat.zero_le _
  same j k n m hn hm _ _ := by rw [Net.held_start hn, Net.held_start hm]; rfl

omit [DecidableEq T] in
theorem Owned.put (hs : Owned ids net) {i : ι} {n : Node ι (LWWRegister T) (Call T)}
    (hgrow : (net.now i).state.timestamp ≤ n.state.timestamp)
    (hstamp : ∀ k, n.state.replicaId = ids k →
      k = i ∨ n.state.timestamp ≤ (net.now k).state.timestamp)
    (hsame : ∀ k m, net.Held k m → SameWrite n.state m.state) : Owned ids (net.put i n) := by
  have hnow (k : ι) : (net.now k).state.timestamp ≤ ((net.put i n).now k).state.timestamp :=
    Net.le_put (fun n : Node ι (LWWRegister T) (Call T) => n.state.timestamp) hgrow k
  constructor
  case stamp =>
    intro j m hm k hk
    rcases Net.held_put.mp hm with ⟨rfl, rfl⟩ | hold
    · rcases hstamp k hk with rfl | hle
      · rw [Net.now_put_self]
      · exact hle.trans (hnow k)
    · exact (hs.stamp j m hold k hk).trans (hnow k)
  case same =>
    intro j k m m' hm hm'
    rcases Net.held_put.mp hm with ⟨rfl, rfl⟩ | hold <;>
      rcases Net.held_put.mp hm' with ⟨rfl, rfl⟩ | hold'
    · exact fun _ _ => rfl
    · exact hsame k m' hold'
    · exact fun ht hid => (hsame j m hold ht.symm hid.symm).symm
    · exact hs.same j k m m' hold hold'

theorem Owned.step (hids : Function.Injective ids) (hs : Owned ids net) (op : Op ι (Call T))
    (hop : OwnWrite ids net op) : Owned ids (object.step net op) := by
  have hself (i : ι) := net.held_now i
  rcases object.step_cases net op with ⟨i, ⟨value, timestamp⟩, rfl, heq⟩ |
    ⟨i, j, age, n, -, hn, heq⟩ | ⟨i, j, age, -, heq⟩
  · rw [heq]
    change Owned ids (net.put i ⟨(net.now i).state.set value timestamp, _⟩)
    rcases (net.now i).state.set_cases value timestamp with ⟨hlt, hset⟩ | ⟨-, hset⟩
    · have hown := hop hlt
      rw [hset]
      apply hs.put
      case hgrow => exact hlt.le
      case hstamp => exact fun k hk => .inl (hids (hk.symm.trans hown))
      case hsame =>
        -- a state with this stamp would be ahead of the replica
        intro k m hm ht hid
        have hle := hs.stamp k m hm i (hid.symm.trans hown)
        rw [← ht] at hle
        exact absurd hle (not_le.mpr hlt)
    · rw [hset]
      apply hs.put
      case hgrow => exact le_refl _
      case hstamp => exact fun k hk => .inr (hs.stamp i (net.now i) (hself i) k hk)
      case hsame => exact fun k m hm => hs.same i k (net.now i) m (hself i) hm
  · rw [heq]
    change Owned ids (net.put i ⟨(net.now i).state.merge n.state, _⟩)
    rcases merge_cases (net.now i).state n.state with ⟨hle, hmerge⟩ | hmerge
    · rw [hmerge]
      apply hs.put
      case hgrow => exact hle
      case hstamp => exact fun k hk => .inr (hs.stamp j n hn k hk)
      case hsame => exact fun k m hm => hs.same j k n m hn hm
    · rw [hmerge]
      apply hs.put
      case hgrow => exact le_refl _
      case hstamp => exact fun k hk => .inr (hs.stamp i (net.now i) (hself i) k hk)
      case hsame => exact fun k m hm => hs.same i k (net.now i) m (hself i) hm
  · rwa [heq]

/-- Two replicas of a run converge exactly if they do not hold different values under one
timestamp and id. All do as long as every write that takes effect goes under the id of
its replica. -/
theorem register_converges_iff (ids : ι → UInt64) (ops : List (Op ι (Call T))) :
    (∀ i j, let net := object.run (fun i => (new (ids i) : LWWRegister T)) ops
      Converge (net.now i).state (net.now j).state ↔
        SameWrite (net.now i).state (net.now j).state) ∧
    (Function.Injective ids →
      Trace.Always object.step (OwnWrite ids) (start fun i => (new (ids i) : LWWRegister T)) ops →
      ∀ before, before <+: ops → ∀ i j,
        let net := object.run (fun i => (new (ids i) : LWWRegister T)) before
        Converge (net.now i).state (net.now j).state) := by
  refine ⟨fun i j => converge_iff, ?_⟩
  rintro hids hown before ⟨after, rfl⟩ i j net
  have hbefore := ((Trace.always_append before after).mp hown).1
  have hs : Owned ids net :=
    hbefore.exec (fun s op hI hP => hI.step hids op hP) (owned_start ids)
  exact converge_iff.mpr (hs.same i j _ _ (net.held_now i) (net.held_now j))

/-- One replica takes over a value with the id of the other; then both write at one time. -/
theorem register_convergence_fails :
    let ids : Bool → UInt64 := fun i => if i then 1 else 2
    let net := object.run (fun i => (new (ids i) : LWWRegister UInt64))
      [.update false (.set 10 1), .merge true false 0, .update true (.set 20 5),
        .update false (.set 30 5)]
    Function.Injective ids ∧ ¬ Converge (net.now true).state (net.now false).state := by
  intro ids net
  refine ⟨by decide, fun h => ?_⟩
  have hsame := converge_iff.mp h (by decide) (by decide)
  revert hsame
  decide

end LiteVision.Storage.LWWRegister
