import LiteVision.Lib.Gossip
import LiteVision.Lib.Trace
import LiteVision.Storage.Crdt.Versions
import LiteVision.Words

/-!
# Anti-entropy

`sync` asks the agent for an update only where the version vector of the other replica is
not dominated. With an agent that brings over what the other replica has, this early return
is never felt, as long as the replicas start alike and count every update of their own.
-/

namespace LiteVision.Storage.AntiEntropy

open Lib

variable {S Delta : Type} {agent : AntiEntropyAgent S Delta}

/-- `sync` without the look at the version vectors. -/
def exchange (self other : AntiEntropy S) (agent : AntiEntropyAgent S Delta) : AntiEntropy S where
  state := agent.applyDelta self.state (agent.computeDelta self.state other.state)
  versionVector := self.versionVector.merge other.versionVector

/-- A replica changes its state and counts that, or takes in the state of another one. -/
inductive Op (S : Type) where
  | update (replicaId : UInt64) (change : S → S)
  | sync (replicaId other : UInt64)

def step (take : AntiEntropy S → AntiEntropy S → AntiEntropy S) (net : UInt64 → AntiEntropy S) :
    Op S → UInt64 → AntiEntropy S
  | .update replicaId change =>
    Function.update net replicaId
      ⟨change (net replicaId).state, (net replicaId).versionVector.increment replicaId⟩
  | .sync replicaId other =>
    Function.update net replicaId (take (net replicaId) (net other))

def synced (agent : AntiEntropyAgent S Delta) (state : S) (ops : List (Op S)) :
    UInt64 → AntiEntropy S :=
  Trace.exec (step fun self other => self.sync other agent) (fun _ => .new state) ops

def exchanged (agent : AntiEntropyAgent S Delta) (state : S) (ops : List (Op S)) :
    UInt64 → AntiEntropy S :=
  Trace.exec (step fun self other => self.exchange other agent) (fun _ => .new state) ops

def Op.Inflates [LE S] : Op S → Prop
  | .update _ change => ∀ s, s ≤ change s
  | .sync .. => True

variable [SemilatticeSup S] {net plain : UInt64 → AntiEntropy S} {history : UInt64 → ℕ → S}
  {base : S} {n : Nat}

-- ---------------------------------------------------------------------------
-- One step
-- ---------------------------------------------------------------------------

def clocks (net : UInt64 → AntiEntropy S) (r s : UInt64) : ℕ := ((net r).versionVector.get s).toNat

/-- After `n` steps the states are the sums of the updates that the vectors count, and no
count has run over. -/
structure Counted (base : S) (n : Nat) (net : UInt64 → AntiEntropy S) : Prop where
  tracked : ∃ history, Gossip.Tracked base history (fun r => (net r).state) (clocks net)
  few : ∀ r, clocks net r r ≤ n

theorem counted_new (base : S) : Counted base 0 fun _ => .new base where
  tracked := ⟨fun _ _ => base, Gossip.tracked_start base _⟩
  few _ := le_refl 0

/-- A vector that is dominated belongs to a state below. -/
theorem Counted.le (h : Counted base n net) {r s : UInt64}
    (hdominates : (net r).versionVector.dominates (net s).versionVector = true) :
    (net s).state ≤ (net r).state := by
  obtain ⟨history, htracked⟩ := h.tracked
  apply htracked.le
  intro q
  exact UInt64.le_iff_toNat_le.mp (VersionVector.dominates_iff.mp hdominates q)

omit [SemilatticeSup S] in
theorem state_update (net : UInt64 → AntiEntropy S) (r : UInt64) (node : AntiEntropy S) :
    (fun s => (Function.update net r node s).state) =
      Function.update (fun s => (net s).state) r node.state := by
  funext s
  by_cases hs : s = r
  · subst hs
    rw [Function.update_self, Function.update_self]
  · rw [Function.update_of_ne hs, Function.update_of_ne hs]

omit [SemilatticeSup S] in
theorem clocks_update (net : UInt64 → AntiEntropy S) (r : UInt64) (node : AntiEntropy S) :
    clocks (Function.update net r node) =
      Function.update (clocks net) r fun s => (node.versionVector.get s).toNat := by
  funext s q
  unfold clocks
  by_cases hs : s = r
  · subst hs
    rw [Function.update_self, Function.update_self]
  · rw [Function.update_of_ne hs, Function.update_of_ne hs]

theorem Counted.update (h : Counted base n net) (hn : n + 1 < 2 ^ 64) (r : UInt64) {s : S}
    (hs : (net r).state ≤ s) :
    Counted base (n + 1)
      (Function.update net r ⟨s, (net r).versionVector.increment r⟩) := by
  have hcount : (fun q => (((net r).versionVector.increment r).get q).toNat) =
      Function.update (clocks net r) r (clocks net r r + 1) := by
    funext q
    rw [VersionVector.get_increment]
    by_cases hq : q = r
    · subst hq
      have hfew := h.few q
      unfold clocks at hfew ⊢
      rw [if_pos rfl, Function.update_self, UInt64.toNat_add]
      change _ % 2 ^ 64 = _
      exact Nat.mod_eq_of_lt (by simp; omega)
    · rw [if_neg hq, Function.update_of_ne hq]
      rfl
  obtain ⟨history, htracked⟩ := h.tracked
  constructor
  · rw [state_update, clocks_update, hcount]
    exact htracked.update hs
  · intro q
    have hfew := h.few q
    rw [clocks_update, hcount]
    by_cases hq : q = r
    · subst hq
      rw [Function.update_self, Function.update_self]
      omega
    · rw [Function.update_of_ne hq]
      omega

theorem Counted.exchange (h : Counted base n net)
    (hagent : ∀ s t, agent.applyDelta s (agent.computeDelta s t) = s ⊔ t) (r q : UInt64) :
    Counted base (n + 1) (Function.update net r ((net r).exchange (net q) agent)) := by
  obtain ⟨history, htracked⟩ := h.tracked
  have hclock : (fun s => (((net r).exchange (net q) agent).versionVector.get s).toNat) =
      clocks net r ⊔ clocks net q := by
    funext s
    unfold AntiEntropy.exchange
    rw [VersionVector.get_merge]
    exact toNat_max _ _
  have hreceive := htracked.receive r q
  constructor
  · refine ⟨history, ?_⟩
    rw [state_update, clocks_update, hclock]
    unfold AntiEntropy.exchange
    rw [hagent]
    exact hreceive
  · intro s
    rw [clocks_update, hclock]
    by_cases hs : s = r
    · subst hs
      rw [Function.update_self, Pi.sup_apply, sup_eq_left.mpr (htracked.own s q)]
      exact (h.few s).trans n.le_succ
    · rw [Function.update_of_ne hs]
      exact (h.few s).trans n.le_succ

/-- Nothing is missed where `sync` returns at once. -/
theorem Counted.sync_eq (h : Counted base n net)
    (hagent : ∀ s t, agent.applyDelta s (agent.computeDelta s t) = s ⊔ t) (r q : UInt64) :
    ((net r).sync (net q) agent).state = ((net r).exchange (net q) agent).state ∧
      ((net r).sync (net q) agent).versionVector.get =
        ((net r).exchange (net q) agent).versionVector.get := by
  refine ⟨?_, ?_⟩
  · unfold sync
    split
    · rename_i hdominates
      unfold AntiEntropy.exchange
      rw [hagent, sup_eq_left.mpr (h.le hdominates)]
    · rfl
  · rw [AntiEntropy.get_sync]
    exact (VersionVector.get_merge _ _).symm

theorem Counted.sync (h : Counted base n net)
    (hagent : ∀ s t, agent.applyDelta s (agent.computeDelta s t) = s ⊔ t) (r q : UInt64) :
    Counted base (n + 1) (Function.update net r ((net r).sync (net q) agent)) := by
  unfold AntiEntropy.sync
  split
  · rw [Function.update_eq_self]
    exact ⟨h.tracked, fun s => (h.few s).trans n.le_succ⟩
  · exact h.exchange hagent r q

/-- The same states, and vectors with the same counts. -/
def Agree (net plain : UInt64 → AntiEntropy S) : Prop :=
  ∀ r, (net r).state = (plain r).state ∧ (net r).versionVector.get = (plain r).versionVector.get

omit [SemilatticeSup S] in
theorem Agree.put (h : Agree net plain) (r : UInt64) {node node' : AntiEntropy S}
    (hstate : node.state = node'.state) (hget : node.versionVector.get = node'.versionVector.get) :
    Agree (Function.update net r node) (Function.update plain r node') := by
  intro q
  by_cases hq : q = r
  · subst hq
    rw [Function.update_self, Function.update_self]
    exact ⟨hstate, hget⟩
  · rw [Function.update_of_ne hq, Function.update_of_ne hq]
    exact h q

omit [SemilatticeSup S] in
theorem Agree.exchange (h : Agree net plain) (r q : UInt64) :
    ((net r).exchange (net q) agent).state = ((plain r).exchange (plain q) agent).state ∧
      ((net r).exchange (net q) agent).versionVector.get =
        ((plain r).exchange (plain q) agent).versionVector.get := by
  unfold AntiEntropy.exchange
  rw [VersionVector.get_merge, VersionVector.get_merge, (h r).1, (h r).2, (h q).1, (h q).2]
  exact ⟨rfl, rfl⟩

-- ---------------------------------------------------------------------------
-- Every run
-- ---------------------------------------------------------------------------

theorem synced_exchanged (hagent : ∀ s t, agent.applyDelta s (agent.computeDelta s t) = s ⊔ t)
    (base : S) (ops : List (Op S)) (hinflates : ∀ op ∈ ops, op.Inflates)
    (hlength : ops.length < 2 ^ 64) :
    Counted base ops.length (synced agent base ops) ∧
      Agree (synced agent base ops) (exchanged agent base ops) := by
  induction ops using List.reverseRecOn with
  | nil => exact ⟨counted_new base, fun _ => ⟨rfl, rfl⟩⟩
  | append_singleton ops op ih =>
    rw [List.length_append, List.length_singleton] at hlength ⊢
    obtain ⟨hcounted, hagree⟩ := ih (fun op hop => hinflates op (List.mem_append_left _ hop))
      (Nat.lt_of_succ_lt hlength)
    have hop : op.Inflates := hinflates op (by simp)
    unfold synced at hcounted hagree ⊢
    unfold exchanged at hagree ⊢
    rw [Trace.exec_concat, Trace.exec_concat]
    cases op with
    | update r change =>
      refine ⟨hcounted.update hlength r (hop _), hagree.put r ?_ ?_⟩
      · rw [(hagree r).1]
      · funext q
        rw [VersionVector.get_increment, VersionVector.get_increment, (hagree r).2]
    | sync r q =>
      obtain ⟨hstate, hget⟩ := hcounted.sync_eq hagent r q
      obtain ⟨hstate', hget'⟩ := hagree.exchange r q
      exact ⟨hcounted.sync hagent r q, hagree.put r (hstate.trans hstate') (hget.trans hget')⟩

/-- In every run of inflating updates, each counted by its replica, and syncs between
replicas that were created with one state, the early return of `sync` changes no state and
no vector, a vector that dominates another belongs to a state above, and replicas that have
seen the same have the same state. -/
theorem sync_run (agent : AntiEntropyAgent S Delta)
    (hagent : ∀ s t, agent.applyDelta s (agent.computeDelta s t) = s ⊔ t) (state : S)
    (ops : List (Op S)) (hinflates : ∀ op ∈ ops, op.Inflates) (hlength : ops.length < 2 ^ 64) :
    (∀ r, (synced agent state ops r).state = (exchanged agent state ops r).state ∧
      ∀ q, (synced agent state ops r).versionVector.get q =
        (exchanged agent state ops r).versionVector.get q) ∧
    (∀ r q, (synced agent state ops r).versionVector.dominates
        (synced agent state ops q).versionVector = true →
      (synced agent state ops q).state ≤ (synced agent state ops r).state) ∧
    ∀ r q, (∀ k, (synced agent state ops r).versionVector.get k =
        (synced agent state ops q).versionVector.get k) →
      (synced agent state ops r).state = (synced agent state ops q).state := by
  obtain ⟨hcounted, hagree⟩ := synced_exchanged hagent state ops hinflates hlength
  refine ⟨fun r => ⟨(hagree r).1, congrFun (hagree r).2⟩, fun r q h => hcounted.le h, ?_⟩
  intro r q h
  have hsame := funext h
  apply le_antisymm
  · exact hcounted.le (VersionVector.dominates_iff.mpr hsame.le)
  · exact hcounted.le (VersionVector.dominates_iff.mpr hsame.ge)

/-- Two replicas that raise a number and tell each other. -/
theorem sync_run_two :
    let agent : AntiEntropyAgent ℕ ℕ := ⟨fun _ remote => remote, max⟩
    let ops : List (Op ℕ) := [.update 1 (· + 3), .sync 2 1, .sync 2 1, .update 2 (· + 4), .sync 1 2]
    (synced agent 0 ops 1).state = (exchanged agent 0 ops 1).state :=
  ((sync_run ⟨fun _ remote => remote, max⟩ (fun _ _ => rfl) 0
    [.update 1 (· + 3), .sync 2 1, .sync 2 1, .update 2 (· + 4), .sync 1 2]
    (by simp [Op.Inflates]) (by decide)).1 1).1

end LiteVision.Storage.AntiEntropy
