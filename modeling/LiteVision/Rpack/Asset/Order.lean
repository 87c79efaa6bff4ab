import LiteVision.Lib.Recency
import LiteVision.Rpack.Asset.Eviction

/-!
# The order of eviction

Eviction should take what was put least recently. The queue has an id once for each time it
was put, and eviction goes by the first of them: the last ones are in the order of the puts.
So an asset that was put again is evicted too early where its first entry is reached and an
asset put in between is not.
-/

namespace LiteVision.Rpack

open Lib
open Lib.Recency (Since)

-- ---------------------------------------------------------------------------
-- A tier and the puts into it
-- ---------------------------------------------------------------------------

namespace Tier

variable {tier tier' : Tier} {uses : List (Bytes 32)} {assetId id : Bytes 32} {data : List UInt8}
  {ok : Bool}

def Stored (tier : Tier) (id : Bytes 32) : Prop := (tier.store.get id).isSome

/-- For what is stored, the queue tells which was put last. -/
def InStep (uses : List (Bytes 32)) (tier : Tier) : Prop :=
  ∀ older newer, older ≠ newer → tier.Stored older → tier.Stored newer →
    (Since uses older newer ↔ Since tier.lru older newer)

/-- Between the two states, nothing is evicted that was put after something that is kept. -/
def EvictsOldest (uses : List (Bytes 32)) (assetId : Bytes 32) (tier tier' : Tier) : Prop :=
  ∀ evicted kept, evicted ≠ assetId → tier.Stored evicted → ¬ tier'.Stored evicted →
    tier'.Stored kept → Since uses evicted kept

/-- No asset that the data take the place of is in the queue behind the last entry of one that
stays. -/
def InOrder (tier : Tier) (assetId : Bytes 32) (data : List UInt8) : Prop :=
  ∀ front back, tier.Evicts data.length front back →
    ∀ evicted ∈ front, ∀ kept, kept ∉ front → evicted ≠ assetId → kept ≠ assetId →
      tier.Stored evicted → tier.Stored kept → Since tier.lru evicted kept

theorem stored_eraseAll {store : Map (Bytes 32) (List UInt8)} {ids : List (Bytes 32)} :
    ((eraseAll store ids).get id).isSome ↔ id ∉ ids ∧ (store.get id).isSome := by
  rw [get_eraseAll]
  split <;> simp [*]

theorem put_stored (hcapacity : tier.WithinCapacity)
    (hput : tier.put assetId data = some (ok, tier')) :
    ∃ front back, tier.Evicts data.length front back ∧
      (∀ id, id ≠ assetId → (tier'.Stored id ↔ id ∉ front ∧ tier.Stored id)) ∧
      ((tier'.Stored assetId ∧ tier'.lru = back ++ [assetId]) ∨ ∀ id, ¬ tier'.Stored id) := by
  obtain ⟨front, back, hevicts, heq⟩ := put_exact tier assetId data
  rw [heq] at hput
  refine ⟨front, back, hevicts, ?_⟩
  split at hput
  · obtain ⟨-, rfl⟩ := Prod.mk.inj (Option.some.inj hput)
    refine ⟨fun id hne => ?_, .inl ⟨?_, rfl⟩⟩
    · rw [Stored, Map.get_insert_ne _ _ hne]
      exact stored_eraseAll
    · rw [Stored, Map.get_insert_self]
      rfl
  · rename_i hlarge
    obtain ⟨-, rfl⟩ := Prod.mk.inj (Option.some.inj hput)
    obtain ⟨rfl, rfl⟩ := hevicts.of_large (Nat.lt_of_not_le hlarge)
    refine ⟨fun id _ => stored_eraseAll, .inr fun id hstored => ?_⟩
    -- all of the queue is gone, and with it all that was stored
    obtain ⟨hnot, hstored⟩ := stored_eraseAll.mp hstored
    obtain ⟨stored, hget⟩ := Option.isSome_iff_exists.mp hstored
    exact hnot (hcapacity.queued id (Map.mem_keys.mpr ⟨stored, hget⟩))

theorem InStep.put (h : InStep uses tier) (hcapacity : tier.WithinCapacity)
    (hput : tier.put assetId data = some (ok, tier')) : InStep (uses ++ [assetId]) tier' := by
  obtain ⟨front, back, hevicts, hother, haccepted⟩ := put_stored hcapacity hput
  intro older newer hne holder hnewer
  rcases haccepted with ⟨-, hlru⟩ | hnone
  · rw [hlru, Recency.since_concat uses hne, Recency.since_concat back hne]
    refine and_congr_right fun holderId => or_congr_right' fun hnewerId => ?_
    obtain ⟨-, holder⟩ := (hother older (Ne.symm holderId)).mp holder
    obtain ⟨hnot, hnewer⟩ := (hother newer (Ne.symm hnewerId)).mp hnewer
    rw [h older newer hne holder hnewer, hevicts.queue, Recency.since_append_left hnot]
  · exact absurd holder (hnone older)

theorem InStep.remove (h : InStep uses tier) (assetId : Bytes 32) :
    InStep uses (tier.remove assetId).2 := by
  rw [Tier.remove]
  split
  · have hstored {id : Bytes 32} (hid : (Tier.mk (tier.store.erase assetId)
        (tier.lru.filter (· ≠ assetId)) tier.maxSize).Stored id) :
        id ≠ assetId ∧ tier.Stored id := by
      have herased : id ∉ [assetId] ∧ tier.Stored id := stored_eraseAll.mp hid
      exact ⟨fun heq => herased.1 (List.mem_singleton.mpr heq), herased.2⟩
    intro older newer hne holder hnewer
    obtain ⟨holderId, holder⟩ := hstored holder
    obtain ⟨hnewerId, hnewer⟩ := hstored hnewer
    rw [h older newer hne holder hnewer]
    exact (Recency.since_filter (by simpa using holderId) (by simpa using hnewerId)).symm
  · exact h

/-- While the queue is in step with the puts, eviction is in order just when it is by the
queue. -/
theorem evictsOldest_iff (h : InStep uses tier) (hcapacity : tier.WithinCapacity)
    (hput : tier.put assetId data = some (ok, tier')) :
    EvictsOldest (uses ++ [assetId]) assetId tier tier' ↔ tier.InOrder assetId data := by
  obtain ⟨front, back, hevicts, hother, haccepted⟩ := put_stored hcapacity hput
  constructor
  · intro holdest front' back' hevicts' evicted hevicted kept hkept hevictedId hkeptId hold hnew
    obtain ⟨rfl, rfl⟩ := hevicts.unique hevicts'
    have hne : evicted ≠ kept := fun heq => hkept (heq ▸ hevicted)
    have hgone : ¬ tier'.Stored evicted := fun h' => ((hother _ hevictedId).mp h').1 hevicted
    have hsince := holdest evicted kept hevictedId hold hgone
      ((hother kept hkeptId).mpr ⟨hkept, hnew⟩)
    rw [Recency.since_concat uses hne] at hsince
    rw [← h evicted kept hne hold hnew]
    exact hsince.2.resolve_left (Ne.symm hkeptId)
  · intro horder evicted kept hevictedId hold hgone hkept
    have hevicted : evicted ∈ front := by
      by_contra hnot
      exact hgone ((hother evicted hevictedId).mpr ⟨hnot, hold⟩)
    have hne : evicted ≠ kept := fun heq => hgone (heq ▸ hkept)
    rw [Recency.since_concat uses hne]
    refine ⟨Ne.symm hevictedId, ?_⟩
    by_cases hkeptId : kept = assetId
    · exact .inl hkeptId.symm
    · obtain ⟨hnot, hnew⟩ := (hother kept hkeptId).mp hkept
      rw [h evicted kept hne hold hnew]
      exact .inr (horder front back hevicts evicted hevicted kept hnot hevictedId hkeptId hold hnew)

theorem inOrder_of_nodup (hcapacity : tier.WithinCapacity) (hnodup : tier.lru.Nodup)
    (assetId : Bytes 32) (data : List UInt8) : tier.InOrder assetId data := by
  intro front back hevicts evicted hevicted kept hkept _ _ _ hstored
  obtain ⟨stored, hget⟩ := Option.isSome_iff_exists.mp hstored
  have hmem := hcapacity.queued kept (Map.mem_keys.mpr ⟨stored, hget⟩)
  rw [hevicts.queue] at hnodup hmem ⊢
  exact Recency.since_of_nodup hnodup hevicted ((List.mem_append.mp hmem).resolve_left hkept)

end Tier

-- ---------------------------------------------------------------------------
-- Runs
-- ---------------------------------------------------------------------------

def CacheOp.use (tier : CacheTier) : CacheOp → Option (Bytes 32)
  | .put assetId _ tier' => if tier' = tier then some assetId else none
  | .remove _ => none

def uses (tier : CacheTier) (ops : List CacheOp) : List (Bytes 32) :=
  ops.filterMap (CacheOp.use tier)

namespace AssetCache

variable {cache cache' : AssetCache} {past : List CacheOp} {op : CacheOp}

theorem uses_concat_of_some {tier : CacheTier} {assetId : Bytes 32} (past : List CacheOp)
    (h : op.use tier = some assetId) : uses tier (past ++ [op]) = uses tier past ++ [assetId] := by
  simp [uses, h]

theorem uses_concat_of_none {tier : CacheTier} (past : List CacheOp) (h : op.use tier = none) :
    uses tier (past ++ [op]) = uses tier past := by
  simp [uses, h]

structure InStep (past : List CacheOp) (cache : AssetCache) : Prop where
  tier0 : cache.tier0.InStep (uses .memory past)
  tier1 : cache.tier1.InStep (uses .disk past)

theorem Slot.put_tier (slot : Slot) {assetId : Bytes 32} {data : List UInt8} {ok : Bool}
    (hcapacity : (slot.tier cache).WithinCapacity)
    (hput : slot.put cache assetId data = some (ok, cache')) :
    (slot.tier cache).put assetId data = some (ok, slot.tier cache') ∧
      ∃ tier, cache' = slot.setTier cache tier := by
  obtain ⟨ok', tier, hput', htier, hset, -⟩ := slot.put_spec hcapacity assetId data
  obtain ⟨rfl, rfl⟩ := Prod.mk.inj (Option.some.inj (hput'.symm.trans hput))
  exact ⟨by rw [hset, htier], tier, rfl⟩

theorem InStep.of_no_use (h : InStep past cache) (hmemory : op.use .memory = none)
    (hdisk : op.use .disk = none) (htier0 : cache'.tier0 = cache.tier0)
    (htier1 : cache'.tier1 = cache.tier1) : InStep (past ++ [op]) cache' := by
  constructor
  · rw [uses_concat_of_none past hmemory, htier0]
    exact h.tier0
  · rw [uses_concat_of_none past hdisk, htier1]
    exact h.tier1

theorem InStep.remove (h : InStep past cache) (assetId : Bytes 32) :
    InStep past (cache.remove assetId).2 := by
  obtain ⟨htier0, htier1⟩ := remove_tiers cache assetId
  constructor
  · rw [htier0]
    exact h.tier0.remove assetId
  · rw [htier1]
    exact h.tier1.remove assetId

theorem InStep.step (h : InStep past cache) (hcapacity : cache.WithinCapacity)
    (hstep : step cache op = some cache') : InStep (past ++ [op]) cache' := by
  cases op with
  | put assetId data tier =>
    obtain ⟨⟨ok, cache''⟩, hput, rfl⟩ := Option.map_eq_some_iff.mp hstep
    cases tier with
    | memory =>
      obtain ⟨hput0, tier', rfl⟩ := slot0.put_tier hcapacity.tier0 hput
      constructor
      · rw [uses_concat_of_some past rfl]
        exact h.tier0.put hcapacity.tier0 hput0
      · rw [uses_concat_of_none past rfl]
        exact h.tier1
    | disk =>
      obtain ⟨hput1, tier', rfl⟩ := slot1.put_tier hcapacity.tier1 hput
      constructor
      · rw [uses_concat_of_none past rfl]
        exact h.tier0
      · rw [uses_concat_of_some past rfl]
        exact h.tier1.put hcapacity.tier1 hput1
    | regional =>
      obtain ⟨rfl, rfl⟩ := Prod.mk.inj (Option.some.inj hput)
      exact h.of_no_use rfl rfl rfl rfl
    | network =>
      obtain ⟨rfl, rfl⟩ := Prod.mk.inj (Option.some.inj hput)
      exact h.of_no_use rfl rfl rfl rfl
  | remove assetId =>
    obtain rfl := Option.some.inj hstep
    exact (h.remove assetId).of_no_use rfl rfl rfl rfl

theorem inStep_of_exec (maxTier0Mb maxTier1Mb : UInt64)
    (hrun : Trace.exec? step (new maxTier0Mb maxTier1Mb) past = some cache) :
    InStep past cache := by
  induction past using List.reverseRecOn generalizing cache with
  | nil =>
    obtain rfl := Option.some.inj hrun
    have hnone (maxSize : Nat) (id : Bytes 32) : ¬ Tier.Stored ⟨.empty, [], maxSize⟩ id := by
      rw [Tier.Stored, Map.get_empty]
      exact Bool.false_ne_true
    exact ⟨fun older _ _ holder => absurd holder (hnone _ older),
      fun older _ _ holder => absurd holder (hnone _ older)⟩
  | append_singleton past op ih =>
    rw [Trace.exec?_concat] at hrun
    obtain ⟨before, hbefore, hstep⟩ := Option.bind_eq_some_iff.mp hrun
    exact (ih hbefore).step (withinCapacity_of_exec hbefore) hstep

/-- The call takes nothing from its tier that was put there more recently than something
that stays. -/
def TakesOldest (past : List CacheOp) (cache cache' : AssetCache) (op : CacheOp) : Prop :=
  match op with
  | .put assetId _ .memory =>
    Tier.EvictsOldest (uses .memory (past ++ [op])) assetId cache.tier0 cache'.tier0
  | .put assetId _ .disk =>
    Tier.EvictsOldest (uses .disk (past ++ [op])) assetId cache.tier1 cache'.tier1
  | _ => True

def InOrder (cache : AssetCache) : CacheOp → Prop
  | .put assetId data .memory => cache.tier0.InOrder assetId data
  | .put assetId data .disk => cache.tier1.InOrder assetId data
  | _ => True

def EvictsOldest (maxTier0Mb maxTier1Mb : UInt64) (past : List CacheOp) (op : CacheOp) : Prop :=
  ∀ cache cache', Trace.exec? step (new maxTier0Mb maxTier1Mb) past = some cache →
    step cache op = some cache' → TakesOldest past cache cache' op

def QueuedInOrder (maxTier0Mb maxTier1Mb : UInt64) (past : List CacheOp) (op : CacheOp) : Prop :=
  ∀ cache, Trace.exec? step (new maxTier0Mb maxTier1Mb) past = some cache → cache.InOrder op

theorem takesOldest_iff (h : InStep past cache) (hcapacity : cache.WithinCapacity)
    (hstep : step cache op = some cache') :
    TakesOldest past cache cache' op ↔ cache.InOrder op := by
  cases op with
  | put assetId data tier =>
    obtain ⟨⟨ok, cache''⟩, hput, rfl⟩ := Option.map_eq_some_iff.mp hstep
    cases tier with
    | memory =>
      rw [TakesOldest, uses_concat_of_some past rfl]
      exact Tier.evictsOldest_iff h.tier0 hcapacity.tier0 (slot0.put_tier hcapacity.tier0 hput).1
    | disk =>
      rw [TakesOldest, uses_concat_of_some past rfl]
      exact Tier.evictsOldest_iff h.tier1 hcapacity.tier1 (slot1.put_tier hcapacity.tier1 hput).1
    | regional => exact Iff.rfl
    | network => exact Iff.rfl
  | remove assetId => exact Iff.rfl

theorem evictsOldest_iff (maxTier0Mb maxTier1Mb : UInt64) (past : List CacheOp) (op : CacheOp) :
    EvictsOldest maxTier0Mb maxTier1Mb past op ↔ QueuedInOrder maxTier0Mb maxTier1Mb past op := by
  constructor
  · intro h cache hrun
    obtain ⟨cache', hstep⟩ : ∃ cache', step cache op = some cache' := by
      obtain ⟨cache', hrun', -⟩ := within_capacity maxTier0Mb maxTier1Mb (past ++ [op])
      rw [Trace.exec?_concat, hrun] at hrun'
      exact ⟨cache', hrun'⟩
    exact (takesOldest_iff (inStep_of_exec _ _ hrun) (withinCapacity_of_exec hrun) hstep).mp
      (h cache cache' hrun hstep)
  · intro h cache cache' hrun hstep
    exact (takesOldest_iff (inStep_of_exec _ _ hrun) (withinCapacity_of_exec hrun) hstep).mpr
      (h cache hrun)

/-- A run evicts in the order of the puts just when its queues are in order at each `put`. -/
theorem eviction_order_iff (maxTier0Mb maxTier1Mb : UInt64) (ops : List CacheOp) :
    (∀ past op rest, ops = past ++ op :: rest → EvictsOldest maxTier0Mb maxTier1Mb past op) ↔
      ∀ past op rest, ops = past ++ op :: rest → QueuedInOrder maxTier0Mb maxTier1Mb past op :=
  forall_congr' fun past => forall_congr' fun op => forall_congr' fun _ => forall_congr' fun _ =>
    evictsOldest_iff maxTier0Mb maxTier1Mb past op

theorem step_put_of_room {assetId : Bytes 32} {data : List UInt8}
    (hroom : Tier.size cache.tier0Memory + data.length ≤ cache.maxTier0Size) :
    step cache (.put assetId data .memory) = some { cache with
      tier0Memory := cache.tier0Memory.insert assetId data
      lruTier0 := cache.lruTier0 ++ [assetId] } := by
  have hfits : data.length ≤ cache.maxTier0Size := by omega
  simp only [step, put, putTier0, Tier.put, Tier.makeRoom, tier0, Nat.not_lt.mpr hroom, if_false,
    Option.map_some, hfits, if_true]
  rfl

section Again

variable {first second third : Bytes 32} {small large : List UInt8}

/-- Two assets, the first of them put again. -/
def again (first second : Bytes 32) (small : List UInt8) : AssetCache :=
  { new 1 1 with
    tier0Memory := (Map.empty.insert first small).insert second small
    lruTier0 := [first, second, first] }

theorem size_again (small : List UInt8) (hne : second ≠ first) :
    Tier.size (Map.empty.insert first small) = small.length ∧
      Tier.size (again first second small).tier0Memory = 2 * small.length := by
  have hsize1 : Tier.size (Map.empty.insert first small) = small.length := by
    have htotal := Map.total_insert .empty List.length first small
    rwa [Map.total_empty, Map.weightAt_none (Map.get_empty first), Nat.zero_add] at htotal
  refine ⟨hsize1, ?_⟩
  have htotal := Map.total_insert (Map.empty.insert first small) List.length second small
  have hnew : (Map.empty.insert first small).get second = none := by
    rw [Map.get_insert_ne _ _ hne, Map.get_empty]
  rw [Map.weightAt_none hnew, ← Tier.size, ← Tier.size, hsize1] at htotal
  exact htotal.trans (Nat.two_mul _).symm

theorem get_again (hne : second ≠ first) :
    (again first second small).tier0Memory.get first = some small := by
  rw [again, Map.get_insert_ne _ _ hne.symm, Map.get_insert_self]

theorem exec_again (hne : second ≠ first) (hsmall : small.length = 300000) :
    Trace.exec? step (new 1 1)
      [.put first small .memory, .put second small .memory, .put first small .memory] =
      some (again first second small) := by
  obtain ⟨hsize1, hsize2⟩ := size_again small hne
  have hmax : (new 1 1).maxTier0Size = 1048576 := by decide
  have hempty : Tier.size (new 1 1).tier0Memory = 0 := Map.total_empty _
  have hstep1 : step (new 1 1) (.put first small .memory) = some { new 1 1 with
      tier0Memory := Map.empty.insert first small
      lruTier0 := [first] } :=
    step_put_of_room (by omega)
  have hstep2 : step { new 1 1 with
      tier0Memory := Map.empty.insert first small
      lruTier0 := [first] } (.put second small .memory) = some { new 1 1 with
      tier0Memory := (again first second small).tier0Memory
      lruTier0 := [first, second] } :=
    step_put_of_room (by dsimp only; omega)
  have hstep3 : step { new 1 1 with
      tier0Memory := (again first second small).tier0Memory
      lruTier0 := [first, second] } (.put first small .memory) =
      some (again first second small) := by
    refine (step_put_of_room (by dsimp only; omega)).trans ?_
    dsimp only
    rw [Map.insert_eq_self.mpr (get_again hne)]
    rfl
  rw [Trace.exec?, hstep1, Option.bind_some, Trace.exec?, hstep2, Option.bind_some, Trace.exec?,
    hstep3, Option.bind_some, Trace.exec?]

theorem again_evicts (hne : second ≠ first) (hsmall : small.length = 300000)
    (hlarge : large.length = 500000) :
    (again first second small).tier0.Evicts large.length [first] [second, first] := by
  have hsize := (size_again small hne).2
  have hmax : (again first second small).tier0.maxSize = 1048576 := by
    have hmax : (new 1 1).maxTier0Size = 1048576 := by decide
    exact hmax
  refine ⟨rfl, fun shorter hstart hshorter => ?_, .inr ?_⟩
  · rcases List.prefix_cons_iff.mp hstart with rfl | ⟨rest, rfl, hrest⟩
    · change _ < Tier.size (again first second small).tier0Memory + _
      omega
    · rw [List.prefix_nil.mp hrest] at hshorter
      exact absurd rfl hshorter
  · have herase := Tier.size_erase (again first second small).tier0Memory first
    rw [Map.weightAt_some (get_again hne)] at herase
    change Tier.size ((again first second small).tier0Memory.erase first) + _ ≤ _
    omega

theorem not_evictsOldest_again (hne : second ≠ first) (hthird : third ≠ first ∧ third ≠ second)
    (hsmall : small.length = 300000) (hlarge : large.length = 500000) :
    ¬ EvictsOldest 1 1
      [.put first small .memory, .put second small .memory, .put first small .memory]
      (.put third large .memory) := by
  intro h
  have horder := (evictsOldest_iff 1 1 _ (.put third large .memory)).mp h _
    (exec_again hne hsmall)
  have hfirst : (again first second small).tier0.Stored first := by
    rw [Tier.Stored, tier0, get_again hne]
    rfl
  have hsecond : (again first second small).tier0.Stored second := by
    rw [Tier.Stored, tier0, again, Map.get_insert_self]
    rfl
  have hsince : Since [first, second, first] first second :=
    horder _ _ (again_evicts hne hsmall hlarge) first (List.mem_singleton_self first) second
      (mt List.mem_singleton.mp hne) hthird.1.symm hthird.2.symm hfirst hsecond
  exact ((Recency.since_concat [first, second] hne.symm).mp hsince).1 rfl

end Again

/-- An asset that is put again is evicted before one that was put in between. -/
theorem eviction_order_fails :
    ¬ ∀ (maxTier0Mb maxTier1Mb : UInt64) (ops past : List CacheOp) (op : CacheOp)
      (rest : List CacheOp), ops = past ++ op :: rest →
      EvictsOldest maxTier0Mb maxTier1Mb past op := by
  intro h
  have hne : Bytes.fill 32 2 ≠ .fill 32 1 := by decide
  have hthird : Bytes.fill 32 3 ≠ .fill 32 1 ∧ Bytes.fill 32 3 ≠ .fill 32 2 := by decide
  have hsmall : (List.replicate 300000 (0 : UInt8)).length = 300000 := List.length_replicate
  have hlarge : (List.replicate 500000 (0 : UInt8)).length = 500000 := List.length_replicate
  exact not_evictsOldest_again hne hthird hsmall hlarge (h 1 1 _ _ _ [] rfl)

end AssetCache

end LiteVision.Rpack
