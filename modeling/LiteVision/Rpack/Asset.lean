import LiteVision.Bytes
import LiteVision.Lib.Map
import LiteVision.Lib.Trace

/-!
# Asset cache

Assets are kept under the hash of their data, in three tiers. The first two have a
capacity and a queue of the ids that were put; when there is no room, ids are taken from
the front of the queue until there is. An id can be in the queue more than once, or no
longer stored.
-/

namespace LiteVision.Rpack

open Lib

inductive CacheTier where
  | memory
  | disk
  | regional
  | network
  deriving DecidableEq

structure AssetCache where
  tier0Memory : Map (Bytes 32) (List UInt8)
  tier1Disk : Map (Bytes 32) (List UInt8)
  tier2Regional : Map (Bytes 32) (List UInt8)
  maxTier0Size : Nat
  maxTier1Size : Nat
  lruTier0 : List (Bytes 32)
  lruTier1 : List (Bytes 32)
  deriving DecidableEq

-- ---------------------------------------------------------------------------
-- A tier with a capacity
-- ---------------------------------------------------------------------------

structure Tier where
  store : Map (Bytes 32) (List UInt8)
  lru : List (Bytes 32)
  maxSize : Nat

namespace Tier

/-- `values().map(|v| v.len()).sum()`. -/
def size (store : Map (Bytes 32) (List UInt8)) : Nat := store.total List.length

/-- The loop that takes ids from the queue; `none` if `current_size` would go below zero. -/
def evict (maxSize size : Nat) : List (Bytes 32) → Map (Bytes 32) (List UInt8) → Nat →
    Option (List (Bytes 32) × Map (Bytes 32) (List UInt8))
  | [], store, _ => some ([], store)
  | lruId :: lru, store, currentSize =>
    match store.get lruId with
    | none => evict maxSize size lru store currentSize
    | some removed =>
      if currentSize < removed.length then none
      else if currentSize - removed.length + size ≤ maxSize then some (lru, store.erase lruId)
      else evict maxSize size lru (store.erase lruId) (currentSize - removed.length)

def makeRoom (tier : Tier) (dataSize : Nat) : Option Tier :=
  if tier.maxSize < size tier.store + dataSize then
    (evict tier.maxSize dataSize tier.lru tier.store (size tier.store)).map fun evicted =>
      { tier with lru := evicted.1, store := evicted.2 }
  else some tier

def put (tier : Tier) (assetId : Bytes 32) (data : List UInt8) : Option (Bool × Tier) :=
  (tier.makeRoom data.length).map fun tier =>
    if data.length ≤ tier.maxSize then
      (true, { tier with store := tier.store.insert assetId data, lru := tier.lru ++ [assetId] })
    else (false, tier)

def remove (tier : Tier) (assetId : Bytes 32) : Bool × Tier :=
  match tier.store.get assetId with
  | some _ =>
    (true, { tier with
      store := tier.store.erase assetId
      lru := tier.lru.filter (· ≠ assetId) })
  | none => (false, tier)

end Tier

-- ---------------------------------------------------------------------------
-- The cache
-- ---------------------------------------------------------------------------

namespace AssetCache

def new (maxTier0Mb maxTier1Mb : UInt64) : AssetCache where
  tier0Memory := .empty
  tier1Disk := .empty
  tier2Regional := .empty
  maxTier0Size := (maxTier0Mb * 1024 * 1024).toNat
  maxTier1Size := (maxTier1Mb * 1024 * 1024).toNat
  lruTier0 := []
  lruTier1 := []

def tier0 (cache : AssetCache) : Tier := ⟨cache.tier0Memory, cache.lruTier0, cache.maxTier0Size⟩

def tier1 (cache : AssetCache) : Tier := ⟨cache.tier1Disk, cache.lruTier1, cache.maxTier1Size⟩

def setTier0 (cache : AssetCache) (tier : Tier) : AssetCache :=
  { cache with tier0Memory := tier.store, lruTier0 := tier.lru }

def setTier1 (cache : AssetCache) (tier : Tier) : AssetCache :=
  { cache with tier1Disk := tier.store, lruTier1 := tier.lru }

def get (cache : AssetCache) (assetId : Bytes 32) : Option (List UInt8) :=
  match cache.tier0Memory.get assetId with
  | some data => some data
  | none =>
    match cache.tier1Disk.get assetId with
    | some data => some data
    | none => cache.tier2Regional.get assetId

def putTier0 (cache : AssetCache) (assetId : Bytes 32) (data : List UInt8) :
    Option (Bool × AssetCache) :=
  (cache.tier0.put assetId data).map fun result => (result.1, cache.setTier0 result.2)

def putTier1 (cache : AssetCache) (assetId : Bytes 32) (data : List UInt8) :
    Option (Bool × AssetCache) :=
  (cache.tier1.put assetId data).map fun result => (result.1, cache.setTier1 result.2)

def putTier2 (cache : AssetCache) (assetId : Bytes 32) (data : List UInt8) : Bool × AssetCache :=
  (true, { cache with tier2Regional := cache.tier2Regional.insert assetId data })

def put (cache : AssetCache) (assetId : Bytes 32) (data : List UInt8) :
    CacheTier → Option (Bool × AssetCache)
  | .memory => cache.putTier0 assetId data
  | .disk => cache.putTier1 assetId data
  | .regional => some (cache.putTier2 assetId data)
  | .network => some (false, cache)

def remove (cache : AssetCache) (assetId : Bytes 32) : Bool × AssetCache :=
  let removed0 := cache.tier0.remove assetId
  let removed1 := cache.tier1.remove assetId
  let removed2 := (cache.tier2Regional.get assetId).isSome
  (removed0.1 || removed1.1 || removed2,
    { (cache.setTier0 removed0.2).setTier1 removed1.2 with
      tier2Regional := cache.tier2Regional.erase assetId })

/-- Where a tier with a capacity stands in the cache. -/
structure Slot where
  tier : AssetCache → Tier
  setTier : AssetCache → Tier → AssetCache
  tier_setTier : ∀ {cache tier'}, tier'.maxSize = (tier cache).maxSize →
    tier (setTier cache tier') = tier'
  setTier_tier : ∀ cache, setTier cache (tier cache) = cache

def slot0 : Slot where
  tier := tier0
  setTier := setTier0
  tier_setTier h := congrArg (Tier.mk _ _) h.symm
  setTier_tier _ := rfl

def slot1 : Slot where
  tier := tier1
  setTier := setTier1
  tier_setTier h := congrArg (Tier.mk _ _) h.symm
  setTier_tier _ := rfl

def Slot.put (slot : Slot) (cache : AssetCache) (assetId : Bytes 32) (data : List UInt8) :
    Option (Bool × AssetCache) :=
  ((slot.tier cache).put assetId data).map fun result => (result.1, slot.setTier cache result.2)

end AssetCache

-- ---------------------------------------------------------------------------
-- What a tier keeps
-- ---------------------------------------------------------------------------

namespace Tier

/-- Every stored id is in the queue. -/
def Queued (lru : List (Bytes 32)) (store : Map (Bytes 32) (List UInt8)) : Prop :=
  ∀ id ∈ store.keys, id ∈ lru

/-- The data fit, and all of them can be evicted. -/
structure WithinCapacity (tier : Tier) : Prop where
  capacity : size tier.store ≤ tier.maxSize
  queued : Queued tier.lru tier.store

def Within (store store' : Map (Bytes 32) (List UInt8)) : Prop :=
  ∀ id data, store.get id = some data → store'.get id = some data

variable {store : Map (Bytes 32) (List UInt8)} {lru : List (Bytes 32)} {lruId : Bytes 32}
  {tier : Tier}

theorem size_erase (store : Map (Bytes 32) (List UInt8)) (id : Bytes 32) :
    size (store.erase id) + store.weightAt List.length id = size store :=
  Map.total_erase store List.length id

theorem size_insert_le (store : Map (Bytes 32) (List UInt8)) (id : Bytes 32) (data : List UInt8) :
    size (store.insert id data) ≤ size store + data.length := by
  have := Map.total_insert store List.length id data
  rw [size, size]
  omega

theorem within_erase (store : Map (Bytes 32) (List UInt8)) (lruId : Bytes 32) :
    Within (store.erase lruId) store := by
  intro id data h
  rw [Map.get_erase] at h
  split at h
  · cases h
  · exact h

theorem Queued.of_stale (h : Queued (lruId :: lru) store) (hstale : store.get lruId = none) :
    Queued lru store := by
  intro id hid
  rcases List.mem_cons.mp (h id hid) with rfl | hmem
  · obtain ⟨data, hdata⟩ := Map.mem_keys.mp hid
    cases hstale.symm.trans hdata
  · exact hmem

theorem Queued.erase (h : Queued (lruId :: lru) store) : Queued lru (store.erase lruId) := by
  intro id hid
  rw [Map.keys_erase, Finset.mem_erase] at hid
  exact List.mem_of_ne_of_mem hid.1 (h id hid.2)

theorem Queued.size_nil (h : Queued [] store) : size store = 0 := by
  refine Map.total_eq_zero.mpr fun id data hdata => ?_
  exact absurd (h id (Map.mem_keys.mpr ⟨data, hdata⟩)) List.not_mem_nil

theorem evict_spec (maxSize dataSize : Nat) (lru : List (Bytes 32))
    (store : Map (Bytes 32) (List UInt8)) (hqueued : Queued lru store) :
    ∃ lru' store', evict maxSize dataSize lru store (size store) = some (lru', store') ∧
      Queued lru' store' ∧ Within store' store ∧
      (size store' + dataSize ≤ maxSize ∨ size store' = 0) := by
  induction lru generalizing store with
  | nil => exact ⟨[], store, rfl, hqueued, fun _ _ h => h, .inr hqueued.size_nil⟩
  | cons lruId lru ih =>
    rw [evict]
    cases hstored : store.get lruId with
    | none => exact ih store (hqueued.of_stale hstored)
    | some removed =>
      have hsplit : size (store.erase lruId) + removed.length = size store := by
        rw [← size_erase store lruId, Map.weightAt_some hstored]
      have hsize : size store - removed.length = size (store.erase lruId) := by omega
      have henough : ¬ size store < removed.length := by omega
      simp only [henough, if_false, hsize]
      split
      · rename_i hroom
        exact ⟨lru, _, rfl, hqueued.erase, within_erase store lruId, .inl hroom⟩
      · obtain ⟨lru', store', hevict, hqueued', hwithin, hroom⟩ := ih _ hqueued.erase
        exact ⟨lru', store', hevict, hqueued',
          fun id data h => within_erase store lruId id data (hwithin id data h), hroom⟩

theorem makeRoom_spec (h : tier.WithinCapacity) (dataSize : Nat) :
    ∃ lru store, tier.makeRoom dataSize = some { tier with lru := lru, store := store } ∧
      Queued lru store ∧ Within store tier.store ∧
      (size store + dataSize ≤ tier.maxSize ∨ size store = 0) := by
  rw [makeRoom]
  split
  · obtain ⟨lru, store, hevict, hrest⟩ :=
      evict_spec tier.maxSize dataSize tier.lru tier.store h.queued
    exact ⟨lru, store, by rw [hevict]; rfl, hrest⟩
  · rename_i hroom
    exact ⟨tier.lru, tier.store, rfl, h.queued, fun _ _ h => h, .inl (by omega)⟩

theorem put_spec (h : tier.WithinCapacity) (assetId : Bytes 32) (data : List UInt8) :
    ∃ ok tier', tier.put assetId data = some (ok, tier') ∧ tier'.WithinCapacity ∧
      tier'.maxSize = tier.maxSize ∧
      (∀ id stored, tier'.store.get id = some stored →
        tier.store.get id = some stored ∨ (id = assetId ∧ stored = data)) ∧
      (ok = true → tier'.store.get assetId = some data) := by
  obtain ⟨lru, store, hroom, hqueued, hwithin, hsize⟩ := makeRoom_spec h data.length
  rw [put, hroom, Option.map_some]
  split
  · rename_i hfits
    dsimp only at hfits
    refine ⟨true, _, rfl, ⟨?_, fun id hid => ?_⟩, rfl, fun id stored hget => ?_, fun _ => ?_⟩
    · change size (store.insert assetId data) ≤ tier.maxSize
      have hinsert := size_insert_le store assetId data
      omega
    · obtain ⟨stored, hstored⟩ := Map.mem_keys.mp hid
      rcases Map.of_get_insert hstored with ⟨rfl, -⟩ | ⟨-, hold⟩
      · exact List.mem_append_right lru List.mem_cons_self
      · exact List.mem_append_left _ (hqueued id (Map.mem_keys.mpr ⟨stored, hold⟩))
    · rcases Map.of_get_insert hget with hnew | ⟨-, hold⟩
      · exact .inr hnew
      · exact .inl (hwithin id stored hold)
    · exact Map.get_insert_self store assetId data
  · rename_i hlarge
    dsimp only at hlarge
    refine ⟨false, _, rfl, ⟨?_, hqueued⟩, rfl, fun id stored hget => .inl (hwithin id stored hget),
      fun hok => nomatch hok⟩
    change size store ≤ tier.maxSize
    omega

theorem remove_withinCapacity (h : tier.WithinCapacity) (assetId : Bytes 32) :
    (tier.remove assetId).2.WithinCapacity := by
  rw [remove]
  split
  · refine ⟨?_, fun id hid => ?_⟩
    · change size (tier.store.erase assetId) ≤ tier.maxSize
      have herase := size_erase tier.store assetId
      have hcapacity := h.capacity
      omega
    · rw [Map.keys_erase, Finset.mem_erase] at hid
      exact List.mem_filter.mpr ⟨h.queued id hid.2, decide_eq_true hid.1⟩
  · exact h

theorem remove_maxSize (tier : Tier) (assetId : Bytes 32) :
    (tier.remove assetId).2.maxSize = tier.maxSize := by
  rw [remove]
  split <;> rfl

end Tier

-- ---------------------------------------------------------------------------
-- Runs
-- ---------------------------------------------------------------------------

inductive CacheOp where
  | put (assetId : Bytes 32) (data : List UInt8) (tier : CacheTier)
  | remove (assetId : Bytes 32)

namespace AssetCache

def step (cache : AssetCache) : CacheOp → Option AssetCache
  | .put assetId data tier => (cache.put assetId data tier).map Prod.snd
  | .remove assetId => some (cache.remove assetId).2

structure WithinCapacity (cache : AssetCache) : Prop where
  tier0 : cache.tier0.WithinCapacity
  tier1 : cache.tier1.WithinCapacity

variable {cache : AssetCache}

theorem new_withinCapacity (maxTier0Mb maxTier1Mb : UInt64) :
    (new maxTier0Mb maxTier1Mb).WithinCapacity := by
  have hempty (maxSize : Nat) : Tier.WithinCapacity ⟨.empty, [], maxSize⟩ := by
    refine ⟨?_, fun id hid => ?_⟩
    · rw [Tier.size, Map.total_empty]
      exact Nat.zero_le _
    · rw [Map.keys_empty] at hid
      exact absurd hid (Finset.notMem_empty id)
  exact ⟨hempty _, hempty _⟩

def Holds (cache : AssetCache) (id : Bytes 32) (data : List UInt8) : Prop :=
  cache.tier0Memory.get id = some data ∨ cache.tier1Disk.get id = some data ∨
    cache.tier2Regional.get id = some data

theorem holds_of_get {id : Bytes 32} {data : List UInt8} (h : cache.get id = some data) :
    cache.Holds id data := by
  rw [get] at h
  split at h
  · rename_i hstored
    exact .inl (hstored.trans h)
  · split at h
    · rename_i hstored
      exact .inr (.inl (hstored.trans h))
    · exact .inr (.inr h)

theorem Holds.exists_get {id : Bytes 32} {data : List UInt8} (h : cache.Holds id data) :
    ∃ found, cache.get id = some found := by
  rw [get]
  split
  · exact ⟨_, rfl⟩
  · rename_i hnone
    split
    · exact ⟨_, rfl⟩
    · rename_i hnone'
      rcases h with hstored | hstored | hstored
      · cases hnone.symm.trans hstored
      · cases hnone'.symm.trans hstored
      · exact ⟨data, hstored⟩

/-- All that a `put` does to the cache. -/
structure PutSpec (cache : AssetCache) (assetId : Bytes 32) (data : List UInt8) (ok : Bool)
    (cache' : AssetCache) : Prop where
  withinCapacity : cache'.WithinCapacity
  maxTier0Size : cache'.maxTier0Size = cache.maxTier0Size
  maxTier1Size : cache'.maxTier1Size = cache.maxTier1Size
  brought : ∀ id stored, cache'.Holds id stored →
    cache.Holds id stored ∨ (id = assetId ∧ stored = data)
  stored : ok = true → cache'.Holds assetId data

theorem Slot.put_spec (slot : Slot) (h : (slot.tier cache).WithinCapacity)
    (assetId : Bytes 32) (data : List UInt8) :
    ∃ ok tier, slot.put cache assetId data = some (ok, slot.setTier cache tier) ∧
      (slot.tier cache).put assetId data = some (ok, tier) ∧
      slot.tier (slot.setTier cache tier) = tier ∧ tier.WithinCapacity ∧
      (∀ id stored, tier.store.get id = some stored →
        (slot.tier cache).store.get id = some stored ∨ (id = assetId ∧ stored = data)) ∧
      (ok = true → tier.store.get assetId = some data) := by
  obtain ⟨ok, tier, hput, hcapacity, hmax, hrest⟩ := Tier.put_spec h assetId data
  exact ⟨ok, tier, by rw [Slot.put, hput]; rfl, hput, slot.tier_setTier hmax, hcapacity, hrest⟩

theorem putTier0_spec (h : cache.WithinCapacity) (assetId : Bytes 32) (data : List UInt8) :
    ∃ ok cache', cache.putTier0 assetId data = some (ok, cache') ∧
      PutSpec cache assetId data ok cache' := by
  obtain ⟨ok, tier, hput, -, htier, hcapacity, hbrought, hstored⟩ :=
    slot0.put_spec h.tier0 assetId data
  have htier0 : (cache.setTier0 tier).tier0 = tier := htier
  refine ⟨ok, cache.setTier0 tier, hput, ⟨htier0 ▸ hcapacity, h.tier1⟩, rfl, rfl,
    fun id stored hholds => ?_, fun hok => .inl (hstored hok)⟩
  rcases hholds with hfirst | hrest
  · exact (hbrought id stored hfirst).imp_left .inl
  · exact .inl (.inr hrest)

theorem putTier1_spec (h : cache.WithinCapacity) (assetId : Bytes 32) (data : List UInt8) :
    ∃ ok cache', cache.putTier1 assetId data = some (ok, cache') ∧
      PutSpec cache assetId data ok cache' := by
  obtain ⟨ok, tier, hput, -, htier, hcapacity, hbrought, hstored⟩ :=
    slot1.put_spec h.tier1 assetId data
  have htier1 : (cache.setTier1 tier).tier1 = tier := htier
  refine ⟨ok, cache.setTier1 tier, hput, ⟨h.tier0, htier1 ▸ hcapacity⟩, rfl, rfl,
    fun id stored hholds => ?_, fun hok => .inr (.inl (hstored hok))⟩
  rcases hholds with hfirst | hsecond | hthird
  · exact .inl (.inl hfirst)
  · exact (hbrought id stored hsecond).imp_left fun hold => .inr (.inl hold)
  · exact .inl (.inr (.inr hthird))

theorem putTier2_spec (h : cache.WithinCapacity) (assetId : Bytes 32) (data : List UInt8) :
    PutSpec cache assetId data true (cache.putTier2 assetId data).2 := by
  refine ⟨⟨h.tier0, h.tier1⟩, rfl, rfl, fun id stored hholds => ?_, fun _ =>
    .inr (.inr (Map.get_insert_self ..))⟩
  rcases hholds with hfirst | hsecond | hthird
  · exact .inl (.inl hfirst)
  · exact .inl (.inr (.inl hsecond))
  · rcases Map.of_get_insert hthird with hnew | ⟨-, hold⟩
    · exact .inr hnew
    · exact .inl (.inr (.inr hold))

theorem put_spec (h : cache.WithinCapacity) (assetId : Bytes 32) (data : List UInt8)
    (tier : CacheTier) : ∃ ok cache', cache.put assetId data tier = some (ok, cache') ∧
      PutSpec cache assetId data ok cache' := by
  cases tier with
  | memory => exact putTier0_spec h assetId data
  | disk => exact putTier1_spec h assetId data
  | regional => exact ⟨true, _, rfl, putTier2_spec h assetId data⟩
  | network =>
    exact ⟨false, cache, rfl, h, rfl, rfl, fun _ _ hholds => .inl hholds, fun hok => nomatch hok⟩

theorem remove_tiers (cache : AssetCache) (assetId : Bytes 32) :
    (cache.remove assetId).2.tier0 = (cache.tier0.remove assetId).2 ∧
      (cache.remove assetId).2.tier1 = (cache.tier1.remove assetId).2 :=
  ⟨slot0.tier_setTier (Tier.remove_maxSize cache.tier0 assetId),
    slot1.tier_setTier (Tier.remove_maxSize cache.tier1 assetId)⟩

theorem remove_withinCapacity (h : cache.WithinCapacity) (assetId : Bytes 32) :
    (cache.remove assetId).2.WithinCapacity := by
  obtain ⟨htier0, htier1⟩ := remove_tiers cache assetId
  exact ⟨htier0 ▸ Tier.remove_withinCapacity h.tier0 assetId,
    htier1 ▸ Tier.remove_withinCapacity h.tier1 assetId⟩

/-- Every run of `put` and `remove` goes through without an underflow, and at its end
the data of each tier fit into it and their ids are in its queue. -/
theorem within_capacity (maxTier0Mb maxTier1Mb : UInt64) (ops : List CacheOp) :
    ∃ cache, Trace.exec? step (new maxTier0Mb maxTier1Mb) ops = some cache ∧
      cache.WithinCapacity ∧
      cache.maxTier0Size = (new maxTier0Mb maxTier1Mb).maxTier0Size ∧
      cache.maxTier1Size = (new maxTier0Mb maxTier1Mb).maxTier1Size := by
  refine Trace.invariant? (I := fun cache : AssetCache => cache.WithinCapacity ∧
    cache.maxTier0Size = (new maxTier0Mb maxTier1Mb).maxTier0Size ∧
    cache.maxTier1Size = (new maxTier0Mb maxTier1Mb).maxTier1Size) ops ?_
    ⟨new_withinCapacity maxTier0Mb maxTier1Mb, rfl, rfl⟩
  rintro cache op - ⟨hcapacity, hmax0, hmax1⟩
  cases op with
  | put assetId data tier =>
    obtain ⟨ok, cache', hput, hspec⟩ := put_spec hcapacity assetId data tier
    exact ⟨cache', by rw [step, hput]; rfl, hspec.withinCapacity,
      hspec.maxTier0Size.trans hmax0, hspec.maxTier1Size.trans hmax1⟩
  | remove assetId =>
    exact ⟨_, rfl, remove_withinCapacity hcapacity assetId, hmax0, hmax1⟩

end AssetCache

end LiteVision.Rpack
