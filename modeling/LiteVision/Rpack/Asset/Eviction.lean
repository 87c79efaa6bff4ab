import LiteVision.Rpack.Asset

/-!
# What a put evicts

Ids are taken from the front of the queue until there is room, so what a `put` evicts is the
shortest front that leaves room, or all of the queue. A `put` should evict nothing when it is
refused, and no other asset when the others leave room for the data. The loop looks at
neither: it does so only for some queues.
-/

namespace LiteVision.Rpack

open Lib

namespace Tier

def eraseAll (store : Map (Bytes 32) (List UInt8)) (ids : List (Bytes 32)) :
    Map (Bytes 32) (List UInt8) :=
  ids.foldl Map.erase store

/-- The front is the shortest one that leaves room for the data, or the whole queue. -/
structure Evicts (tier : Tier) (dataSize : Nat) (front back : List (Bytes 32)) : Prop where
  queue : tier.lru = front ++ back
  shortest : ∀ shorter, shorter <+: front → shorter ≠ front →
    tier.maxSize < size (eraseAll tier.store shorter) + dataSize
  enough : back = [] ∨ size (eraseAll tier.store front) + dataSize ≤ tier.maxSize

variable {tier : Tier} {store : Map (Bytes 32) (List UInt8)} {dataSize : Nat}
  {front back front' back' ids : List (Bytes 32)} {id assetId : Bytes 32} {data : List UInt8}

theorem get_eraseAll (store : Map (Bytes 32) (List UInt8)) (ids : List (Bytes 32))
    (id : Bytes 32) :
    (eraseAll store ids).get id = if id ∈ ids then none else store.get id := by
  induction ids generalizing store with
  | nil => rfl
  | cons first ids ih =>
    change (eraseAll (store.erase first) ids).get id = _
    rw [ih, Map.get_erase]
    by_cases hfirst : id = first <;> by_cases hrest : id ∈ ids <;> simp [hfirst, hrest]

theorem eraseAll_of_stale (h : ∀ id ∈ ids, store.get id = none) : eraseAll store ids = store := by
  refine Map.ext fun id => ?_
  rw [get_eraseAll]
  split
  · rename_i hmem
    exact (h id hmem).symm
  · rfl

theorem eraseAll_append (store : Map (Bytes 32) (List UInt8)) (ids ids' : List (Bytes 32)) :
    eraseAll store (ids ++ ids') = eraseAll (eraseAll store ids) ids' :=
  List.foldl_append

theorem Evicts.prefix_lru (h : tier.Evicts dataSize front back) : front <+: tier.lru :=
  ⟨back, h.queue.symm⟩

theorem Evicts.unique (h : tier.Evicts dataSize front back)
    (h' : tier.Evicts dataSize front' back') : front = front' ∧ back = back' := by
  have hshort {front back front' back' : List (Bytes 32)} (h : tier.Evicts dataSize front back)
      (h' : tier.Evicts dataSize front' back') (hstart : front <+: front') : front = front' := by
    by_contra hne
    have hfull := h'.shortest front hstart hne
    rcases h.enough with rfl | hroom
    · have hqueue := h.queue.symm.trans h'.queue
      rw [List.append_nil] at hqueue
      exact hne (hstart.eq_of_length_le (by rw [hqueue]; simp))
    · omega
  have hfront : front = front' := by
    rcases List.prefix_or_prefix_of_prefix h.prefix_lru h'.prefix_lru with hstart | hstart
    · exact hshort h h' hstart
    · exact (hshort h' h hstart).symm
  refine ⟨hfront, ?_⟩
  have hqueue := h.queue.symm.trans h'.queue
  rw [hfront] at hqueue
  exact List.append_cancel_left hqueue

/-- The loop takes the shortest front that leaves room. -/
theorem evict_exact (maxSize dataSize : Nat) (lru : List (Bytes 32))
    (store : Map (Bytes 32) (List UInt8)) (hfull : maxSize < size store + dataSize) :
    ∃ front back, Evicts ⟨store, lru, maxSize⟩ dataSize front back ∧
      evict maxSize dataSize lru store (size store) = some (back, eraseAll store front) := by
  induction lru generalizing store with
  | nil =>
    refine ⟨[], [], ⟨rfl, fun shorter hstart hne => ?_, .inl rfl⟩, rfl⟩
    exact absurd (List.prefix_nil.mp hstart) hne
  | cons lruId lru ih =>
    have hcons {front back : List (Bytes 32)}
        (h : Evicts ⟨store.erase lruId, lru, maxSize⟩ dataSize front back) :
        Evicts ⟨store, lruId :: lru, maxSize⟩ dataSize (lruId :: front) back := by
      refine ⟨congrArg (lruId :: ·) h.queue, fun shorter hstart hne => ?_, h.enough⟩
      rcases List.prefix_cons_iff.mp hstart with rfl | ⟨rest, rfl, hrest⟩
      · exact hfull
      · exact h.shortest rest hrest fun heq => hne (congrArg (lruId :: ·) heq)
    rw [evict]
    cases hstored : store.get lruId with
    | none =>
      have hnone : ∀ id ∈ [lruId], store.get id = none := by
        intro id hid
        rwa [List.mem_singleton.mp hid]
      have hstale : store.erase lruId = store := eraseAll_of_stale hnone
      obtain ⟨front, back, hevicts, hevict⟩ := ih store hfull
      refine ⟨lruId :: front, back, hcons (by rwa [hstale]), ?_⟩
      rw [hevict, eraseAll, eraseAll, List.foldl_cons, hstale]
    | some removed =>
      have hsplit : size (store.erase lruId) + removed.length = size store := by
        rw [← size_erase store lruId, Map.weightAt_some hstored]
      have hsize : size store - removed.length = size (store.erase lruId) := by omega
      have henough : ¬ size store < removed.length := by omega
      simp only [henough, if_false, hsize]
      split
      · rename_i hroom
        refine ⟨[lruId], lru, hcons ⟨rfl, fun shorter hstart hne => ?_, .inr hroom⟩, rfl⟩
        exact absurd (List.prefix_nil.mp hstart) hne
      · rename_i hroom
        obtain ⟨front, back, hevicts, hevict⟩ := ih (store.erase lruId) (by omega)
        exact ⟨lruId :: front, back, hcons hevicts, hevict⟩

theorem put_exact (tier : Tier) (assetId : Bytes 32) (data : List UInt8) :
    ∃ front back, tier.Evicts data.length front back ∧
      tier.put assetId data = some
        (if data.length ≤ tier.maxSize then
          (true, { tier with
            store := (eraseAll tier.store front).insert assetId data
            lru := back ++ [assetId] })
        else (false, { tier with store := eraseAll tier.store front, lru := back })) := by
  rw [put, makeRoom]
  split
  · rename_i hfull
    obtain ⟨front, back, hevicts, hevict⟩ :=
      evict_exact tier.maxSize data.length tier.lru tier.store hfull
    exact ⟨front, back, hevicts, by rw [hevict]; rfl⟩
  · rename_i hroom
    refine ⟨[], tier.lru, ⟨rfl, fun shorter hstart hne => ?_, .inr ?_⟩, rfl⟩
    · exact absurd (List.prefix_nil.mp hstart) hne
    · exact Nat.le_of_not_lt hroom

-- ---------------------------------------------------------------------------
-- Puts that evict nothing they need not
-- ---------------------------------------------------------------------------

def OthersFit (tier : Tier) (assetId : Bytes 32) (data : List UInt8) : Prop :=
  size (tier.store.erase assetId) + data.length ≤ tier.maxSize

def KeepsOthers (tier tier' : Tier) (assetId : Bytes 32) : Prop :=
  ∀ id stored, id ≠ assetId → tier.store.get id = some stored → tier'.store.get id = some stored

/-- Data that are too large come to an empty queue. If the asset that is replaced has to go
for the others to leave room, it is the first one in the queue that is stored. -/
structure Spares (tier : Tier) (assetId : Bytes 32) (data : List UInt8) : Prop where
  refused : tier.maxSize < data.length → tier.lru = []
  replaced : tier.OthersFit assetId data → tier.maxSize < size tier.store + data.length →
    (tier.lru.find? fun id => (tier.store.get id).isSome) = some assetId

theorem Evicts.of_large (h : tier.Evicts dataSize front back) (hlarge : tier.maxSize < dataSize) :
    front = tier.lru ∧ back = [] := by
  rcases h.enough with rfl | hroom
  · exact ⟨(h.queue.trans (List.append_nil front)).symm, rfl⟩
  · omega

theorem Evicts.of_room (h : tier.Evicts dataSize front back)
    (hroom : size tier.store + dataSize ≤ tier.maxSize) : front = [] := by
  by_contra hne
  have hfull := h.shortest [] List.nil_prefix (Ne.symm hne)
  have hroom' : size (eraseAll tier.store []) + dataSize ≤ tier.maxSize := hroom
  omega

theorem Evicts.prefix_of_room {part : List (Bytes 32)} (h : tier.Evicts dataSize front back)
    (hpart : part <+: tier.lru)
    (hroom : size (eraseAll tier.store part) + dataSize ≤ tier.maxSize) : front <+: part := by
  rcases List.prefix_or_prefix_of_prefix h.prefix_lru hpart with hstart | hstart
  · exact hstart
  · by_cases heq : part = front
    · exact heq ▸ List.prefix_refl part
    · have hfull := h.shortest part hstart heq
      omega

theorem Evicts.first_mem {first : Bytes 32} {pre post : List (Bytes 32)}
    (h : tier.Evicts dataSize front back) (hfull : tier.maxSize < size tier.store + dataSize)
    (hqueue : tier.lru = pre ++ first :: post) (hpre : ∀ id ∈ pre, tier.store.get id = none) :
    first ∈ front := by
  have hfirst : pre ++ [first] <+: tier.lru := ⟨post, by rw [hqueue]; simp⟩
  rcases List.prefix_or_prefix_of_prefix h.prefix_lru hfirst with hstart | hstart
  · rcases List.prefix_concat_iff.mp hstart with rfl | hstart
    · exact List.mem_append_right pre (List.mem_singleton_self first)
    · -- a front of ids that are not stored makes no room
      have hstale : eraseAll tier.store front = tier.store :=
        eraseAll_of_stale fun id hid => hpre id (hstart.mem hid)
      rcases h.enough with rfl | hroom
      · have hmem : first ∈ tier.lru := hfirst.mem (List.mem_append_right pre
          (List.mem_singleton_self first))
        rwa [h.queue, List.append_nil] at hmem
      · rw [hstale] at hroom
        omega
  · exact hstart.mem (List.mem_append_right pre (List.mem_singleton_self first))

theorem WithinCapacity.exists_first (h : tier.WithinCapacity) (hne : size tier.store ≠ 0) :
    ∃ first, (tier.lru.find? fun id => (tier.store.get id).isSome) = some first := by
  cases hfind : tier.lru.find? fun id => (tier.store.get id).isSome with
  | some first => exact ⟨first, rfl⟩
  | none =>
    refine absurd (Map.total_eq_zero.mpr fun id stored hget => ?_) hne
    have hmem := h.queued id (Map.mem_keys.mpr ⟨stored, hget⟩)
    have hnone := List.find?_eq_none.mp hfind id hmem
    rw [hget] at hnone
    exact absurd rfl hnone

/-- When the others fit but not with the asset that is replaced, this asset alone is evicted
just when the queue comes to it first. -/
theorem Evicts.replaced_iff (hcapacity : tier.WithinCapacity)
    (h : tier.Evicts data.length front back) (hfit : tier.OthersFit assetId data)
    (hfull : tier.maxSize < size tier.store + data.length) :
    (∀ id ∈ front, id ≠ assetId → tier.store.get id = none) ↔
      (tier.lru.find? fun id => (tier.store.get id).isSome) = some assetId := by
  rw [OthersFit] at hfit
  obtain ⟨first, hfind⟩ := hcapacity.exists_first (by omega)
  obtain ⟨hfirst, pre, post, hqueue, hpre⟩ := List.find?_eq_some_iff_append.mp hfind
  have hstale : ∀ id ∈ pre, tier.store.get id = none := by
    intro id hid
    simpa using hpre id hid
  rw [hfind, Option.some.injEq]
  constructor
  · intro hothers
    by_contra hne
    rw [hothers first (h.first_mem hfull hqueue hstale) hne] at hfirst
    cases hfirst
  · rintro rfl id hid hne
    have herase : eraseAll tier.store (pre ++ [first]) = tier.store.erase first := by
      rw [eraseAll_append, eraseAll_of_stale hstale]
      rfl
    have hstart : front <+: pre ++ [first] :=
      h.prefix_of_room ⟨post, by rw [hqueue]; simp⟩ (by rwa [herase])
    rcases List.mem_append.mp (hstart.mem hid) with hmem | hmem
    · exact hstale id hmem
    · exact absurd (List.mem_singleton.mp hmem) hne

theorem keepsOthers_iff :
    tier.KeepsOthers { tier with
        store := (eraseAll tier.store front).insert assetId data
        lru := back ++ [assetId] } assetId ↔
      ∀ id ∈ front, id ≠ assetId → tier.store.get id = none := by
  have hget {id : Bytes 32} (hne : id ≠ assetId) :
      ((eraseAll tier.store front).insert assetId data).get id =
        if id ∈ front then none else tier.store.get id := by
    rw [Map.get_insert_ne _ _ hne, get_eraseAll]
  constructor
  · intro hkeeps id hid hne
    by_contra hstored
    obtain ⟨stored, hstored⟩ := Option.ne_none_iff_exists'.mp hstored
    have hkept := hkeeps id stored hne hstored
    rw [hget hne, if_pos hid] at hkept
    cases hkept
  · intro hstale id stored hne hstored
    have hnot : id ∉ front := by
      intro hid
      rw [hstale id hid hne] at hstored
      cases hstored
    rw [hget hne, if_neg hnot, hstored]

theorem put_spares_iff (hcapacity : tier.WithinCapacity) (assetId : Bytes 32) (data : List UInt8) :
    (∀ ok tier', tier.put assetId data = some (ok, tier') → (ok = false → tier' = tier) ∧
      (ok = true → tier.OthersFit assetId data → tier.KeepsOthers tier' assetId)) ↔
    tier.Spares assetId data := by
  obtain ⟨front, back, hevicts, hput⟩ := put_exact tier assetId data
  rw [hput]
  by_cases hfits : data.length ≤ tier.maxSize
  · rw [if_pos hfits]
    constructor
    · intro hclean
      refine ⟨fun hlarge => by omega, fun hfit hfull => ?_⟩
      have hkeeps := (hclean true _ rfl).2 rfl hfit
      exact (hevicts.replaced_iff hcapacity hfit hfull).mp (keepsOthers_iff.mp hkeeps)
    · rintro hspares ok tier' heq
      obtain ⟨rfl, rfl⟩ := Prod.mk.inj (Option.some.inj heq)
      refine ⟨nofun, fun _ hfit => keepsOthers_iff.mpr ?_⟩
      by_cases hroom : size tier.store + data.length ≤ tier.maxSize
      · rw [hevicts.of_room hroom]
        exact fun id hid => absurd hid List.not_mem_nil
      · have hfull : tier.maxSize < size tier.store + data.length := by omega
        exact (hevicts.replaced_iff hcapacity hfit hfull).mpr (hspares.replaced hfit hfull)
  · rw [if_neg hfits]
    obtain ⟨rfl, rfl⟩ := hevicts.of_large (Nat.lt_of_not_le hfits)
    constructor
    · intro hclean
      have hsame := (hclean false _ rfl).1 rfl
      refine ⟨fun _ => congrArg Tier.lru hsame.symm, fun hfit => ?_⟩
      rw [OthersFit] at hfit
      omega
    · rintro hspares ok tier' heq
      obtain ⟨rfl, rfl⟩ := Prod.mk.inj (Option.some.inj heq)
      refine ⟨fun _ => ?_, nofun⟩
      have hempty := hspares.refused (Nat.lt_of_not_le hfits)
      rw [hempty]
      exact congrArg (Tier.mk tier.store · tier.maxSize) hempty.symm

end Tier

namespace AssetCache

variable {cache : AssetCache} {assetId : Bytes 32} {data : List UInt8}

/-- A refused `put` changes nothing, and one into a tier with a capacity evicts no other
asset where the others leave room. -/
structure PutClean (cache : AssetCache) (assetId : Bytes 32) (data : List UInt8)
    (tier : CacheTier) (ok : Bool) (cache' : AssetCache) : Prop where
  refused : ok = false → cache' = cache
  memory : ok = true → tier = .memory → cache.tier0.OthersFit assetId data →
    cache.tier0.KeepsOthers cache'.tier0 assetId
  disk : ok = true → tier = .disk → cache.tier1.OthersFit assetId data →
    cache.tier1.KeepsOthers cache'.tier1 assetId

def Spares (cache : AssetCache) (assetId : Bytes 32) (data : List UInt8) : CacheTier → Prop
  | .memory => cache.tier0.Spares assetId data
  | .disk => cache.tier1.Spares assetId data
  | _ => True

theorem Slot.setTier_eq_iff (slot : Slot) {tier : Tier}
    (hmax : tier.maxSize = (slot.tier cache).maxSize) :
    slot.setTier cache tier = cache ↔ tier = slot.tier cache := by
  constructor
  · intro h
    rw [← slot.tier_setTier hmax, h]
  · rintro rfl
    exact slot.setTier_tier cache

theorem Slot.clean_put_iff (slot : Slot) (h : (slot.tier cache).WithinCapacity) :
    (∀ ok cache', slot.put cache assetId data = some (ok, cache') →
      (ok = false → cache' = cache) ∧
      (ok = true → (slot.tier cache).OthersFit assetId data →
        (slot.tier cache).KeepsOthers (slot.tier cache') assetId)) ↔
    (slot.tier cache).Spares assetId data := by
  rw [← Tier.put_spares_iff h]
  obtain ⟨ok, tier, hput, -, hmax, -, -⟩ := Tier.put_spec h assetId data
  have htier := slot.tier_setTier hmax
  rw [Slot.put, hput, Option.map_some]
  constructor
  · rintro hclean ok tier ⟨⟩
    obtain ⟨hrefused, hkept⟩ := hclean _ _ rfl
    rw [htier] at hkept
    exact ⟨fun hok => (slot.setTier_eq_iff hmax).mp (hrefused hok), hkept⟩
  · rintro hclean ok cache' ⟨⟩
    obtain ⟨hrefused, hkept⟩ := hclean _ _ rfl
    rw [htier]
    exact ⟨fun hok => (slot.setTier_eq_iff hmax).mpr (hrefused hok), hkept⟩

theorem withinCapacity_of_exec {maxTier0Mb maxTier1Mb : UInt64} {ops : List CacheOp}
    (hrun : Trace.exec? step (new maxTier0Mb maxTier1Mb) ops = some cache) :
    cache.WithinCapacity := by
  obtain ⟨cache', hrun', hcapacity, -⟩ := within_capacity maxTier0Mb maxTier1Mb ops
  obtain rfl := Option.some.inj (hrun'.symm.trans hrun)
  exact hcapacity

/-- In every cache that can be reached, a `put` is clean just when the queue is right for it. -/
theorem put_clean_iff (maxTier0Mb maxTier1Mb : UInt64) (ops : List CacheOp)
    (hrun : Trace.exec? step (new maxTier0Mb maxTier1Mb) ops = some cache) (assetId : Bytes 32)
    (data : List UInt8) (tier : CacheTier) :
    (∀ ok cache', cache.put assetId data tier = some (ok, cache') →
      cache.PutClean assetId data tier ok cache') ↔ cache.Spares assetId data tier := by
  have hcapacity := withinCapacity_of_exec hrun
  cases tier with
  | memory =>
    refine Iff.trans ?_ (slot0.clean_put_iff hcapacity.tier0)
    refine forall₃_congr fun ok cache' hput => ⟨fun h => ?_, fun h => ?_⟩
    · exact ⟨h.refused, fun hok => h.memory hok rfl⟩
    · exact ⟨h.1, fun hok _ => h.2 hok, fun _ htier => nomatch htier⟩
  | disk =>
    refine Iff.trans ?_ (slot1.clean_put_iff hcapacity.tier1)
    refine forall₃_congr fun ok cache' hput => ⟨fun h => ?_, fun h => ?_⟩
    · exact ⟨h.refused, fun hok => h.disk hok rfl⟩
    · exact ⟨h.1, fun _ htier => (nomatch htier), fun hok _ => h.2 hok⟩
  | regional =>
    refine iff_of_true ?_ trivial
    rintro ok cache' ⟨⟩
    exact ⟨nofun, fun _ htier => (nomatch htier), fun _ htier => nomatch htier⟩
  | network =>
    refine iff_of_true ?_ trivial
    rintro ok cache' ⟨⟩
    exact ⟨fun _ => rfl, nofun, nofun⟩

/-- With two assets on disk, one of them is put again, and a third one refused by the
memory tier. -/
theorem put_clean_iff_two :
    ∃ cache, Trace.exec? step (new 0 1)
        [.put (.fill 32 1) [7] .disk, .put (.fill 32 2) [8] .disk] = some cache ∧
      (∀ ok cache', cache.put (.fill 32 1) [9, 9] .disk = some (ok, cache') → ok = true ∧
        cache'.get (.fill 32 2) = some [8]) ∧
      ∀ ok cache', cache.put (.fill 32 3) [5] .memory = some (ok, cache') → ok = false ∧
        cache' = cache := by
  refine ⟨{ new 0 1 with
      tier1Disk := (Map.empty.insert (.fill 32 1) [7]).insert (.fill 32 2) [8]
      lruTier1 := [.fill 32 1, .fill 32 2] }, rfl, ?_, ?_⟩
  · rintro ok cache' hput
    have hclean := (put_clean_iff 0 1 [.put (.fill 32 1) [7] .disk, .put (.fill 32 2) [8] .disk]
      rfl (.fill 32 1) [9, 9] .disk).mpr
      ⟨fun hlarge => absurd hlarge (by decide), fun _ hfull => absurd hfull (by decide)⟩ ok _ hput
    obtain ⟨rfl, rfl⟩ := Prod.mk.inj (Option.some.inj hput)
    exact ⟨rfl, hclean.disk rfl rfl (by rw [Tier.OthersFit]; decide) (.fill 32 2) [8] (by decide) rfl⟩
  · rintro ok cache' hput
    have hclean := (put_clean_iff 0 1 [.put (.fill 32 1) [7] .disk, .put (.fill 32 2) [8] .disk]
      rfl (.fill 32 3) [5] .memory).mpr
      ⟨fun _ => rfl, fun hfit => absurd hfit (by rw [Tier.OthersFit]; decide)⟩ ok _ hput
    obtain ⟨rfl, -⟩ := Prod.mk.inj (Option.some.inj hput)
    exact ⟨rfl, hclean.refused rfl⟩

/-- A cache without room refuses data, and has dropped the empty asset it had. -/
theorem put_clean_fails :
    ¬ ∀ (maxTier0Mb maxTier1Mb : UInt64) (ops : List CacheOp) (cache : AssetCache),
      Trace.exec? step (new maxTier0Mb maxTier1Mb) ops = some cache →
      ∀ (assetId : Bytes 32) (data : List UInt8) (tier : CacheTier) (ok : Bool)
        (cache' : AssetCache), cache.put assetId data tier = some (ok, cache') →
        cache.PutClean assetId data tier ok cache' := by
  intro h
  have hput := h 0 0 [.put (.fill 32 1) [] .memory] _ rfl (.fill 32 2) [7] .memory false _ rfl
  exact absurd (hput.refused rfl) (by decide)

end AssetCache

end LiteVision.Rpack
