import LiteVision.Rpack.Asset
import Mathlib.Data.Set.Function

/-!
# Asset fetcher

The fetcher puts data into the cache only under their hash. So what it finds for an id is
the one thing with that hash, in whichever tier it is.
-/

namespace LiteVision.Rpack

open Lib

inductive FetchResult where
  | found (data : List UInt8)
  | notCached
  | missing
  | error (message : String)
  deriving DecidableEq

structure AssetFetcher where
  cache : AssetCache
  offlineMode : Bool
  deriving DecidableEq

inductive FetcherOp where
  | verifyAndCache (assetId : Bytes 32) (data : List UInt8) (tier : CacheTier)
  | fetchAsset (assetId : Bytes 32)
  | enableOfflineMode
  | disableOfflineMode

def FetcherOp.data? : FetcherOp → Option (List UInt8)
  | .verifyAndCache _ data _ => some data
  | _ => none

namespace AssetFetcher

def new (maxTier0Mb maxTier1Mb : UInt64) : AssetFetcher where
  cache := .new maxTier0Mb maxTier1Mb
  offlineMode := false

def enableOfflineMode (fetcher : AssetFetcher) : AssetFetcher := { fetcher with offlineMode := true }

def disableOfflineMode (fetcher : AssetFetcher) : AssetFetcher :=
  { fetcher with offlineMode := false }

def fetchAsset (fetcher : AssetFetcher) (assetId : Bytes 32) : FetchResult :=
  match fetcher.cache.get assetId with
  | some data => .found data
  | none => if fetcher.offlineMode then .missing else .notCached

/-- `none` as in `AssetCache.put`. -/
def verifyAndCache (c : Crypto) (fetcher : AssetFetcher) (assetId : Bytes 32) (data : List UInt8)
    (tier : CacheTier) : Option (Bool × AssetFetcher) :=
  if c.blake3 data ≠ assetId then some (false, fetcher)
  else (fetcher.cache.put assetId data tier).map fun result =>
    (result.1, { fetcher with cache := result.2 })

def step (c : Crypto) (fetcher : AssetFetcher) : FetcherOp → Option AssetFetcher
  | .verifyAndCache assetId data tier =>
    (fetcher.verifyAndCache c assetId data tier).map Prod.snd
  | .fetchAsset _ => some fetcher
  | .enableOfflineMode => some fetcher.enableOfflineMode
  | .disableOfflineMode => some fetcher.disableOfflineMode

def run (c : Crypto) (maxTier0Mb maxTier1Mb : UInt64) (ops : List FetcherOp) :
    Option AssetFetcher :=
  Trace.exec? (step c) (new maxTier0Mb maxTier1Mb) ops

def offered (ops : List FetcherOp) : Set (List UInt8) := {data | ∃ op ∈ ops, op.data? = some data}

/-- What the cache holds is under its hash, and was brought by one of the calls. -/
structure Addressed (c : Crypto) (inputs : Set (List UInt8)) (fetcher : AssetFetcher) : Prop where
  withinCapacity : fetcher.cache.WithinCapacity
  hash : ∀ id data, fetcher.cache.Holds id data → c.blake3 data = id
  offered : ∀ id data, fetcher.cache.Holds id data → data ∈ inputs

variable {c : Crypto} {fetcher : AssetFetcher} {inputs : Set (List UInt8)}

theorem new_addressed (maxTier0Mb maxTier1Mb : UInt64) :
    (new maxTier0Mb maxTier1Mb).Addressed c inputs := by
  have hempty (id : Bytes 32) (data : List UInt8) :
      ¬ (new maxTier0Mb maxTier1Mb).cache.Holds id data := by
    rintro (h | h | h)
    all_goals exact nomatch (Map.get_empty id).symm.trans h
  exact ⟨AssetCache.new_withinCapacity maxTier0Mb maxTier1Mb,
    fun id data h => absurd h (hempty id data), fun id data h => absurd h (hempty id data)⟩

theorem verifyAndCache_spec (h : fetcher.Addressed c inputs) (assetId : Bytes 32)
    {data : List UInt8} (hdata : data ∈ inputs) (tier : CacheTier) :
    ∃ ok fetcher', fetcher.verifyAndCache c assetId data tier = some (ok, fetcher') ∧
      fetcher'.Addressed c inputs ∧
      (ok = true → c.blake3 data = assetId ∧ fetcher'.cache.Holds assetId data) := by
  rw [verifyAndCache]
  split
  · exact ⟨false, fetcher, rfl, h, fun hok => nomatch hok⟩
  · rename_i hhash
    have hhash := not_not.mp hhash
    obtain ⟨ok, cache, hput, hspec⟩ := AssetCache.put_spec h.withinCapacity assetId data tier
    refine ⟨ok, { fetcher with cache := cache }, by rw [hput]; rfl,
      ⟨hspec.withinCapacity, fun id stored hholds => ?_, fun id stored hholds => ?_⟩,
      fun hok => ⟨hhash, hspec.stored hok⟩⟩
    · rcases hspec.brought id stored hholds with hold | ⟨rfl, rfl⟩
      · exact h.hash id stored hold
      · exact hhash
    · rcases hspec.brought id stored hholds with hold | ⟨rfl, rfl⟩
      · exact h.offered id stored hold
      · exact hdata

theorem step_addressed (h : fetcher.Addressed c inputs) (op : FetcherOp)
    (hop : ∀ data, op.data? = some data → data ∈ inputs) :
    ∃ fetcher', fetcher.step c op = some fetcher' ∧ fetcher'.Addressed c inputs := by
  cases op with
  | verifyAndCache assetId data tier =>
    obtain ⟨ok, fetcher', hverify, hnext, -⟩ :=
      verifyAndCache_spec h assetId (hop data rfl) tier
    exact ⟨fetcher', by rw [step, hverify]; rfl, hnext⟩
  | fetchAsset assetId => exact ⟨fetcher, rfl, h⟩
  | enableOfflineMode => exact ⟨_, rfl, h.withinCapacity, h.hash, h.offered⟩
  | disableOfflineMode => exact ⟨_, rfl, h.withinCapacity, h.hash, h.offered⟩

theorem run_addressed (maxTier0Mb maxTier1Mb : UInt64) (ops : List FetcherOp)
    (hops : offered ops ⊆ inputs) :
    ∃ fetcher, run c maxTier0Mb maxTier1Mb ops = some fetcher ∧ fetcher.Addressed c inputs :=
  Trace.invariant? ops (fun _ op hop h => step_addressed h op fun _ hdata =>
    hops ⟨op, hop, hdata⟩) (new_addressed maxTier0Mb maxTier1Mb)

theorem fetchAsset_found {assetId : Bytes 32} {data : List UInt8} :
    fetcher.fetchAsset assetId = .found data ↔ fetcher.cache.get assetId = some data := by
  rw [fetchAsset]
  split
  · rename_i hget
    rw [hget, FetchResult.found.injEq, Option.some.injEq]
  · rename_i hget
    rw [hget]
    cases fetcher.offlineMode <;> simp

theorem Addressed.fetch_hash (h : fetcher.Addressed c inputs) {assetId : Bytes 32}
    {data : List UInt8} (hfound : fetcher.fetchAsset assetId = .found data) :
    c.blake3 data = assetId :=
  h.hash assetId data (AssetCache.holds_of_get (fetchAsset_found.mp hfound))

theorem Addressed.fetch_holds (h : fetcher.Addressed c inputs)
    (hblake3 : Set.InjOn c.blake3 inputs) {assetId : Bytes 32} {data : List UInt8}
    (hholds : fetcher.cache.Holds assetId data) : fetcher.fetchAsset assetId = .found data := by
  obtain ⟨found, hget⟩ := hholds.exists_get
  have hfound := AssetCache.holds_of_get hget
  have hhash : c.blake3 found = c.blake3 data :=
    (h.hash assetId found hfound).trans (h.hash assetId data hholds).symm
  rw [fetchAsset_found, hget,
    hblake3 (h.offered assetId found hfound) (h.offered assetId data hholds) hhash]

/-- In every run, and as long as `blake3` does not collide on the data of its calls, what
is found for an id has it as its hash, and a `verify_and_cache` that succeeds is followed
by finding its data. -/
theorem content_addressed (c : Crypto) (maxTier0Mb maxTier1Mb : UInt64) (ops : List FetcherOp)
    (assetId : Bytes 32) (data : List UInt8) (tier : CacheTier)
    (hblake3 : Set.InjOn c.blake3 (offered (ops ++ [.verifyAndCache assetId data tier]))) :
    ∃ fetcher ok fetcher',
      run c maxTier0Mb maxTier1Mb ops = some fetcher ∧
      (∀ id found, fetcher.fetchAsset id = .found found → c.blake3 found = id) ∧
      fetcher.verifyAndCache c assetId data tier = some (ok, fetcher') ∧
      (∀ id found, fetcher'.fetchAsset id = .found found → c.blake3 found = id) ∧
      (ok = true → fetcher'.fetchAsset assetId = .found data) := by
  have hops : offered ops ⊆ offered (ops ++ [.verifyAndCache assetId data tier]) := by
    rintro found ⟨op, hop, hfound⟩
    exact ⟨op, List.mem_append_left _ hop, hfound⟩
  have hdata : data ∈ offered (ops ++ [.verifyAndCache assetId data tier]) :=
    ⟨.verifyAndCache assetId data tier, List.mem_append_right ops List.mem_cons_self, rfl⟩
  obtain ⟨fetcher, hrun, haddressed⟩ := run_addressed (c := c) maxTier0Mb maxTier1Mb ops hops
  obtain ⟨ok, fetcher', hverify, haddressed', hstored⟩ :=
    verifyAndCache_spec haddressed assetId hdata tier
  exact ⟨fetcher, ok, fetcher', hrun, fun id found => haddressed.fetch_hash, hverify,
    fun id found => haddressed'.fetch_hash,
    fun hok => haddressed'.fetch_holds hblake3 (hstored hok).2⟩

/-- The data of an id that is already in another tier. -/
theorem content_addressed_twice :
    let c : Crypto :=
      { blake3 := fun bytes => .fill 32 (bytes.getD 0 0), ed25519Verify := fun _ _ _ => true }
    let ops := [FetcherOp.verifyAndCache (.fill 32 1) [1] .disk,
      .verifyAndCache (.fill 32 2) [2] .memory]
    ∃ fetcher fetcher',
      run c 1 1 ops = some fetcher ∧
      fetcher.fetchAsset (.fill 32 1) = .found [1] ∧ c.blake3 [1] = .fill 32 1 ∧
      fetcher.verifyAndCache c (.fill 32 1) [1] .memory = some (true, fetcher') ∧
      fetcher'.fetchAsset (.fill 32 1) = .found [1] := by
  intro c ops
  have hoffered {data : List UInt8}
      (h : data ∈ offered (ops ++ [.verifyAndCache (.fill 32 1) [1] .memory])) :
      data = [1] ∨ data = [2] := by
    obtain ⟨op, hop, hdata⟩ := h
    simp only [ops, List.cons_append, List.nil_append, List.mem_cons, List.not_mem_nil,
      or_false] at hop
    rcases hop with rfl | rfl | rfl
    · exact .inl (Option.some.inj hdata).symm
    · exact .inr (Option.some.inj hdata).symm
    · exact .inl (Option.some.inj hdata).symm
  have hblake3 : Set.InjOn c.blake3
      (offered (ops ++ [.verifyAndCache (.fill 32 1) [1] .memory])) := by
    intro a ha b hb heq
    rcases hoffered ha with rfl | rfl <;> rcases hoffered hb with rfl | rfl
    case inl.inl => rfl
    case inr.inr => rfl
    all_goals exact absurd heq (by decide)
  obtain ⟨fetcher, ok, fetcher', hrun, hhash, hverify, -, hfound⟩ :=
    content_addressed c 1 1 ops (.fill 32 1) [1] .memory hblake3
  have hbefore : fetcher.fetchAsset (.fill 32 1) = .found [1] := by
    obtain rfl := Option.some.inj hrun
    decide
  have hok : ok = true := by
    obtain rfl := Option.some.inj hrun
    exact (Prod.mk.inj (Option.some.inj hverify)).1.symm
  exact ⟨fetcher, fetcher', hrun, hbefore, hhash _ _ hbefore, hok ▸ hverify, hfound hok⟩

end AssetFetcher

end LiteVision.Rpack
