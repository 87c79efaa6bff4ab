import LiteVision.Bytes
import LiteVision.Lib.History

/-!
# Regions of memory

The memory of `memory.rs`: regions that are written while they are ephemeral and that a commit
moves under a commitment hash. Each region keeps its size next to its data, and `put` changes
both. Times come from the system clock and are arguments here; no call makes a regional region.
-/

namespace LiteVision.Intelligence

open Lib

inductive MemoryTier where
  | ephemeral
  | regional
  | committed
  deriving DecidableEq

structure MemoryRegion where
  id : Bytes 32
  tier : MemoryTier
  data : Map (List UInt8) (List UInt8)
  partitionId : UInt32
  lastAccess : UInt64
  sizeBytes : UInt64

namespace MemoryRegion

def newEphemeral (id : Bytes 32) (partitionId : UInt32) : MemoryRegion where
  id := id
  tier := .ephemeral
  data := .empty
  partitionId := partitionId
  lastAccess := 0
  sizeBytes := 0

def put (region : MemoryRegion) (key value : List UInt8) (now : UInt64) : MemoryRegion :=
  let replaced := (region.data.get key).elim 0 fun v => UInt64.ofNat v.length
  { region with
    sizeBytes := saturatingSub region.sizeBytes replaced + UInt64.ofNat value.length
    data := region.data.insert key value
    lastAccess := now }

def get (region : MemoryRegion) (key : List UInt8) (now : UInt64) :
    Option (List UInt8) × MemoryRegion :=
  (region.data.get key, { region with lastAccess := now })

end MemoryRegion

structure IntelligenceMemory where
  ephemeral : Map (Bytes 32) MemoryRegion
  regional : Map (Bytes 32) MemoryRegion
  committed : Map (Bytes 32) MemoryRegion

namespace IntelligenceMemory

def new : IntelligenceMemory := ⟨.empty, .empty, .empty⟩

def createEphemeral (memory : IntelligenceMemory) (id : Bytes 32) (partitionId : UInt32) :
    IntelligenceMemory :=
  { memory with ephemeral := memory.ephemeral.insert id (.newEphemeral id partitionId) }

def commit (memory : IntelligenceMemory) (regionId commitmentHash : Bytes 32) :
    Option MemoryRegion × IntelligenceMemory :=
  match memory.ephemeral.get regionId with
  | none => (none, memory)
  | some region =>
    let committed := { region with tier := MemoryTier.committed }
    (some committed, { memory with
      ephemeral := memory.ephemeral.erase regionId
      committed := memory.committed.insert commitmentHash committed })

/-- Calls of the memory, and of a region where it is ephemeral. -/
inductive Call where
  | createEphemeral (id : Bytes 32) (partitionId : UInt32)
  | put (id : Bytes 32) (key value : List UInt8) (now : UInt64)
  | get (id : Bytes 32) (key : List UInt8) (now : UInt64)
  | commit (regionId commitmentHash : Bytes 32)

def step (memory : IntelligenceMemory) : Call → IntelligenceMemory
  | .createEphemeral id partitionId => memory.createEphemeral id partitionId
  | .put id key value now =>
    { memory with ephemeral := memory.ephemeral.modify id (·.put key value now) }
  | .get id key now =>
    { memory with ephemeral := memory.ephemeral.modify id fun region => (region.get key now).2 }
  | .commit regionId commitmentHash => (memory.commit regionId commitmentHash).2

def exec (run : List Call) : IntelligenceMemory := Trace.exec step new run

def Call.bytes : Call → Nat
  | .put _ _ value _ => value.length
  | _ => 0

/-- The call does not end the region, nor write what is under the key. -/
def Call.Leaves (id : Bytes 32) (key : List UInt8) : Call → Prop
  | .createEphemeral id' _ => id' ≠ id
  | .put id' key' _ _ => id' ≠ id ∨ key' ≠ key
  | .get _ _ _ => True
  | .commit regionId _ => regionId ≠ id

/-- The value was put last under the key of a region that was there and has been since. -/
def PutLast (id : Bytes 32) (key value : List UInt8) (run : List Call) : Prop :=
  History.Lastly (fun before call => ((exec before).ephemeral.get id).isSome ∧
    ∃ now, call = .put id key value now) (Call.Leaves id key) run

/-- The region was made, and not committed since. -/
def Present (id : Bytes 32) (run : List Call) : Prop :=
  History.Lastly (fun _ call => ∃ partitionId, call = .createEphemeral id partitionId)
    (fun call => ∀ hash, call ≠ .commit id hash) run

/-- The call commits the region under the hash. -/
def Commits (hash : Bytes 32) (region : MemoryRegion) (before : List Call) (call : Call) : Prop :=
  ∃ regionId r, call = .commit regionId hash ∧ (exec before).ephemeral.get regionId = some r ∧
    region = { r with tier := .committed }

/-- The region was committed under the hash, and no commit under it came after that. -/
def CommittedLast (hash : Bytes 32) (region : MemoryRegion) (run : List Call) : Prop :=
  History.Lastly (Commits hash region) (fun call => ∀ regionId, call ≠ .commit regionId hash) run

variable {memory : IntelligenceMemory} {id hash : Bytes 32} {region : MemoryRegion}
  {key value : List UInt8} {run : List Call}

-- ---------------------------------------------------------------------------
-- What is there
-- ---------------------------------------------------------------------------

theorem exec_concat (run : List Call) (call : Call) : exec (run ++ [call]) = (exec run).step call :=
  Trace.exec_concat call

theorem ephemeral_commit (memory : IntelligenceMemory) (regionId hash id : Bytes 32) :
    (memory.commit regionId hash).2.ephemeral.get id =
      if id = regionId then none else memory.ephemeral.get id := by
  unfold commit
  cases hget : memory.ephemeral.get regionId with
  | none =>
    by_cases hid : id = regionId
    · simp [hid, hget]
    · simp [hid]
  | some region => exact Map.get_erase ..

theorem committed_commit (memory : IntelligenceMemory) (regionId hash id : Bytes 32) :
    (memory.commit regionId hash).2.committed.get id =
      if id = hash then
        ((memory.ephemeral.get regionId).map ({ · with tier := .committed })).or
          (memory.committed.get id)
      else memory.committed.get id := by
  unfold commit
  cases hget : memory.ephemeral.get regionId with
  | none => simp
  | some region => simp [Map.get_insert]

theorem present_iff (id : Bytes 32) (run : List Call) :
    ((exec run).ephemeral.get id).isSome ↔ Present id run := by
  induction run using List.reverseRecOn with
  | nil => simp [Present, History.not_lastly_nil, exec, new]
  | append_singleton run call ih =>
    rw [exec_concat, Present, History.lastly_concat, ← Present, ← ih]
    cases call with
    | createEphemeral id' partitionId =>
      simp only [step, createEphemeral, Map.get_insert]
      by_cases hid : id = id'
      · simp [hid]
      · simp [hid, Ne.symm hid]
    | put id' key value now =>
      simp only [step, Map.get_modify]
      by_cases hid : id = id' <;> simp [hid]
    | get id' key now =>
      simp only [step, Map.get_modify]
      by_cases hid : id = id' <;> simp [hid]
    | commit regionId hash =>
      simp only [step, ephemeral_commit]
      by_cases hid : id = regionId
      · simp [hid]
      · simp [hid, Ne.symm hid]

def find (memory : IntelligenceMemory) (id : Bytes 32) (key : List UInt8) : Option (List UInt8) :=
  (memory.ephemeral.get id).bind fun region => region.data.get key

theorem find_iff (id : Bytes 32) (key value : List UInt8) (run : List Call) :
    (exec run).find id key = some value ↔ PutLast id key value run := by
  induction run using List.reverseRecOn with
  | nil => simp [PutLast, History.not_lastly_nil, exec, new, find]
  | append_singleton run call ih =>
    rw [exec_concat, PutLast, History.lastly_concat, ← PutLast, ← ih]
    cases call with
    | createEphemeral id' partitionId =>
      simp only [find, step, createEphemeral, Map.get_insert, Call.Leaves]
      by_cases hid : id = id'
      · simp [hid, MemoryRegion.newEphemeral]
      · simp [hid, Ne.symm hid]
    | put id' key' value' now =>
      simp only [find, step, Map.get_modify, Call.Leaves]
      by_cases hid : id = id'
      · subst hid
        cases (exec run).ephemeral.get id with
        | none => simp
        | some region =>
          by_cases hkey : key = key'
          · simp [MemoryRegion.put, hkey, eq_comm]
          · simp [MemoryRegion.put, Map.get_insert, hkey, Ne.symm hkey]
      · simp [hid, Ne.symm hid]
    | get id' key' now =>
      simp only [find, step, Map.get_modify, Call.Leaves]
      by_cases hid : id = id'
      · subst hid
        cases (exec run).ephemeral.get id <;> simp [MemoryRegion.get]
      · simp [hid]
    | commit regionId hash =>
      simp only [find, step, ephemeral_commit, Call.Leaves]
      by_cases hid : id = regionId
      · simp [hid]
      · simp [hid, Ne.symm hid]

-- ---------------------------------------------------------------------------
-- Sizes
-- ---------------------------------------------------------------------------

/-- The size is that of the values, which are no more than was spent. -/
def Sized (spent : Nat) (region : MemoryRegion) : Prop :=
  region.sizeBytes.toNat = region.data.total List.length ∧
    region.data.total List.length ≤ spent

theorem Sized.mono {spent more : Nat} (h : Sized spent region) (hle : spent ≤ more) :
    Sized more region := ⟨h.1, h.2.trans hle⟩

theorem Sized.put {spent : Nat} (h : Sized spent region) (hfits : spent + value.length < 2 ^ 64)
    (now : UInt64) : Sized (spent + value.length) (region.put key value now) := by
  obtain ⟨hsize, hspent⟩ := h
  have htotal := Map.total_insert region.data List.length key value
  have hweight : region.data.weightAt List.length key ≤ region.data.total List.length := by
    have herase := Map.total_erase region.data List.length key
    omega
  have hreplaced : ((region.data.get key).elim 0 fun v => UInt64.ofNat v.length).toNat =
      region.data.weightAt List.length key := by
    rw [Map.weightAt] at hweight ⊢
    cases hget : region.data.get key with
    | none => rfl
    | some v =>
      rw [hget, Option.elim_some] at hweight
      simp only [Option.elim_some, UInt64.toNat_ofNat']
      exact Nat.mod_eq_of_lt (by omega)
  have hvalue : (UInt64.ofNat value.length).toNat = value.length := by
    rw [UInt64.toNat_ofNat', Nat.mod_eq_of_lt (by omega)]
  have hsum : (region.put key value now).sizeBytes.toNat =
      region.data.total List.length - region.data.weightAt List.length key + value.length := by
    rw [MemoryRegion.put]
    dsimp only
    rw [toNat_add_of_lt, toNat_saturatingSub, hreplaced, hvalue, hsize]
    rw [toNat_saturatingSub, hreplaced, hvalue, hsize]
    omega
  constructor
  · rw [hsum]
    simp only [MemoryRegion.put]
    omega
  · simp only [MemoryRegion.put]
    omega

def All (memory : IntelligenceMemory) (P : MemoryRegion → Prop) : Prop :=
  ∀ id region, memory.ephemeral.get id = some region ∨ memory.committed.get id = some region →
    P region

theorem sized_step {spent : Nat} (h : memory.All (Sized spent)) (call : Call)
    (hfits : spent + call.bytes < 2 ^ 64) :
    (memory.step call).All (Sized (spent + call.bytes)) := by
  intro id region hregion
  have hmono {region : MemoryRegion} (hsized : Sized spent region) :
      Sized (spent + call.bytes) region := hsized.mono (Nat.le_add_right _ _)
  cases call with
  | createEphemeral id' partitionId =>
    rcases hregion with hget | hget
    · rcases Map.of_get_insert hget with ⟨-, rfl⟩ | ⟨-, hget⟩
      · exact ⟨by simp [MemoryRegion.newEphemeral], by simp [MemoryRegion.newEphemeral]⟩
      · exact hmono (h id region (.inl hget))
    · exact hmono (h id region (.inr hget))
  | put id' key value now =>
    rcases hregion with hget | hget
    · rcases Map.of_get_modify hget with ⟨-, r, hr, rfl⟩ | ⟨-, hget⟩
      · exact (h id' r (.inl hr)).put hfits now
      · exact hmono (h id region (.inl hget))
    · exact hmono (h id region (.inr hget))
  | get id' key now =>
    rcases hregion with hget | hget
    · rcases Map.of_get_modify hget with ⟨-, r, hr, rfl⟩ | ⟨-, hget⟩
      · exact hmono (h id' r (.inl hr))
      · exact hmono (h id region (.inl hget))
    · exact hmono (h id region (.inr hget))
  | commit regionId hash =>
    rcases hregion with hget | hget
    · rw [step, ephemeral_commit] at hget
      split at hget
      · cases hget
      · exact hmono (h id region (.inl hget))
    · rw [step, committed_commit] at hget
      split at hget
      · rename_i hid
        cases hr : memory.ephemeral.get regionId with
        | none => exact hmono (h id region (.inr (by simpa [hr] using hget)))
        | some r =>
          obtain rfl : { r with tier := MemoryTier.committed } = region := by
            simpa [hr] using hget
          exact hmono (h regionId r (.inl hr))
      · exact hmono (h id region (.inr hget))

theorem sized_exec (run : List Call) (hfits : (run.map Call.bytes).sum < 2 ^ 64) :
    (exec run).All (Sized (run.map Call.bytes).sum) := by
  induction run using List.reverseRecOn with
  | nil =>
    rintro id region (hget | hget)
    · simp [exec, new] at hget
    · simp [exec, new] at hget
  | append_singleton run call ih =>
    simp only [List.map_append, List.sum_append, List.map_cons, List.map_nil, List.sum_singleton]
      at hfits ⊢
    rw [exec_concat]
    exact sized_step (ih (by omega)) call hfits

-- ---------------------------------------------------------------------------
-- Commits
-- ---------------------------------------------------------------------------

theorem committed_step (run : List Call) (call : Call) (hash : Bytes 32) (region : MemoryRegion) :
    ((exec run).step call).committed.get hash = some region →
      Commits hash region run call ∨ (exec run).committed.get hash = some region := by
  intro hget
  cases call with
  | createEphemeral id partitionId => exact .inr hget
  | put id key value now => exact .inr hget
  | get id key now => exact .inr hget
  | commit regionId hash' =>
    rw [step, committed_commit] at hget
    split at hget
    · rename_i hhash
      cases hr : (exec run).ephemeral.get regionId with
      | none => exact .inr (by simpa [hr] using hget)
      | some r =>
        have hregion : { r with tier := MemoryTier.committed } = region := by
          simpa [hr] using hget
        exact .inl ⟨regionId, r, by rw [hhash], hr, hregion.symm⟩
    · exact .inr hget

theorem commits_of_committed (run : List Call)
    (hget : (exec run).committed.get hash = some region) :
    History.Lastly (Commits hash region) (fun _ => True) run := by
  induction run using List.reverseRecOn with
  | nil => simp [exec, new] at hget
  | append_singleton run call ih =>
    rw [exec_concat] at hget
    rw [History.lastly_concat]
    rcases committed_step run call hash region hget with hcommits | hbefore
    · exact .inl hcommits
    · exact .inr ⟨ih hbefore, trivial⟩

theorem committed_of_committedLast (run : List Call) (h : CommittedLast hash region run) :
    (exec run).committed.get hash = some region := by
  induction run using List.reverseRecOn with
  | nil => exact absurd h History.not_lastly_nil
  | append_singleton run call ih =>
    rw [exec_concat]
    rcases (History.lastly_concat call).mp h with ⟨regionId, r, rfl, hr, rfl⟩ | ⟨hbefore, hother⟩
    · rw [step, committed_commit, if_pos rfl, hr]
      rfl
    · have hget := ih hbefore
      cases call with
      | createEphemeral id partitionId => exact hget
      | put id key value now => exact hget
      | get id key now => exact hget
      | commit regionId hash' =>
        rw [step, committed_commit, if_neg fun heq => hother regionId (by rw [heq])]
        exact hget

/-- Over every run that brings fewer than 2⁶⁴ bytes. An ephemeral region is there just when it
was made and not committed since, and under a key it has what was put there last. What is under
a commitment hash was an ephemeral region when it was committed, and nothing changes it but
another commit under the hash. The size of every region is that of the values in it. -/
theorem regions_run (run : List Call) (hfits : (run.map Call.bytes).sum < 2 ^ 64) :
    let memory := exec run
    (∀ id, (memory.ephemeral.get id).isSome ↔ Present id run) ∧
    (∀ id key value, memory.find id key = some value ↔ PutLast id key value run) ∧
    (∀ hash region, CommittedLast hash region run → memory.committed.get hash = some region) ∧
    (∀ hash region, memory.committed.get hash = some region →
      History.Lastly (Commits hash region) (fun _ => True) run) ∧
    memory.All fun region => region.sizeBytes.toNat = region.data.total List.length :=
  ⟨fun id => present_iff id run, fun id key value => find_iff id key value run,
    fun _ _ h => committed_of_committedLast run h, fun _ _ h => commits_of_committed run h,
    fun id region h => (sized_exec run hfits id region h).1⟩

/-- Two values under one key: the second is found. -/
theorem regions_run_replaced :
    let id : Bytes 32 := .fill 32 1
    (exec [.createEphemeral id 0, .put id [1] [1, 2, 3] 5, .put id [1] [7] 6]).find id [1] =
      some [7] := by
  intro id
  obtain ⟨-, hfind, -⟩ :=
    regions_run [.createEphemeral id 0, .put id [1] [1, 2, 3] 5, .put id [1] [7] 6] (by decide)
  refine (hfind id [1] [7]).mpr ⟨[.createEphemeral id 0, .put id [1] [1, 2, 3] 5],
    .put id [1] [7] 6, [], rfl, ⟨?_, 6, rfl⟩, by simp⟩
  exact (present_iff id _).mpr ⟨[], .createEphemeral id 0, [.put id [1] [1, 2, 3] 5], rfl, ⟨0, rfl⟩,
    by simp⟩

end IntelligenceMemory

end LiteVision.Intelligence
