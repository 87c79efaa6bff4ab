import LiteVision.Bytes
import LiteVision.Lib.Trace
import Mathlib.Data.Finset.Max
import Mathlib.Data.List.Flatten

/-!
# Header sync

`StateSync` keeps the first header of each height. `is_synced` looks at the highest of them
and `get_missing_heights` at the gaps between two heights. `isSynced_agrees_iff`: they agree
just when the headers that came have no gap below the target.
-/

namespace LiteVision.Truth

open Lib

structure SyncHeader where
  height : UInt64
  hash : Bytes 32
  parentHash : Bytes 32
  timestamp : UInt64
  validatorSetHash : Bytes 32
  deriving DecidableEq

structure StateSync where
  receivedHeaders : List SyncHeader
  deriving DecidableEq

namespace StateSync

def new : StateSync where
  receivedHeaders := []

/-- The loop of `process_headers`, with the heights that were new so far. -/
def processHeaders.loop (heights : List UInt64) (s : StateSync) :
    List SyncHeader → List UInt64 × StateSync
  | [] => (heights, s)
  | header :: headers =>
    if s.receivedHeaders.any fun h => h.height == header.height then loop heights s headers
    else
      loop (heights ++ [header.height])
        { s with receivedHeaders := s.receivedHeaders ++ [header] } headers

def processHeaders (s : StateSync) (headers : List SyncHeader) : List UInt64 × StateSync :=
  let result := processHeaders.loop [] s headers
  (result.1.mergeSort, result.2)

def getMissingHeights (s : StateSync) (fromHeight toHeight : UInt64) : List UInt64 :=
  let received := s.receivedHeaders.map fun h => h.height
  ((List.range' fromHeight.toNat (toHeight.toNat + 1 - fromHeight.toNat)).map UInt64.ofNat).filter
    fun h => h ∉ received

def isSynced (s : StateSync) (targetHeight : UInt64) : Bool :=
  let maxReceived := (s.receivedHeaders.map fun h => h.height).max?.getD 0
  decide (targetHeight ≤ maxReceived)

def step (s : StateSync) (headers : List SyncHeader) : StateSync := (s.processHeaders headers).2

def heights (s : StateSync) : List UInt64 := s.receivedHeaders.map fun h => h.height

variable {s : StateSync} {fromHeight toHeight target x : UInt64}

-- ---------------------------------------------------------------------------
-- The two views
-- ---------------------------------------------------------------------------

theorem le_foldl_max (l : List UInt64) (start : UInt64) :
    x ≤ l.foldl max start ↔ x ≤ start ∨ ∃ h ∈ l, x ≤ h := by
  induction l generalizing start with
  | nil => simp
  | cons a l ih =>
    have hmax : x ≤ max start a ↔ x ≤ start ∨ x ≤ a := by
      change x ≤ (if start ≤ a then a else start) ↔ _
      simp only [UInt64.le_iff_toNat_le]
      split <;> omega
    rw [List.foldl_cons, ih, hmax, List.exists_mem_cons_iff, or_assoc]

theorem isSynced_iff : s.isSynced target ↔ target = 0 ∨ ∃ h ∈ s.heights, target ≤ h := by
  rw [isSynced, decide_eq_true_eq, ← heights]
  cases s.heights with
  | nil => simp
  | cons first rest =>
    have hfirst : target = 0 → target ≤ first := by
      rintro rfl
      exact UInt64.zero_le
    rw [List.max?_cons', Option.getD_some, le_foldl_max, List.exists_mem_cons_iff, ← or_assoc,
      or_iff_right_of_imp hfirst]

theorem mem_getMissingHeights :
    x ∈ s.getMissingHeights fromHeight toHeight ↔
      fromHeight ≤ x ∧ x ≤ toHeight ∧ x ∉ s.heights := by
  have hrange : x ∈ (List.range' fromHeight.toNat (toHeight.toNat + 1 - fromHeight.toNat)).map
      UInt64.ofNat ↔ fromHeight ≤ x ∧ x ≤ toHeight := by
    simp only [List.mem_map, List.mem_range'_1, UInt64.le_iff_toNat_le]
    constructor
    · rintro ⟨n, hn, rfl⟩
      have hlt : toHeight.toNat < UInt64.size := toHeight.toNat_lt
      rw [UInt64.toNat_ofNat_of_lt' (by omega)]
      omega
    · exact fun h => ⟨x.toNat, by omega, UInt64.ofNat_toNat⟩
  rw [getMissingHeights, List.mem_filter, hrange, decide_eq_true_eq, and_assoc, heights]

theorem getMissingHeights_eq_nil :
    s.getMissingHeights fromHeight toHeight = [] ↔
      ∀ x, fromHeight ≤ x → x ≤ toHeight → x ∈ s.heights := by
  rw [List.eq_nil_iff_forall_not_mem]
  refine forall_congr' fun x => ?_
  rw [mem_getMissingHeights]
  tauto

theorem exists_lowest (h : s.heights ≠ []) : ∃ m ∈ s.heights, ∀ x ∈ s.heights, m ≤ x := by
  obtain ⟨m, hm, hlowest⟩ := s.heights.toFinset.exists_min_image UInt64.toNat
    (List.toFinset_nonempty_iff _ |>.mpr h)
  simp only [List.mem_toFinset] at hm hlowest
  exact ⟨m, hm, fun x hx => UInt64.le_iff_toNat_le.mpr (hlowest x hx)⟩

-- ---------------------------------------------------------------------------
-- Runs
-- ---------------------------------------------------------------------------

theorem mem_heights_loop (heights : List UInt64) (s : StateSync) (headers : List SyncHeader) :
    x ∈ (processHeaders.loop heights s headers).2.heights ↔
      x ∈ s.heights ∨ x ∈ headers.map fun h => h.height := by
  induction headers generalizing heights s with
  | nil => simp [processHeaders.loop]
  | cons header headers ih =>
    rw [processHeaders.loop]
    split
    · rename_i hknown
      have hheader : header.height ∈ s.heights := by simpa [StateSync.heights] using hknown
      rw [ih, List.map_cons, List.mem_cons]
      constructor
      · rintro (h | h)
        · exact .inl h
        · exact .inr (.inr h)
      · rintro (h | rfl | h)
        · exact .inl h
        · exact .inl hheader
        · exact .inr h
    · rw [ih, List.map_cons, List.mem_cons, StateSync.heights, List.map_append, List.mem_append,
        List.map_singleton, List.mem_singleton, or_assoc]
      rfl

def given (batches : List (List SyncHeader)) : List UInt64 := batches.flatten.map fun h => h.height

theorem mem_heights_exec (batches : List (List SyncHeader)) :
    x ∈ (Trace.exec step new batches).heights ↔ x ∈ given batches := by
  induction batches using List.reverseRecOn with
  | nil => exact Iff.rfl
  | append_singleton batches headers ih =>
    rw [Trace.exec_concat, step, processHeaders, mem_heights_loop, ih]
    simp [given]

-- ---------------------------------------------------------------------------
-- Agreement
-- ---------------------------------------------------------------------------

/-- A sync that says it has reached the target has a header, and none is missing from the
lowest one on. -/
def Agrees (s : StateSync) (target : UInt64) : Prop :=
  s.isSynced target →
    ∃ m ∈ s.heights, (∀ x ∈ s.heights, m ≤ x) ∧ s.getMissingHeights m target = []

/-- No height below the target is left out between two that are there. -/
def NoGap (heights : List UInt64) (target : UInt64) : Prop :=
  (heights = [] → target ≠ 0) ∧
    ∀ lo ∈ heights, ∀ hi ∈ heights, ∀ x, lo ≤ x → x ≤ target → target ≤ hi → x ∈ heights

theorem noGap_of_agrees (h : s.Agrees target) : NoGap s.heights target := by
  refine ⟨?_, fun lo hlo hi hhi x hlox hx hreach => ?_⟩
  · rintro hnil rfl
    obtain ⟨m, hm, -⟩ := h (isSynced_iff.mpr (.inl rfl))
    rw [hnil] at hm
    cases hm
  · obtain ⟨m, -, hlowest, hmissing⟩ := h (isSynced_iff.mpr (.inr ⟨hi, hhi, hreach⟩))
    exact getMissingHeights_eq_nil.mp hmissing x (UInt64.le_trans (hlowest lo hlo) hlox) hx

theorem agrees_of_noGap (h : NoGap s.heights target) : s.Agrees target := by
  intro hsynced
  have hne : s.heights ≠ [] := by
    intro hnil
    rcases isSynced_iff.mp hsynced with hzero | ⟨hi, hhi, -⟩
    · exact h.1 hnil hzero
    · rw [hnil] at hhi
      cases hhi
  obtain ⟨m, hm, hlowest⟩ := exists_lowest hne
  obtain ⟨hi, hhi, hreach⟩ : ∃ hi ∈ s.heights, target ≤ hi := by
    rcases isSynced_iff.mp hsynced with rfl | hsome
    · exact ⟨m, hm, UInt64.zero_le⟩
    · exact hsome
  refine ⟨m, hm, hlowest, getMissingHeights_eq_nil.mpr fun x hmx hx => ?_⟩
  exact h.2 m hm hi hhi x hmx hx hreach

/-- After any batches of headers the two views agree just when the heights that were given
have no gap below the target, and a target of zero comes with a header. -/
theorem isSynced_agrees_iff (batches : List (List SyncHeader)) (target : UInt64) :
    (Trace.exec step new batches).Agrees target ↔ NoGap (given batches) target := by
  have hmem (x : UInt64) := mem_heights_exec (x := x) batches
  have hnil : (Trace.exec step new batches).heights = [] ↔ given batches = [] := by
    simp only [List.eq_nil_iff_forall_not_mem, hmem]
  have hgap : NoGap (Trace.exec step new batches).heights target ↔
      NoGap (given batches) target := by
    simp only [NoGap, hmem, hnil]
  exact ⟨fun h => hgap.mp (noGap_of_agrees h), fun h => agrees_of_noGap (hgap.mpr h)⟩

/-- With headers 1 and 3 the sync has reached 3, and 2 is missing. -/
theorem isSynced_agrees_fails :
    ¬ ∀ (batches : List (List SyncHeader)) (target : UInt64),
      (Trace.exec step new batches).Agrees target := by
  intro h
  let header (height : UInt64) : SyncHeader := ⟨height, .fill 32 1, .fill 32 0, 100, .fill 32 2⟩
  obtain ⟨m, hm, hlowest, hmissing⟩ := h [[header 1, header 3]] 3 (by decide)
  have hbelow : m ≤ 2 := UInt64.le_trans (hlowest 1 (by decide)) (by decide)
  have hgap : 2 ∈ (Trace.exec step new [[header 1, header 3]]).heights :=
    getMissingHeights_eq_nil.mp hmissing 2 hbelow (by decide)
  exact absurd hgap (by decide)

end StateSync

end LiteVision.Truth
