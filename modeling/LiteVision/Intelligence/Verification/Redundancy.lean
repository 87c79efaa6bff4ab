import LiteVision.Bytes
import LiteVision.Lib.Map
import LiteVision.Lib.Tally

/-!
# Results of several operators

The redundancy manager of `verification.rs`: a job is run several times, and a policy says
what its results come to. A majority is looked for in a hash map, in whatever order its
entries come; at most one entry can be it.
-/

namespace LiteVision.Intelligence.Verification

open Lib

inductive RedundancyPolicy where
  | parallel
  | sequential
  | majority
  | firstValid
  deriving DecidableEq

inductive QoSClass where
  | lowLatency
  | balanced
  | highAssurance
  | deterministicCritical
  deriving DecidableEq

inductive RedundancyResult where
  | singleResult (hash : Bytes 32)
  | majority (hash : Bytes 32) (count : UInt32)
  | allResults (hashes : List (Bytes 32))
  | split (length : Nat)
  | inconclusive
  deriving DecidableEq

structure RedundancyManager where
  policy : RedundancyPolicy
  maxRedundancy : UInt32

namespace RedundancyManager

def determineK (manager : RedundancyManager) (baseK : UInt32) (qosClass : QoSClass) : UInt32 :=
  let minK : UInt32 := match qosClass with
    | .lowLatency => 1
    | .balanced => 2
    | .highAssurance => 3
    | .deterministicCritical => 3
  min (max baseK minK) manager.maxRedundancy

def hashCounts (results : List (UInt32 × Bytes 32)) : Map (Bytes 32) UInt32 :=
  results.foldl
    (fun counts result => counts.insert result.2 ((counts.get result.2).getD 0 + 1)) .empty

/-- `it` is the order in which the counts are gone through. -/
def evaluateRedundancy (it : Map.Iteration (Bytes 32) UInt32) (manager : RedundancyManager)
    (results : List (UInt32 × Bytes 32)) : RedundancyResult :=
  match results with
  | [] => .inconclusive
  | first :: _ =>
    match manager.policy with
    | .parallel =>
      if results.length = 1 then .singleResult first.2 else .allResults (results.map Prod.snd)
    | .sequential => .singleResult first.2
    | .majority =>
      let majority := results.length / 2 + 1
      match (it.entries (hashCounts results)).find? fun entry =>
          UInt32.ofNat majority ≤ entry.2 with
      | some entry => .majority entry.1 entry.2
      | none => .split results.length
    | .firstValid => .singleResult first.2

-- ---------------------------------------------------------------------------
-- The counts
-- ---------------------------------------------------------------------------

variable {results : List (UInt32 × Bytes 32)} {hash : Bytes 32} {count : UInt32}

def hashes (results : List (UInt32 × Bytes 32)) : List (Bytes 32) := results.map Prod.snd

def Counts (counts : Map (Bytes 32) UInt32) (seen : List (Bytes 32)) : Prop :=
  ∀ hash, counts.get hash =
    if seen.count hash = 0 then none else some (UInt32.ofNat (seen.count hash))

theorem Counts.insert {counts : Map (Bytes 32) UInt32} {seen : List (Bytes 32)}
    (h : Counts counts seen) (hash : Bytes 32) :
    Counts (counts.insert hash ((counts.get hash).getD 0 + 1)) (seen ++ [hash]) := by
  intro hash'
  rw [Map.get_insert, List.count_append]
  by_cases heq : hash' = hash
  · subst heq
    have hcount : (counts.get hash').getD 0 = UInt32.ofNat (seen.count hash') := by
      rw [h hash']
      split
      · rename_i hzero
        rw [hzero]
        rfl
      · rfl
    rw [if_pos rfl, List.count_singleton_self, if_neg (Nat.succ_ne_zero _), hcount,
      UInt32.ofNat_add]
    rfl
  · have hzero : [hash].count hash' = 0 :=
      List.count_eq_zero.mpr (mt List.mem_singleton.mp heq)
    rw [if_neg heq, h hash', hzero, Nat.add_zero]

theorem counts_hashCounts (results : List (UInt32 × Bytes 32)) :
    Counts (hashCounts results) (hashes results) := by
  have hrun : ∀ (rest : List (UInt32 × Bytes 32)) (counts : Map (Bytes 32) UInt32)
      (seen : List (Bytes 32)), Counts counts seen →
      Counts (rest.foldl
        (fun counts result => counts.insert result.2 ((counts.get result.2).getD 0 + 1)) counts)
        (seen ++ hashes rest) := by
    intro rest
    induction rest with
    | nil =>
      intro counts seen h
      rwa [hashes, List.map_nil, List.append_nil]
    | cons result rest ih =>
      intro counts seen h
      have hrest := ih _ _ (h.insert result.2)
      rwa [List.append_assoc] at hrest
  exact hrun results .empty [] fun hash => by simp

-- ---------------------------------------------------------------------------
-- Majorities
-- ---------------------------------------------------------------------------

def IsMajority (results : List (UInt32 × Bytes 32)) (hash : Bytes 32) (count : UInt32) : Prop :=
  (hashes results).count hash = count.toNat ∧ results.length < 2 * count.toNat

theorem IsMajority.lt_count (h : IsMajority results hash count) :
    (hashes results).length < 2 * (hashes results).count hash := by
  rw [h.1, hashes, List.length_map]
  exact h.2

theorem IsMajority.unique {hash' : Bytes 32} {count' : UInt32} (h : IsMajority results hash count)
    (h' : IsMajority results hash' count') : hash = hash' ∧ count = count' := by
  obtain rfl := Lib.Tally.majority_unique h.lt_count h'.lt_count
  exact ⟨rfl, UInt32.toNat_inj.mp (h.1.symm.trans h'.1)⟩

theorem count_lt (hlen : results.length < 2 ^ 32) (hash : Bytes 32) :
    (hashes results).count hash < 2 ^ 32 := by
  have hle : (hashes results).count hash ≤ (hashes results).length := List.count_le_length
  rw [hashes, List.length_map] at hle
  exact Nat.lt_of_le_of_lt hle hlen

theorem get_hashCounts (hlen : results.length < 2 ^ 32) :
    (hashCounts results).get hash = some count ↔
      hash ∈ hashes results ∧ (hashes results).count hash = count.toNat := by
  rw [counts_hashCounts results hash, ← List.count_pos_iff, Nat.pos_iff_ne_zero]
  split
  · rename_i hzero
    exact iff_of_false nofun fun h => h.1 hzero
  · rename_i hne
    rw [Option.some.injEq, ← UInt32.toNat_inj, UInt32.toNat_ofNat_of_lt' (count_lt hlen hash)]
    exact (and_iff_right hne).symm

theorem majority_le_iff (hlen : results.length < 2 ^ 32) :
    UInt32.ofNat (results.length / 2 + 1) ≤ count ↔ results.length < 2 * count.toNat := by
  rw [UInt32.le_iff_toNat_le, UInt32.toNat_ofNat_of_lt' (show _ < 2 ^ 32 by omega)]
  omega

theorem mem_entries_and_le (it : Map.Iteration (Bytes 32) UInt32) (hlen : results.length < 2 ^ 32) :
    ((hash, count) ∈ it.entries (hashCounts results) ∧
        UInt32.ofNat (results.length / 2 + 1) ≤ count) ↔ IsMajority results hash count := by
  rw [it.mem, get_hashCounts hlen, majority_le_iff hlen]
  constructor
  · exact fun h => ⟨h.1.2, h.2⟩
  · intro h
    have hpos : 0 < (hashes results).count hash := by
      rw [h.1]
      exact Nat.pos_of_ne_zero fun hzero => by simpa [hzero] using h.2
    exact ⟨⟨List.count_pos_iff.mp hpos, h.1⟩, h.2⟩

/-- What the loop finds is a majority, and it finds one if there is one. -/
theorem evaluateRedundancy_cases (it : Map.Iteration (Bytes 32) UInt32) (maxRedundancy : UInt32)
    (hne : results ≠ []) (hlen : results.length < 2 ^ 32) :
    (∃ hash count, IsMajority results hash count ∧
      evaluateRedundancy it ⟨.majority, maxRedundancy⟩ results = .majority hash count) ∨
    ((∀ hash count, ¬ IsMajority results hash count) ∧
      evaluateRedundancy it ⟨.majority, maxRedundancy⟩ results = .split results.length) := by
  cases results with
  | nil => exact absurd rfl hne
  | cons first rest =>
    simp only [evaluateRedundancy]
    split
    · rename_i entry hfind
      refine .inl ⟨entry.1, entry.2, (mem_entries_and_le it hlen).mp ?_, rfl⟩
      have hle := List.find?_some hfind
      exact ⟨List.mem_of_find?_eq_some hfind, of_decide_eq_true hle⟩
    · rename_i hfind
      refine .inr ⟨fun hash count h => ?_, rfl⟩
      obtain ⟨hmem, hle⟩ := (mem_entries_and_le it hlen).mpr h
      exact List.find?_eq_none.mp hfind _ hmem (decide_eq_true hle)

/-- The majority is found whatever the order of the counts. -/
theorem evaluateRedundancy_majority (it : Map.Iteration (Bytes 32) UInt32) (maxRedundancy : UInt32)
    (results : List (UInt32 × Bytes 32)) (hne : results ≠ []) (hlen : results.length < 2 ^ 32) :
    (∀ hash count, evaluateRedundancy it ⟨.majority, maxRedundancy⟩ results =
      .majority hash count ↔
        (results.map Prod.snd).count hash = count.toNat ∧ results.length < 2 * count.toNat) ∧
    (evaluateRedundancy it ⟨.majority, maxRedundancy⟩ results = .split results.length ↔
      ¬ ∃ hash, results.length < 2 * (results.map Prod.snd).count hash) ∧
    ∀ it', evaluateRedundancy it' ⟨.majority, maxRedundancy⟩ results =
      evaluateRedundancy it ⟨.majority, maxRedundancy⟩ results := by
  have hexists : (∃ hash, results.length < 2 * (results.map Prod.snd).count hash) ↔
      ∃ hash count, IsMajority results hash count := by
    constructor
    · rintro ⟨hash, hlt⟩
      refine ⟨hash, UInt32.ofNat ((hashes results).count hash), ?_⟩
      rw [IsMajority, UInt32.toNat_ofNat_of_lt' (count_lt hlen hash)]
      exact ⟨rfl, hlt⟩
    · rintro ⟨hash, count, h⟩
      refine ⟨hash, ?_⟩
      have hcount := h.lt_count
      rwa [hashes, List.length_map] at hcount
  rw [hexists]
  rcases evaluateRedundancy_cases it maxRedundancy hne hlen with
    ⟨hash, count, hmajority, heq⟩ | ⟨hnone, heq⟩
  · rw [heq]
    refine ⟨fun hash' count' => ⟨?_, fun h => ?_⟩, iff_of_false nofun ?_, fun it' => ?_⟩
    · rintro ⟨⟩
      exact hmajority
    · obtain ⟨rfl, rfl⟩ := hmajority.unique h
      rfl
    · exact not_not.mpr ⟨hash, count, hmajority⟩
    · rcases evaluateRedundancy_cases it' maxRedundancy hne hlen with
        ⟨hash', count', hmajority', heq'⟩ | ⟨hnone, -⟩
      · obtain ⟨rfl, rfl⟩ := hmajority.unique hmajority'
        exact heq'
      · exact absurd hmajority (hnone hash count)
  · rw [heq]
    refine ⟨fun hash count => iff_of_false nofun (hnone hash count), iff_of_true rfl ?_,
      fun it' => ?_⟩
    · rintro ⟨hash, count, h⟩
      exact hnone hash count h
    · rcases evaluateRedundancy_cases it' maxRedundancy hne hlen with
        ⟨hash, count, hmajority, -⟩ | ⟨-, heq'⟩
      · exact absurd hmajority (hnone hash count)
      · exact heq'

/-- Two of three agree. -/
theorem evaluateRedundancy_majority_two :
    let results := [((0 : UInt32), Bytes.fill 32 1), (1, .fill 32 2), (2, .fill 32 1)]
    results ≠ [] ∧ results.length < 2 ^ 32 ∧
      evaluateRedundancy .ascending ⟨.majority, 3⟩ results = .majority (.fill 32 1) 2 :=
  ⟨by decide, by decide, ((evaluateRedundancy_majority .ascending 3
    [((0 : UInt32), Bytes.fill 32 1), (1, .fill 32 2), (2, .fill 32 1)] (by decide)
    (by decide)).1 (.fill 32 1) 2).mpr (by decide)⟩

end RedundancyManager

end LiteVision.Intelligence.Verification
