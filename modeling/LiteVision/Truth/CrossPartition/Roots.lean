import LiteVision.Truth.CrossPartition

/-!
# Two views of the roots

The root of a partition is kept with the partition and in the global state root.
`roots_agree_iff`: the two agree for as long as only partitions that are there
are given a new root.
-/

namespace LiteVision.Truth

open Lib

namespace PartitionManager

variable (c : Crypto)

/-- The partitions and the global roots have the same keys and, for each, the same root. -/
structure RootsAgree (s : PartitionManager) : Prop where
  keys : s.partitions.keys = s.globalStateRoot.partitionRoots.keys
  roots : ∀ partitionId partition root, s.partitions.get partitionId = some partition →
    s.globalStateRoot.partitionRoots.get partitionId = some root → partition.merkleRoot = root

theorem rootsAgree_iff {s : PartitionManager} :
    RootsAgree s ↔ ∀ partitionId, (s.partitions.get partitionId).map Partition.merkleRoot =
      s.globalStateRoot.partitionRoots.get partitionId := by
  constructor
  · intro h partitionId
    have hkeys : partitionId ∈ s.partitions.keys ↔
        partitionId ∈ s.globalStateRoot.partitionRoots.keys := by rw [h.keys]
    rw [Map.mem_keys, Map.mem_keys] at hkeys
    cases hp : s.partitions.get partitionId with
    | none =>
      cases hr : s.globalStateRoot.partitionRoots.get partitionId with
      | none => rfl
      | some root =>
        obtain ⟨partition, hpartition⟩ := hkeys.mpr ⟨root, hr⟩
        cases hp.symm.trans hpartition
    | some partition =>
      obtain ⟨root, hr⟩ := hkeys.mp ⟨partition, hp⟩
      rw [hr, Option.map_some, h.roots partitionId partition root hp hr]
  · intro h
    constructor
    · ext partitionId
      rw [Map.mem_keys, Map.mem_keys, ← h partitionId, ← Option.isSome_iff_exists,
        ← Option.isSome_iff_exists, Option.isSome_map]
    · intro partitionId partition root hp hr
      have heq := h partitionId
      rw [hp, hr] at heq
      exact Option.some.inj heq

theorem rootsAgree_new : RootsAgree new := rootsAgree_iff.mpr fun _ => rfl

/-- A new root is for a partition that is there. -/
def KnownPartition (s : PartitionManager) (op : Op) : Prop :=
  ∀ partitionId root, op = .updatePartitionRoot partitionId root →
    ∃ partition, s.partitions.get partitionId = some partition

theorem rootsAgree_add {s : PartitionManager} (h : RootsAgree s) (partitionId : PartitionId) :
    RootsAgree (s.addPartition partitionId) := by
  rw [rootsAgree_iff] at h ⊢
  intro j
  simp only [addPartition, GlobalStateRoot.updatePartition, Map.get_insert]
  split
  · rfl
  · exact h j

theorem rootsAgree_remove {s : PartitionManager} (h : RootsAgree s) (partitionId : PartitionId) :
    RootsAgree (s.removePartition partitionId).2 := by
  rw [rootsAgree_iff] at h ⊢
  intro j
  simp only [removePartition, Map.get_erase]
  split
  · rfl
  · exact h j

theorem rootsAgree_update {s : PartitionManager} (h : RootsAgree s) (partitionId : PartitionId)
    (root : Bytes 32) :
    RootsAgree (s.updatePartitionRoot partitionId root) ↔
      ∃ partition, s.partitions.get partitionId = some partition := by
  rw [rootsAgree_iff] at h ⊢
  simp only [updatePartitionRoot, GlobalStateRoot.updatePartition, Map.get_insert, Map.get_modify]
  constructor
  · intro hafter
    have hself := hafter partitionId
    rw [if_pos rfl, if_pos rfl] at hself
    cases hp : s.partitions.get partitionId with
    | none =>
      rw [hp] at hself
      cases hself
    | some partition => exact ⟨partition, rfl⟩
  · rintro ⟨partition, hp⟩ j
    split
    · rw [hp]
      rfl
    · exact h j

theorem rootsAgree_messages {s : PartitionManager} (h : RootsAgree s)
    (messageRegistry : ConsumedMessageRegistry) : RootsAgree { s with messageRegistry } :=
  ⟨h.keys, h.roots⟩

theorem rootsAgree_step {s : PartitionManager} (h : RootsAgree s) (op : Op) :
    RootsAgree (s.step c op) ↔ s.KnownPartition op := by
  cases op with
  | addPartition partitionId =>
    exact iff_of_true (rootsAgree_add h partitionId) fun _ _ heq => nomatch heq
  | removePartition partitionId =>
    exact iff_of_true (rootsAgree_remove h partitionId) fun _ _ heq => nomatch heq
  | updatePartitionRoot partitionId root =>
    refine (rootsAgree_update h partitionId root).trans ⟨?_, fun hknown => hknown _ _ rfl⟩
    rintro hp _ _ ⟨⟩
    exact hp
  | processCrossPartitionMessage message proof =>
    refine iff_of_true ?_ fun _ _ heq => nomatch heq
    rcases process_cases c s message proof with ⟨-, heq⟩ | ⟨-, err, heq⟩
    · simp only [step, heq]
      exact rootsAgree_messages h _
    · simpa only [step, heq] using h
  | commitArtifact commit =>
    exact iff_of_true ⟨h.keys, h.roots⟩ fun _ _ heq => nomatch heq
  | prune currentHeight =>
    exact iff_of_true (rootsAgree_messages h _) fun _ _ heq => nomatch heq

/-- The two views agree in every state of a run just when every root it updates is
that of a partition that is there. -/
theorem roots_agree_iff (run : List Op) :
    (∀ before, before <+: run → RootsAgree (Trace.exec (step c) .new before)) ↔
      Trace.Always (step c) KnownPartition .new run :=
  Trace.prefixes_iff_always (J := fun _ => True) (fun _ _ _ => trivial)
    (fun _ op _ h => rootsAgree_step c h op) trivial rootsAgree_new

/-- A root for a partition that was never added. -/
theorem roots_agree_fails :
    ¬ ∀ (c : Crypto) (run : List Op), RootsAgree (Trace.exec (step c) .new run) := by
  intro h
  let c : Crypto := { blake3 := fun _ => .fill 32 0, ed25519Verify := fun _ _ _ => true }
  have hkeys := (h c [.updatePartitionRoot 7 (.fill 32 9)]).keys
  exact absurd hkeys (by decide)

end PartitionManager

end LiteVision.Truth
