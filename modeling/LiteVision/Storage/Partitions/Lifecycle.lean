import LiteVision.Storage.Partitions

/-!
# The life of a partition

A partition goes through its five states along a few arrows, is never created twice
and never comes back once deleted. One call moves one partition at most, and a call
that fails changes nothing.
-/

namespace LiteVision.Storage.PartitionManager

open Lib

variable {c : Crypto} {m : PartitionManager} {op : Op} {id : UInt32}

def statusOf (m : PartitionManager) (id : UInt32) : Option PartitionStatus :=
  (m.partitions.get id).map Partition.status

/-- The partition the call names; of a migration, the source. -/
def Op.named : Op → Option UInt32
  | .createPartition create _ => some create.newPartitionId
  | .activatePartition partitionId _ => some partitionId
  | .migratePartition sourceId _ _ => some sourceId
  | .completeMigration partitionId _ => some partitionId
  | .deletePartition delete => some delete.partitionId
  | .freezePartition partitionId => some partitionId
  | .rebalancePartition rebalance => some rebalance.partitionId
  | .advanceEpoch _ => none

/-- The ways the status of a partition changes: it is created, or follows an arrow. -/
inductive Moves : Option PartitionStatus → Option PartitionStatus → Prop
  | create : Moves none (some .pending)
  | along {old new : PartitionStatus} : Transition old new → Moves (some old) (some new)

/-- What one call does to the states of the partitions and to the manager. -/
structure Orderly (c : Crypto) (m : PartitionManager) (op : Op) : Prop where
  moves : ∀ id, (step c m op).statusOf id ≠ m.statusOf id →
    Moves (m.statusOf id) ((step c m op).statusOf id)
  named : ∀ id, (step c m op).statusOf id ≠ m.statusOf id → op.named = some id
  pending : ∃ added : List PartitionOperation, added.length ≤ 1 ∧
    (step c m op).pendingOperations = m.pendingOperations ++ added
  succeeded : (step c m op).pendingOperations ≠ m.pendingOperations → Succeeds c m op
  error : ∀ e, (m.call c op).1 = .error e → step c m op = m

theorem named_of_inPlace (h : op.inPlace = some id) : op.named = some id := by
  cases op with
  | createPartition create validators => cases h
  | migratePartition sourceId targetId migration => cases h
  | advanceEpoch newEpoch => cases h
  | activatePartition partitionId epoch => exact h
  | completeMigration partitionId epoch => exact h
  | deletePartition delete => exact h
  | freezePartition partitionId => exact h
  | rebalancePartition rebalance => exact h

theorem length_logged (op : Op) : op.logged.length ≤ 1 := by
  cases op <;> simp [Op.logged]

theorem statusOf_step (c : Crypto) (m : PartitionManager) (op : Op) (id : UInt32) :
    (step c m op).statusOf id = m.statusOf id ∨
      (op.named = some id ∧ Moves (m.statusOf id) ((step c m op).statusOf id)) := by
  unfold statusOf
  rcases step_cases c m op with ⟨-, heq⟩ | ⟨-, hwrites, -, -⟩
  · rw [heq]
    exact .inl rfl
  · generalize (step c m op).partitions = parts at hwrites
    cases hwrites with
    | @created create validators hnew hverified =>
      by_cases hid : id = create.newPartitionId
      · subst hid
        rw [Map.get_insert_self, hnew]
        exact .inr ⟨rfl, .create⟩
      · rw [Map.get_insert_ne _ _ hid]
        exact .inl rfl
    | @migrated source target migration p hget hactive =>
      rw [get_migrated]
      by_cases hid : id = source
      · subst hid
        rw [if_pos rfl, hget, Option.map_some, Option.map_some, hactive]
        exact .inr ⟨rfl, .along .migrate⟩
      · -- the target of a migration keeps its status
        left
        rw [if_neg hid]
        split
        · rw [Option.map_map]
          refine congrArg (Option.map · _) (funext fun q => ?_)
          simp only [Function.comp_apply, receive]
          split <;> rfl
        · rfl
    | @changed _ id' p q hop hget hstatus hroot =>
      by_cases hid : id = id'
      · subst hid
        rw [Map.get_insert_self, hget, Option.map_some, Option.map_some]
        rcases hstatus with hsame | harrow
        · exact .inl (congrArg some hsame)
        · exact .inr ⟨named_of_inPlace hop, .along harrow⟩
      · rw [Map.get_insert_ne _ _ hid]
        exact .inl rfl
    | advanced => exact .inl rfl

theorem orderly (c : Crypto) (m : PartitionManager) (op : Op) : Orderly c m op := by
  constructor
  case moves =>
    intro id hne
    rcases statusOf_step c m op id with heq | ⟨-, hmoves⟩
    · exact absurd heq hne
    · exact hmoves
  case named =>
    intro id hne
    rcases statusOf_step c m op id with heq | ⟨hnamed, -⟩
    · exact absurd heq hne
    · exact hnamed
  case pending =>
    rcases step_cases c m op with ⟨-, heq⟩ | ⟨-, -, hpending, -⟩
    · exact ⟨[], Nat.zero_le 1, by rw [heq, List.append_nil]⟩
    · exact ⟨op.logged, length_logged op, hpending⟩
  case succeeded =>
    intro hne
    rcases step_cases c m op with ⟨-, heq⟩ | ⟨hok, -⟩
    · rw [heq] at hne
      exact absurd rfl hne
    · exact hok
  case error =>
    intro e he
    rcases step_cases c m op with ⟨-, heq⟩ | ⟨hok, -⟩
    · exact heq
    · rw [Succeeds, he] at hok
      cases hok

theorem deleted_step (h : m.statusOf id = some .deleted) :
    (step c m op).statusOf id = some .deleted := by
  rcases statusOf_step c m op id with heq | ⟨-, hmoves⟩
  · rw [heq, h]
  · rw [h] at hmoves
    generalize (step c m op).statusOf id = new at hmoves
    cases hmoves with
    | along harrow => cases harrow

theorem deleted_exec (h : m.statusOf id = some .deleted) (ops : List Op) :
    (Trace.exec (step c) m ops).statusOf id = some .deleted :=
  Trace.invariant (I := fun m : PartitionManager => m.statusOf id = some .deleted)
    (fun _ _ h => deleted_step h) h ops

theorem createPartition_taken {create : PartitionCreate} {status : PartitionStatus}
    (h : m.statusOf create.newPartitionId = some status) (validators : List (Bytes 32)) :
    m.createPartition c create validators = (.error .partitionExists, m) := by
  obtain ⟨p, hget, -⟩ := Option.map_eq_some_iff.mp h
  rw [createPartition, hget]
  rfl

/-- Every call of a run is orderly, and what was deleted stays so and is not created again. -/
theorem partition_lifecycle (c : Crypto) (ops : List Op) :
    Trace.Always (step c) (Orderly c) new ops ∧
    ∀ before after, before ++ after = ops → ∀ id,
      (run c before).statusOf id = some .deleted →
      (run c ops).statusOf id = some .deleted ∧
        ∀ create validators, create.newPartitionId = id →
          (run c ops).createPartition c create validators =
            (.error .partitionExists, run c ops) := by
  refine ⟨Trace.always_of_forall_mem fun op _ m => orderly c m op, ?_⟩
  rintro before after rfl id hdeleted
  have hafter : (run c (before ++ after)).statusOf id = some .deleted := by
    rw [run, Trace.exec_append]
    exact deleted_exec hdeleted after
  refine ⟨hafter, ?_⟩
  rintro create validators rfl
  exact createPartition_taken hafter validators

end LiteVision.Storage.PartitionManager
