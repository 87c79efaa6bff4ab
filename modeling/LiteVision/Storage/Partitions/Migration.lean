import LiteVision.Storage.Partitions

/-!
# All or nothing

`migrate_partition` marks the source before it looks for the target, and what it finds there
changes nothing in its answer. `migration_all_or_nothing_iff`: it does all or nothing just
when the source is refused or the target can take the migration.
-/

namespace LiteVision.Storage

open Lib

namespace PartitionManager

variable {m : PartitionManager} {sourceId targetId : UInt32} {migration : PartitionMigration}

/-- The target is there, active and not the source, and the migration names both. -/
structure Receivable (m : PartitionManager) (sourceId targetId : UInt32)
    (migration : PartitionMigration) : Prop where
  active : ∃ target, m.partitions.get targetId = some target ∧ target.status = .active
  differs : targetId ≠ sourceId
  source : migration.sourcePartitionId = sourceId
  target : migration.targetPartitionId = targetId

structure Migrated (m : PartitionManager) (sourceId targetId : UInt32)
    (migration : PartitionMigration) : Prop where
  target : ∃ target, m.partitions.get targetId = some target ∧
    target.stateRoot = migration.proof.targetStateRoot
  source : ∃ source, m.partitions.get sourceId = some source ∧ source.status = .migrating

/-- The call succeeds on a target that can take the migration and carries it out, or it
fails and leaves the manager. -/
def AllOrNothing (m : PartitionManager) (sourceId targetId : UInt32)
    (migration : PartitionMigration) : Prop :=
  (∃ m', m.migratePartition sourceId targetId migration = (.ok (), m') ∧
    m.Receivable sourceId targetId migration ∧ m'.Migrated sourceId targetId migration) ∨
  ∃ e, m.migratePartition sourceId targetId migration = (.error e, m)

theorem migratePartition_cases (m : PartitionManager) (sourceId targetId : UInt32)
    (migration : PartitionMigration) :
    ((∀ p, m.partitions.get sourceId = some p → p.status ≠ .active) ∧
      ∃ e, m.migratePartition sourceId targetId migration = (.error e, m)) ∨
    ∃ p, m.partitions.get sourceId = some p ∧ p.status = .active ∧
      m.migratePartition sourceId targetId migration = (.ok (), { m with
        partitions :=
          (m.partitions.insert sourceId p.markMigrating).modify targetId (receive migration)
        pendingOperations := m.pendingOperations ++ [.migrate migration] }) := by
  rcases m.withPartition_cases sourceId (· = .active) (·.markMigrating) fun m =>
    { m with partitions := m.partitions.modify targetId (receive migration) }.pushOperation
      (.migrate migration) with ⟨hnone, herror⟩ | ⟨p, hget, hactive, heq⟩
  · exact .inl ⟨fun p hp => of_decide_eq_false (hnone p hp), herror⟩
  · exact .inr ⟨p, hget, of_decide_eq_true hactive, heq⟩

theorem migrated_of_receivable {p : Partition} (h : m.Receivable sourceId targetId migration)
    {pendingOperations : List PartitionOperation} :
    Migrated { m with
      partitions :=
        (m.partitions.insert sourceId p.markMigrating).modify targetId (receive migration)
      pendingOperations } sourceId targetId migration := by
  constructor
  · obtain ⟨target, hget, hactive⟩ := h.active
    refine ⟨receive migration target, ?_, by rw [receive, if_pos hactive]⟩
    rw [get_migrated, if_neg h.differs, if_pos rfl, hget, Option.map_some]
  · exact ⟨p.markMigrating, by rw [get_migrated, if_pos rfl], rfl⟩

/-- The call does all or nothing just when it finds no active source, or the target can take
the migration. -/
theorem migration_all_or_nothing_iff (m : PartitionManager) (sourceId targetId : UInt32)
    (migration : PartitionMigration) :
    m.AllOrNothing sourceId targetId migration ↔
      ∀ p, m.partitions.get sourceId = some p → p.status = .active →
        m.Receivable sourceId targetId migration := by
  rcases migratePartition_cases m sourceId targetId migration with
    ⟨hnone, e, heq⟩ | ⟨p, hget, hactive, heq⟩
  · exact iff_of_true (.inr ⟨e, heq⟩) fun p hp hactive => absurd hactive (hnone p hp)
  · constructor
    · rintro (⟨m', -, hreceivable, -⟩ | ⟨e, herror⟩)
      · exact fun _ _ _ => hreceivable
      · cases heq.symm.trans herror
    · intro h
      have hreceivable := h p hget hactive
      exact .inl ⟨_, heq, hreceivable, migrated_of_receivable hreceivable⟩

/-- Partition 1 is active and there is no partition 2. -/
theorem migration_all_or_nothing_fails :
    ¬ ∀ (m : PartitionManager) (sourceId targetId : UInt32) (migration : PartitionMigration),
      m.AllOrNothing sourceId targetId migration := by
  intro h
  let c : Crypto := { blake3 := fun _ => .fill 32 0, ed25519Verify := fun _ _ _ => true }
  let m := run c [.createPartition ⟨1, .fill 32 0, .fill 32 0, .fill 32 0, []⟩ [],
    .activatePartition 1 1]
  let proof : MigrationProof := ⟨.fill 32 0, .fill 32 7, .fill 32 0, []⟩
  rcases h m 1 2 ⟨1, 2, .fill 32 0, [], proof, 1⟩ with ⟨m', -, hreceivable, -⟩ | ⟨e, herror⟩
  · obtain ⟨target, hget, -⟩ := hreceivable.active
    have hmissing : m.partitions.get 2 = none := by decide
    cases hmissing.symm.trans hget
  · have hok : (m.migratePartition 1 2 ⟨1, 2, .fill 32 0, [], proof, 1⟩).1.toOption = some () := by
      decide
    rw [herror] at hok
    cases hok

end PartitionManager

end LiteVision.Storage
