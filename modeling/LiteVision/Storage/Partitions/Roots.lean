import LiteVision.Storage.Partitions

/-!
# Where a root comes from

Two things should hold of the roots. The root of a partition was signed, when the
partition was created or by a verified migration to it; and the hash of all roots
is of the roots there are. Creation ignores the root it was given and migration
verifies nothing, and neither computes the hash anew.
-/

namespace LiteVision.Storage.PartitionManager

open Lib

variable {c : Crypto} {m m' : PartitionManager} {op : Op} {id : UInt32} {root : Bytes 32}

-- ---------------------------------------------------------------------------
-- The history of accepted operations
-- ---------------------------------------------------------------------------

def accepted (c : Crypto) : PartitionManager → List Op → List Op
  | _, [] => []
  | m, op :: ops =>
    if Succeeds c m op then op :: accepted c (step c m op) ops else accepted c (step c m op) ops

/-- The pending operations are the history of the accepted ones. -/
theorem pendingOperations_exec (ops : List Op) :
    (Trace.exec (step c) m ops).pendingOperations =
      m.pendingOperations ++ (accepted c m ops).flatMap Op.logged := by
  induction ops generalizing m with
  | nil => exact (List.append_nil _).symm
  | cons op ops ih =>
    rw [Trace.exec_cons, ih, accepted]
    rcases step_cases c m op with ⟨hrefused, heq⟩ | ⟨hok, -, hpending, -⟩
    · rw [if_neg hrefused, heq]
    · rw [if_pos hok, hpending, List.flatMap_cons, List.append_assoc]

-- ---------------------------------------------------------------------------
-- Signed roots
-- ---------------------------------------------------------------------------

/-- The root is the one `id` was created with, or that of a verified migration to it. -/
def Signed (c : Crypto) (m : PartitionManager) (id : UInt32) (root : Bytes 32) : Prop :=
  (∃ create, .create create ∈ m.pendingOperations ∧ create.newPartitionId = id ∧
    root = create.initialStateRoot) ∨
  ∃ migration, .migrate migration ∈ m.pendingOperations ∧ migration.targetPartitionId = id ∧
    migration.proof.verify c = true ∧ root = migration.proof.targetStateRoot

def OnlySigned (c : Crypto) (m : PartitionManager) : Prop :=
  ∀ id p, m.partitions.get id = some p → Signed c m id p.stateRoot

def ActiveAt (m : PartitionManager) (id : UInt32) : Prop :=
  ∃ p, m.partitions.get id = some p ∧ p.status = .active

/-- The call signs what it writes, or writes what was signed before. -/
def SignsRoot (c : Crypto) (m : PartitionManager) : Op → Prop
  | .createPartition create validators =>
    m.partitions.get create.newPartitionId = none → create.verifySignatures c validators = true →
      create.initialStateRoot = .fill 32 0 ∨ Signed c m create.newPartitionId (.fill 32 0)
  | .migratePartition sourceId targetId migration =>
    ActiveAt m sourceId → ActiveAt m targetId → targetId ≠ sourceId →
      (migration.targetPartitionId = targetId ∧ migration.proof.verify c = true) ∨
        Signed c m targetId migration.proof.targetStateRoot
  | _ => True

/-- What the call itself signs. -/
def Signs (c : Crypto) (id : UInt32) (root : Bytes 32) : Op → Prop
  | .createPartition create _ => create.newPartitionId = id ∧ root = create.initialStateRoot
  | .migratePartition _ _ migration =>
    migration.targetPartitionId = id ∧ migration.proof.verify c = true ∧
      root = migration.proof.targetStateRoot
  | _ => False

theorem signed_iff (h : m'.pendingOperations = m.pendingOperations ++ op.logged) (c : Crypto)
    (id : UInt32) (root : Bytes 32) :
    Signed c m' id root ↔ Signed c m id root ∨ Signs c id root op := by
  unfold Signed
  rw [h]
  cases op with
  | createPartition create validators =>
    simp only [Op.logged, List.mem_append, List.mem_singleton, PartitionOperation.create.injEq,
      reduceCtorEq, or_false, or_and_right, exists_or, exists_eq_left]
    exact or_right_comm
  | migratePartition sourceId targetId migration =>
    simp only [Op.logged, List.mem_append, List.mem_singleton, PartitionOperation.migrate.injEq,
      reduceCtorEq, or_false, or_and_right, exists_or, exists_eq_left]
    exact or_assoc.symm
  | activatePartition partitionId epoch => simp [Op.logged, Signs]
  | completeMigration partitionId epoch => simp [Op.logged, Signs]
  | deletePartition delete => simp [Op.logged, Signs]
  | freezePartition partitionId => simp [Op.logged, Signs]
  | rebalancePartition rebalance => simp [Op.logged, Signs]
  | advanceEpoch newEpoch => simp [Op.logged, Signs]

theorem Signed.mono (h : m'.pendingOperations = m.pendingOperations ++ op.logged)
    (hs : Signed c m id root) : Signed c m' id root :=
  (signed_iff h c id root).mpr (.inl hs)

theorem signsRoot_of_refused (h : ¬ Succeeds c m op) : SignsRoot c m op := by
  cases op with
  | createPartition create validators =>
    intro hnew hverified
    rcases createPartition_cases c m create validators with ⟨e, -, hfew⟩ | ⟨-, -, heq⟩
    · rw [hfew hnew] at hverified
      cases hverified
    · exact absurd (by rw [Succeeds, call, heq]; rfl) h
  | migratePartition sourceId targetId migration =>
    rintro ⟨p, hget, hactive⟩ - -
    refine absurd ?_ h
    simp [Succeeds, call, migratePartition, withPartition, hget, hactive]
  | activatePartition partitionId epoch => trivial
  | completeMigration partitionId epoch => trivial
  | deletePartition delete => trivial
  | freezePartition partitionId => trivial
  | rebalancePartition rebalance => trivial
  | advanceEpoch newEpoch => trivial

theorem signsRoot_of_inPlace (h : op.inPlace = some id) : SignsRoot c m op := by
  cases op with
  | createPartition create validators => cases h
  | migratePartition sourceId targetId migration => cases h
  | activatePartition partitionId epoch => trivial
  | completeMigration partitionId epoch => trivial
  | deletePartition delete => trivial
  | freezePartition partitionId => trivial
  | rebalancePartition rebalance => trivial
  | advanceEpoch newEpoch => trivial

theorem OnlySigned.keep (hm : OnlySigned c m)
    (h : m'.pendingOperations = m.pendingOperations ++ op.logged)
    (hroots : ∀ id q, m'.partitions.get id = some q →
      ∃ p, m.partitions.get id = some p ∧ q.stateRoot = p.stateRoot) : OnlySigned c m' := by
  intro id q hq
  obtain ⟨p, hp, heq⟩ := hroots id q hq
  rw [heq]
  exact (hm id p hp).mono h

theorem onlySigned_created {create : PartitionCreate} {validators : List (Bytes 32)}
    (hm : OnlySigned c m)
    (h : m'.pendingOperations =
      m.pendingOperations ++ (Op.createPartition create validators).logged)
    (hparts : m'.partitions = m.partitions.insert create.newPartitionId
      (.new create.newPartitionId m.currentEpoch)) :
    OnlySigned c m' ↔
      create.initialStateRoot = .fill 32 0 ∨ Signed c m create.newPartitionId (.fill 32 0) := by
  have hsigned := signed_iff h c create.newPartitionId (.fill 32 0)
  rw [or_comm, eq_comm]
  change _ ↔ Signed _ _ _ _ ∨ (_ : Prop)
  have hself : Signs c create.newPartitionId (.fill 32 0) (.createPartition create validators) ↔
      Bytes.fill 32 0 = create.initialStateRoot := and_iff_right rfl
  rw [← hself, ← hsigned]
  constructor
  · intro hm'
    exact hm' create.newPartitionId _ (by rw [hparts, Map.get_insert_self])
  · intro hzero id p hp
    rw [hparts] at hp
    rcases Map.of_get_insert hp with ⟨rfl, rfl⟩ | ⟨-, hold⟩
    · exact hzero
    · exact (hm id p hold).mono h

theorem onlySigned_migrated {source target : UInt32} {migration : PartitionMigration}
    {p : Partition} (hm : OnlySigned c m) (hget : m.partitions.get source = some p)
    (hactive : p.status = .active)
    (h : m'.pendingOperations =
      m.pendingOperations ++ (Op.migratePartition source target migration).logged)
    (hparts : m'.partitions =
      (m.partitions.insert source p.markMigrating).modify target (receive migration)) :
    OnlySigned c m' ↔ SignsRoot c m (.migratePartition source target migration) := by
  have hsigned := signed_iff h c target migration.proof.targetStateRoot
  have hself : Signs c target migration.proof.targetStateRoot
      (.migratePartition source target migration) ↔
        migration.targetPartitionId = target ∧ migration.proof.verify c = true := by
    simp [Signs]
  rw [hself, or_comm] at hsigned
  constructor
  · rintro hm' - ⟨q, hq, hqactive⟩ hne
    rw [← hsigned]
    have hwritten : m'.partitions.get target =
        some { q with stateRoot := migration.proof.targetStateRoot } := by
      rw [hparts, get_migrated, if_neg hne, if_pos rfl, hq]
      simp [receive, hqactive]
    exact hm' target _ hwritten
  · intro hsigns id q hq
    rw [hparts, get_migrated] at hq
    split at hq
    · rename_i hid
      subst hid
      obtain rfl := Option.some.inj hq
      exact (hm id p hget).mono h
    · rename_i hne
      split at hq
      · rename_i hid
        subst hid
        obtain ⟨r, hr, rfl⟩ := Option.map_eq_some_iff.mp hq
        unfold receive
        split
        · rename_i hractive
          exact hsigned.mpr (hsigns ⟨p, hget, hactive⟩ ⟨r, hr, hractive⟩ hne)
        · exact (hm id r hr).mono h
      · exact (hm id q hq).mono h

theorem onlySigned_step (hm : OnlySigned c m) :
    OnlySigned c (step c m op) ↔ SignsRoot c m op := by
  rcases step_cases c m op with ⟨hrefused, heq⟩ | ⟨-, hwrites, hpending, -⟩
  · rw [heq]
    exact iff_of_true hm (signsRoot_of_refused hrefused)
  · generalize hparts : (step c m op).partitions = parts at hwrites
    cases hwrites with
    | created hnew hverified =>
      rw [onlySigned_created hm hpending hparts, SignsRoot]
      exact ⟨fun h _ _ => h, fun h => h hnew hverified⟩
    | migrated hget hactive => exact onlySigned_migrated hm hget hactive hpending hparts
    | @changed _ id p q hop hget hstatus hroot =>
      refine iff_of_true (hm.keep hpending fun j r hr => ?_) (signsRoot_of_inPlace hop)
      rw [hparts] at hr
      rcases Map.of_get_insert hr with ⟨rfl, rfl⟩ | ⟨-, hold⟩
      · exact ⟨p, hget, hroot⟩
      · exact ⟨r, hold, rfl⟩
    | advanced =>
      refine iff_of_true (hm.keep hpending fun j r hr => ?_) trivial
      rw [hparts] at hr
      exact ⟨r, hr, rfl⟩

/-- A run keeps the operations it accepted. Every state of it has signed roots only, exactly
if every partition created has the zero root it is given, or had it signed, and every
migration that writes to its target has a verified proof that names it, or writes a root
signed before. -/
theorem only_signed_roots_iff (c : Crypto) (ops : List Op) :
    (run c ops).pendingOperations = (accepted c new ops).flatMap Op.logged ∧
      ((∀ before, before <+: ops → OnlySigned c (run c before)) ↔
        Trace.Always (step c) (SignsRoot c) new ops) := by
  refine ⟨pendingOperations_exec ops, ?_⟩
  refine Trace.prefixes_iff_always (J := fun _ => True) (fun _ _ _ => trivial)
    (fun m op _ hm => onlySigned_step hm) trivial ?_
  intro id p hp
  cases hp

/-- A partition created with a root of its own. -/
theorem only_signed_roots_fails :
    let c : Crypto := { blake3 := fun _ => .fill 32 0, ed25519Verify := fun _ _ _ => true }
    let create : PartitionCreate :=
      { newPartitionId := 1, initialStateRoot := .fill 32 1, configurationHash := .fill 32 2
        governanceProposalId := .fill 32 3, signatures := [(.fill 32 1, List.replicate 64 0)] }
    ¬ OnlySigned c (run c [.createPartition create [.fill 32 1]]) := by
  intro c create h
  rcases h 1 (.new 1 0) (by decide) with ⟨create', hin, -, hroot⟩ | ⟨migration, hin, -⟩
  · have heq : PartitionOperation.create create' ∈ [PartitionOperation.create create] := hin
    obtain rfl : create' = create := by simpa using heq
    revert hroot
    decide
  · have heq : PartitionOperation.migrate migration ∈ [PartitionOperation.create create] := hin
    simp at heq

-- ---------------------------------------------------------------------------
-- The hash of all roots
-- ---------------------------------------------------------------------------

/-- The ids and roots of the partitions that are not deleted, in order. -/
def rootEntries (m : PartitionManager) : List (UInt32 × Bytes 32) :=
  ((Map.Iteration.ascending.entries m.partitions).filter fun e => e.2.status ≠ .deleted).map
    fun e => (e.1, e.2.stateRoot)

def entryBytes (e : UInt32 × Bytes 32) : Bytes 36 :=
  ⟨(Bytes.ofU32 e.1).val ++ e.2.val, by simp [Bytes.length_val]⟩

def preimage (entries : List (UInt32 × Bytes 32)) : List UInt8 :=
  (entries.map entryBytes).flatMap Subtype.val

/-- The hash is of the roots there are. -/
def Fresh (c : Crypto) (m : PartitionManager) : Prop :=
  (m.updateGlobalStateRoot c).globalStateRoot = m.globalStateRoot

theorem rootPreimage_eq (m : PartitionManager) : m.rootPreimage = preimage m.rootEntries := by
  unfold rootPreimage preimage rootEntries
  induction Map.Iteration.ascending.entries m.partitions with
  | nil => rfl
  | cons e entries ih =>
    rw [List.flatMap_cons, ih, List.filter_cons]
    by_cases h : e.2.status ≠ .deleted
    · simp [h, entryBytes]
    · simp [h]

theorem entryBytes_inj : Function.Injective entryBytes := by
  rintro ⟨id, root⟩ ⟨id', root'⟩ h
  have hbytes := congrArg Subtype.val h
  obtain ⟨hid, hroot⟩ := Bytes.append_inj hbytes
  exact Prod.ext (Bytes.ofU32_inj hid) (Subtype.ext hroot)

theorem preimage_inj {entries entries' : List (UInt32 × Bytes 32)}
    (h : preimage entries = preimage entries') : entries = entries' := by
  have hlength (l : List (UInt32 × Bytes 32)) : (preimage l).length = 36 * l.length := by
    unfold preimage
    induction l with
    | nil => rfl
    | cons e l ih =>
      rw [List.map_cons, List.flatMap_cons, List.length_append, ih, Bytes.length_val,
        List.length_cons]
      omega
  have hsame : (entries.map entryBytes).length = (entries'.map entryBytes).length := by
    have hboth := congrArg List.length h
    rw [hlength, hlength] at hboth
    rw [List.length_map, List.length_map]
    omega
  have hflat : (entries.map entryBytes).flatMap Subtype.val ++ [] =
      (entries'.map entryBytes).flatMap Subtype.val ++ [] := congrArg (· ++ []) h
  exact entryBytes_inj.list_map (Bytes.flatMap_append_inj hsame hflat).1

/-- The entries the hash was last computed of, after one more call. -/
def refreshed (c : Crypto) (m : PartitionManager) (op : Op)
    (published : Option (List (UInt32 × Bytes 32))) : Option (List (UInt32 × Bytes 32)) :=
  if Succeeds c m op ∧ op.refreshes = true then some (step c m op).rootEntries else published

/-- The entries the hash was last computed of, after a run from `m`. -/
def published (c : Crypto) : PartitionManager → Option (List (UInt32 × Bytes 32)) → List Op →
    Option (List (UInt32 × Bytes 32))
  | _, entries, [] => entries
  | m, entries, op :: ops => published c (step c m op) (refreshed c m op entries) ops

def rootOf (c : Crypto) (published : Option (List (UInt32 × Bytes 32))) : Bytes 32 :=
  published.elim (.fill 32 0) fun entries => c.blake3 (preimage entries)

/-- The hash tells what it was last computed of from what there is now. -/
structure Tells (c : Crypto) (m : PartitionManager)
    (published : Option (List (UInt32 × Bytes 32))) : Prop where
  notZero : c.blake3 (preimage m.rootEntries) ≠ .fill 32 0
  noCollision : ∀ entries, published = some entries →
    c.blake3 (preimage entries) = c.blake3 (preimage m.rootEntries) →
      preimage entries = preimage m.rootEntries

theorem rootOf_step {entries : Option (List (UInt32 × Bytes 32))}
    (h : m.globalStateRoot = rootOf c entries) :
    (step c m op).globalStateRoot = rootOf c (refreshed c m op entries) := by
  rcases step_cases c m op with ⟨hrefused, heq⟩ | ⟨hok, -, -, hroot⟩
  · rw [heq, refreshed, if_neg fun hboth => hrefused hboth.1, h]
  · rw [hroot, refreshed]
    cases hrefreshes : op.refreshes with
    | false => simp [h]
    | true => simp [hok, rootOf, rootPreimage_eq]

theorem rootOf_exec {entries : Option (List (UInt32 × Bytes 32))}
    (h : m.globalStateRoot = rootOf c entries) (ops : List Op) :
    (Trace.exec (step c) m ops).globalStateRoot = rootOf c (published c m entries ops) := by
  induction ops generalizing m entries with
  | nil => exact h
  | cons op ops ih => exact ih (rootOf_step h)

/-- The hash of all roots is up to date if the partitions it was last computed of are
those there are; and only then, as far as the hash tells them apart. -/
theorem global_root_fresh_iff (c : Crypto) (ops : List Op) :
    (published c new none ops = some (run c ops).rootEntries → Fresh c (run c ops)) ∧
    (Tells c (run c ops) (published c new none ops) → Fresh c (run c ops) →
      published c new none ops = some (run c ops).rootEntries) := by
  have hroot : (run c ops).globalStateRoot = rootOf c (published c new none ops) :=
    rootOf_exec rfl ops
  have hfresh : Fresh c (run c ops) ↔
      c.blake3 (preimage (run c ops).rootEntries) = rootOf c (published c new none ops) := by
    rw [Fresh, hroot, updateGlobalStateRoot, rootPreimage_eq]
  rw [hfresh]
  refine ⟨fun h => by rw [h]; rfl, fun htells heq => ?_⟩
  cases hpub : published c new none ops with
  | none =>
    rw [hpub] at heq
    exact absurd heq htells.notZero
  | some entries =>
    rw [hpub] at heq
    rw [preimage_inj (htells.noCollision entries hpub heq.symm)]

/-- The hash is still zero when a partition was created. -/
theorem global_root_fresh_fails :
    let c : Crypto := { blake3 := fun _ => .fill 32 7, ed25519Verify := fun _ _ _ => true }
    let create : PartitionCreate :=
      { newPartitionId := 1, initialStateRoot := .fill 32 0, configurationHash := .fill 32 2
        governanceProposalId := .fill 32 3, signatures := [(.fill 32 1, List.replicate 64 0)] }
    Succeeds c new (.createPartition create [.fill 32 1]) ∧
      ¬ Fresh c (run c [.createPartition create [.fill 32 1]]) := by
  intro c create
  refine ⟨by decide, fun h => ?_⟩
  have hzero : (.fill 32 7 : Bytes 32) = .fill 32 0 := h
  revert hzero
  decide

end LiteVision.Storage.PartitionManager
