import LiteVision.Intelligence.Dispute

/-!
# The life of a dispute

A job is disputed once. Its dispute goes through its states in order, its resolution
stands from the moment it is given, and the list of the job names it. The ids are
hashes, so this rests on `bincode` writing no two of their parts alike, and on `blake3` having
no collision among what a run hashes.
-/

namespace LiteVision.Intelligence.DisputeEngine

open Lib

variable {c : DisputeCrypto} {engine : DisputeEngine} {op : Op} {inputs : Set (List UInt8)}

def Op.preimage (c : DisputeCrypto) : Op → Option (List UInt8)
  | .initiateDispute jobId receiptHash _ challengerId _ currentBlock _ _ =>
    some (Dispute.preimage c jobId receiptHash challengerId currentBlock)
  | _ => none

def hashed (c : DisputeCrypto) (run : List Op) : Set (List UInt8) :=
  {bytes | ∃ op ∈ run, op.preimage c = some bytes}

def initiations (c : DisputeCrypto) (jobId : Bytes 32) (engine : DisputeEngine) (op : Op) : Nat :=
  if (op.initiated c).any (·.jobId = jobId) ∧ (call c engine op).1.isOk then 1 else 0

/-- The two maps of disputes agree, and a resolution is there when it should be. -/
structure Orderly (engine : DisputeEngine) : Prop where
  single : ∀ id id' dispute dispute', engine.disputes.get id = some dispute →
    engine.disputes.get id' = some dispute' → dispute.jobId = dispute'.jobId → id = id'
  resolution : ∀ id dispute, engine.disputes.get id = some dispute →
    (dispute.resolution.isSome ↔ dispute.status.Settled)
  nodup : ∀ jobId, (engine.disputesOf jobId).Nodup
  listed : ∀ jobId id, id ∈ engine.disputesOf jobId ↔
    ∃ dispute, engine.disputes.get id = some dispute ∧ dispute.jobId = jobId

/-- A call starts disputes in the first state, takes each no further than to the next
one, and changes nothing when it is refused. -/
structure Follows (c : DisputeCrypto) (engine : DisputeEngine) (op : Op) : Prop where
  first : ∀ id dispute, engine.disputes.get id = none →
    (step c engine op).disputes.get id = some dispute → dispute.status = .validationPhase
  next : ∀ id dispute, engine.disputes.get id = some dispute →
    ∃ dispute', (step c engine op).disputes.get id = some dispute' ∧
      (dispute'.status = dispute.status ∨ dispute.status.next = some dispute'.status)
  refused : ∀ e, (call c engine op).1 = .error e → step c engine op = engine

structure DisputesFollow (c : DisputeCrypto) (start : DisputeEngine) (run : List Op) : Prop where
  once : ∀ jobId, Trace.sum (step c) (initiations c jobId) start run ≤ 1
  orderly : ∀ before, before <+: run → Orderly (Trace.exec (step c) start before)
  follows : Trace.Always (step c) (Follows c) start run
  kept : ∀ id dispute resolution before between, before ++ between <+: run →
    (Trace.exec (step c) start before).disputes.get id = some dispute →
    dispute.resolution = some resolution →
    ∃ dispute', (Trace.exec (step c) start (before ++ between)).disputes.get id = some dispute' ∧
      dispute'.resolution = some resolution

-- ---------------------------------------------------------------------------
-- Ids
-- ---------------------------------------------------------------------------

/-- The id of a dispute is the hash of its parts, one of `inputs`. -/
structure Hashed (c : DisputeCrypto) (inputs : Set (List UInt8)) (id : Bytes 32)
    (dispute : Dispute) : Prop where
  id_eq : id = c.blake3 (Dispute.preimage c dispute.jobId dispute.receiptHash dispute.challengerId
    dispute.createdAtBlock)
  mem : Dispute.preimage c dispute.jobId dispute.receiptHash dispute.challengerId
    dispute.createdAtBlock ∈ inputs

theorem Hashed.moves {id : Bytes 32} {dispute moved : Dispute} (h : Hashed c inputs id dispute)
    (hmoves : dispute.Moves moved) : Hashed c inputs id moved :=
  ⟨hmoves.preimage c ▸ h.id_eq, hmoves.preimage c ▸ h.mem⟩

theorem hashed_initiated {dispute : Dispute} (hdispute : op.initiated c = some dispute)
    (hinputs : ∀ bytes, op.preimage c = some bytes → bytes ∈ inputs) :
    Hashed c inputs dispute.id dispute := by
  cases op with
  | initiateDispute =>
    obtain rfl := Option.some.inj hdispute
    exact ⟨rfl, hinputs _ rfl⟩
  | _ => cases hdispute

theorem initiated_eq {dispute : Dispute} (hdispute : op.initiated c = some dispute) :
    dispute.status = .validationPhase ∧ dispute.resolution = none := by
  cases op with
  | initiateDispute =>
    obtain rfl := Option.some.inj hdispute
    exact ⟨rfl, rfl⟩
  | _ => cases hdispute

theorem Hashed.jobId_eq (hblake3 : Set.InjOn c.blake3 inputs)
    (hserialize : Function.Injective c.serialize) {id : Bytes 32} {dispute dispute' : Dispute}
    (h : Hashed c inputs id dispute) (h' : Hashed c inputs id dispute') :
    dispute.jobId = dispute'.jobId :=
  (Prod.mk.inj (hserialize (hblake3 h.mem h'.mem (h.id_eq.symm.trans h'.id_eq)))).1

-- ---------------------------------------------------------------------------
-- One call
-- ---------------------------------------------------------------------------

/-- What a run keeps: `Orderly`, ids that are hashes, and one dispute a job. -/
structure Tracked (c : DisputeCrypto) (inputs : Set (List UInt8)) (engine : DisputeEngine) :
    Prop where
  hashed : ∀ id dispute, engine.disputes.get id = some dispute → Hashed c inputs id dispute
  resolution : ∀ id dispute, engine.disputes.get id = some dispute →
    (dispute.resolution.isSome ↔ dispute.status.Settled)
  short : ∀ jobId, (engine.disputesOf jobId).length ≤ 1
  listed : ∀ jobId id, id ∈ engine.disputesOf jobId ↔
    ∃ dispute, engine.disputes.get id = some dispute ∧ dispute.jobId = jobId

theorem Tracked.orderly (h : Tracked c inputs engine) : Orderly engine := by
  have hsingle : ∀ jobId id id', id ∈ engine.disputesOf jobId → id' ∈ engine.disputesOf jobId →
      id = id' := by
    intro jobId id id' hid hid'
    have hshort := h.short jobId
    match hlist : engine.disputesOf jobId with
    | [] => rw [hlist] at hid; cases hid
    | [only] =>
      rw [hlist] at hid hid'
      exact (List.mem_singleton.mp hid).trans (List.mem_singleton.mp hid').symm
    | _ :: _ :: _ => rw [hlist] at hshort; simp at hshort
  constructor
  case single =>
    intro id id' dispute dispute' hget hget' hjob
    exact hsingle dispute.jobId id id' ((h.listed _ _).mpr ⟨dispute, hget, rfl⟩)
      ((h.listed _ _).mpr ⟨dispute', hget', hjob.symm⟩)
  case resolution => exact h.resolution
  case nodup =>
    intro jobId
    have hshort := h.short jobId
    match hlist : engine.disputesOf jobId with
    | [] => exact List.nodup_nil
    | [only] => exact List.nodup_singleton only
    | _ :: _ :: _ => rw [hlist] at hshort; simp at hshort
  case listed => exact h.listed

theorem tracked_new (c : DisputeCrypto) (inputs : Set (List UInt8)) (a b d e : UInt64) :
    Tracked c inputs (new a b d e) := by
  have hget : ∀ id dispute, (new a b d e).disputes.get id ≠ some dispute := by
    intro id dispute h
    cases (Map.get_empty id).symm.trans h
  have hlist : ∀ jobId, (new a b d e).disputesOf jobId = [] := by
    intro jobId
    rw [disputesOf, new, Map.get_empty]
    rfl
  constructor
  case hashed => exact fun id dispute h => absurd h (hget id dispute)
  case resolution => exact fun id dispute h => absurd h (hget id dispute)
  case short =>
    intro jobId
    rw [hlist]
    exact Nat.zero_le 1
  case listed =>
    intro jobId id
    rw [hlist]
    refine iff_of_false List.not_mem_nil ?_
    rintro ⟨dispute, h, -⟩
    exact hget id dispute h

theorem Tracked.get_initiated (h : Tracked c inputs engine) (hblake3 : Set.InjOn c.blake3 inputs)
    (hserialize : Function.Injective c.serialize)
    (hinputs : ∀ bytes, op.preimage c = some bytes → bytes ∈ inputs) {dispute : Dispute}
    (hdispute : op.initiated c = some dispute) (hnone : engine.disputesOf dispute.jobId = []) :
    engine.disputes.get dispute.id = none := by
  cases hget : engine.disputes.get dispute.id with
  | none => rfl
  | some old =>
    have hjob := (h.hashed _ _ hget).jobId_eq hblake3 hserialize (hashed_initiated hdispute hinputs)
    have hmem := (h.listed dispute.jobId dispute.id).mpr ⟨old, hget, hjob⟩
    rw [hnone] at hmem
    cases hmem

theorem tracked_initiated (h : Tracked c inputs engine) (hblake3 : Set.InjOn c.blake3 inputs)
    (hserialize : Function.Injective c.serialize)
    (hinputs : ∀ bytes, op.preimage c = some bytes → bytes ∈ inputs) {dispute : Dispute}
    (hdispute : op.initiated c = some dispute) (hnone : engine.disputesOf dispute.jobId = []) :
    Tracked c inputs (engine.insertDispute dispute) := by
  have hnew := h.get_initiated hblake3 hserialize hinputs hdispute hnone
  obtain ⟨hstatus, hresolution⟩ := initiated_eq hdispute
  constructor
  case hashed =>
    intro id old hget
    rcases Map.of_get_insert hget with ⟨rfl, rfl⟩ | ⟨-, hold⟩
    · exact hashed_initiated hdispute hinputs
    · exact h.hashed id old hold
  case resolution =>
    intro id old hget
    rcases Map.of_get_insert hget with ⟨-, rfl⟩ | ⟨-, hold⟩
    · rw [hstatus, hresolution]
      decide
    · exact h.resolution id old hold
  case short =>
    intro jobId
    rw [disputesOf_insertDispute]
    split
    · rename_i hjob
      rw [hjob, hnone]
      exact Nat.le_refl 1
    · exact h.short jobId
  case listed =>
    intro jobId id
    rw [disputesOf_insertDispute, insertDispute, Map.get_insert]
    by_cases hid : id = dispute.id
    · subst hid
      rw [if_pos rfl]
      by_cases hjob : jobId = dispute.jobId
      · rw [if_pos hjob]
        exact iff_of_true (List.mem_append_right _ List.mem_cons_self) ⟨dispute, rfl, hjob.symm⟩
      · rw [if_neg hjob, h.listed]
        refine iff_of_false ?_ ?_
        · rintro ⟨old, hget, -⟩
          cases hnew.symm.trans hget
        · rintro ⟨old, hget, hold⟩
          obtain rfl := Option.some.inj hget
          exact hjob hold.symm
    · rw [if_neg hid]
      split
      · rename_i hjob
        rw [List.mem_append, List.mem_singleton, or_iff_left hid]
        exact h.listed jobId id
      · exact h.listed jobId id

theorem resolution_moves {dispute moved : Dispute} (hmoves : dispute.Moves moved)
    (h : dispute.resolution.isSome ↔ dispute.status.Settled) :
    moved.resolution.isSome ↔ moved.status.Settled := by
  cases hmoves with
  | escalate hstatus =>
    rw [hstatus] at h
    have hescalated : ¬ DisputeStatus.verificationEscalation.Settled := by decide
    exact h.trans (iff_of_false (by decide) hescalated)
  | adjudicate hstatus =>
    rw [hstatus] at h
    have hadjudicating : ¬ DisputeStatus.adjudicating.Settled := by decide
    exact h.trans (iff_of_false (by decide) hadjudicating)
  | resolve hstatus => exact iff_of_true rfl (.inl rfl)
  | submitAppeal hstatus =>
    rw [hstatus] at h
    exact h.trans (iff_of_true (.inl rfl) (.inr rfl))

theorem tracked_moves (h : Tracked c inputs engine) {id : Bytes 32} {dispute moved : Dispute}
    (hget : engine.disputes.get id = some dispute) (hmoves : dispute.Moves moved)
    {after : DisputeEngine} (hdisputes : after.disputes = engine.disputes.insert id moved)
    (hlists : after.disputesByJob = engine.disputesByJob) : Tracked c inputs after := by
  have hlist : ∀ jobId, after.disputesOf jobId = engine.disputesOf jobId := by
    intro jobId
    rw [disputesOf, hlists, disputesOf]
  constructor
  case hashed =>
    intro id' old hget'
    rw [hdisputes] at hget'
    rcases Map.of_get_insert hget' with ⟨rfl, rfl⟩ | ⟨-, hold⟩
    · exact (h.hashed id' dispute hget).moves hmoves
    · exact h.hashed id' old hold
  case resolution =>
    intro id' old hget'
    rw [hdisputes] at hget'
    rcases Map.of_get_insert hget' with ⟨-, rfl⟩ | ⟨-, hold⟩
    · exact resolution_moves hmoves (h.resolution id dispute hget)
    · exact h.resolution id' old hold
  case short => intro jobId; rw [hlist]; exact h.short jobId
  case listed =>
    intro jobId id'
    rw [hlist, hdisputes, h.listed, Map.get_insert]
    split
    · rename_i hid
      subst hid
      rw [hget]
      constructor
      · rintro ⟨old, heq, hjob⟩
        obtain rfl := Option.some.inj heq
        exact ⟨moved, rfl, hmoves.jobId.trans hjob⟩
      · rintro ⟨old, heq, hjob⟩
        obtain rfl := Option.some.inj heq
        exact ⟨dispute, rfl, hmoves.jobId.symm.trans hjob⟩
    · exact Iff.rfl

theorem tracked_step (hblake3 : Set.InjOn c.blake3 inputs)
    (hserialize : Function.Injective c.serialize) (h : Tracked c inputs engine)
    (hinputs : ∀ bytes, op.preimage c = some bytes → bytes ∈ inputs) :
    Tracked c inputs (step c engine op) := by
  rcases disputes_step c engine op with
    ⟨hdisputes, hlists⟩ | ⟨dispute, hdispute, hnone, heq⟩ |
      ⟨id, dispute, moved, hget, hmoves, hdisputes, hlists⟩
  · have hlist : ∀ jobId, (step c engine op).disputesOf jobId = engine.disputesOf jobId := by
      intro jobId
      rw [disputesOf, hlists, disputesOf]
    constructor
    case hashed => rw [hdisputes]; exact h.hashed
    case resolution => rw [hdisputes]; exact h.resolution
    case short => intro jobId; rw [hlist]; exact h.short jobId
    case listed => intro jobId id; rw [hlist, hdisputes]; exact h.listed jobId id
  · rw [heq]
    exact tracked_initiated h hblake3 hserialize hinputs hdispute hnone
  · exact tracked_moves h hget hmoves hdisputes hlists

/-- A dispute stays under its id, in its status or the next, with the resolution it has. -/
theorem Tracked.get_step (h : Tracked c inputs engine) (hblake3 : Set.InjOn c.blake3 inputs)
    (hserialize : Function.Injective c.serialize)
    (hinputs : ∀ bytes, op.preimage c = some bytes → bytes ∈ inputs) {id : Bytes 32}
    {dispute : Dispute} (hget : engine.disputes.get id = some dispute) :
    ∃ dispute', (step c engine op).disputes.get id = some dispute' ∧
      (dispute'.status = dispute.status ∨ dispute.status.next = some dispute'.status) ∧
      ∀ resolution, dispute.resolution = some resolution →
        dispute'.resolution = some resolution := by
  rcases disputes_step c engine op with
    ⟨hdisputes, -⟩ | ⟨new, hnew, hnone, heq⟩ | ⟨id', old, moved, hold, hmoves, hdisputes, -⟩
  · exact ⟨dispute, hdisputes ▸ hget, .inl rfl, fun _ hr => hr⟩
  · have hid : id ≠ new.id := by
      rintro rfl
      cases (h.get_initiated hblake3 hserialize hinputs hnew hnone).symm.trans hget
    refine ⟨dispute, ?_, .inl rfl, fun _ hr => hr⟩
    rw [heq, insertDispute, Map.get_insert_ne _ _ hid]
    exact hget
  · by_cases hid : id = id'
    · subst hid
      obtain rfl := Option.some.inj (hold.symm.trans hget)
      refine ⟨moved, by rw [hdisputes, Map.get_insert_self], .inr hmoves.next, ?_⟩
      intro resolution hresolution
      cases hmoves with
      | escalate => exact hresolution
      | adjudicate => exact hresolution
      | resolve hstatus =>
        -- a dispute that is still to be resolved has no resolution
        have hsettled := (h.resolution id _ hget).mp (by rw [hresolution]; rfl)
        rw [hstatus] at hsettled
        exact absurd hsettled (by decide)
      | submitAppeal => exact hresolution
    · exact ⟨dispute, by rw [hdisputes, Map.get_insert_ne _ _ hid, hget], .inl rfl, fun _ hr => hr⟩

theorem resolution_step (hblake3 : Set.InjOn c.blake3 inputs)
    (hserialize : Function.Injective c.serialize) (htracked : Tracked c inputs engine)
    (hinputs : ∀ bytes, op.preimage c = some bytes → bytes ∈ inputs) {id : Bytes 32}
    {resolution : DisputeResolution}
    (h : ∃ dispute, engine.disputes.get id = some dispute ∧ dispute.resolution = some resolution) :
    ∃ dispute, (step c engine op).disputes.get id = some dispute ∧
      dispute.resolution = some resolution := by
  obtain ⟨dispute, hget, hresolution⟩ := h
  obtain ⟨dispute', hget', -, hkept⟩ := htracked.get_step hblake3 hserialize hinputs hget
  exact ⟨dispute', hget', hkept resolution hresolution⟩

theorem Tracked.follows (h : Tracked c inputs engine) (hblake3 : Set.InjOn c.blake3 inputs)
    (hserialize : Function.Injective c.serialize)
    (hinputs : ∀ bytes, op.preimage c = some bytes → bytes ∈ inputs) : Follows c engine op := by
  constructor
  case first =>
    intro id dispute hnone hget
    rcases disputes_step c engine op with
      ⟨hdisputes, -⟩ | ⟨new, hnew, -, heq⟩ | ⟨id', old, moved, hold, -, hdisputes, -⟩
    · rw [hdisputes, hnone] at hget
      cases hget
    · rw [heq] at hget
      rcases Map.of_get_insert hget with ⟨-, rfl⟩ | ⟨-, hsome⟩
      · exact (initiated_eq hnew).1
      · cases hnone.symm.trans hsome
    · rw [hdisputes] at hget
      rcases Map.of_get_insert hget with ⟨rfl, -⟩ | ⟨-, hsome⟩
      · cases hnone.symm.trans hold
      · cases hnone.symm.trans hsome
  case next =>
    intro id dispute hget
    obtain ⟨dispute', hget', hstatus, -⟩ := h.get_step hblake3 hserialize hinputs hget
    exact ⟨dispute', hget', hstatus⟩
  case refused => exact fun e he => step_of_error he

-- ---------------------------------------------------------------------------
-- Runs
-- ---------------------------------------------------------------------------

theorem of_initiations {jobId : Bytes 32} (h : initiations c jobId engine op ≠ 0) :
    engine.disputesOf jobId = [] ∧ (step c engine op).disputesOf jobId ≠ [] := by
  simp only [initiations, ne_eq, ite_eq_right_iff, Nat.one_ne_zero, imp_false, not_not,
    Option.any_eq_true, decide_eq_true_eq] at h
  obtain ⟨⟨dispute, hdispute, rfl⟩, hok⟩ := h
  obtain ⟨hnone, heq⟩ := of_initiated hdispute hok
  refine ⟨hnone, ?_⟩
  rw [heq, disputesOf_insertDispute, if_pos rfl]
  exact List.append_ne_nil_of_right_ne_nil _ (List.cons_ne_nil _ _)

theorem initiations_le_one (c : DisputeCrypto) (jobId : Bytes 32) (engine : DisputeEngine)
    (op : Op) :
    initiations c jobId engine op ≤ 1 := by
  unfold initiations
  split <;> omega

/-- As long as `blake3` has no collision among what a run hashes, the disputes of the
run live as they should. -/
theorem dispute_lifecycle (c : DisputeCrypto) (hserialize : Function.Injective c.serialize)
    (minChallengerBond governanceMinSlash slashAlphaRatio slashBetaRatio : UInt64) (run : List Op)
    (hblake3 : Set.InjOn c.blake3 (hashed c run)) :
    DisputesFollow c (new minChallengerBond governanceMinSlash slashAlphaRatio slashBetaRatio)
      run := by
  set start := new minChallengerBond governanceMinSlash slashAlphaRatio slashBetaRatio
  have hstart : Tracked c (hashed c run) start := tracked_new ..
  have hinputs : Trace.Always (step c)
      (fun _ op => ∀ bytes, op.preimage c = some bytes → bytes ∈ hashed c run) start run :=
    Trace.always_of_forall_mem fun op hop _ bytes hbytes => ⟨op, hop, hbytes⟩
  have htracked : ∀ before, before <+: run →
      Tracked c (hashed c run) (Trace.exec (step c) start before) := by
    intro before hbefore
    have hpart : [] ++ before <+: run := hbefore
    exact (hinputs.between hpart).exec (fun _ _ h hop => tracked_step hblake3 hserialize h hop)
      hstart
  constructor
  case once =>
    intro jobId
    refine (Trace.always_of_forall_mem fun _ _ _ => trivial).sum_le_one
      (P := fun _ _ => True) (I := fun engine => engine.disputesOf jobId ≠ [])
      (initiations_le_one c jobId) (fun _ _ _ hne => (of_initiations hne).2)
      (fun _ _ _ h => disputesOf_ne_nil h) (fun _ _ _ h => ?_)
    by_contra hne
    exact h (of_initiations hne).1
  case orderly => exact fun before hbefore => (htracked before hbefore).orderly
  case follows =>
    exact hinputs.imp (fun _ _ h hop => tracked_step hblake3 hserialize h hop)
      (fun _ _ h hop => h.follows hblake3 hserialize hop) hstart
  case kept =>
    intro id dispute resolution before between hpart hget hresolution
    have hbefore := htracked before ((List.prefix_append before between).trans hpart)
    rw [Trace.exec_append]
    exact ((hinputs.between hpart).exec
      (I := fun engine => Tracked c (hashed c run) engine ∧ ∃ dispute',
        engine.disputes.get id = some dispute' ∧ dispute'.resolution = some resolution)
      (fun _ _ h hop => ⟨tracked_step hblake3 hserialize h.1 hop,
        resolution_step hblake3 hserialize h.1 hop h.2⟩)
      ⟨hbefore, dispute, hget, hresolution⟩).2

theorem dispute_lifecycle_two_jobs :
    let c : DisputeCrypto :=
      { blake3 := fun bytes => .fill 32 (bytes.headD 0)
        ed25519Verify := fun _ _ _ => true
        serialize := Dispute.parts.write }
    let proof : FraudProof := ⟨.fill 32 1, .fill 32 2, .fill 32 3, .fill 32 4, .fill 32 5,
      .fill 32 6, none, ⟨.fill 32 8, [], [], ⟨0, 0, 0, 0, 0, 0⟩⟩, []⟩
    DisputesFollow c (new 1000 5000 2000 1000)
      [.initiateDispute (.fill 32 10) (.fill 32 1) proof (.fill 32 20) 2000 100 100 500,
        .initiateDispute (.fill 32 11) (.fill 32 1) proof (.fill 32 20) 2000 100 100 500,
        .escalateToVerification (.fill 32 11) 3] := by
  refine dispute_lifecycle _ Dispute.injective_parts _ _ _ _ _ ?_
  rintro a ⟨op, hop, ha⟩ b ⟨op', hop', hb⟩ heq
  simp only [List.mem_cons, List.not_mem_nil, or_false] at hop hop'
  rcases hop with rfl | rfl | rfl <;> rcases hop' with rfl | rfl | rfl <;> cases ha <;> cases hb
  · rfl
  · exact absurd heq (by decide)
  · exact absurd heq (by decide)
  · rfl

end LiteVision.Intelligence.DisputeEngine
