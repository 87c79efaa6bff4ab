import LiteVision.Truth.ValidatorSet

/-!
# Exit

`unbond_complete` pays the stake of a validator out and makes it removed. It asks
for the period and not for the status, and `slash` asks for neither.
`exit_pays_once`: an exit is paid once and final in every run that completes no exit
of, and slashes no, removed validator.
-/

namespace LiteVision.Truth

open Lib

namespace ValidatorSet

def HasStatus (s : ValidatorSet) (id : Bytes 32) (status : ValidatorStatus) : Prop :=
  ∃ v, s.get id = some v ∧ v.status = status

def pays (id : Bytes 32) (s : ValidatorSet) : Op → Nat
  | .unbondComplete j =>
    if j = id ∧ (s.unbondComplete j).1.toOption.isSome then 1 else 0
  | _ => 0

variable (it : Map.Iteration (Bytes 32) UInt64)

/-- Each validator is paid once at most, and never active again after it is removed. -/
structure ExitOnce (run : List Op) : Prop where
  once : ∀ id, Trace.sum (step it) (pays id) .new run ≤ 1
  final : ∀ id before between, before ++ between <+: run →
    HasStatus (Trace.exec (step it) .new before) id .removed →
    ¬ HasStatus (Trace.exec (step it) .new (before ++ between)) id .active

/-- The call neither completes the exit of a removed validator nor slashes one. -/
def SparesRemoved (s : ValidatorSet) : Op → Prop
  | .unbondComplete id => ∀ v, s.get id = some v → v.canUnbond s.currentEpoch = true →
      v.status ≠ .removed
  | .slash id _ _ _ => ¬ HasStatus s id .removed
  | _ => True

def Op.stays : Op → Bool
  | .remove _ => false
  | _ => true

-- ---------------------------------------------------------------------------
-- One call
-- ---------------------------------------------------------------------------

variable {s s' : ValidatorSet} {id : Bytes 32} {status : ValidatorStatus}

theorem HasStatus.unique {other : ValidatorStatus} (h : HasStatus s id status)
    (h' : HasStatus s id other) : status = other := by
  obtain ⟨v, hget, rfl⟩ := h
  obtain ⟨w, hget', rfl⟩ := h'
  rw [Option.some.inj (hget.symm.trans hget')]

theorem hasStatus_update {j : Bytes 32} {f : Validator → Validator}
    (heq : s'.validators = s.update j f) (hid : ∀ v, (f v).id = v.id) (h : HasStatus s id status)
    (hf : j = id → ∀ v, s.get j = some v → (f v).status = v.status) : HasStatus s' id status := by
  obtain ⟨v, hget, rfl⟩ := h
  by_cases hj : id = j
  · subst hj
    refine ⟨f v, ?_, hf rfl v hget⟩
    rw [get, heq, update, Keyed.find_update hid, if_pos rfl]
    exact congrArg (Option.map f) hget
  · refine ⟨v, ?_, rfl⟩
    rw [get, heq, update, Keyed.find_update hid, if_neg hj]
    exact hget

theorem status_foldl_pay {entries : List (Bytes 32 × UInt64)} {l : List Validator} {v : Validator}
    (h : Keyed.find Validator.id l id = some v) :
    ∃ w, Keyed.find Validator.id (entries.foldl pay l) id = some w ∧ w.status = v.status := by
  induction entries generalizing l v with
  | nil => exact ⟨v, h, rfl⟩
  | cons entry entries ih =>
    obtain ⟨w, hw, hstatus⟩ : ∃ w, Keyed.find Validator.id (pay l entry) id = some w ∧
        w.status = v.status := by
      rw [pay, Keyed.find_update fun v => v.id_updateStake _]
      split
      · rename_i hentry
        rw [← hentry, h]
        exact ⟨_, rfl, rfl⟩
      · exact ⟨v, h, rfl⟩
    obtain ⟨u, hu, heq⟩ := ih hw
    exact ⟨u, hu, heq.trans hstatus⟩

theorem released_status {newEpoch : UInt64} {v : Validator} (h : v.status ≠ .jailed) :
    released newEpoch v = v := by
  simp [released, h]

theorem removed_step {op : Op} (h : HasStatus s id .removed) (hstays : op.stays)
    (hspares : SparesRemoved s op) : HasStatus (s.step it op) id .removed := by
  rcases step_cases it s op with hmove | ⟨heq, -⟩
  · generalize s.step it op = s' at hmove ⊢
    cases hmove with
    | @added j pubkey stake hroom hstake hnew =>
      obtain ⟨v, hget, hstatus⟩ := h
      refine ⟨v, ?_, hstatus⟩
      have hne : id ≠ j := fun heq => by
        rw [heq, hnew] at hget
        cases hget
      have hfresh : Keyed.find Validator.id s.validators (Validator.new j stake pubkey).id = none :=
        hnew
      exact (Keyed.find_concat hfresh id).trans ((if_neg hne).trans hget)
    | erased hget => cases hstays
    | bonded hget =>
      exact hasStatus_update rfl (fun v => v.id_updateStake _) h fun _ _ _ => rfl
    | @unbonding j v hget hstatus =>
      refine hasStatus_update rfl (fun v => v.id_startUnbonding _) h ?_
      rintro rfl w hw
      cases h.unique ⟨v, hget, hstatus⟩
    | @exited j v hget hcan =>
      refine hasStatus_update rfl Validator.id_remove h ?_
      rintro rfl w hw
      exact (h.unique ⟨w, hw, rfl⟩)
    | delegated hget hstatus =>
      exact hasStatus_update rfl (fun v => v.id_addDelegation _) h fun _ _ _ => rfl
    | slashed hget =>
      refine hasStatus_update rfl (fun v => v.id_jail _ _) h ?_
      rintro rfl
      exact absurd h hspares
    | @epoch newEpoch =>
      obtain ⟨v, hget, hstatus⟩ := h
      have hsame : released newEpoch v = v := released_status (by simp [hstatus])
      refine ⟨v, ?_, hstatus⟩
      rw [get, Keyed.find_map (id_released newEpoch)]
      exact (congrArg (Option.map (released newEpoch)) hget).trans (congrArg some hsame)
    | rewarded =>
      obtain ⟨v, hget, hstatus⟩ := h
      obtain ⟨w, hfind, hw⟩ := status_foldl_pay hget
      exact ⟨w, hfind, hw.trans hstatus⟩
  · rwa [heq]

theorem canUnbond_of_pays {op : Op} (h : s.pays id op ≠ 0) :
    op = .unbondComplete id ∧ ∃ v, s.get id = some v ∧ v.canUnbond s.currentEpoch = true := by
  cases op with
  | unbondComplete j =>
    by_cases hj : j = id
    · subst hj
      cases hget : s.get j with
      | none => exact absurd (by simp [pays, unbondComplete, hget, Except.toOption]) h
      | some v =>
        by_cases hcan : v.canUnbond s.currentEpoch = true
        · exact ⟨rfl, v, rfl, hcan⟩
        · exact absurd (by simp [pays, unbondComplete, hget, hcan, Except.toOption]) h
    · exact absurd (by simp [pays, hj]) h
  | _ => exact absurd rfl h

theorem removed_of_pays {op : Op} (h : s.pays id op ≠ 0) : HasStatus (s.step it op) id .removed := by
  obtain ⟨rfl, v, hget, hcan⟩ := canUnbond_of_pays h
  refine ⟨v.remove, ?_, rfl⟩
  have hfind : Keyed.find Validator.id s.validators id = some v := hget
  simp [step, unbondComplete, hcan, get, update, Keyed.find_update Validator.id_remove, hfind]

theorem pays_le_one (s : ValidatorSet) (op : Op) : s.pays id op ≤ 1 := by
  cases op with
  | unbondComplete j =>
    simp only [pays]
    split <;> omega
  | _ => exact Nat.zero_le 1

theorem pays_removed (h : HasStatus s id .removed) {op : Op} (hspares : SparesRemoved s op) :
    s.pays id op = 0 := by
  by_contra hpays
  obtain ⟨rfl, v, hget, hcan⟩ := canUnbond_of_pays hpays
  exact hspares v hget hcan (h.unique ⟨v, hget, rfl⟩).symm

-- ---------------------------------------------------------------------------
-- Runs
-- ---------------------------------------------------------------------------

/-- Without `remove`, an exit pays once and is final in every run that completes no
exit of a removed validator and slashes none. -/
theorem exit_pays_once (run : List Op) (hstays : ∀ op ∈ run, op.stays)
    (hspares : Trace.Always (step it) SparesRemoved .new run) : ExitOnce it run := by
  have hrun : Trace.Always (step it) (fun s op => op.stays ∧ SparesRemoved s op) .new run :=
    Trace.always_and.mpr ⟨Trace.always_of_forall_mem fun op hop _ => hstays op hop, hspares⟩
  constructor
  · intro id
    exact hrun.sum_le_one (I := fun s => HasStatus s id .removed) pays_le_one
      (fun _ _ _ hpays => removed_of_pays it hpays)
      (fun _ _ hstep hremoved => removed_step it hremoved hstep.1 hstep.2)
      (fun _ _ hstep hremoved => pays_removed hremoved hstep.2)
  · intro id before between hprefix hremoved hactive
    have hafter := (hrun.between hprefix).exec (I := fun s => HasStatus s id .removed)
      (fun _ _ hremoved hstep => removed_step it hremoved hstep.1 hstep.2) hremoved
    rw [Trace.exec_append] at hactive
    cases hafter.unique hactive

/-- A validator that leaves, and whose period stays over. -/
theorem exit_pays_once_leaving :
    ExitOnce .ascending [.add (.fill 32 1) 5000 (.fill 32 2), .unbondStart (.fill 32 1),
      .processEpochTransition 21, .unbondComplete (.fill 32 1), .processEpochTransition 50] := by
  refine exit_pays_once _ _ (by decide) ⟨trivial, trivial, trivial, ?_, trivial, trivial⟩
  have hall : ∀ v, (Trace.exec (step .ascending) new [.add (.fill 32 1) 5000 (.fill 32 2),
      .unbondStart (.fill 32 1), .processEpochTransition 21]).get (.fill 32 1) = some v →
      decide (v.status ≠ .removed) = true := (Option.all_eq_true _ _).mp (by decide)
  exact fun v hget _ => of_decide_eq_true (hall v hget)

/-- An exit completed twice. -/
theorem exit_once_fails :
    ¬ ∀ (it : Map.Iteration (Bytes 32) UInt64) (run : List Op), (∀ op ∈ run, op.stays) →
      ExitOnce it run := by
  intro h
  have honce := (h .ascending [.add (.fill 32 1) 5000 (.fill 32 2), .unbondStart (.fill 32 1),
    .processEpochTransition 21, .unbondComplete (.fill 32 1), .unbondComplete (.fill 32 1)]
    (by decide)).once (.fill 32 1)
  exact absurd honce (by decide)

end ValidatorSet

end LiteVision.Truth
