import LiteVision.Truth.Staking

/-!
# Exit

A validator leaves by starting to unbond and completing it, which pays its stake
and makes it removed. `exit_final_iff`: without `remove_validator` the exit is
final just when no removed validator is put in jail.
-/

namespace LiteVision.Truth.Staking

open Lib

namespace ValidatorSet

def Removed (s : ValidatorSet) (id : Bytes 32) : Prop :=
  ∃ v, s.validators.get id = some v ∧ v.status = .removed

def pays (id : Bytes 32) (s : ValidatorSet) : Op → Nat
  | .completeUnbonding j =>
    if j = id ∧ (s.completeUnbonding j).1.toOption.isSome then 1 else 0
  | _ => 0

/-- Each validator is paid once at most, and stays removed once it is. -/
structure ExitFinal (run : List Op) : Prop where
  once : ∀ id, Trace.sum step (pays id) .new run ≤ 1
  removed : ∀ id before between, before ++ between <+: run →
    Removed (Trace.exec step .new before) id → Removed (Trace.exec step .new (before ++ between)) id

/-- The call puts no removed validator in jail. -/
def SparesRemoved (s : ValidatorSet) : Op → Prop
  | .jailValidator id => ¬ Removed s id
  | .slash event => event.slashType.jails → ¬ Removed s event.validatorId
  | _ => True

def Op.stays : Op → Bool
  | .removeValidator _ => false
  | _ => true

-- ---------------------------------------------------------------------------
-- One call
-- ---------------------------------------------------------------------------

variable {s s' : ValidatorSet} {id : Bytes 32}

theorem removed_insert {j : Bytes 32} {v : Validator}
    (heq : s'.validators = s.validators.insert j v) (h : Removed s id)
    (hv : j = id → v.status = .removed) : Removed s' id := by
  obtain ⟨w, hw, hstatus⟩ := h
  by_cases hj : id = j
  · subst hj
    exact ⟨v, by rw [heq, Map.get_insert_self], hv rfl⟩
  · exact ⟨w, by rw [heq, Map.get_insert_ne _ _ hj, hw], hstatus⟩

theorem Removed.status_eq {v : Validator} {status : ValidatorStatus} {j : Bytes 32}
    (h : Removed s id) (hget : s.validators.get j = some v) (hstatus : v.status = status)
    (hj : j = id) : status = .removed := by
  obtain ⟨w, hw, hremoved⟩ := h
  subst hj
  obtain rfl := Option.some.inj (hget.symm.trans hw)
  exact hstatus.symm.trans hremoved

theorem removed_step {op : Op} (h : Removed s id) (hstays : op.stays) (hspares : SparesRemoved s op) :
    Removed (s.step op) id := by
  rcases step_cases s op with hmove | ⟨heq, -⟩
  · generalize s.step op = s' at hmove ⊢
    cases hmove with
    | @added j publicKey stake minStake hstake hnew =>
      refine removed_insert rfl h fun hj => ?_
      obtain ⟨w, hw, -⟩ := h
      subst hj
      cases hnew.symm.trans hw
    | erased hget => cases hstays
    | activated hget hstatus =>
      exact removed_insert rfl h fun hj => nomatch h.status_eq hget hstatus hj
    | unbonding hget hstatus =>
      exact removed_insert rfl h fun hj => nomatch h.status_eq hget hstatus hj
    | unjailed hget hstatus =>
      exact removed_insert rfl h fun hj => nomatch h.status_eq hget hstatus hj
    | completed hget hstatus => exact removed_insert rfl h fun _ => rfl
    | jailed hget =>
      refine removed_insert rfl h fun hj => ?_
      subst hj
      exact absurd h hspares
    | @slashed event v hget =>
      refine removed_insert rfl h fun hj => ?_
      have hstatus := h.status_eq hget rfl hj
      subst hj
      have hj : event.slashType.jails = false := Bool.eq_false_iff.mpr fun hj => hspares hj h
      simp [slashed, hj, hstatus]
    | delegated hget hstatus =>
      exact removed_insert rfl h fun hj => h.status_eq hget rfl hj
    | undelegated hdelegator hget =>
      exact removed_insert rfl h fun hj => h.status_eq hget rfl hj
  · rwa [heq]

theorem unbonding_of_pays {op : Op} (h : s.pays id op ≠ 0) :
    op = .completeUnbonding id ∧
      ∃ v, s.validators.get id = some v ∧ v.status = .unbonding := by
  cases op with
  | completeUnbonding j =>
    rcases validatorIn_cases s j .unbonding with ⟨v, heq, hget, hstatus⟩ | ⟨err, heq, hno⟩
    · by_cases hj : j = id
      · subst hj
        exact ⟨rfl, v, hget, hstatus⟩
      · exact absurd (by simp [pays, hj]) h
    · exact absurd (by simp [pays, completeUnbonding, heq, Except.toOption]) h
  | _ => exact absurd rfl h

theorem removed_of_pays {op : Op} (h : s.pays id op ≠ 0) : Removed (s.step op) id := by
  obtain ⟨rfl, v, hget, hstatus⟩ := unbonding_of_pays h
  refine ⟨{ v with status := .removed, unbondingStart := none }, ?_, rfl⟩
  simp [step, completeUnbonding, validatorIn, hget, hstatus]

theorem pays_le_one (s : ValidatorSet) (op : Op) : s.pays id op ≤ 1 := by
  cases op with
  | completeUnbonding j =>
    simp only [pays]
    split <;> omega
  | _ => exact Nat.zero_le 1

theorem pays_removed (h : Removed s id) (op : Op) : s.pays id op = 0 := by
  by_contra hpays
  obtain ⟨-, v, hget, hstatus⟩ := unbonding_of_pays hpays
  cases h.status_eq hget hstatus rfl

theorem sparesRemoved_of {op : Op} (h : ∀ id, Removed s id → Removed (s.step op) id) :
    SparesRemoved s op := by
  cases op with
  | jailValidator id =>
    intro hremoved
    obtain ⟨v, hget, hstatus⟩ := hremoved
    have hafter : (s.step (.jailValidator id)).validators.get id =
        some { v with status := .jailed } := by simp [step, jailValidator, hget]
    cases (h id ⟨v, hget, hstatus⟩).status_eq hafter rfl rfl
  | slash event =>
    intro hjails hremoved
    obtain ⟨v, hget, hstatus⟩ := hremoved
    have hafter : (s.step (.slash event)).validators.get event.validatorId =
        some (slashed v event) := by simp [step, slash, hget]
    cases (h event.validatorId ⟨v, hget, hstatus⟩).status_eq hafter (if_pos hjails) rfl
  | _ => trivial

-- ---------------------------------------------------------------------------
-- Runs
-- ---------------------------------------------------------------------------

theorem exitFinal_of_spares {run : List Op}
    (h : Trace.Always step (fun s op => op.stays ∧ SparesRemoved s op) .new run) : ExitFinal run where
  once id := h.sum_le_one (I := fun s => Removed s id) pays_le_one
    (fun _ _ _ hpays => removed_of_pays hpays)
    (fun _ _ hstep hremoved => removed_step hremoved hstep.1 hstep.2)
    (fun _ op _ hremoved => pays_removed hremoved op)
  removed id before between hprefix hremoved := by
    rw [Trace.exec_append]
    exact (h.between hprefix).exec (I := fun s => Removed s id)
      (fun _ _ hremoved hstep => removed_step hremoved hstep.1 hstep.2) hremoved

/-- Without `remove_validator` the exits of a run are final just when it puts no
removed validator in jail. -/
theorem exit_final_iff (run : List Op) (hstays : ∀ op ∈ run, op.stays) :
    ExitFinal run ↔ Trace.Always step SparesRemoved .new run := by
  constructor
  · intro hfinal
    refine Trace.always_iff_forall.mpr ?_
    rintro before op after rfl
    refine sparesRemoved_of fun id hremoved => ?_
    have hafter := hfinal.removed id before [op] ⟨after, by simp⟩ hremoved
    rwa [Trace.exec_concat] at hafter
  · intro hspares
    exact exitFinal_of_spares
      (Trace.always_and.mpr ⟨Trace.always_of_forall_mem fun op hop _ => hstays op hop, hspares⟩)

/-- A validator that leaves, and is slashed after for a vote it cast. -/
theorem exit_final_iff_slashed :
    ExitFinal [.addValidator (.fill 32 1) [] 1000 100, .activateValidator (.fill 32 1) 5,
      .startUnbonding (.fill 32 1) 6, .completeUnbonding (.fill 32 1),
      .slash ⟨.fill 32 1, .invalidVote, [], 9, 10, 9⟩] := by
  refine (exit_final_iff _ (by decide)).mpr ?_
  exact ⟨trivial, trivial, trivial, trivial, fun h => (nomatch h), trivial⟩

/-- A validator that leaves, is jailed and unjailed, and leaves again. -/
theorem exit_final_fails :
    ¬ ∀ run : List Op, (∀ op ∈ run, op.stays) → ExitFinal run := by
  intro h
  have hfinal := h [.addValidator (.fill 32 1) [] 1000 100, .activateValidator (.fill 32 1) 5,
    .startUnbonding (.fill 32 1) 6, .completeUnbonding (.fill 32 1), .jailValidator (.fill 32 1),
    .unjailValidator (.fill 32 1), .startUnbonding (.fill 32 1) 7, .completeUnbonding (.fill 32 1)]
    (by decide)
  exact absurd (hfinal.once (.fill 32 1)) (by decide)

end ValidatorSet

end LiteVision.Truth.Staking
