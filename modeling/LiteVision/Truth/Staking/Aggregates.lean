import LiteVision.Truth.Staking

/-!
# Cached aggregates

`total_stake` and `active_count` stand for what a walk over the validators would
find. `aggregates_iff`: they do so in every state of a run just when no step of it
is one of those that move a validator and its aggregates by different amounts.
-/

namespace LiteVision.Truth.Staking

open Lib

namespace Validator

/-- What a validator counts for in the total: nothing once it is removed. -/
def bonded (v : Validator) : Nat := if v.status = .removed then 0 else v.totalStake.toNat

def isActive (v : Validator) : Bool := v.status = .active

def activeBit (v : Validator) : Nat := if v.isActive then 1 else 0

theorem bonded_removed {v : Validator} (h : v.status = .removed) : v.bonded = 0 := if_pos h

theorem bonded_of_ne {v : Validator} (h : v.status ≠ .removed) : v.bonded = v.totalStake.toNat :=
  if_neg h

theorem bonded_cases (v : Validator) :
    (v.status = .removed ∧ v.bonded = 0) ∨
      (v.status ≠ .removed ∧ v.bonded = v.totalStake.toNat) := by
  by_cases h : v.status = .removed
  · exact .inl ⟨h, bonded_removed h⟩
  · exact .inr ⟨h, bonded_of_ne h⟩

theorem bonded_congr {v v' : Validator} (h : v.status ≠ .removed) (h' : v'.status ≠ .removed)
    (heq : v'.totalStake = v.totalStake) : v'.bonded = v.bonded := by
  rw [bonded_of_ne h, bonded_of_ne h', heq]

theorem activeBit_active {v : Validator} (h : v.status = .active) : v.activeBit = 1 := by
  simp [activeBit, isActive, h]

theorem activeBit_of_ne {v : Validator} (h : v.status ≠ .active) : v.activeBit = 0 := by
  simp [activeBit, isActive, h]

theorem activeBit_cases (v : Validator) :
    (v.status = .active ∧ v.activeBit = 1) ∨ (v.status ≠ .active ∧ v.activeBit = 0) := by
  by_cases h : v.status = .active
  · exact .inl ⟨h, activeBit_active h⟩
  · exact .inr ⟨h, activeBit_of_ne h⟩

end Validator

namespace ValidatorSet

/-- The aggregates are what the validators add up to. -/
structure Aggregates (s : ValidatorSet) : Prop where
  totalStake : s.totalStake.toNat = s.validators.total Validator.bonded
  activeCount : s.activeCount.toNat = s.validators.count Validator.isActive

/-- The total of each validator is the sum of its two parts. -/
def PartsAdd (s : ValidatorSet) : Prop :=
  ∀ id v, s.validators.get id = some v →
    v.totalStake.toNat = v.stake.toNat + v.delegatedStake.toNat

theorem count_eq (m : Map (Bytes 32) Validator) :
    m.count Validator.isActive = m.total Validator.activeBit := m.count_eq_total _

theorem aggregates_totals {s : ValidatorSet} :
    Aggregates s ↔ s.totalStake.toNat = s.validators.total Validator.bonded ∧
      s.activeCount.toNat = s.validators.total Validator.activeBit := by
  constructor
  · rintro ⟨htotal, hcount⟩
    exact ⟨htotal, hcount.trans (count_eq _)⟩
  · rintro ⟨htotal, hcount⟩
    exact ⟨htotal, hcount.trans (count_eq _).symm⟩

theorem aggregates_insert {s s' : ValidatorSet} (h : Aggregates s) {id : Bytes 32} {v' : Validator}
    (heq : s'.validators = s.validators.insert id v') :
    Aggregates s' ↔
      s'.totalStake.toNat + s.validators.weightAt Validator.bonded id =
        s.totalStake.toNat + v'.bonded ∧
      s'.activeCount.toNat + s.validators.weightAt Validator.activeBit id =
        s.activeCount.toNat + v'.activeBit := by
  have htotal := s.validators.total_insert Validator.bonded id v'
  have hcount := s.validators.total_insert Validator.activeBit id v'
  rw [aggregates_totals] at h ⊢
  rw [heq]
  omega

theorem aggregates_update {s s' : ValidatorSet} (h : Aggregates s) {id : Bytes 32}
    {v v' : Validator} (hget : s.validators.get id = some v)
    (heq : s'.validators = s.validators.insert id v') :
    Aggregates s' ↔
      s'.totalStake.toNat + v.bonded = s.totalStake.toNat + v'.bonded ∧
      s'.activeCount.toNat + v.activeBit = s.activeCount.toNat + v'.activeBit := by
  rw [aggregates_insert h heq, Map.weightAt_some hget, Map.weightAt_some hget]

theorem aggregates_erase {s s' : ValidatorSet} (h : Aggregates s) {id : Bytes 32} {v : Validator}
    (hget : s.validators.get id = some v) (heq : s'.validators = s.validators.erase id) :
    Aggregates s' ↔
      s'.totalStake.toNat + v.bonded = s.totalStake.toNat ∧
      s'.activeCount.toNat + v.activeBit = s.activeCount.toNat := by
  have htotal := s.validators.total_erase Validator.bonded id
  have hcount := s.validators.total_erase Validator.activeBit id
  rw [Map.weightAt_some hget] at htotal hcount
  rw [aggregates_totals] at h ⊢
  rw [heq]
  omega

theorem Aggregates.bonded_le {s : ValidatorSet} (h : Aggregates s) {id : Bytes 32} {v : Validator}
    (hget : s.validators.get id = some v) : v.bonded ≤ s.totalStake.toNat :=
  h.totalStake ▸ Map.le_total hget Validator.bonded

theorem Aggregates.activeBit_le {s : ValidatorSet} (h : Aggregates s) {id : Bytes 32} {v : Validator}
    (hget : s.validators.get id = some v) : v.activeBit ≤ s.activeCount.toNat := by
  rw [h.activeCount, count_eq]
  exact Map.le_total hget Validator.activeBit

-- ---------------------------------------------------------------------------
-- What one step does
-- ---------------------------------------------------------------------------

def Op.brings : Op → UInt64
  | .addValidator _ _ stake _ => stake
  | .delegate _ _ amount => amount
  | _ => 0

/-- If the call succeeds, the total has room for what it brings. -/
def Fits (s : ValidatorSet) (op : Op) : Prop :=
  (∃ s', Moves s op s') → s.totalStake.toNat + op.brings.toNat < 2 ^ 64

/-- What a slash must find for the aggregates to stay right. -/
structure SlashKeeps (s : ValidatorSet) (v : Validator) (event : SlashEvent) : Prop where
  bonded : v.status ≠ .removed →
    event.slashAmount v.stake ≤ v.stake ∨ s.totalStake = v.stake
  removed : v.status = .removed → event.slashAmount v.stake = 0 ∨ s.totalStake = 0
  jailed : v.status = .removed → event.slashType.jails →
    v.stake ≤ event.slashAmount v.stake ∧ v.delegatedStake = 0
  counted : event.slashType.jails → v.status = .active ∨ s.activeCount = 0

/-- The step is not one that lets the aggregates drift: it jails no active
validator except through a slash, brings no removed validator that has stake back
into the total, takes nothing out of the total for a removed one, takes no more
than the validator has, and does not wrap the counter. -/
def KeepsAggregates (s : ValidatorSet) : Op → Prop
  | .activateValidator id _ => ∀ v, s.validators.get id = some v → v.status = .pending →
      s.activeCount.toNat + 1 < 2 ^ 32
  | .removeValidator id => ∀ v, s.validators.get id = some v → v.status = .removed →
      v.totalStake = 0 ∨ s.totalStake = 0
  | .jailValidator id => ∀ v, s.validators.get id = some v →
      v.status ≠ .active ∧ (v.status = .removed → v.totalStake = 0)
  | .unjailValidator id => ∀ v, s.validators.get id = some v → v.status = .jailed →
      s.activeCount.toNat + 1 < 2 ^ 32
  | .slash event => ∀ v, s.validators.get event.validatorId = some v → SlashKeeps s v event
  | .undelegate delegatorId amount => ∀ d v, s.delegators.get delegatorId = some d →
      s.validators.get d.validatorId = some v →
      (v.status ≠ .removed → min amount d.stakedAmount ≤ v.delegatedStake ∨
        s.totalStake = v.delegatedStake) ∧
      (v.status = .removed → min amount d.stakedAmount = 0 ∨ s.totalStake = 0)
  | _ => True

variable {s : ValidatorSet} {v : Validator}

theorem aggregates_counted (h : Aggregates s) {id : Bytes 32} {v' : Validator}
    (hget : s.validators.get id = some v) (hstatus : v.status ≠ .active)
    (hbonded : v'.bonded = v.bonded) (hactive : v'.status = .active) :
    Aggregates { s with
      validators := s.validators.insert id v'
      activeCount := s.activeCount + 1 } ↔ s.activeCount.toNat + 1 < 2 ^ 32 := by
  rw [aggregates_update h hget rfl, hbonded, Validator.activeBit_of_ne hstatus,
    Validator.activeBit_active hactive]
  dsimp only
  rw [UInt32.toNat_add]
  have hlt : s.activeCount.toNat < 2 ^ 32 := s.activeCount.toNat_lt
  have hone : (1 : UInt32).toNat = 1 := rfl
  omega

theorem aggregates_erased (h : Aggregates s) {id : Bytes 32} (hget : s.validators.get id = some v) :
    Aggregates { s with
      validators := s.validators.erase id
      totalStake := saturatingSub s.totalStake v.totalStake
      activeCount := if v.status = .active then saturatingPred s.activeCount else s.activeCount } ↔
      (v.status = .removed → v.totalStake = 0 ∨ s.totalStake = 0) := by
  have hle := h.bonded_le hget
  have hbit := h.activeBit_le hget
  have hcounter : (if v.status = .active then saturatingPred s.activeCount
      else s.activeCount).toNat + v.activeBit = s.activeCount.toNat := by
    rcases v.activeBit_cases with ⟨hactive, hone⟩ | ⟨hactive, hzero⟩
    · rw [if_pos hactive, toNat_saturatingPred]
      omega
    · rw [if_neg hactive, hzero]
      rfl
  rw [aggregates_erase h hget rfl]
  dsimp only
  simp only [hcounter, and_true, toNat_saturatingSub, eq_zero_iff]
  rcases v.bonded_cases with ⟨hr, hv⟩ | ⟨hr, hv⟩
  · simp only [hr, forall_const]
    omega
  · simp only [hr, false_implies, iff_true]
    omega

theorem aggregates_completed (h : Aggregates s) {id : Bytes 32}
    (hget : s.validators.get id = some v) (hstatus : v.status = .unbonding) :
    Aggregates { s with
      validators := s.validators.insert id { v with status := .removed, unbondingStart := none }
      totalStake := saturatingSub s.totalStake v.totalStake } := by
  have hle := h.bonded_le hget
  have hremoved : v.status ≠ .removed := by simp [hstatus]
  rw [aggregates_update h hget rfl]
  dsimp only
  rw [toNat_saturatingSub]
  rw [Validator.bonded_of_ne hremoved] at hle ⊢
  rw [Validator.bonded_removed rfl, Validator.activeBit_of_ne (by simp [hstatus]),
    Validator.activeBit_of_ne (by simp)]
  omega

theorem aggregates_unbonding (h : Aggregates s) {id : Bytes 32} {timestamp : UInt64}
    (hget : s.validators.get id = some v) (hstatus : v.status = .active) :
    Aggregates { s with
      validators := s.validators.insert id
        { v with status := .unbonding, unbondingStart := some timestamp }
      activeCount := saturatingPred s.activeCount } := by
  have hle := h.activeBit_le hget
  have hbonded : ({ v with status := .unbonding, unbondingStart := some timestamp } :
      Validator).bonded = v.bonded := Validator.bonded_congr (by simp [hstatus]) (by simp) rfl
  rw [aggregates_update h hget rfl, hbonded]
  rw [Validator.activeBit_active hstatus] at hle ⊢
  refine ⟨rfl, ?_⟩
  change (saturatingPred s.activeCount).toNat + 1 = s.activeCount.toNat
  rw [toNat_saturatingPred]
  omega

theorem aggregates_jailed (h : Aggregates s) {id : Bytes 32} (hget : s.validators.get id = some v) :
    Aggregates { s with validators := s.validators.insert id { v with status := .jailed } } ↔
      v.status ≠ .active ∧ (v.status = .removed → v.totalStake = 0) := by
  have hbonded : ({ v with status := .jailed } : Validator).bonded = v.totalStake.toNat := rfl
  have hbit : ({ v with status := .jailed } : Validator).activeBit = 0 := rfl
  rw [aggregates_update h hget rfl, hbonded, hbit, eq_zero_iff]
  dsimp only
  rcases v.bonded_cases with ⟨hr, hv⟩ | ⟨hr, hv⟩
  · rw [hv, Validator.activeBit_of_ne (by simp [hr])]
    simp [hr, eq_comm]
  · rcases v.activeBit_cases with ⟨ha, hbit⟩ | ⟨ha, hbit⟩
    · simp [hv, hbit, ha]
    · simp [hv, hbit, ha, hr]

theorem aggregates_added (h : Aggregates s) {id : Bytes 32} {publicKey : List UInt8}
    {stake : UInt64} (hnew : s.validators.get id = none)
    (hfits : s.totalStake.toNat + stake.toNat < 2 ^ 64) :
    Aggregates { s with
      validators := s.validators.insert id (.new id publicKey stake)
      totalStake := s.totalStake + stake } := by
  rw [aggregates_insert h rfl, Map.weightAt_none hnew, Map.weightAt_none hnew]
  exact ⟨toNat_add_of_lt hfits, rfl⟩

theorem aggregates_delegated (h : Aggregates s) (hparts : PartsAdd s) {id : Bytes 32}
    {amount : UInt64} {delegators : Map (Bytes 32) Delegator}
    (hget : s.validators.get id = some v) (hstatus : v.status = .active)
    (hfits : s.totalStake.toNat + amount.toNat < 2 ^ 64) :
    Aggregates { s with
      delegators
      validators := s.validators.insert id (v.addDelegation amount)
      totalStake := s.totalStake + amount } := by
  have hle := h.bonded_le hget
  have hsum := hparts id v hget
  have hr : v.status ≠ .removed := by simp [hstatus]
  rw [Validator.bonded_of_ne hr] at hle
  have hdelegated : (v.delegatedStake + amount).toNat = v.delegatedStake.toNat + amount.toNat :=
    toNat_add_of_lt (by omega)
  have htotal : (v.stake + (v.delegatedStake + amount)).toNat =
      v.stake.toNat + (v.delegatedStake.toNat + amount.toNat) := by
    rw [toNat_add_of_lt (by omega), hdelegated]
  have hbonded : (v.addDelegation amount).bonded = (v.stake + (v.delegatedStake + amount)).toNat :=
    Validator.bonded_of_ne hr
  have hbit : (v.addDelegation amount).activeBit = v.activeBit := rfl
  rw [aggregates_update h hget rfl, hbonded, hbit, htotal, Validator.bonded_of_ne hr]
  dsimp only
  rw [toNat_add_of_lt hfits]
  exact ⟨by omega, rfl⟩

theorem toNat_removeDelegation (hsum : v.totalStake.toNat = v.stake.toNat + v.delegatedStake.toNat)
    (amount : UInt64) :
    (v.removeDelegation amount).totalStake.toNat =
      v.stake.toNat + (v.delegatedStake.toNat - amount.toNat) := by
  have hlt : v.totalStake.toNat < 2 ^ 64 := v.totalStake.toNat_lt
  have hrest := toNat_saturatingSub v.delegatedStake amount
  change (v.stake + saturatingSub v.delegatedStake amount).toNat = _
  rw [toNat_add_of_lt (by omega), hrest]

theorem aggregates_undelegated (h : Aggregates s) (hparts : PartsAdd s) {id : Bytes 32}
    {amount : UInt64} {delegators : Map (Bytes 32) Delegator}
    (hget : s.validators.get id = some v) :
    Aggregates { s with
      delegators
      validators := s.validators.insert id (v.removeDelegation amount)
      totalStake := saturatingSub s.totalStake amount } ↔
      (v.status ≠ .removed → amount ≤ v.delegatedStake ∨ s.totalStake = v.delegatedStake) ∧
      (v.status = .removed → amount = 0 ∨ s.totalStake = 0) := by
  have hle := h.bonded_le hget
  have hsum := hparts id v hget
  have htotal := toNat_removeDelegation hsum amount
  have hbit : (v.removeDelegation amount).activeBit = v.activeBit := rfl
  rw [aggregates_update h hget rfl, hbit]
  dsimp only
  rw [toNat_saturatingSub]
  simp only [and_true, UInt64.le_iff_toNat_le, ← UInt64.toNat_inj, UInt64.toNat_zero]
  rcases v.bonded_cases with ⟨hr, hv⟩ | ⟨hr, hv⟩
  · have hbonded : (v.removeDelegation amount).bonded = 0 := Validator.bonded_removed hr
    simp only [hr, ne_eq, not_true_eq_false, false_implies, forall_const, true_and]
    omega
  · have hbonded : (v.removeDelegation amount).bonded = _ := Validator.bonded_of_ne hr
    simp only [hr, ne_eq, not_false_eq_true, forall_const, false_implies, and_true]
    omega

theorem toNat_slashed (hsum : v.totalStake.toNat = v.stake.toNat + v.delegatedStake.toNat)
    (event : SlashEvent) :
    (slashed v event).totalStake.toNat =
      v.stake.toNat - (event.slashAmount v.stake).toNat + v.delegatedStake.toNat := by
  have hlt : v.totalStake.toNat < 2 ^ 64 := v.totalStake.toNat_lt
  have hrest := toNat_saturatingSub v.stake (event.slashAmount v.stake)
  change (saturatingSub v.stake (event.slashAmount v.stake) + v.delegatedStake).toNat = _
  rw [toNat_add_of_lt (by omega), hrest]

theorem slash_bonded (h : Aggregates s) (hparts : PartsAdd s) {event : SlashEvent}
    (hget : s.validators.get event.validatorId = some v) :
    s.totalStake.toNat - (event.slashAmount v.stake).toNat + v.bonded =
        s.totalStake.toNat + (slashed v event).bonded ↔
      (v.status ≠ .removed → event.slashAmount v.stake ≤ v.stake ∨ s.totalStake = v.stake) ∧
      (v.status = .removed → event.slashAmount v.stake = 0 ∨ s.totalStake = 0) ∧
      (v.status = .removed → event.slashType.jails →
        v.stake ≤ event.slashAmount v.stake ∧ v.delegatedStake = 0) := by
  have hle := h.bonded_le hget
  have hsum := hparts event.validatorId v hget
  have htotal := toNat_slashed hsum event
  simp only [UInt64.le_iff_toNat_le, ← UInt64.toNat_inj, UInt64.toNat_zero]
  rcases v.bonded_cases with ⟨hr, hv⟩ | ⟨hr, hv⟩
  · simp only [hr, ne_eq, not_true_eq_false, false_implies, forall_const, true_and]
    by_cases hj : event.slashType.jails
    · have hstatus : (slashed v event).status ≠ .removed := by simp [slashed, hj]
      rw [Validator.bonded_of_ne hstatus, htotal]
      simp only [hj, forall_const]
      omega
    · have hstatus : (slashed v event).status = .removed := by simp [slashed, hj, hr]
      rw [Validator.bonded_removed hstatus]
      simp only [hj, Bool.false_eq_true, false_implies, and_true]
      omega
  · have hstatus : (slashed v event).status ≠ .removed := by
      by_cases hj : event.slashType.jails <;> simp [slashed, hj, hr]
    rw [Validator.bonded_of_ne hstatus, htotal]
    simp only [hr, ne_eq, not_false_eq_true, forall_const, false_implies, and_true]
    omega

theorem slash_counted (h : Aggregates s) {event : SlashEvent}
    (hget : s.validators.get event.validatorId = some v) :
    (if event.slashType.jails then saturatingPred s.activeCount else s.activeCount).toNat +
        v.activeBit = s.activeCount.toNat + (slashed v event).activeBit ↔
      (event.slashType.jails → v.status = .active ∨ s.activeCount = 0) := by
  have hle := h.activeBit_le hget
  by_cases hj : event.slashType.jails
  · have hstatus : (slashed v event).status ≠ .active := by simp [slashed, hj]
    rw [Validator.activeBit_of_ne hstatus, if_pos hj, toNat_saturatingPred, ← UInt32.toNat_inj]
    simp only [hj, forall_const, UInt32.toNat_zero]
    rcases v.activeBit_cases with ⟨ha, hbit⟩ | ⟨ha, hbit⟩
    · simp only [ha, true_or, iff_true]
      omega
    · simp only [ha, false_or]
      omega
  · have hbit : (slashed v event).activeBit = v.activeBit := by
      simp [Validator.activeBit, Validator.isActive, slashed, hj]
    simp [hbit, hj]

theorem aggregates_slashed (h : Aggregates s) (hparts : PartsAdd s) {event : SlashEvent}
    (hget : s.validators.get event.validatorId = some v) :
    Aggregates { s with
      validators := s.validators.insert event.validatorId (slashed v event)
      totalStake := saturatingSub s.totalStake (event.slashAmount v.stake)
      activeCount :=
        if event.slashType.jails then saturatingPred s.activeCount else s.activeCount } ↔
      SlashKeeps s v event := by
  rw [aggregates_update h hget rfl]
  dsimp only
  rw [toNat_saturatingSub, slash_bonded h hparts hget, slash_counted h hget]
  constructor
  · rintro ⟨⟨hbonded, hremoved, hjailed⟩, hcounted⟩
    exact ⟨hbonded, hremoved, hjailed, hcounted⟩
  · rintro ⟨hbonded, hremoved, hjailed, hcounted⟩
    exact ⟨⟨hbonded, hremoved, hjailed⟩, hcounted⟩

-- ---------------------------------------------------------------------------
-- Runs
-- ---------------------------------------------------------------------------

/-- A call that has room keeps the aggregates right exactly if it is no call that
lets them drift. -/
theorem aggregates_step (h : Aggregates s) (hparts : PartsAdd s) {op : Op} (hfits : Fits s op) :
    Aggregates (s.step op) ↔ s.KeepsAggregates op := by
  rcases step_cases s op with hmove | ⟨heq, hno⟩
  · have hroom := hfits ⟨_, hmove⟩
    generalize s.step op = s' at hmove ⊢
    cases hmove with
    | added hstake hnew => exact iff_of_true (aggregates_added h hnew hroom) trivial
    | @activated id timestamp v hget hstatus =>
      have hbonded : (v.activate timestamp).bonded = v.bonded :=
        Validator.bonded_congr (by simp [hstatus]) (by simp [Validator.activate]) rfl
      rw [aggregates_counted h hget (by simp [hstatus]) hbonded rfl]
      simp [KeepsAggregates, hget, hstatus]
    | erased hget =>
      rw [aggregates_erased h hget]
      simp [KeepsAggregates, hget]
    | unbonding hget hstatus => exact iff_of_true (aggregates_unbonding h hget hstatus) trivial
    | completed hget hstatus => exact iff_of_true (aggregates_completed h hget hstatus) trivial
    | jailed hget =>
      rw [aggregates_jailed h hget]
      simp [KeepsAggregates, hget]
    | @unjailed id v hget hstatus =>
      have hbonded : ({ v with status := .active } : Validator).bonded = v.bonded :=
        Validator.bonded_congr (by simp [hstatus]) (by simp) rfl
      rw [aggregates_counted h hget (by simp [hstatus]) hbonded rfl]
      simp [KeepsAggregates, hget, hstatus]
    | slashed hget =>
      rw [aggregates_slashed h hparts hget]
      simp [KeepsAggregates, hget]
    | delegated hget hstatus =>
      exact iff_of_true (aggregates_delegated h hparts hget hstatus hroom) trivial
    | undelegated hdelegator hget =>
      refine (aggregates_undelegated h hparts hget).trans ⟨?_, fun hk => hk _ _ hdelegator hget⟩
      intro hkeeps d' v' hd hv
      obtain rfl := Option.some.inj (hdelegator.symm.trans hd)
      obtain rfl := Option.some.inj (hget.symm.trans hv)
      exact hkeeps
  · rw [heq]
    refine iff_of_true h ?_
    cases op with
    | activateValidator id timestamp => exact fun v hget hs => absurd (.activated hget hs) (hno _)
    | removeValidator id => exact fun v hget => absurd (.erased hget) (hno _)
    | jailValidator id => exact fun v hget => absurd (.jailed hget) (hno _)
    | unjailValidator id => exact fun v hget hs => absurd (.unjailed hget hs) (hno _)
    | slash event => exact fun v hget => absurd (.slashed hget) (hno _)
    | undelegate delegatorId amount =>
      exact fun d v hd hget => absurd (.undelegated hd hget) (hno _)
    | _ => trivial

theorem partsAdd_insert {s' : ValidatorSet} (h : PartsAdd s) {id : Bytes 32} {v' : Validator}
    (heq : s'.validators = s.validators.insert id v')
    (hsum : v'.totalStake.toNat = v'.stake.toNat + v'.delegatedStake.toNat) : PartsAdd s' := by
  intro j w hw
  rw [heq] at hw
  rcases Map.of_get_insert hw with ⟨-, rfl⟩ | ⟨-, hold⟩
  · exact hsum
  · exact h j w hold

theorem partsAdd_step (hparts : PartsAdd s) (h : Aggregates s) {op : Op} (hfits : Fits s op) :
    PartsAdd (s.step op) := by
  rcases step_cases s op with hmove | ⟨heq, -⟩
  · have hroom := hfits ⟨_, hmove⟩
    generalize s.step op = s' at hmove ⊢
    cases hmove with
    | added hstake hnew => exact partsAdd_insert hparts rfl rfl
    | erased hget =>
      intro j w hw
      rw [Map.get_erase] at hw
      split at hw
      · cases hw
      · exact hparts j w hw
    | activated hget _ | unbonding hget _ | completed hget _ | jailed hget | unjailed hget _ =>
      have hsum := hparts _ _ hget
      exact partsAdd_insert hparts rfl hsum
    | @slashed event v hget =>
      refine partsAdd_insert hparts rfl ((toNat_slashed (hparts _ _ hget) event).trans ?_)
      rw [slashed, toNat_saturatingSub]
    | @delegated delegatorId id amount v hget hstatus =>
      have hle := h.bonded_le hget
      have hsum := hparts id v hget
      rw [Validator.bonded_of_ne (by simp [hstatus])] at hle
      have hdelegated := toNat_add_of_lt (a := v.delegatedStake) (b := amount)
        (by simp only [Op.brings] at hroom; omega)
      refine partsAdd_insert hparts rfl (toNat_add_of_lt ?_)
      rw [hdelegated]
      simp only [Op.brings] at hroom
      omega
    | @undelegated delegatorId amount d v hdelegator hget =>
      refine partsAdd_insert hparts rfl
        ((toNat_removeDelegation (hparts _ _ hget) (min amount d.stakedAmount)).trans ?_)
      rw [Validator.removeDelegation, toNat_saturatingSub]
  · rwa [heq]

theorem aggregates_new : Aggregates new := ⟨by simp [new], by simp [new]⟩

/-- In a run without overflow the aggregates are right in every state just when no
step is one that lets them drift. -/
theorem aggregates_iff (run : List Op) (hfits : Trace.Always step Fits .new run) :
    (∀ before, before <+: run → Aggregates (Trace.exec step .new before)) ↔
      Trace.Always step KeepsAggregates .new run :=
  Trace.prefixes_iff_of_always (fun _ _ hparts h hfit => partsAdd_step hparts h hfit)
    (fun _ _ hparts h hfit => aggregates_step h hparts hfit)
    (fun _ _ hget => by simp [new] at hget) aggregates_new hfits

/-- A validator that is given a delegation and leaves. -/
theorem aggregates_iff_leaving :
    let run : List Op := [.addValidator (.fill 32 1) [] 1000 100, .activateValidator (.fill 32 1) 5,
      .delegate (.fill 32 9) (.fill 32 1) 50, .startUnbonding (.fill 32 1) 6,
      .completeUnbonding (.fill 32 1)]
    Trace.Always step KeepsAggregates .new run ∧
      ∀ before, before <+: run → Aggregates (Trace.exec step .new before) := by
  intro run
  have hkeeps : Trace.Always step KeepsAggregates .new run :=
    ⟨trivial, fun _ _ _ => by decide, trivial, trivial, trivial, trivial⟩
  refine ⟨hkeeps, (aggregates_iff run ?_).mpr hkeeps⟩
  exact ⟨fun _ => by decide, fun _ => by decide, fun _ => by decide, fun _ => by decide,
    fun _ => by decide, trivial⟩

/-- An active validator that is jailed stays in the count. -/
theorem aggregates_fail :
    ¬ ∀ run : List Op, Trace.Always step Fits .new run → Aggregates (Trace.exec step .new run) := by
  intro h
  have haggregates := h [.addValidator (.fill 32 1) [] 1000 100, .activateValidator (.fill 32 1) 5,
    .jailValidator (.fill 32 1)]
    ⟨fun _ => by decide, fun _ => by decide, fun _ => by decide, trivial⟩
  exact absurd haggregates.activeCount (by decide)

end ValidatorSet

end LiteVision.Truth.Staking
