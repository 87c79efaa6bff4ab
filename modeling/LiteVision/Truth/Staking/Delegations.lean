import LiteVision.Truth.Staking

/-!
# The delegation ledger

A delegation is written down twice: in the `delegated_stake` of the validator and
in the `staked_amount` of the delegator. `ledger_iff`: the two agree in every
state of a run just when no delegation is the first of its delegator, goes to
another validator than the first, or is to a validator added over old delegations.
-/

namespace LiteVision.Truth.Staking

open Lib

def Delegator.stakedWith (id : Bytes 32) (d : Delegator) : Nat :=
  if d.validatorId = id then d.stakedAmount.toNat else 0

namespace Delegator

theorem stakedWith_self {d : Delegator} {id : Bytes 32} (h : d.validatorId = id) :
    d.stakedWith id = d.stakedAmount.toNat := if_pos h

theorem stakedWith_ne {d : Delegator} {id : Bytes 32} (h : d.validatorId ≠ id) :
    d.stakedWith id = 0 := if_neg h

theorem update_self {d : Delegator} {id : Bytes 32} (h : d.validatorId = id)
    (stakedAmount : UInt64) : { d with stakedAmount }.stakedWith id = stakedAmount.toNat := if_pos h

theorem update_ne {d : Delegator} {id : Bytes 32} (h : d.validatorId ≠ id)
    (stakedAmount : UInt64) : { d with stakedAmount }.stakedWith id = 0 := if_neg h

end Delegator

namespace ValidatorSet

/-- The delegated stake of each validator is the sum of what its delegators staked. -/
def Ledger (s : ValidatorSet) : Prop :=
  ∀ id v, s.validators.get id = some v →
    v.delegatedStake.toNat = s.delegators.total (Delegator.stakedWith id)

variable {s s' : ValidatorSet} {id : Bytes 32} {v v' : Validator}

theorem ledger_new : Ledger new := fun id v hget => by simp [new] at hget

theorem ledger_same (h : Ledger s) (hget : s.validators.get id = some v)
    (hvalidators : s'.validators = s.validators.insert id v')
    (hdelegators : s'.delegators = s.delegators) (heq : v'.delegatedStake = v.delegatedStake) :
    Ledger s' := by
  intro j w hw
  rw [hdelegators]
  rw [hvalidators] at hw
  rcases Map.of_get_insert hw with ⟨rfl, rfl⟩ | ⟨-, hold⟩
  · rw [heq]
    exact h j v hget
  · exact h j w hold

theorem ledger_added (h : Ledger s) {publicKey : List UInt8} {stake : UInt64}
    (hvalidators : s'.validators = s.validators.insert id (.new id publicKey stake))
    (hdelegators : s'.delegators = s.delegators) :
    Ledger s' ↔ ∀ delegatorId d, s.delegators.get delegatorId = some d → d.validatorId = id →
      d.stakedAmount = 0 := by
  have hsum : s.delegators.total (Delegator.stakedWith id) = 0 ↔
      ∀ delegatorId d, s.delegators.get delegatorId = some d → d.validatorId = id →
        d.stakedAmount = 0 := by
    rw [Map.total_eq_zero]
    refine forall_congr' fun delegatorId => forall_congr' fun d => imp_congr_right fun _ => ?_
    simp [Delegator.stakedWith, ← UInt64.toNat_inj]
  rw [← hsum]
  constructor
  · intro hledger
    have hself := hledger id _ (by rw [hvalidators, Map.get_insert_self])
    rw [hdelegators] at hself
    exact hself.symm
  · intro hnone j w hw
    rw [hdelegators]
    rw [hvalidators] at hw
    rcases Map.of_get_insert hw with ⟨rfl, rfl⟩ | ⟨-, hold⟩
    · exact hnone.symm
    · exact h j w hold

-- ---------------------------------------------------------------------------
-- One delegation
-- ---------------------------------------------------------------------------

variable {delegatorId : Bytes 32} {d d' : Delegator}

theorem ledger_at (h : Ledger s) (hget : s.validators.get id = some v)
    (hvalidators : s'.validators = s.validators.insert id v')
    (hdelegators : s'.delegators = s.delegators.insert delegatorId d') (hafter : Ledger s') :
    v'.delegatedStake.toNat + s.delegators.weightAt (Delegator.stakedWith id) delegatorId =
      v.delegatedStake.toNat + d'.stakedWith id := by
  have hself := hafter id v' (by rw [hvalidators, Map.get_insert_self])
  have htotal := s.delegators.total_insert (Delegator.stakedWith id) delegatorId d'
  rw [hdelegators] at hself
  rw [hself, h id v hget]
  exact htotal

theorem ledger_insert (h : Ledger s) (hget : s.validators.get id = some v)
    (hvalidators : s'.validators = s.validators.insert id v')
    (hdelegators : s'.delegators = s.delegators.insert delegatorId d')
    (hother : ∀ j, j ≠ id →
      d'.stakedWith j = s.delegators.weightAt (Delegator.stakedWith j) delegatorId) :
    Ledger s' ↔
      v'.delegatedStake.toNat + s.delegators.weightAt (Delegator.stakedWith id) delegatorId =
        v.delegatedStake.toNat + d'.stakedWith id := by
  refine ⟨ledger_at h hget hvalidators hdelegators, fun heq j w hw => ?_⟩
  have htotal := s.delegators.total_insert (Delegator.stakedWith j) delegatorId d'
  rw [hdelegators]
  rw [hvalidators] at hw
  rcases Map.of_get_insert hw with ⟨rfl, rfl⟩ | ⟨hj, hold⟩
  · have hself := h j v hget
    omega
  · have hw' := h j w hold
    rw [hother j hj] at htotal
    omega

theorem credited_none (hnone : s.delegators.get delegatorId = none) (amount : UInt64) :
    s.credited delegatorId id amount =
      Delegator.new delegatorId id (amount + amount) := by
  simp [credited, hnone, Delegator.new]

theorem credited_some (hd : s.delegators.get delegatorId = some d) (amount : UInt64) :
    s.credited delegatorId id amount = { d with stakedAmount := d.stakedAmount + amount } := by
  simp [credited, hd]

/-- A delegation that is written down alike on both sides: of nothing, or of more
by a delegator who has the validator already, with both sums wrapping or neither. -/
def Matched (s : ValidatorSet) (v : Validator) (delegatorId id : Bytes 32) (amount : UInt64) : Prop :=
  amount = 0 ∨ ∃ d, s.delegators.get delegatorId = some d ∧ d.validatorId = id ∧
    (v.delegatedStake.toNat + amount.toNat < 2 ^ 64 ∨
      2 ^ 64 ≤ d.stakedAmount.toNat + amount.toNat)

theorem ledger_first (h : Ledger s) (hget : s.validators.get id = some v) {amount : UInt64}
    (hnone : s.delegators.get delegatorId = none)
    (hvalidators : s'.validators = s.validators.insert id (v.addDelegation amount))
    (hdelegators : s'.delegators =
      s.delegators.insert delegatorId (s.credited delegatorId id amount)) :
    Ledger s' ↔ amount = 0 := by
  rw [credited_none hnone] at hdelegators
  have htwice : (Delegator.new delegatorId id (amount + amount)).stakedWith id =
      (amount + amount).toNat := if_pos rfl
  rw [ledger_insert h hget hvalidators hdelegators, Map.weightAt_none hnone, htwice, eq_zero_iff]
  · simp only [Validator.addDelegation, UInt64.toNat_add]
    have hv : v.delegatedStake.toNat < 2 ^ 64 := v.delegatedStake.toNat_lt
    have ha : amount.toNat < 2 ^ 64 := amount.toNat_lt
    omega
  · intro j hj
    rw [Map.weightAt_none hnone]
    exact Delegator.stakedWith_ne (Ne.symm hj)

theorem ledger_again (h : Ledger s) (hget : s.validators.get id = some v) {amount : UInt64}
    (hd : s.delegators.get delegatorId = some d) (hid : d.validatorId = id)
    (hvalidators : s'.validators = s.validators.insert id (v.addDelegation amount))
    (hdelegators : s'.delegators =
      s.delegators.insert delegatorId (s.credited delegatorId id amount)) :
    Ledger s' ↔ v.delegatedStake.toNat + amount.toNat < 2 ^ 64 ∨
      2 ^ 64 ≤ d.stakedAmount.toNat + amount.toNat := by
  rw [credited_some hd] at hdelegators
  have hle : d.stakedWith id ≤ v.delegatedStake.toNat := by
    rw [h id v hget]
    exact Map.le_total hd (Delegator.stakedWith id)
  rw [Delegator.stakedWith_self hid] at hle
  rw [ledger_insert h hget hvalidators hdelegators, Map.weightAt_some hd,
    Delegator.stakedWith_self hid, Delegator.update_self hid]
  · simp only [Validator.addDelegation, UInt64.toNat_add]
    have hv : v.delegatedStake.toNat < 2 ^ 64 := v.delegatedStake.toNat_lt
    have ha : amount.toNat < 2 ^ 64 := amount.toNat_lt
    omega
  · intro j hj
    have hne : d.validatorId ≠ j := fun heq => hj (heq.symm.trans hid)
    rw [Map.weightAt_some hd, Delegator.stakedWith_ne hne, Delegator.update_ne hne]

theorem ledger_elsewhere (h : Ledger s) (hget : s.validators.get id = some v) {amount : UInt64}
    (hd : s.delegators.get delegatorId = some d) (hid : d.validatorId ≠ id)
    (hvalidators : s'.validators = s.validators.insert id (v.addDelegation amount))
    (hdelegators : s'.delegators =
      s.delegators.insert delegatorId (s.credited delegatorId id amount)) :
    Ledger s' ↔ amount = 0 := by
  rw [credited_some hd] at hdelegators
  constructor
  · intro hafter
    have heq := ledger_at h hget hvalidators hdelegators hafter
    rw [Map.weightAt_some hd, Delegator.stakedWith_ne hid, Delegator.update_ne hid] at heq
    simp only [Validator.addDelegation, UInt64.toNat_add] at heq
    have hv : v.delegatedStake.toNat < 2 ^ 64 := v.delegatedStake.toNat_lt
    have ha : amount.toNat < 2 ^ 64 := amount.toNat_lt
    rw [eq_zero_iff]
    omega
  · rintro rfl
    refine (ledger_insert h hget hvalidators hdelegators fun j _ => ?_).mpr ?_
    · simp [Map.weightAt_some hd, Delegator.stakedWith]
    · simp [Map.weightAt_some hd, Delegator.stakedWith, Validator.addDelegation]

theorem ledger_delegated (h : Ledger s) (hget : s.validators.get id = some v) {amount : UInt64}
    (hvalidators : s'.validators = s.validators.insert id (v.addDelegation amount))
    (hdelegators : s'.delegators =
      s.delegators.insert delegatorId (s.credited delegatorId id amount)) :
    Ledger s' ↔ Matched s v delegatorId id amount := by
  cases hd : s.delegators.get delegatorId with
  | none =>
    rw [ledger_first h hget hd hvalidators hdelegators]
    simp [Matched, hd]
  | some d =>
    by_cases hid : d.validatorId = id
    · rw [ledger_again h hget hd hid hvalidators hdelegators]
      simp only [Matched, hd, Option.some.injEq, exists_eq_left', hid, true_and]
      refine ⟨.inr, ?_⟩
      rintro (rfl | hfits)
      · exact .inl v.delegatedStake.toNat_lt
      · exact hfits
    · rw [ledger_elsewhere h hget hd hid hvalidators hdelegators]
      simp [Matched, hd, hid]

theorem ledger_undelegated (h : Ledger s) {amount : UInt64}
    (hd : s.delegators.get delegatorId = some d) (hget : s.validators.get d.validatorId = some v)
    (hvalidators : s'.validators =
      s.validators.insert d.validatorId (v.removeDelegation (min amount d.stakedAmount)))
    (hdelegators : s'.delegators = s.delegators.insert delegatorId
      { d with stakedAmount := saturatingSub d.stakedAmount (min amount d.stakedAmount) }) :
    Ledger s' := by
  have hle : d.stakedWith d.validatorId ≤ v.delegatedStake.toNat := by
    rw [h _ v hget]
    exact Map.le_total hd (Delegator.stakedWith d.validatorId)
  rw [Delegator.stakedWith_self rfl] at hle
  rw [ledger_insert h hget hvalidators hdelegators, Map.weightAt_some hd,
    Delegator.stakedWith_self rfl, Delegator.update_self rfl]
  · simp only [Validator.removeDelegation, toNat_saturatingSub, toNat_min]
    omega
  · intro j hj
    rw [Map.weightAt_some hd, Delegator.stakedWith_ne (Ne.symm hj),
      Delegator.update_ne (Ne.symm hj)]

-- ---------------------------------------------------------------------------
-- Runs
-- ---------------------------------------------------------------------------

/-- The step adds no validator whose id has delegators with stake, and makes no
delegation that is written down differently on the two sides. -/
def KeepsLedger (s : ValidatorSet) : Op → Prop
  | .addValidator id _ stake minStake => ¬ stake < minStake → s.validators.get id = none →
      ∀ delegatorId d, s.delegators.get delegatorId = some d → d.validatorId = id →
        d.stakedAmount = 0
  | .delegate delegatorId id amount => ∀ v, s.validators.get id = some v → v.status = .active →
      Matched s v delegatorId id amount
  | _ => True

theorem ledger_step (h : Ledger s) (op : Op) : Ledger (s.step op) ↔ s.KeepsLedger op := by
  rcases step_cases s op with hmove | ⟨heq, hno⟩
  · generalize s.step op = s' at hmove ⊢
    cases hmove with
    | added hstake hnew =>
      refine Iff.trans (ledger_added h rfl rfl) ?_
      simp [KeepsLedger, hstake, hnew]
    | erased hget =>
      refine iff_of_true (fun j w hw => ?_) trivial
      rw [Map.get_erase] at hw
      split at hw
      · cases hw
      · exact h j w hw
    | activated hget _ | unbonding hget _ | completed hget _ | jailed hget | unjailed hget _
    | slashed hget => exact iff_of_true (ledger_same h hget rfl rfl rfl) trivial
    | delegated hget hstatus =>
      rw [ledger_delegated h hget rfl rfl]
      simp [KeepsLedger, hget, hstatus]
    | undelegated hdelegator hget =>
      exact iff_of_true (ledger_undelegated h hdelegator hget rfl rfl) trivial
  · rw [heq]
    refine iff_of_true h ?_
    cases op with
    | addValidator id publicKey stake minStake =>
      exact fun hstake hnew => absurd (.added hstake hnew) (hno _)
    | delegate delegatorId id amount =>
      exact fun v hget hs => absurd (.delegated hget hs) (hno _)
    | _ => trivial

/-- The two sides of the ledger agree in every state of a run just when every step
of it keeps them so. -/
theorem ledger_iff (run : List Op) :
    (∀ before, before <+: run → Ledger (Trace.exec step .new before)) ↔
      Trace.Always step KeepsLedger .new run :=
  Trace.prefixes_iff_always (J := fun _ => True) (fun _ _ _ => trivial)
    (fun _ op _ h => ledger_step h op) trivial ledger_new

/-- A first delegation of fifty is written down as a hundred. -/
theorem ledger_fails : ¬ ∀ run : List Op, Ledger (Trace.exec step .new run) := by
  intro h
  let run : List Op := [.addValidator (.fill 32 1) [] 1000 100, .activateValidator (.fill 32 1) 5,
    .delegate (.fill 32 9) (.fill 32 1) 50]
  obtain ⟨v, hget⟩ := Option.isSome_iff_exists.mp (show
    ((Trace.exec step .new run).validators.get (.fill 32 1)).isSome = true by decide)
  have hledger := h run (.fill 32 1) v hget
  have hv : v.delegatedStake.toNat = 50 := by
    have hmap := congrArg (Option.map fun v => v.delegatedStake.toNat) hget
    exact (Option.some.inj (hmap.symm.trans (by decide)))
  rw [hv] at hledger
  exact absurd hledger (by decide)

end ValidatorSet

end LiteVision.Truth.Staking
