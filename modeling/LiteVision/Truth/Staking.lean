import LiteVision.Bytes
import LiteVision.Lib.Map
import LiteVision.Lib.Trace

/-!
# Staking

The validator set of `validator_set.rs`: validators and delegators in two maps,
with the total stake and the number of active validators kept beside them. What
only display code reads (voting power, uptime, rewards) is left out.
-/

namespace LiteVision.Truth.Staking

open Lib

inductive ValidatorStatus
  | pending
  | active
  | unbonding
  | jailed
  | removed
  deriving DecidableEq, Repr

structure ValidatorMetadata where
  endpoint : String
  name : String
  commissionRate : UInt32
  uptimeBlocks : UInt64
  missedBlocks : UInt64
  deriving DecidableEq

structure Validator where
  id : Bytes 32
  publicKey : List UInt8
  stake : UInt64
  delegatedStake : UInt64
  totalStake : UInt64
  status : ValidatorStatus
  metadata : ValidatorMetadata
  joinedAt : UInt64
  unbondingStart : Option UInt64
  deriving DecidableEq

namespace Validator

def new (id : Bytes 32) (publicKey : List UInt8) (stake : UInt64) : Validator where
  id
  publicKey
  stake
  delegatedStake := 0
  totalStake := stake
  status := .pending
  metadata := {
    endpoint := ""
    name := ""
    commissionRate := 500
    uptimeBlocks := 0
    missedBlocks := 0 }
  joinedAt := 0
  unbondingStart := none

def activate (v : Validator) (timestamp : UInt64) : Validator :=
  { v with status := .active, joinedAt := timestamp }

def addDelegation (v : Validator) (amount : UInt64) : Validator :=
  let delegatedStake := v.delegatedStake + amount
  { v with delegatedStake, totalStake := v.stake + delegatedStake }

def removeDelegation (v : Validator) (amount : UInt64) : Validator :=
  let delegatedStake := saturatingSub v.delegatedStake amount
  { v with delegatedStake, totalStake := v.stake + delegatedStake }

end Validator

structure Delegator where
  id : Bytes 32
  validatorId : Bytes 32
  stakedAmount : UInt64
  rewardsAccumulated : UInt64
  deriving DecidableEq

def Delegator.new (id validatorId : Bytes 32) (amount : UInt64) : Delegator where
  id
  validatorId
  stakedAmount := amount
  rewardsAccumulated := 0

inductive SlashType
  | doubleSign
  | doublePropose
  | surroundVote
  | unavailable
  | invalidVote
  deriving DecidableEq, Repr

/-- The offences that put a validator in jail. -/
def SlashType.jails : SlashType → Bool
  | .doubleSign | .doublePropose => true
  | _ => false

structure SlashEvent where
  validatorId : Bytes 32
  slashType : SlashType
  evidence : List UInt8
  blockHeight : UInt64
  slashPercentage : UInt32
  timestamp : UInt64
  deriving DecidableEq

def SlashEvent.slashAmount (event : SlashEvent) (stake : UInt64) : UInt64 :=
  stake * event.slashPercentage.toUInt64 / 100

inductive StakingError
  | validatorExists
  | validatorNotFound
  | delegatorNotFound
  | insufficientStake
  | invalidStateTransition
  | slashAmountTooLarge
  deriving DecidableEq, Repr

/-- `saturating_sub` on the `u32` counter. -/
def saturatingPred (n : UInt32) : UInt32 := if n = 0 then 0 else n - 1

theorem toNat_saturatingPred (n : UInt32) : (saturatingPred n).toNat = n.toNat - 1 := by
  unfold saturatingPred
  split
  · rename_i h
    simp [h]
  · rename_i h
    have hpos : 0 < n.toNat := Nat.pos_of_ne_zero fun h0 => h (UInt32.toNat_inj.mp h0)
    exact UInt32.toNat_sub_of_le n 1 (UInt32.le_iff_toNat_le.mpr hpos)

structure ValidatorSet where
  validators : Map (Bytes 32) Validator
  delegators : Map (Bytes 32) Delegator
  totalStake : UInt64
  activeCount : UInt32
  currentEpoch : UInt64
  deriving DecidableEq

namespace ValidatorSet

def new : ValidatorSet where
  validators := .empty
  delegators := .empty
  totalStake := 0
  activeCount := 0
  currentEpoch := 0

def addValidator (s : ValidatorSet) (validator : Validator) (minStake : UInt64) :
    Except StakingError Unit × ValidatorSet :=
  if validator.stake < minStake then (.error .insufficientStake, s)
  else if (s.validators.get validator.id).isSome then (.error .validatorExists, s)
  else (.ok (), { s with
    validators := s.validators.insert validator.id { validator with status := .pending }
    totalStake := s.totalStake + validator.totalStake })

/-- `get_mut(validator_id)` and the check of the status that follows it. -/
def validatorIn (s : ValidatorSet) (validatorId : Bytes 32) (status : ValidatorStatus) :
    Except StakingError Validator :=
  match s.validators.get validatorId with
  | none => .error .validatorNotFound
  | some validator =>
    if validator.status ≠ status then .error .invalidStateTransition else .ok validator

def activateValidator (s : ValidatorSet) (validatorId : Bytes 32) (timestamp : UInt64) :
    Except StakingError Unit × ValidatorSet :=
  match s.validatorIn validatorId .pending with
  | .error err => (.error err, s)
  | .ok validator => (.ok (), { s with
      validators := s.validators.insert validatorId (validator.activate timestamp)
      activeCount := s.activeCount + 1 })

/-- The delegators of the validator stay. -/
def removeValidator (s : ValidatorSet) (validatorId : Bytes 32) :
    Except StakingError Validator × ValidatorSet :=
  match s.validators.get validatorId with
  | none => (.error .validatorNotFound, s)
  | some validator => (.ok validator, { s with
      validators := s.validators.erase validatorId
      totalStake := saturatingSub s.totalStake validator.totalStake
      activeCount :=
        if validator.status = .active then saturatingPred s.activeCount else s.activeCount })

def startUnbonding (s : ValidatorSet) (validatorId : Bytes 32) (timestamp : UInt64) :
    Except StakingError Unit × ValidatorSet :=
  match s.validatorIn validatorId .active with
  | .error err => (.error err, s)
  | .ok validator => (.ok (), { s with
      validators := s.validators.insert validatorId
        { validator with status := .unbonding, unbondingStart := some timestamp }
      activeCount := saturatingPred s.activeCount })

def completeUnbonding (s : ValidatorSet) (validatorId : Bytes 32) :
    Except StakingError UInt64 × ValidatorSet :=
  match s.validatorIn validatorId .unbonding with
  | .error err => (.error err, s)
  | .ok validator => (.ok validator.stake, { s with
      validators := s.validators.insert validatorId
        { validator with status := .removed, unbondingStart := none }
      totalStake := saturatingSub s.totalStake validator.totalStake })

/-- The status is looked at after it was set, so the counter never moves. -/
def jailValidator (s : ValidatorSet) (validatorId : Bytes 32) :
    Except StakingError Unit × ValidatorSet :=
  match s.validators.get validatorId with
  | none => (.error .validatorNotFound, s)
  | some validator =>
    let validator := { validator with status := .jailed }
    (.ok (), { s with
      validators := s.validators.insert validatorId validator
      activeCount :=
        if validator.status = .active then saturatingPred s.activeCount else s.activeCount })

def unjailValidator (s : ValidatorSet) (validatorId : Bytes 32) :
    Except StakingError Unit × ValidatorSet :=
  match s.validatorIn validatorId .jailed with
  | .error err => (.error err, s)
  | .ok validator => (.ok (), { s with
      validators := s.validators.insert validatorId { validator with status := .active }
      activeCount := s.activeCount + 1 })

/-- What a slashed validator is left with. -/
def slashed (validator : Validator) (event : SlashEvent) : Validator :=
  let stake := saturatingSub validator.stake (event.slashAmount validator.stake)
  { validator with
    stake
    totalStake := stake + validator.delegatedStake
    status := if event.slashType.jails then .jailed else validator.status }

def slash (s : ValidatorSet) (event : SlashEvent) : Except StakingError UInt64 × ValidatorSet :=
  match s.validators.get event.validatorId with
  | none => (.error .validatorNotFound, s)
  | some validator =>
    let slashAmount := event.slashAmount validator.stake
    (.ok slashAmount, { s with
      validators := s.validators.insert event.validatorId (slashed validator event)
      totalStake := saturatingSub s.totalStake slashAmount
      activeCount := if event.slashType.jails then saturatingPred s.activeCount else s.activeCount })

/-- `entry(delegator_id).or_insert_with(..)`, and the amount added to what is there:
a new delegator starts with the amount and has it added once more. -/
def credited (s : ValidatorSet) (delegatorId validatorId : Bytes 32) (amount : UInt64) : Delegator :=
  let delegator := (s.delegators.get delegatorId).getD (.new delegatorId validatorId amount)
  { delegator with stakedAmount := delegator.stakedAmount + amount }

def delegate (s : ValidatorSet) (delegatorId validatorId : Bytes 32) (amount : UInt64) :
    Except StakingError Unit × ValidatorSet :=
  match s.validatorIn validatorId .active with
  | .error err => (.error err, s)
  | .ok validator => (.ok (), { s with
      delegators := s.delegators.insert delegatorId (s.credited delegatorId validatorId amount)
      validators := s.validators.insert validatorId (validator.addDelegation amount)
      totalStake := s.totalStake + amount })

def undelegate (s : ValidatorSet) (delegatorId : Bytes 32) (amount : UInt64) :
    Except StakingError UInt64 × ValidatorSet :=
  match s.delegators.get delegatorId with
  | none => (.error .delegatorNotFound, s)
  | some delegator =>
    match s.validators.get delegator.validatorId with
    | none => (.error .validatorNotFound, s)
    | some validator =>
      let actualAmount := min amount delegator.stakedAmount
      (.ok actualAmount, { s with
        delegators := s.delegators.insert delegatorId
          { delegator with stakedAmount := saturatingSub delegator.stakedAmount actualAmount }
        validators := s.validators.insert delegator.validatorId
          (validator.removeDelegation actualAmount)
        totalStake := saturatingSub s.totalStake actualAmount })

-- ---------------------------------------------------------------------------
-- Steps
-- ---------------------------------------------------------------------------

/-- A call of the set; a validator is added as `Validator::new` makes it. -/
inductive Op
  | addValidator (id : Bytes 32) (publicKey : List UInt8) (stake minStake : UInt64)
  | activateValidator (id : Bytes 32) (timestamp : UInt64)
  | removeValidator (id : Bytes 32)
  | startUnbonding (id : Bytes 32) (timestamp : UInt64)
  | completeUnbonding (id : Bytes 32)
  | jailValidator (id : Bytes 32)
  | unjailValidator (id : Bytes 32)
  | slash (event : SlashEvent)
  | delegate (delegatorId id : Bytes 32) (amount : UInt64)
  | undelegate (delegatorId : Bytes 32) (amount : UInt64)
  deriving DecidableEq

def step (s : ValidatorSet) : Op → ValidatorSet
  | .addValidator id publicKey stake minStake =>
    (s.addValidator (.new id publicKey stake) minStake).2
  | .activateValidator id timestamp => (s.activateValidator id timestamp).2
  | .removeValidator id => (s.removeValidator id).2
  | .startUnbonding id timestamp => (s.startUnbonding id timestamp).2
  | .completeUnbonding id => (s.completeUnbonding id).2
  | .jailValidator id => (s.jailValidator id).2
  | .unjailValidator id => (s.unjailValidator id).2
  | .slash event => (s.slash event).2
  | .delegate delegatorId id amount => (s.delegate delegatorId id amount).2
  | .undelegate delegatorId amount => (s.undelegate delegatorId amount).2

/-- What a call that succeeds finds, and the set it leaves. -/
inductive Moves (s : ValidatorSet) : Op → ValidatorSet → Prop
  | added {id : Bytes 32} {publicKey : List UInt8} {stake minStake : UInt64}
      (hstake : ¬ stake < minStake) (hnew : s.validators.get id = none) :
      Moves s (.addValidator id publicKey stake minStake) { s with
        validators := s.validators.insert id (.new id publicKey stake)
        totalStake := s.totalStake + stake }
  | activated {id : Bytes 32} {timestamp : UInt64} {v : Validator}
      (hget : s.validators.get id = some v) (hstatus : v.status = .pending) :
      Moves s (.activateValidator id timestamp) { s with
        validators := s.validators.insert id (v.activate timestamp)
        activeCount := s.activeCount + 1 }
  | erased {id : Bytes 32} {v : Validator} (hget : s.validators.get id = some v) :
      Moves s (.removeValidator id) { s with
        validators := s.validators.erase id
        totalStake := saturatingSub s.totalStake v.totalStake
        activeCount := if v.status = .active then saturatingPred s.activeCount else s.activeCount }
  | unbonding {id : Bytes 32} {timestamp : UInt64} {v : Validator}
      (hget : s.validators.get id = some v) (hstatus : v.status = .active) :
      Moves s (.startUnbonding id timestamp) { s with
        validators := s.validators.insert id
          { v with status := .unbonding, unbondingStart := some timestamp }
        activeCount := saturatingPred s.activeCount }
  | completed {id : Bytes 32} {v : Validator}
      (hget : s.validators.get id = some v) (hstatus : v.status = .unbonding) :
      Moves s (.completeUnbonding id) { s with
        validators := s.validators.insert id { v with status := .removed, unbondingStart := none }
        totalStake := saturatingSub s.totalStake v.totalStake }
  | jailed {id : Bytes 32} {v : Validator} (hget : s.validators.get id = some v) :
      Moves s (.jailValidator id) { s with
        validators := s.validators.insert id { v with status := .jailed } }
  | unjailed {id : Bytes 32} {v : Validator}
      (hget : s.validators.get id = some v) (hstatus : v.status = .jailed) :
      Moves s (.unjailValidator id) { s with
        validators := s.validators.insert id { v with status := .active }
        activeCount := s.activeCount + 1 }
  | slashed {event : SlashEvent} {v : Validator}
      (hget : s.validators.get event.validatorId = some v) :
      Moves s (.slash event) { s with
        validators := s.validators.insert event.validatorId (slashed v event)
        totalStake := saturatingSub s.totalStake (event.slashAmount v.stake)
        activeCount :=
          if event.slashType.jails then saturatingPred s.activeCount else s.activeCount }
  | delegated {delegatorId id : Bytes 32} {amount : UInt64} {v : Validator}
      (hget : s.validators.get id = some v) (hstatus : v.status = .active) :
      Moves s (.delegate delegatorId id amount) { s with
        delegators := s.delegators.insert delegatorId (s.credited delegatorId id amount)
        validators := s.validators.insert id (v.addDelegation amount)
        totalStake := s.totalStake + amount }
  | undelegated {delegatorId : Bytes 32} {amount : UInt64} {d : Delegator} {v : Validator}
      (hdelegator : s.delegators.get delegatorId = some d)
      (hget : s.validators.get d.validatorId = some v) :
      Moves s (.undelegate delegatorId amount) { s with
        delegators := s.delegators.insert delegatorId
          { d with stakedAmount := saturatingSub d.stakedAmount (min amount d.stakedAmount) }
        validators := s.validators.insert d.validatorId
          (v.removeDelegation (min amount d.stakedAmount))
        totalStake := saturatingSub s.totalStake (min amount d.stakedAmount) }

theorem validatorIn_cases (s : ValidatorSet) (id : Bytes 32) (status : ValidatorStatus) :
    (∃ v, s.validatorIn id status = .ok v ∧ s.validators.get id = some v ∧ v.status = status) ∨
    (∃ err, s.validatorIn id status = .error err ∧
      ∀ v, s.validators.get id = some v → v.status ≠ status) := by
  cases hget : s.validators.get id with
  | none => exact .inr ⟨.validatorNotFound, by simp [validatorIn, hget], fun _ h => nomatch h⟩
  | some v =>
    by_cases hstatus : v.status = status
    · exact .inl ⟨v, by simp [validatorIn, hget, hstatus], rfl, hstatus⟩
    · refine .inr ⟨.invalidStateTransition, by simp [validatorIn, hget, hstatus], ?_⟩
      rintro _ ⟨⟩
      exact hstatus

theorem step_cases (s : ValidatorSet) (op : Op) :
    Moves s op (step s op) ∨ (step s op = s ∧ ∀ s', ¬ Moves s op s') := by
  cases op with
  | addValidator id publicKey stake minStake =>
    by_cases hstake : stake < minStake
    · refine .inr ⟨by simp [step, addValidator, Validator.new, hstake], ?_⟩
      rintro _ ⟨hno, -⟩
      exact hno hstake
    · cases hget : s.validators.get id with
      | none =>
        have heq : s.addValidator (.new id publicKey stake) minStake = (.ok (), { s with
            validators := s.validators.insert id (.new id publicKey stake)
            totalStake := s.totalStake + stake }) := by
          simp [addValidator, Validator.new, hstake, hget]
        simpa only [step, heq] using .inl (.added hstake hget)
      | some v =>
        refine .inr ⟨by simp [step, addValidator, Validator.new, hstake, hget], ?_⟩
        rintro _ ⟨-, hnew⟩
        cases hget.symm.trans hnew
  | activateValidator id timestamp =>
    rcases validatorIn_cases s id .pending with ⟨v, heq, hget, hstatus⟩ | ⟨err, heq, hno⟩
    · simpa only [step, activateValidator, heq] using .inl (.activated hget hstatus)
    · refine .inr ⟨by simp only [step, activateValidator, heq], ?_⟩
      intro _ hmove
      cases hmove with
      | activated hget hstatus => exact hno _ hget hstatus
  | removeValidator id =>
    cases hget : s.validators.get id with
    | none =>
      refine .inr ⟨by simp only [step, removeValidator, hget], ?_⟩
      intro _ hmove
      cases hmove with
      | erased h => cases hget.symm.trans h
    | some v => simpa only [step, removeValidator, hget] using .inl (.erased hget)
  | startUnbonding id timestamp =>
    rcases validatorIn_cases s id .active with ⟨v, heq, hget, hstatus⟩ | ⟨err, heq, hno⟩
    · simpa only [step, startUnbonding, heq] using .inl (.unbonding hget hstatus)
    · refine .inr ⟨by simp only [step, startUnbonding, heq], ?_⟩
      intro _ hmove
      cases hmove with
      | unbonding hget hstatus => exact hno _ hget hstatus
  | completeUnbonding id =>
    rcases validatorIn_cases s id .unbonding with ⟨v, heq, hget, hstatus⟩ | ⟨err, heq, hno⟩
    · simpa only [step, completeUnbonding, heq] using .inl (.completed hget hstatus)
    · refine .inr ⟨by simp only [step, completeUnbonding, heq], ?_⟩
      intro _ hmove
      cases hmove with
      | completed hget hstatus => exact hno _ hget hstatus
  | jailValidator id =>
    cases hget : s.validators.get id with
    | none =>
      refine .inr ⟨by simp only [step, jailValidator, hget], ?_⟩
      intro _ hmove
      cases hmove with
      | jailed h => cases hget.symm.trans h
    | some v => simpa [step, jailValidator, hget] using .inl (.jailed hget)
  | unjailValidator id =>
    rcases validatorIn_cases s id .jailed with ⟨v, heq, hget, hstatus⟩ | ⟨err, heq, hno⟩
    · simpa only [step, unjailValidator, heq] using .inl (.unjailed hget hstatus)
    · refine .inr ⟨by simp only [step, unjailValidator, heq], ?_⟩
      intro _ hmove
      cases hmove with
      | unjailed hget hstatus => exact hno _ hget hstatus
  | slash event =>
    cases hget : s.validators.get event.validatorId with
    | none =>
      refine .inr ⟨by simp only [step, slash, hget], ?_⟩
      intro _ hmove
      cases hmove with
      | slashed h => cases hget.symm.trans h
    | some v => simpa only [step, slash, hget] using .inl (.slashed hget)
  | delegate delegatorId id amount =>
    rcases validatorIn_cases s id .active with ⟨v, heq, hget, hstatus⟩ | ⟨err, heq, hno⟩
    · simpa only [step, delegate, heq] using .inl (.delegated hget hstatus)
    · refine .inr ⟨by simp only [step, delegate, heq], ?_⟩
      intro _ hmove
      cases hmove with
      | delegated hget hstatus => exact hno _ hget hstatus
  | undelegate delegatorId amount =>
    cases hdelegator : s.delegators.get delegatorId with
    | none =>
      refine .inr ⟨by simp only [step, undelegate, hdelegator], ?_⟩
      intro _ hmove
      cases hmove with
      | undelegated h _ => cases hdelegator.symm.trans h
    | some d =>
      cases hget : s.validators.get d.validatorId with
      | none =>
        refine .inr ⟨by simp only [step, undelegate, hdelegator, hget], ?_⟩
        intro _ hmove
        cases hmove with
        | undelegated h hv =>
          obtain rfl := Option.some.inj (hdelegator.symm.trans h)
          cases hget.symm.trans hv
      | some v =>
        simpa only [step, undelegate, hdelegator, hget] using .inl (.undelegated hdelegator hget)

end ValidatorSet

end LiteVision.Truth.Staking
