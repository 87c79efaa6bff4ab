import LiteVision.Bytes

/-!
# Validators

One entry of the validator list, as `validator.rs` builds and changes it.
-/

namespace LiteVision.Truth

inductive ValidatorStatus
  | inactive
  | active
  | jailed
  | unbonding
  | removed
  deriving DecidableEq, Repr

structure ValidatorMetadata where
  name : String
  endpoint : Option String
  description : String
  deriving DecidableEq

structure Validator where
  id : Bytes 32
  stake : UInt64
  delegatedStake : UInt64
  pubkey : Bytes 32
  power : UInt64
  status : ValidatorStatus
  jailedUntil : UInt64
  unbondingStart : Option UInt64
  commissionRate : UInt64
  selfDelegation : UInt64
  metadata : ValidatorMetadata
  deriving DecidableEq

namespace Validator

def calculatePower (stake : UInt64) : UInt64 := stake / 1000

def new (id : Bytes 32) (stake : UInt64) (pubkey : Bytes 32) : Validator where
  id
  stake
  delegatedStake := 0
  pubkey
  power := calculatePower stake
  status := .active
  jailedUntil := 0
  unbondingStart := none
  commissionRate := 1000
  selfDelegation := stake
  metadata := { name := "", endpoint := none, description := "" }

def jailPeriod : UInt64 := 10

def unbondingPeriod : UInt64 := 21

def updateStake (v : Validator) (newStake : UInt64) : Validator :=
  { v with
    stake := newStake
    selfDelegation := newStake
    power := calculatePower (newStake + v.delegatedStake) }

def addDelegation (v : Validator) (amount : UInt64) : Validator :=
  let delegatedStake := v.delegatedStake + amount
  { v with delegatedStake, power := calculatePower (v.stake + delegatedStake) }

def removeDelegation (v : Validator) (amount : UInt64) : Except String Unit × Validator :=
  if amount ≤ v.delegatedStake then
    let delegatedStake := v.delegatedStake - amount
    (.ok (), { v with delegatedStake, power := calculatePower (v.stake + delegatedStake) })
  else (.error "Insufficient delegated stake", v)

def totalStake (v : Validator) : UInt64 := v.stake + v.delegatedStake

def jail (v : Validator) (currentEpoch slashAmount : UInt64) : Validator :=
  let stake := saturatingSub v.stake slashAmount
  { v with
    status := .jailed
    jailedUntil := currentEpoch + jailPeriod
    stake
    power := calculatePower (stake + v.delegatedStake) }

def unjail (v : Validator) (currentEpoch : UInt64) : Except String Unit × Validator :=
  if currentEpoch < v.jailedUntil then (.error "Jail period not yet served", v)
  else (.ok (), { v with status := .active, jailedUntil := 0 })

def startUnbonding (v : Validator) (currentEpoch : UInt64) : Validator :=
  { v with status := .unbonding, unbondingStart := some currentEpoch }

/-- The status is not looked at. -/
def canUnbond (v : Validator) (currentEpoch : UInt64) : Bool :=
  v.unbondingStart.any fun start => start + unbondingPeriod ≤ currentEpoch

def remove (v : Validator) : Validator := { v with status := .removed }

def activeOrInactive (v : Validator) : Bool := v.status = .active

-- No change of a validator changes its id.

theorem id_updateStake (v : Validator) (newStake : UInt64) : (v.updateStake newStake).id = v.id := rfl

theorem id_addDelegation (v : Validator) (amount : UInt64) : (v.addDelegation amount).id = v.id := rfl

theorem id_jail (v : Validator) (currentEpoch slashAmount : UInt64) :
    (v.jail currentEpoch slashAmount).id = v.id := rfl

theorem id_startUnbonding (v : Validator) (currentEpoch : UInt64) :
    (v.startUnbonding currentEpoch).id = v.id := rfl

theorem id_remove (v : Validator) : v.remove.id = v.id := rfl

@[simp] theorem totalStake_new (id : Bytes 32) (stake : UInt64) (pubkey : Bytes 32) :
    (new id stake pubkey).totalStake = stake := UInt64.add_zero stake

@[simp] theorem activeOrInactive_new (id : Bytes 32) (stake : UInt64) (pubkey : Bytes 32) :
    (new id stake pubkey).activeOrInactive = true := rfl

end Validator

end LiteVision.Truth
