import LiteVision.Truth.Validator
import LiteVision.Lib.Keyed
import LiteVision.Lib.Map
import LiteVision.Lib.Trace
import Mathlib.Data.UInt

/-!
# The validator set

The validator list of `validator.rs` with its total stake, delegations and slashing
records. An amount that the code computes in floating point (a slash, a commission)
is whatever word the call brings. Rewards are paid in the order of a hash map.
-/

namespace LiteVision.Truth

open Lib

structure Delegation where
  delegatorId : Bytes 32
  validatorId : Bytes 32
  amount : UInt64
  accumulatedRewards : UInt64
  deriving DecidableEq

def Delegation.new (delegatorId validatorId : Bytes 32) (amount : UInt64) : Delegation where
  delegatorId
  validatorId
  amount
  accumulatedRewards := 0

inductive SlashType
  | doubleSign
  | equivocation
  | livenessFailure
  deriving DecidableEq, Repr

structure SlashingRecord where
  validatorId : Bytes 32
  epoch : UInt64
  slashType : SlashType
  slashAmount : UInt64
  evidenceHash : Bytes 32
  deriving DecidableEq

/-- `scaled` is the total stake times the factor of the offence. -/
def SlashType.slashAmount (slashType : SlashType) (scaled : UInt64) : UInt64 :=
  match slashType with
  | .doubleSign => scaled
  | .equivocation => scaled
  | .livenessFailure => 0

def SlashingRecord.new (validatorId : Bytes 32) (epoch : UInt64) (slashType : SlashType)
    (scaled : UInt64) (evidenceHash : Bytes 32) : SlashingRecord where
  validatorId
  epoch
  slashType
  slashAmount := slashType.slashAmount scaled
  evidenceHash

structure ValidatorSet where
  validators : List Validator
  totalStake : UInt64
  delegations : Map (Bytes 32) (List Delegation)
  slashingRecords : List SlashingRecord
  currentEpoch : UInt64
  deriving DecidableEq

namespace ValidatorSet

def new : ValidatorSet where
  validators := []
  totalStake := 0
  delegations := .empty
  slashingRecords := []
  currentEpoch := 0

def maxValidators : Nat := 100

def minStake : UInt64 := 1000

def add (s : ValidatorSet) (validator : Validator) : Except String Unit × ValidatorSet :=
  if maxValidators ≤ s.validators.length then (.error "Maximum validator count reached", s)
  else if validator.stake < minStake then (.error "Minimum stake 1000 required", s)
  else if s.validators.any fun v => v.id = validator.id then
    (.error "Validator already exists", s)
  else (.ok (), { s with
    totalStake := s.totalStake + validator.totalStake
    validators := s.validators ++ [validator] })

/-- `get`, and what `get_mut` finds. -/
def get (s : ValidatorSet) (id : Bytes 32) : Option Validator :=
  Keyed.find Validator.id s.validators id

/-- The list after a change of what `get_mut` finds. -/
def update (s : ValidatorSet) (id : Bytes 32) (f : Validator → Validator) : List Validator :=
  Keyed.update Validator.id id f s.validators

/-- The subtraction is unchecked. -/
def remove (s : ValidatorSet) (id : Bytes 32) : Option Validator × ValidatorSet :=
  match s.get id with
  | none => (none, s)
  | some v => (some v, { s with
      validators := Keyed.erase Validator.id s.validators id
      totalStake := s.totalStake - v.totalStake })

def getActive (s : ValidatorSet) : List Validator :=
  s.validators.filter fun v => v.status = .active

def threshold (s : ValidatorSet) : Nat :=
  let active := s.getActive
  if active.isEmpty then 0 else active.length * 2 / 3 + 1

def totalActiveStake (s : ValidatorSet) : UInt64 := (s.getActive.map Validator.totalStake).sum

def bond (s : ValidatorSet) (validatorId : Bytes 32) (amount : UInt64) :
    Except String Unit × ValidatorSet :=
  match s.get validatorId with
  | none => (.error "Validator not found", s)
  | some _ => (.ok (), { s with
      validators := s.update validatorId fun v => v.updateStake (v.stake + amount)
      totalStake := s.totalStake + amount })

def unbondStart (s : ValidatorSet) (validatorId : Bytes 32) : Except String Unit × ValidatorSet :=
  match s.get validatorId with
  | none => (.error "Validator not found", s)
  | some validator =>
    if validator.status ≠ .active then (.error "Validator not active", s)
    else (.ok (), { s with
      validators := s.update validatorId fun v => v.startUnbonding s.currentEpoch })

/-- Only the period is checked, and the start of it stays. -/
def unbondComplete (s : ValidatorSet) (validatorId : Bytes 32) :
    Except String UInt64 × ValidatorSet :=
  match s.get validatorId with
  | none => (.error "Validator not found", s)
  | some validator =>
    if ¬ validator.canUnbond s.currentEpoch then (.error "Unbonding period not complete", s)
    else (.ok validator.stake, { s with
      validators := s.update validatorId Validator.remove
      totalStake := saturatingSub s.totalStake validator.stake })

def delegate (s : ValidatorSet) (delegatorId validatorId : Bytes 32) (amount : UInt64) :
    Except String Unit × ValidatorSet :=
  match s.get validatorId with
  | none => (.error "Validator not found", s)
  | some validator =>
    if validator.status ≠ .active then (.error "Cannot delegate to inactive validator", s)
    else (.ok (), { s with
      validators := s.update validatorId fun v => v.addDelegation amount
      totalStake := s.totalStake + amount
      delegations := s.delegations.insert delegatorId
        ((s.delegations.get delegatorId).getD [] ++ [.new delegatorId validatorId amount]) })

def slash (s : ValidatorSet) (validatorId : Bytes 32) (slashType : SlashType)
    (evidenceHash : Bytes 32) (scaled : UInt64) : Except String UInt64 × ValidatorSet :=
  match s.get validatorId with
  | none => (.error "Validator not found", s)
  | some _ =>
    let record := SlashingRecord.new validatorId s.currentEpoch slashType scaled evidenceHash
    (.ok record.slashAmount, { s with
      validators := s.update validatorId fun v => v.jail s.currentEpoch record.slashAmount
      totalStake := saturatingSub s.totalStake record.slashAmount
      slashingRecords := s.slashingRecords ++ [record] })

/-- What an epoch transition does to one validator. -/
def released (newEpoch : UInt64) (v : Validator) : Validator :=
  if v.status = .jailed ∧ v.jailedUntil ≤ newEpoch then (v.unjail newEpoch).2 else v

def processEpochTransition (s : ValidatorSet) (newEpoch : UInt64) :
    List (Bytes 32) × ValidatorSet :=
  let validators := s.validators.map (released newEpoch)
  let exited := validators.filter fun v => v.status = .unbonding ∧ v.canUnbond newEpoch
  (exited.map Validator.id, { s with validators, currentEpoch := newEpoch })

/-- What one active validator gets, after its commission. -/
def netReward (s : ValidatorSet) (totalReward : UInt64) (commission : Bytes 32 → UInt64)
    (v : Validator) : UInt64 :=
  saturatingSub totalReward (commission v.id) * v.totalStake / s.totalActiveStake

def calculateRewards (s : ValidatorSet) (totalReward : UInt64) (commission : Bytes 32 → UInt64) :
    Map (Bytes 32) UInt64 :=
  if s.totalActiveStake = 0 ∨ totalReward = 0 then .empty
  else s.getActive.foldl (fun rewards v =>
    rewards.insert v.id (s.netReward totalReward commission v)) .empty

/-- `get_mut` and `update_stake` for one entry of the rewards. -/
def pay (validators : List Validator) (entry : Bytes 32 × UInt64) : List Validator :=
  Keyed.update Validator.id entry.1 (fun v => v.updateStake (v.stake + entry.2)) validators

variable (it : Map.Iteration (Bytes 32) UInt64)

def distributeRewards (s : ValidatorSet) (totalReward : UInt64) (commission : Bytes 32 → UInt64) :
    Map (Bytes 32) UInt64 × ValidatorSet :=
  let rewards := s.calculateRewards totalReward commission
  (rewards, { s with
    validators := (it.entries rewards).foldl pay s.validators
    totalStake := s.totalStake + totalReward })

def sortByPower (s : ValidatorSet) : ValidatorSet :=
  { s with validators := s.validators.mergeSort fun a b => b.power ≤ a.power }

-- ---------------------------------------------------------------------------
-- Steps
-- ---------------------------------------------------------------------------

/-- A call of the set; a validator is added as `Validator::new` makes it. -/
inductive Op
  | add (id : Bytes 32) (stake : UInt64) (pubkey : Bytes 32)
  | remove (id : Bytes 32)
  | bond (id : Bytes 32) (amount : UInt64)
  | unbondStart (id : Bytes 32)
  | unbondComplete (id : Bytes 32)
  | delegate (delegatorId id : Bytes 32) (amount : UInt64)
  | slash (id : Bytes 32) (slashType : SlashType) (evidenceHash : Bytes 32) (scaled : UInt64)
  | processEpochTransition (newEpoch : UInt64)
  | distributeRewards (totalReward : UInt64) (commission : Bytes 32 → UInt64)

def step (s : ValidatorSet) : Op → ValidatorSet
  | .add id stake pubkey => (s.add (.new id stake pubkey)).2
  | .remove id => (s.remove id).2
  | .bond id amount => (s.bond id amount).2
  | .unbondStart id => (s.unbondStart id).2
  | .unbondComplete id => (s.unbondComplete id).2
  | .delegate delegatorId id amount => (s.delegate delegatorId id amount).2
  | .slash id slashType evidenceHash scaled => (s.slash id slashType evidenceHash scaled).2
  | .processEpochTransition newEpoch => (s.processEpochTransition newEpoch).2
  | .distributeRewards totalReward commission => (s.distributeRewards it totalReward commission).2

/-- What a call that succeeds finds, and the set it leaves. -/
inductive Moves (s : ValidatorSet) : Op → ValidatorSet → Prop
  | added {id pubkey : Bytes 32} {stake : UInt64} (hroom : s.validators.length < maxValidators)
      (hstake : ¬ stake < minStake) (hnew : s.get id = none) :
      Moves s (.add id stake pubkey) { s with
        totalStake := s.totalStake + stake
        validators := s.validators ++ [.new id stake pubkey] }
  | erased {id : Bytes 32} {v : Validator} (hget : s.get id = some v) :
      Moves s (.remove id) { s with
        validators := Keyed.erase Validator.id s.validators id
        totalStake := s.totalStake - v.totalStake }
  | bonded {id : Bytes 32} {amount : UInt64} {v : Validator} (hget : s.get id = some v) :
      Moves s (.bond id amount) { s with
        validators := s.update id fun v => v.updateStake (v.stake + amount)
        totalStake := s.totalStake + amount }
  | unbonding {id : Bytes 32} {v : Validator} (hget : s.get id = some v)
      (hstatus : v.status = .active) :
      Moves s (.unbondStart id) { s with
        validators := s.update id fun v => v.startUnbonding s.currentEpoch }
  | exited {id : Bytes 32} {v : Validator} (hget : s.get id = some v)
      (hcan : v.canUnbond s.currentEpoch = true) :
      Moves s (.unbondComplete id) { s with
        validators := s.update id Validator.remove
        totalStake := saturatingSub s.totalStake v.stake }
  | delegated {delegatorId id : Bytes 32} {amount : UInt64} {v : Validator}
      (hget : s.get id = some v) (hstatus : v.status = .active) :
      Moves s (.delegate delegatorId id amount) { s with
        validators := s.update id fun v => v.addDelegation amount
        totalStake := s.totalStake + amount
        delegations := s.delegations.insert delegatorId
          ((s.delegations.get delegatorId).getD [] ++ [.new delegatorId id amount]) }
  | slashed {id evidenceHash : Bytes 32} {slashType : SlashType} {scaled : UInt64} {v : Validator}
      (hget : s.get id = some v) :
      Moves s (.slash id slashType evidenceHash scaled) { s with
        validators := s.update id fun v => v.jail s.currentEpoch (slashType.slashAmount scaled)
        totalStake := saturatingSub s.totalStake (slashType.slashAmount scaled)
        slashingRecords := s.slashingRecords ++
          [.new id s.currentEpoch slashType scaled evidenceHash] }
  | epoch {newEpoch : UInt64} :
      Moves s (.processEpochTransition newEpoch) { s with
        validators := s.validators.map (released newEpoch)
        currentEpoch := newEpoch }
  | rewarded {totalReward : UInt64} {commission : Bytes 32 → UInt64} :
      Moves s (.distributeRewards totalReward commission) { s with
        validators := (it.entries (s.calculateRewards totalReward commission)).foldl pay s.validators
        totalStake := s.totalStake + totalReward }

theorem released_cases (newEpoch : UInt64) (v : Validator) :
    released newEpoch v = v ∨
      (v.status = .jailed ∧
        released newEpoch v = { v with status := .active, jailedUntil := 0 }) := by
  unfold released Validator.unjail
  split
  · rename_i hserved
    split
    · exact .inl rfl
    · exact .inr ⟨hserved.1, rfl⟩
  · exact .inl rfl

theorem id_released (newEpoch : UInt64) (v : Validator) : (released newEpoch v).id = v.id := by
  rcases released_cases newEpoch v with heq | ⟨-, heq⟩ <;> rw [heq]

theorem map_id_released (newEpoch : UInt64) (l : List Validator) :
    (l.map (released newEpoch)).map Validator.id = l.map Validator.id := by
  rw [List.map_map]
  exact List.map_congr_left fun v _ => id_released newEpoch v

theorem add_cases (s : ValidatorSet) (validator : Validator) :
    (s.validators.length < maxValidators ∧ ¬ validator.stake < minStake ∧
      s.get validator.id = none ∧ s.add validator = (.ok (), { s with
        totalStake := s.totalStake + validator.totalStake
        validators := s.validators ++ [validator] })) ∨
    (¬ (s.validators.length < maxValidators ∧ ¬ validator.stake < minStake ∧
      s.get validator.id = none) ∧ ∃ err, s.add validator = (.error err, s)) := by
  have hany : (s.validators.any fun v => v.id = validator.id) = true ↔
      s.get validator.id ≠ none := by simp [get, Keyed.find]
  unfold add
  split
  · rename_i hfull
    exact .inr ⟨fun h => absurd h.1 (Nat.not_lt.mpr hfull), _, rfl⟩
  · rename_i hroom
    split
    · rename_i hstake
      exact .inr ⟨fun h => h.2.1 hstake, _, rfl⟩
    · rename_i hstake
      split
      · rename_i hexists
        exact .inr ⟨fun h => hany.mp hexists h.2.2, _, rfl⟩
      · rename_i hnew
        exact .inl ⟨Nat.not_le.mp hroom, hstake, not_not.mp (mt hany.mpr hnew), rfl⟩

theorem step_cases (s : ValidatorSet) (op : Op) :
    Moves it s op (s.step it op) ∨ (s.step it op = s ∧ ∀ s', ¬ Moves it s op s') := by
  cases op with
  | add id stake pubkey =>
    rcases add_cases s (.new id stake pubkey) with
      ⟨hroom, hstake, hnew, heq⟩ | ⟨hno, err, heq⟩
    · rw [Validator.totalStake_new] at heq
      simpa only [step, heq] using .inl (.added hroom hstake hnew)
    · refine .inr ⟨by simp only [step, heq], ?_⟩
      intro _ hmove
      cases hmove with
      | added hroom hstake hnew => exact hno ⟨hroom, hstake, hnew⟩
  | remove id =>
    cases hget : s.get id with
    | none =>
      refine .inr ⟨by simp only [step, remove, hget], ?_⟩
      intro _ hmove
      cases hmove with
      | erased h => cases hget.symm.trans h
    | some v => simpa only [step, remove, hget] using .inl (.erased hget)
  | bond id amount =>
    cases hget : s.get id with
    | none =>
      refine .inr ⟨by simp only [step, bond, hget], ?_⟩
      intro _ hmove
      cases hmove with
      | bonded h => cases hget.symm.trans h
    | some v => simpa only [step, bond, hget] using .inl (.bonded hget)
  | unbondStart id =>
    cases hget : s.get id with
    | none =>
      refine .inr ⟨by simp only [step, unbondStart, hget], ?_⟩
      intro _ hmove
      cases hmove with
      | unbonding h _ => cases hget.symm.trans h
    | some v =>
      by_cases hstatus : v.status = .active
      · simpa [step, unbondStart, hget, hstatus] using .inl (.unbonding hget hstatus)
      · refine .inr ⟨by simp [step, unbondStart, hget, hstatus], ?_⟩
        intro _ hmove
        cases hmove with
        | unbonding h hactive =>
          obtain rfl := Option.some.inj (hget.symm.trans h)
          exact hstatus hactive
  | unbondComplete id =>
    cases hget : s.get id with
    | none =>
      refine .inr ⟨by simp only [step, unbondComplete, hget], ?_⟩
      intro _ hmove
      cases hmove with
      | exited h _ => cases hget.symm.trans h
    | some v =>
      by_cases hcan : v.canUnbond s.currentEpoch = true
      · simpa [step, unbondComplete, hget, hcan] using .inl (.exited hget hcan)
      · refine .inr ⟨by simp [step, unbondComplete, hget, hcan], ?_⟩
        intro _ hmove
        cases hmove with
        | exited h hcan' =>
          obtain rfl := Option.some.inj (hget.symm.trans h)
          exact hcan hcan'
  | delegate delegatorId id amount =>
    cases hget : s.get id with
    | none =>
      refine .inr ⟨by simp only [step, delegate, hget], ?_⟩
      intro _ hmove
      cases hmove with
      | delegated h _ => cases hget.symm.trans h
    | some v =>
      by_cases hstatus : v.status = .active
      · simpa [step, delegate, hget, hstatus] using .inl (.delegated hget hstatus)
      · refine .inr ⟨by simp [step, delegate, hget, hstatus], ?_⟩
        intro _ hmove
        cases hmove with
        | delegated h hactive =>
          obtain rfl := Option.some.inj (hget.symm.trans h)
          exact hstatus hactive
  | slash id slashType evidenceHash scaled =>
    cases hget : s.get id with
    | none =>
      refine .inr ⟨by simp only [step, slash, hget], ?_⟩
      intro _ hmove
      cases hmove with
      | slashed h => cases hget.symm.trans h
    | some v =>
      simpa only [step, slash, SlashingRecord.new, hget] using .inl (.slashed hget)
  | processEpochTransition newEpoch => exact .inl .epoch
  | distributeRewards totalReward commission => exact .inl .rewarded

end ValidatorSet

end LiteVision.Truth
