import LiteVision.Truth.Staking

/-!
# Withdrawals and deposits

What a delegator has staked, together with all it took back, is what it put in,
with its first deposit counted twice. `withdrawals_covered`: a delegator never
takes back more than it put in just when every withdrawal leaves the amount of
the first deposit staked.
-/

namespace LiteVision.Truth.Staking

open Lib

namespace ValidatorSet

variable (delegatorId : Bytes 32)

def withdrawn (s : ValidatorSet) : Op → Nat
  | .undelegate j amount =>
    if j = delegatorId then (s.undelegate j amount).1.toOption.elim 0 UInt64.toNat else 0
  | _ => 0

def deposited (s : ValidatorSet) : Op → Nat
  | .delegate j id amount =>
    if j = delegatorId ∧ (s.delegate j id amount).1 = .ok () then amount.toNat else 0
  | _ => 0

def firstDeposit (s : ValidatorSet) (op : Op) : Nat :=
  if (s.delegators.get delegatorId).isNone then s.deposited delegatorId op else 0

def staked (s : ValidatorSet) : Nat :=
  s.delegators.weightAt (fun d => d.stakedAmount.toNat) delegatorId

/-- The sums of the delegator have room for what a call puts in. -/
def HasRoom (s : ValidatorSet) (op : Op) : Prop :=
  s.staked delegatorId + (s.deposited delegatorId op + s.firstDeposit delegatorId op) < 2 ^ 64

-- ---------------------------------------------------------------------------
-- One call
-- ---------------------------------------------------------------------------

theorem delegate_ok {s : ValidatorSet} {id : Bytes 32} (amount : UInt64) :
    (s.delegate delegatorId id amount).1 = .ok () ↔
      ∃ v, s.validators.get id = some v ∧ v.status = .active := by
  rcases validatorIn_cases s id .active with ⟨v, heq, hget, hstatus⟩ | ⟨err, heq, hno⟩
  · simp [delegate, heq, hget, hstatus]
  · simp only [delegate, heq, reduceCtorEq, false_iff, not_exists, not_and]
    exact hno

theorem undelegate_ok {s : ValidatorSet} (amount : UInt64) {d : Delegator} {v : Validator}
    (hd : s.delegators.get delegatorId = some d) (hget : s.validators.get d.validatorId = some v) :
    (s.undelegate delegatorId amount).1 = .ok (min amount d.stakedAmount) := by
  simp [undelegate, hd, hget]

theorem undelegate_error {s : ValidatorSet} (amount : UInt64)
    (hno : ∀ d v, s.delegators.get delegatorId = some d →
      s.validators.get d.validatorId ≠ some v) :
    ∃ err, (s.undelegate delegatorId amount).1 = .error err := by
  cases hd : s.delegators.get delegatorId with
  | none => exact ⟨.delegatorNotFound, by simp [undelegate, hd]⟩
  | some d =>
    cases hget : s.validators.get d.validatorId with
    | none => exact ⟨.validatorNotFound, by simp [undelegate, hd, hget]⟩
    | some v => exact absurd hget (hno d v hd)

theorem staked_lt (s : ValidatorSet) : s.staked delegatorId < 2 ^ 64 := by
  cases hd : s.delegators.get delegatorId with
  | none => simp [staked, Map.weightAt_none hd]
  | some d =>
    rw [staked, Map.weightAt_some hd]
    exact d.stakedAmount.toNat_lt

theorem staked_step (s : ValidatorSet) (op : Op) :
    (s.step op).staked delegatorId + s.withdrawn delegatorId op =
      (s.staked delegatorId + (s.deposited delegatorId op + s.firstDeposit delegatorId op)) %
        2 ^ 64 := by
  have hsame : s.staked delegatorId = s.staked delegatorId % 2 ^ 64 :=
    (Nat.mod_eq_of_lt (s.staked_lt delegatorId)).symm
  rcases step_cases s op with hmove | ⟨heq, hno⟩
  · generalize s.step op = s' at hmove ⊢
    cases hmove with
    | added | activated | erased | unbonding | completed | jailed | unjailed | slashed =>
      simpa [withdrawn, deposited, firstDeposit, staked] using hsame
    | @delegated j id amount v hget hstatus =>
      have hok := (delegate_ok j amount).mpr ⟨v, hget, hstatus⟩
      simp only [withdrawn, deposited, firstDeposit, staked, Map.weightAt_insert, hok, and_true]
      by_cases hj : j = delegatorId
      · subst hj
        cases hd : s.delegators.get j with
        | none => simp [credited, hd, Delegator.new, Map.weightAt_none hd]
        | some d => simp [credited, hd, Map.weightAt_some hd]
      · simpa [hj, Ne.symm hj, staked] using hsame
    | @undelegated j amount d v hdelegator hget =>
      have hok := undelegate_ok j amount hdelegator hget
      simp only [withdrawn, deposited, firstDeposit, staked, Map.weightAt_insert, hok]
      by_cases hj : j = delegatorId
      · subst hj
        have hmin := toNat_min amount d.stakedAmount
        have hlt : d.stakedAmount.toNat < 2 ^ 64 := d.stakedAmount.toNat_lt
        simp only [if_true, Map.weightAt_some hdelegator, toNat_saturatingSub, Except.toOption,
          Option.elim, hmin, ite_self, Nat.add_zero]
        omega
      · simpa [hj, Ne.symm hj, staked] using hsame
  · rw [heq]
    cases op with
    | delegate j id amount =>
      have hfail : (s.delegate j id amount).1 ≠ .ok () := fun hok => by
        obtain ⟨v, hget, hstatus⟩ := (delegate_ok j amount).mp hok
        exact hno _ (.delegated hget hstatus)
      simpa [withdrawn, deposited, firstDeposit, hfail] using hsame
    | undelegate j amount =>
      obtain ⟨err, hfail⟩ := undelegate_error j amount
        fun d v hd hget => hno _ (.undelegated hd hget)
      simpa [withdrawn, deposited, firstDeposit, hfail, Except.toOption] using hsame
    | _ => simpa [withdrawn, deposited, firstDeposit] using hsame

theorem staked_step_le (s : ValidatorSet) (op : Op) :
    (s.step op).staked delegatorId + s.withdrawn delegatorId op ≤
      s.staked delegatorId + (s.deposited delegatorId op + s.firstDeposit delegatorId op) := by
  rw [staked_step]
  exact Nat.mod_le _ _

theorem staked_step_of_hasRoom {s : ValidatorSet} {op : Op} (h : s.HasRoom delegatorId op) :
    (s.step op).staked delegatorId + s.withdrawn delegatorId op =
      s.staked delegatorId + (s.deposited delegatorId op + s.firstDeposit delegatorId op) := by
  rw [staked_step]
  exact Nat.mod_eq_of_lt h

-- ---------------------------------------------------------------------------
-- Runs
-- ---------------------------------------------------------------------------

/-- In no state of the run has the delegator taken back more than it put in. -/
def NoOverdraft (run : List Op) : Prop :=
  ∀ before, before <+: run →
    Trace.sum step (withdrawn delegatorId) .new before ≤
      Trace.sum step (deposited delegatorId) .new before

/-- Every withdrawal of the run leaves the amount of the first deposit staked. -/
def LeavesFirst (run : List Op) : Prop :=
  ∀ before amount, before ++ [.undelegate delegatorId amount] <+: run →
    ∀ d v, (Trace.exec step .new before).delegators.get delegatorId = some d →
      (Trace.exec step .new before).validators.get d.validatorId = some v →
      Trace.sum step (firstDeposit delegatorId) .new before + (min amount d.stakedAmount).toNat ≤
        d.stakedAmount.toNat

/-- What comes in with a call and counts for the delegator. -/
def credit (s : ValidatorSet) (op : Op) : Nat :=
  s.deposited delegatorId op + s.firstDeposit delegatorId op

theorem sum_credit (run : List Op) :
    Trace.sum step (credit delegatorId) .new run =
      Trace.sum step (deposited delegatorId) .new run +
        Trace.sum step (firstDeposit delegatorId) .new run := Trace.sum_add

theorem staked_new : new.staked delegatorId = 0 := by simp [staked, new, Map.weightAt]

/-- What is staked and what was taken back never exceed the deposits and the first one again. -/
theorem staked_run_le (run : List Op) :
    (Trace.exec step .new run).staked delegatorId + Trace.sum step (withdrawn delegatorId) .new run ≤
      Trace.sum step (deposited delegatorId) .new run +
        Trace.sum step (firstDeposit delegatorId) .new run := by
  have hle := Trace.sum_le (g := credit delegatorId) (staked delegatorId)
    (staked_step_le delegatorId) .new run
  rwa [sum_credit, staked_new, Nat.zero_add] at hle

theorem staked_run {run : List Op} (hroom : Trace.Always step (HasRoom delegatorId) .new run) :
    (Trace.exec step .new run).staked delegatorId + Trace.sum step (withdrawn delegatorId) .new run =
      Trace.sum step (deposited delegatorId) .new run +
        Trace.sum step (firstDeposit delegatorId) .new run := by
  have heq := hroom.sum_balance (g := credit delegatorId) (staked delegatorId)
    fun _ _ h => staked_step_of_hasRoom delegatorId h
  rwa [sum_credit, staked_new, Nat.zero_add] at heq

theorem staked_undelegate {s : ValidatorSet} (amount : UInt64) {d : Delegator} {v : Validator}
    (hd : s.delegators.get delegatorId = some d) (hget : s.validators.get d.validatorId = some v) :
    (s.step (.undelegate delegatorId amount)).staked delegatorId +
        (min amount d.stakedAmount).toNat = d.stakedAmount.toNat := by
  have hstep := staked_step delegatorId s (.undelegate delegatorId amount)
  have hstaked : s.staked delegatorId = d.stakedAmount.toNat := Map.weightAt_some hd _
  have hok := undelegate_ok delegatorId amount hd hget
  simp only [withdrawn, deposited, firstDeposit, hok, if_true, Except.toOption, Option.elim,
    ite_self, Nat.add_zero, Nat.mod_eq_of_lt (s.staked_lt delegatorId)] at hstep
  rwa [hstaked] at hstep

theorem exists_of_withdrawn {s : ValidatorSet} {op : Op} (h : s.withdrawn delegatorId op ≠ 0) :
    ∃ amount d v, op = .undelegate delegatorId amount ∧ s.delegators.get delegatorId = some d ∧
      s.validators.get d.validatorId = some v := by
  cases op with
  | undelegate j amount =>
    by_cases hj : j = delegatorId
    · subst hj
      by_contra hno
      obtain ⟨err, hfail⟩ := undelegate_error j amount
        fun d v hd hget => hno ⟨amount, d, v, rfl, hd, hget⟩
      exact h (by simp [withdrawn, hfail, Except.toOption])
    · exact absurd (by simp [withdrawn, hj]) h
  | _ => exact absurd rfl h

theorem withdrawn_le_of_leaves {before : List Op} {amount : UInt64} {d : Delegator} {v : Validator}
    (hd : (Trace.exec step .new before).delegators.get delegatorId = some d)
    (hget : (Trace.exec step .new before).validators.get d.validatorId = some v)
    (hleaves : Trace.sum step (firstDeposit delegatorId) .new before +
      (min amount d.stakedAmount).toNat ≤ d.stakedAmount.toNat) :
    Trace.sum step (withdrawn delegatorId) .new (before ++ [.undelegate delegatorId amount]) ≤
      Trace.sum step (deposited delegatorId) .new (before ++ [.undelegate delegatorId amount]) := by
  have hle := staked_run_le delegatorId (before ++ [.undelegate delegatorId amount])
  have hafter := staked_undelegate delegatorId amount hd hget
  have hfirst : Trace.sum step (firstDeposit delegatorId) .new
      (before ++ [.undelegate delegatorId amount]) =
        Trace.sum step (firstDeposit delegatorId) .new before := by
    simp [firstDeposit, deposited]
  rw [Trace.exec_concat, hfirst] at hle
  omega

/-- No delegator takes back more than it put in, in any run in which its withdrawals
leave the first deposit; and where its sums do not overflow, in no other run. -/
theorem withdrawals_covered (run : List Op) :
    (LeavesFirst delegatorId run → NoOverdraft delegatorId run) ∧
    (Trace.Always step (HasRoom delegatorId) .new run → NoOverdraft delegatorId run →
      LeavesFirst delegatorId run) := by
  constructor
  · intro hleaves before
    induction before using List.reverseRecOn with
    | nil => exact fun _ => Nat.le_refl 0
    | append_singleton before op ih =>
      intro hprefix
      have hbefore := ih ((List.prefix_append before [op]).trans hprefix)
      by_cases hzero : (Trace.exec step .new before).withdrawn delegatorId op = 0
      · rw [Trace.sum_concat, Trace.sum_concat, hzero]
        omega
      · obtain ⟨amount, d, v, rfl, hd, hget⟩ := exists_of_withdrawn delegatorId hzero
        exact withdrawn_le_of_leaves delegatorId hd hget (hleaves before amount hprefix d v hd hget)
  · intro hroom hno before amount hprefix d v hd hget
    obtain ⟨rest, rfl⟩ := hprefix
    have heq := staked_run delegatorId ((Trace.always_append _ rest).mp hroom).1
    have hle := hno _ (List.prefix_append _ rest)
    have hafter := staked_undelegate delegatorId amount hd hget
    rw [Trace.exec_concat] at heq
    have hfirst : Trace.sum step (firstDeposit delegatorId) .new
        (before ++ [.undelegate delegatorId amount]) =
          Trace.sum step (firstDeposit delegatorId) .new before := by
      simp [firstDeposit, deposited]
    omega

/-- Fifty in, thirty out. -/
theorem withdrawals_covered_thirty :
    NoOverdraft (.fill 32 9) [.addValidator (.fill 32 1) [] 1000 100,
      .activateValidator (.fill 32 1) 5, .delegate (.fill 32 9) (.fill 32 1) 50,
      .undelegate (.fill 32 9) 30] := by
  refine (withdrawals_covered (.fill 32 9) _).1 ?_
  rintro before amount ⟨rest, heq⟩ d v hd -
  -- The only withdrawal is the last call.
  rcases before with _ | ⟨first, _ | ⟨second, _ | ⟨third, _ | ⟨fourth, before⟩⟩⟩⟩
  · cases heq
  · cases heq
  · cases heq
  · cases heq
    have hall : ∀ d, (Trace.exec step new [.addValidator (.fill 32 1) [] 1000 100,
        .activateValidator (.fill 32 1) 5, .delegate (.fill 32 9) (.fill 32 1) 50]).delegators.get
          (.fill 32 9) = some d → decide (d.stakedAmount = 100) = true :=
      (Option.all_eq_true _ _).mp (by decide)
    rw [of_decide_eq_true (hall d hd)]
    decide
  · simp at heq

/-- Fifty in, a hundred out. -/
theorem withdrawals_fail :
    ¬ ∀ (delegatorId : Bytes 32) (run : List Op), NoOverdraft delegatorId run := by
  intro h
  have hle := h (.fill 32 9) [.addValidator (.fill 32 1) [] 1000 100,
    .activateValidator (.fill 32 1) 5, .delegate (.fill 32 9) (.fill 32 1) 50,
    .undelegate (.fill 32 9) 100] _ List.prefix_rfl
  exact absurd hle (by decide)

end ValidatorSet

end LiteVision.Truth.Staking
