import LiteVision.Truth.Staking

/-!
# What a slash takes

`slash` returns the amount it computes, but takes no more than there is from the stake and
from the total. `slash_accounts_iff`: the three agree just when neither is short and the
product in the amount does not overflow. Nothing bounds the percentage.
-/

namespace LiteVision.Truth.Staking

open Lib

theorem SlashEvent.toNat_slashAmount {event : SlashEvent} {stake : UInt64}
    (h : stake.toNat * event.slashPercentage.toNat < 2 ^ 64) :
    (event.slashAmount stake).toNat = stake.toNat * event.slashPercentage.toNat / 100 := by
  have hhundred : (100 : UInt64).toNat = 100 := rfl
  rw [slashAmount, UInt64.toNat_div, UInt64.toNat_mul, UInt32.toNat_toUInt64, hhundred,
    Nat.mod_eq_of_lt h]

namespace ValidatorSet

/-- What a slash promises: it returns what the validator loses, the total loses the same,
the other validators stay, and neither the product nor the sum in it overflows. -/
structure SlashAccounts (s : ValidatorSet) (event : SlashEvent) (v v' : Validator)
    (amount : UInt64) : Prop where
  returned : (s.slash event).1 = .ok amount
  found : (s.slash event).2.validators.get event.validatorId = some v'
  stake : v'.stake.toNat + amount.toNat = v.stake.toNat
  total : (s.slash event).2.totalStake.toNat + amount.toNat = s.totalStake.toNat
  others : ∀ id, id ≠ event.validatorId →
    (s.slash event).2.validators.get id = s.validators.get id
  product : v.stake.toNat * event.slashPercentage.toNat < 2 ^ 64
  sum : v'.stake.toNat + v.delegatedStake.toNat < 2 ^ 64

/-- The product fits, its share is in the stake and in the total, and what is left of the
stake fits beside the delegations. -/
structure SlashFits (s : ValidatorSet) (event : SlashEvent) (v : Validator) : Prop where
  product : v.stake.toNat * event.slashPercentage.toNat < 2 ^ 64
  stake : v.stake.toNat * event.slashPercentage.toNat / 100 ≤ v.stake.toNat
  total : v.stake.toNat * event.slashPercentage.toNat / 100 ≤ s.totalStake.toNat
  sum : v.stake.toNat - v.stake.toNat * event.slashPercentage.toNat / 100 +
    v.delegatedStake.toNat < 2 ^ 64

variable {s : ValidatorSet} {event : SlashEvent} {v : Validator}

theorem slash_eq (hget : s.validators.get event.validatorId = some v) :
    s.slash event = (.ok (event.slashAmount v.stake), { s with
      validators := s.validators.insert event.validatorId (slashed v event)
      totalStake := saturatingSub s.totalStake (event.slashAmount v.stake)
      activeCount :=
        if event.slashType.jails then saturatingPred s.activeCount else s.activeCount }) := by
  simp only [slash, hget]

theorem slashAccounts_iff (hget : s.validators.get event.validatorId = some v) :
    (∃ v' amount, SlashAccounts s event v v' amount) ↔ SlashFits s event v := by
  have hstake := toNat_saturatingSub v.stake (event.slashAmount v.stake)
  have htotal := toNat_saturatingSub s.totalStake (event.slashAmount v.stake)
  constructor
  · rintro ⟨v', amount, h⟩
    obtain ⟨hreturned, hfound, hlost, hall, -, hproduct, hsum⟩ := h
    rw [slash_eq hget] at hreturned hfound hall
    obtain rfl := Except.ok.inj hreturned
    obtain rfl := Option.some.inj ((Map.get_insert_self _ _ _).symm.trans hfound)
    simp only [slashed] at hlost hsum hall
    rw [hstake] at hlost hsum
    rw [htotal] at hall
    have hamount := SlashEvent.toNat_slashAmount hproduct
    rw [hamount] at hlost hsum hall
    exact ⟨hproduct, by omega, by omega, by omega⟩
  · rintro ⟨hproduct, hlost, hall, hsum⟩
    have hamount := SlashEvent.toNat_slashAmount hproduct
    refine ⟨slashed v event, event.slashAmount v.stake, ?_⟩
    refine ⟨?_, ?_, ?_, ?_, fun id hid => ?_, hproduct, ?_⟩
    · rw [slash_eq hget]
    · rw [slash_eq hget]
      exact Map.get_insert_self _ _ _
    · rw [slashed, hstake, hamount]
      omega
    · rw [slash_eq hget]
      dsimp only
      rw [htotal, hamount]
      omega
    · rw [slash_eq hget]
      exact Map.get_insert_ne _ _ hid
    · rw [slashed, hstake, hamount]
      exact hsum

-- ---------------------------------------------------------------------------
-- Runs
-- ---------------------------------------------------------------------------

/-- A slash of a validator that exists keeps what it promises. -/
def Accounts (s : ValidatorSet) : Op → Prop
  | .slash event => ∀ v, s.validators.get event.validatorId = some v →
      ∃ v' amount, SlashAccounts s event v v' amount
  | _ => True

/-- A slash of a validator that exists fits. -/
def SlashesWithin (s : ValidatorSet) : Op → Prop
  | .slash event => ∀ v, s.validators.get event.validatorId = some v → SlashFits s event v
  | _ => True

/-- In a run of the staking operations every slash accounts for what it takes just when
every slash fits. -/
theorem slash_accounts_iff (run : List Op) :
    Trace.Always step Accounts .new run ↔ Trace.Always step SlashesWithin .new run := by
  refine Trace.always_congr (I := fun _ => True) (fun _ _ _ => trivial) (fun s op _ => ?_) trivial
  cases op with
  | slash event =>
    constructor
    · exact fun h v hget => (slashAccounts_iff hget).mp (h v hget)
    · exact fun h v hget => (slashAccounts_iff hget).mpr (h v hget)
  | _ => exact Iff.rfl

/-- A slash of twice the stake returns more than the validator has. -/
theorem slash_accounts_fails :
    ¬ ∀ run : List Op, Trace.Always step Accounts .new run := by
  intro h
  let event : SlashEvent :=
    { validatorId := .fill 32 1
      slashType := .unavailable
      evidence := []
      blockHeight := 0
      slashPercentage := 200
      timestamp := 0 }
  obtain ⟨-, hslash, -⟩ := h [.addValidator (.fill 32 1) [] 1000 100, .slash event]
  have hget : (new.step (.addValidator (.fill 32 1) [] 1000 100)).validators.get
      event.validatorId = some (.new (.fill 32 1) [] 1000) := rfl
  obtain ⟨v', amount, haccounts⟩ := hslash _ hget
  have hreturned := haccounts.returned
  rw [slash_eq hget] at hreturned
  obtain rfl := Except.ok.inj hreturned
  have hlost := haccounts.stake
  have hamount : (event.slashAmount (Validator.new (.fill 32 1) [] 1000).stake).toNat = 2000 := by
    decide
  have hstake : (Validator.new (.fill 32 1) [] 1000).stake.toNat = 1000 := rfl
  omega

end ValidatorSet

end LiteVision.Truth.Staking
