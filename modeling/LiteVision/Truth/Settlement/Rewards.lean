import LiteVision.Truth.Settlement

/-!
# Rewards of verifiers

What `distribute_verifier_rewards` takes out of the pool and what it gives to verifiers.
`distribute_conserves_iff`: the two are the same just when the amount divides by the number
of verifiers and no reward overflows; without verifiers the division panics.
-/

namespace LiteVision.Truth

open Lib

namespace SettlementState

def totalRewards (rewards : Map (Bytes 32) UInt64) : Nat := rewards.total UInt64.toNat

def rewardOf (rewards : Map (Bytes 32) UInt64) (id : Bytes 32) : UInt64 := (rewards.get id).getD 0

/-- A distribution returns, and with an error changes nothing; without one the pool and the
rewards together are what they were. -/
def Conserves (s : SettlementState) (verifiers : List (Bytes 32)) (amount : UInt64) : Prop :=
  match s.distributeVerifierRewards verifiers amount with
  | (none, _) => False
  | (some (.error _), after) => after = s
  | (some (.ok _), after) =>
    after.slashingPool.toNat + totalRewards after.verifierRewards =
      s.slashingPool.toNat + totalRewards s.verifierRewards

/-- Every reward has room for the shares of its verifier. -/
def HasRoom (rewards : Map (Bytes 32) UInt64) (verifiers : List (Bytes 32)) (share : Nat) : Prop :=
  ∀ id, (rewardOf rewards id).toNat + verifiers.count id * share < 2 ^ 64

variable {rewards : Map (Bytes 32) UInt64} {perVerifier : UInt64} {v : Bytes 32}

theorem rewardOf_credit (id : Bytes 32) : rewardOf (credit perVerifier rewards v) id =
    if id = v then rewardOf rewards v + perVerifier else rewardOf rewards id := by
  unfold rewardOf credit
  rw [Map.get_insert]
  split <;> rfl

theorem total_credit (perVerifier : UInt64) (rewards : Map (Bytes 32) UInt64) (v : Bytes 32) :
    ((rewardOf rewards v).toNat + perVerifier.toNat < 2 ^ 64 ∧
      totalRewards (credit perVerifier rewards v) = totalRewards rewards + perVerifier.toNat) ∨
    (2 ^ 64 ≤ (rewardOf rewards v).toNat + perVerifier.toNat ∧
      totalRewards (credit perVerifier rewards v) < totalRewards rewards + perVerifier.toNat) := by
  have htotal := rewards.total_insert UInt64.toNat v (rewardOf rewards v + perVerifier)
  have hweight : rewards.weightAt UInt64.toNat v = (rewardOf rewards v).toNat := by
    unfold Map.weightAt rewardOf
    cases rewards.get v <;> rfl
  have hreward := (rewardOf rewards v).toNat_lt
  have hshare := perVerifier.toNat_lt
  rw [hweight, UInt64.toNat_add] at htotal
  change totalRewards (credit perVerifier rewards v) + _ = totalRewards rewards + _ at htotal
  omega

theorem hasRoom_cons {verifiers : List (Bytes 32)} :
    HasRoom rewards (v :: verifiers) perVerifier.toNat ↔
      (rewardOf rewards v).toNat + perVerifier.toNat < 2 ^ 64 ∧
        HasRoom (credit perVerifier rewards v) verifiers perVerifier.toNat := by
  constructor
  · intro h
    have hfirst := h v
    rw [List.count_cons_self, Nat.add_one_mul] at hfirst
    have hroom : (rewardOf rewards v).toNat + perVerifier.toNat < 2 ^ 64 := by omega
    refine ⟨hroom, fun id => ?_⟩
    rw [rewardOf_credit]
    split
    · rename_i hid
      rw [toNat_add_of_lt hroom, hid]
      omega
    · rename_i hid
      have hother := h id
      rwa [List.count_cons_of_ne (Ne.symm hid)] at hother
  · rintro ⟨hroom, hrest⟩ id
    have hother := hrest id
    rw [rewardOf_credit] at hother
    split at hother
    · rename_i hid
      rw [toNat_add_of_lt hroom] at hother
      rw [hid, List.count_cons_self, Nat.add_one_mul]
      rw [hid] at hother
      omega
    · rename_i hid
      rwa [List.count_cons_of_ne (Ne.symm hid)]

theorem total_foldl_le (perVerifier : UInt64) (verifiers : List (Bytes 32))
    (rewards : Map (Bytes 32) UInt64) :
    totalRewards (verifiers.foldl (credit perVerifier) rewards) ≤
      totalRewards rewards + verifiers.length * perVerifier.toNat := by
  induction verifiers generalizing rewards with
  | nil => simp
  | cons v verifiers ih =>
    have hrest := ih (credit perVerifier rewards v)
    have hfirst := total_credit perVerifier rewards v
    simp only [List.foldl_cons, List.length_cons, Nat.add_one_mul]
    omega

theorem total_foldl_iff (perVerifier : UInt64) (verifiers : List (Bytes 32))
    (rewards : Map (Bytes 32) UInt64) :
    totalRewards (verifiers.foldl (credit perVerifier) rewards) =
      totalRewards rewards + verifiers.length * perVerifier.toNat ↔
    HasRoom rewards verifiers perVerifier.toNat := by
  induction verifiers generalizing rewards with
  | nil =>
    refine iff_of_true (by simp) fun id => ?_
    rw [List.count_nil, Nat.zero_mul]
    exact (rewardOf rewards id).toNat_lt
  | cons v verifiers ih =>
    have hle := total_foldl_le perVerifier verifiers (credit perVerifier rewards v)
    have hrest := ih (credit perVerifier rewards v)
    simp only [List.foldl_cons, List.length_cons, Nat.add_one_mul]
    rw [hasRoom_cons, ← hrest]
    rcases total_credit perVerifier rewards v with
      ⟨hroom, htotal⟩ | ⟨hfull, htotal⟩ <;> omega

/-- The pool and the rewards are conserved just when the pool is short, or the amount is
divided without a remainder among verifiers whose rewards have room. -/
theorem distribute_conserves_iff (s : SettlementState) (verifiers : List (Bytes 32))
    (amount : UInt64) :
    s.Conserves verifiers amount ↔
      s.slashingPool < amount ∨
      (verifiers ≠ [] ∧ verifiers.length ∣ amount.toNat ∧
        HasRoom s.verifierRewards verifiers (amount.toNat / verifiers.length)) := by
  unfold Conserves distributeVerifierRewards
  by_cases hshort : s.slashingPool < amount
  · simp [hshort]
  by_cases hnone : verifiers = []
  · simp [hshort, hnone]
  have hpool : (s.slashingPool - amount).toNat = s.slashingPool.toNat - amount.toNat :=
    UInt64.toNat_sub_of_le _ _ (UInt64.not_lt.mp hshort)
  have hamount : amount.toNat ≤ s.slashingPool.toNat :=
    UInt64.le_iff_toNat_le.mp (UInt64.not_lt.mp hshort)
  have hword : amount.toNat / verifiers.length < 2 ^ 64 :=
    Nat.lt_of_le_of_lt (Nat.div_le_self ..) amount.toNat_lt
  have hshare : (UInt64.ofNat (amount.toNat / verifiers.length)).toNat =
      amount.toNat / verifiers.length := by
    rw [UInt64.toNat_ofNat', Nat.mod_eq_of_lt hword]
  have hgiven := total_foldl_le (UInt64.ofNat (amount.toNat / verifiers.length)) verifiers
    s.verifierRewards
  have hall := total_foldl_iff (UInt64.ofNat (amount.toNat / verifiers.length)) verifiers
    s.verifierRewards
  have hrest : verifiers.length * (amount.toNat / verifiers.length) ≤ amount.toNat :=
    Nat.mul_div_le ..
  have hdvd : verifiers.length ∣ amount.toNat ↔
      verifiers.length * (amount.toNat / verifiers.length) = amount.toNat :=
    Nat.mul_div_eq_iff_dvd.symm
  rw [hshare] at hgiven hall
  simp only [hshort, hnone, List.length_eq_zero_iff, if_false, false_or, ne_eq, not_false_eq_true,
    true_and, ← hall, hdvd, hpool]
  omega

/-- Three verifiers and ten coins: one coin is lost. -/
theorem distribute_conserves_fails :
    ¬ ∀ (s : SettlementState) (verifiers : List (Bytes 32)) (amount : UInt64),
      s.Conserves verifiers amount := by
  intro h
  have hbooks : 0 + 9 = 10 + 0 := h (addSlashedToPool new 10) [.fill 32 1, .fill 32 2, .fill 32 3] 10
  exact absurd hbooks (by decide)

end SettlementState

end LiteVision.Truth
