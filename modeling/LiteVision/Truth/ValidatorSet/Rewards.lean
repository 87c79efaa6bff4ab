import LiteVision.Truth.ValidatorSet
import LiteVision.Words
import Mathlib.Algebra.BigOperators.Ring.List
import Mathlib.Algebra.Order.BigOperators.Group.List

/-!
# Rewards

`calculate_rewards` gives each active validator a share of the reward in proportion to its
stake, rounded down, after a commission that is any word. `rewards_le_total`: the shares
together are at most the reward, and they go to active validators.
-/

namespace LiteVision.Truth

open Lib

namespace ValidatorSet

variable {s : ValidatorSet} {totalReward : UInt64} {commission : Bytes 32 → UInt64}

theorem nodup_getActive (hnodup : (s.validators.map Validator.id).Nodup) :
    (s.getActive.map Validator.id).Nodup :=
  (List.filter_sublist.map Validator.id).nodup hnodup

theorem total_calculateRewards (hnodup : (s.validators.map Validator.id).Nodup) :
    (s.calculateRewards totalReward commission).total UInt64.toNat =
      (s.getActive.map fun v => (s.netReward totalReward commission v).toNat).sum := by
  unfold calculateRewards
  split
  · rename_i hnone
    have hzero : ∀ v, s.netReward totalReward commission v = 0 := by
      intro v
      rcases hnone with hstake | hreward
      · rw [netReward, hstake]
        exact UInt64.div_zero
      · rw [netReward, hreward]
        simp [saturatingSub, saturate]
    simp [hzero]
  · rw [Map.total_foldl_insert Validator.id _ UInt64.toNat (nodup_getActive hnodup)
      fun _ _ => Map.get_empty _]
    simp

theorem active_of_reward {id : Bytes 32} {reward : UInt64}
    (hget : (s.calculateRewards totalReward commission).get id = some reward) :
    ∃ v ∈ s.getActive, v.id = id ∧ s.netReward totalReward commission v = reward := by
  unfold calculateRewards at hget
  split at hget
  · simp at hget
  · rcases Map.get_foldl_insert Validator.id _ hget with hshare | hempty
    · exact hshare
    · simp at hempty

theorem get_of_mem_getActive (hnodup : (s.validators.map Validator.id).Nodup) {v : Validator}
    (hv : v ∈ s.getActive) : s.get v.id = some v ∧ v.status = .active := by
  obtain ⟨hmem, hactive⟩ := List.mem_filter.mp hv
  exact ⟨Keyed.find_of_mem hnodup hmem, of_decide_eq_true hactive⟩

-- ---------------------------------------------------------------------------
-- Shares
-- ---------------------------------------------------------------------------

theorem sum_div_le (l : List Nat) (n : Nat) : (l.map fun a => a / n).sum ≤ l.sum / n := by
  induction l with
  | nil => simp
  | cons a l ih =>
    rw [List.map_cons, List.sum_cons, List.sum_cons]
    calc a / n + (l.map fun a => a / n).sum
      _ ≤ a / n + l.sum / n := Nat.add_le_add_left ih _
      _ ≤ (a + l.sum) / n := Nat.div_add_div_le_add_div

/-- Shares of a whole in proportion to weights. -/
theorem sum_shares_le (whole : Nat) (weights : List Nat) :
    (weights.map fun w => whole * w / weights.sum).sum ≤ whole := by
  have hparts := sum_div_le (weights.map fun w => whole * w) weights.sum
  rw [List.map_map, List.sum_map_mul_left, List.map_id'] at hparts
  rcases Nat.eq_zero_or_pos weights.sum with hzero | hpos
  · simp [hzero]
  · rw [Nat.mul_div_cancel _ hpos] at hparts
    exact hparts

theorem toNat_netReward_le (totalReward : UInt64) (commission : Bytes 32 → UInt64) (v : Validator) :
    (s.netReward totalReward commission v).toNat ≤
      totalReward.toNat * v.totalStake.toNat / s.totalActiveStake.toNat := by
  rw [netReward, UInt64.toNat_div, UInt64.toNat_mul, toNat_saturatingSub]
  refine Nat.div_le_div_right ((Nat.mod_le _ _).trans ?_)
  exact Nat.mul_le_mul_right _ (Nat.sub_le _ _)

theorem toNat_totalActiveStake
    (hfits : (s.getActive.map fun v => v.totalStake.toNat).sum < 2 ^ 64) :
    s.totalActiveStake.toNat = (s.getActive.map fun v => v.totalStake.toNat).sum := by
  have hmap : (s.getActive.map Validator.totalStake).map UInt64.toNat =
      s.getActive.map fun v => v.totalStake.toNat := List.map_map
  rw [totalActiveStake, toNat_sum_of_lt (by rwa [hmap]), hmap]

theorem sum_netReward_le (hfits : (s.getActive.map fun v => v.totalStake.toNat).sum < 2 ^ 64)
    (totalReward : UInt64) (commission : Bytes 32 → UInt64) :
    (s.getActive.map fun v => (s.netReward totalReward commission v).toNat).sum ≤
      totalReward.toNat := by
  have hshares := sum_shares_le totalReward.toNat (s.getActive.map fun v => v.totalStake.toNat)
  rw [List.map_map, ← toNat_totalActiveStake hfits] at hshares
  exact (List.sum_le_sum fun v _ => toNat_netReward_le totalReward commission v).trans hshares

/-- The rewards are at most the total, and each goes to an active validator. -/
theorem rewards_le_total (s : ValidatorSet) (hnodup : (s.validators.map Validator.id).Nodup)
    (hfits : (s.getActive.map fun v => v.totalStake.toNat).sum < 2 ^ 64) (totalReward : UInt64)
    (commission : Bytes 32 → UInt64) :
    (s.calculateRewards totalReward commission).total UInt64.toNat ≤ totalReward.toNat ∧
      ∀ id ∈ (s.calculateRewards totalReward commission).keys,
        ∃ v, s.get id = some v ∧ v.status = .active := by
  refine ⟨?_, fun id hid => ?_⟩
  · rw [total_calculateRewards hnodup]
    exact sum_netReward_le hfits totalReward commission
  · obtain ⟨reward, hreward⟩ := Map.mem_keys.mp hid
    obtain ⟨v, hv, rfl, -⟩ := active_of_reward hreward
    exact ⟨v, get_of_mem_getActive hnodup hv⟩

/-- Two validators with stakes 1000 and 2000 share a reward of 100. -/
theorem rewards_le_total_two :
    let s : ValidatorSet := { new with
      validators := [.new (.fill 32 1) 1000 (.fill 32 0), .new (.fill 32 2) 2000 (.fill 32 0)] }
    (s.calculateRewards 100 fun _ => 10).total UInt64.toNat ≤ 100 ∧
      ∀ id ∈ (s.calculateRewards 100 fun _ => 10).keys,
        ∃ v, s.get id = some v ∧ v.status = .active := by
  intro s
  exact rewards_le_total s (by decide) (by decide) 100 fun _ => 10

end ValidatorSet

end LiteVision.Truth
