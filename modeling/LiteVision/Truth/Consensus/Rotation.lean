import LiteVision.Lib.Rotation
import LiteVision.Truth.Consensus

/-!
# Proposers in turn

The proposer of a view is found by the height and the round together, around the list of
active validators. `proposer_rotation`: over rounds as over heights the active validators
take turns, and no others do.
-/

namespace LiteVision.Truth

open Lib

namespace ConsensusEngine

variable {e : ConsensusEngine} {height : UInt64} {round : UInt32}

def rota (e : ConsensusEngine) : List (Bytes 32) := (active e.validators).map Validator.id

theorem length_rota : e.rota.length = (active e.validators).length := List.length_map _

theorem getProposer_eq (hactive : 0 < (active e.validators).length)
    (hfits : height.toNat + round.toNat < 2 ^ 64) :
    e.rota[(height.toNat + round.toNat) % e.rota.length]? = some (e.getProposer height round) := by
  have hne : (active e.validators).length ≠ 0 := Nat.ne_of_gt hactive
  have hsum : (height + round.toUInt64).toNat = height.toNat + round.toNat :=
    toNat_add_of_lt (by rwa [UInt32.toNat_toUInt64])
  simp only [rota, List.getElem?_map, List.length_map, getProposer, dif_neg hne, hsum]
  rw [List.getElem?_eq_getElem (Nat.mod_lt _ hactive)]
  rfl

theorem getProposer_mem (hactive : 0 < (active e.validators).length) (height : UInt64)
    (round : UInt32) : e.getProposer height round ∈ e.rota := by
  have hne : (active e.validators).length ≠ 0 := Nat.ne_of_gt hactive
  simp only [getProposer, dif_neg hne]
  exact List.mem_map_of_mem (List.get_mem _ _)

theorem iterate_advanceToNextView (e : ConsensusEngine) (s : Consensus) (i : Nat) :
    (e.advanceToNextView^[i] s).height = s.height ∧
      (e.advanceToNextView^[i] s).round = s.round + UInt32.ofNat i := by
  induction i with
  | zero => exact ⟨rfl, (UInt32.add_zero _).symm⟩
  | succ i ih =>
    obtain ⟨hheight, hround⟩ := ih
    rw [Function.iterate_succ_apply']
    refine ⟨hheight, ?_⟩
    rw [advanceToNextView, hround, UInt32.ofNat_add, UInt32.add_assoc]
    rfl

-- ---------------------------------------------------------------------------
-- Turns
-- ---------------------------------------------------------------------------

def turns (e : ConsensusEngine) : Set Nat := Set.Iio (active e.validators).length

theorem rounds_bijOn (hdistinct : e.rota.Nodup)
    (hheight : height.toNat + round.toNat + (active e.validators).length < 2 ^ 64)
    (hround : round.toNat + (active e.validators).length < 2 ^ 32) :
    Set.BijOn (fun i => e.getProposer height (round + UInt32.ofNat i)) e.turns
      {id | id ∈ e.rota} := by
  rw [turns, ← length_rota] at *
  refine Rotation.bijOn_turns (a := height.toNat + round.toNat) hdistinct fun i hi => ?_
  have hword : (round + UInt32.ofNat i).toNat = round.toNat + i := by
    rw [UInt32.toNat_add, UInt32.toNat_ofNat', Nat.mod_eq_of_lt (a := i) (by omega),
      Nat.mod_eq_of_lt (by omega)]
  rw [Nat.add_assoc, ← hword]
  exact getProposer_eq (length_rota ▸ Nat.zero_lt_of_lt hi) (by omega)

theorem heights_bijOn (hdistinct : e.rota.Nodup)
    (hheight : height.toNat + round.toNat + (active e.validators).length < 2 ^ 64) :
    Set.BijOn (fun i => e.getProposer (height + UInt64.ofNat i) round) e.turns
      {id | id ∈ e.rota} := by
  rw [turns, ← length_rota] at *
  refine Rotation.bijOn_turns (a := height.toNat + round.toNat) hdistinct fun i hi => ?_
  have hword : (height + UInt64.ofNat i).toNat = height.toNat + i := by
    rw [UInt64.toNat_add, UInt64.toNat_ofNat', Nat.mod_eq_of_lt (a := i) (by omega),
      Nat.mod_eq_of_lt (by omega)]
  rw [Nat.add_right_comm, ← hword]
  exact getProposer_eq (length_rota ▸ Nat.zero_lt_of_lt hi) (by omega)

theorem not_mem_rota (hids : (e.validators.map Validator.id).Nodup) {v : Validator}
    (hv : v ∈ e.validators) (hinactive : v.activeOrInactive = false) : v.id ∉ e.rota := by
  intro hmem
  obtain ⟨w, hw, hid⟩ := List.mem_map.mp hmem
  obtain ⟨hw, hactive⟩ := List.mem_filter.mp hw
  obtain rfl := List.inj_on_of_nodup_map hids hw hv hid
  rw [hinactive] at hactive
  cases hactive

/-- The active validators propose in turn, over the rounds of a height and over the heights.
None of them is left out by as many changes of view, and nobody else proposes. -/
theorem proposer_rotation (e : ConsensusEngine) (height : UInt64) (round : UInt32)
    (hactive : 0 < (active e.validators).length) (hdistinct : e.rota.Nodup)
    (hheight : height.toNat + round.toNat + (active e.validators).length < 2 ^ 64)
    (hround : round.toNat + (active e.validators).length < 2 ^ 32) :
    Set.BijOn (fun i => e.getProposer height (round + UInt32.ofNat i)) e.turns {id | id ∈ e.rota} ∧
    Set.BijOn (fun i => e.getProposer (height + UInt64.ofNat i) round) e.turns {id | id ∈ e.rota} ∧
    (∀ s : Consensus, s.height = height → s.round = round → ∀ id ∈ e.rota, ∃ i ∈ e.turns,
      e.isLeader id (e.advanceToNextView^[i] s).height (e.advanceToNextView^[i] s).round) ∧
    (∀ height round, e.getProposer height round ∈ e.rota) ∧
    ((e.validators.map Validator.id).Nodup → ∀ v ∈ e.validators, v.activeOrInactive = false →
      ∀ height round, ¬ e.isLeader v.id height round) := by
  have hrounds := rounds_bijOn hdistinct hheight hround
  refine ⟨hrounds, heights_bijOn hdistinct hheight, ?_, getProposer_mem hactive, ?_⟩
  · rintro s rfl rfl id hid
    obtain ⟨i, hi, hleader⟩ := hrounds.surjOn hid
    obtain ⟨hsame, hlater⟩ := iterate_advanceToNextView e s i
    refine ⟨i, hi, ?_⟩
    rw [isLeader, hsame, hlater]
    exact decide_eq_true hleader
  · intro hids v hv hinactive height round hleader
    have hmem := getProposer_mem hactive height round
    rw [of_decide_eq_true hleader] at hmem
    exact not_mem_rota hids hv hinactive hmem

/-- Four validators, one of them jailed, from height 5 and round 2 on. -/
theorem proposer_rotation_four :
    let e : ConsensusEngine := .new ((Sample.validators 4).map fun v =>
      if v.id = Sample.id 1 then v.jail 0 0 else v) 3000
    Set.BijOn (fun i => e.getProposer 5 (2 + UInt32.ofNat i)) e.turns {id | id ∈ e.rota} := by
  intro e
  exact (proposer_rotation e 5 2 (by decide) (by decide) (by decide) (by decide)).1

end ConsensusEngine

end LiteVision.Truth
