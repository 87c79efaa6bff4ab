import LiteVision.Core.Deterministic

/-!
# Draws in a range

A draw from a range stays in it. The number of values in the range is a `u32`, so the
range of all of them is the one that cannot be drawn from; no slice of fewer than `2 ^ 32`
elements asks for it.
-/

namespace LiteVision.Core.DeterministicRng

variable {T : Type} {rng rng' : DeterministicRng} {min max : UInt32} {slice : List T} {i j : Nat}

/-- The draw returns a value from `min` to `max`. -/
def InRange (rng : DeterministicRng) (min max : UInt32) : Prop :=
  ∃ value rng', rng.randRange min max = some (value, rng') ∧ min ≤ value ∧ value ≤ max

theorem inRange_self (rng : DeterministicRng) (min : UInt32) : rng.InRange min min := by
  refine ⟨min, rng, ?_, UInt32.le_refl min, UInt32.le_refl min⟩
  rw [randRange, if_pos (UInt32.le_refl min)]

theorem inRange_of_lt (rng : DeterministicRng) (hlt : min < max)
    (hpart : max.toNat - min.toNat + 1 < 2 ^ 32) : rng.InRange min max := by
  have hmax := max.toNat_lt
  have hword : min.toNat < max.toNat := UInt32.lt_iff_toNat_lt.mp hlt
  have hsub : (max - min).toNat = max.toNat - min.toNat :=
    UInt32.toNat_sub_of_le _ _ (UInt32.le_of_lt hlt)
  have hroom : (max - min).toNat + (1 : UInt32).toNat < 2 ^ 32 := by rwa [hsub]
  have hrange : (max - min + 1).toNat = max.toNat - min.toNat + 1 := by
    rw [toNat_addU32_of_lt hroom, hsub]
    rfl
  have hdrawn : (rng.randU32.1 % (max - min + 1)).toNat < max.toNat - min.toNat + 1 := by
    rw [UInt32.toNat_mod, hrange]
    exact Nat.mod_lt _ (Nat.succ_pos _)
  have hsum : min.toNat + (rng.randU32.1 % (max - min + 1)).toNat < 2 ^ 32 := by omega
  have hvalue : (min + rng.randU32.1 % (max - min + 1)).toNat =
      min.toNat + (rng.randU32.1 % (max - min + 1)).toNat := toNat_addU32_of_lt hsum
  refine ⟨min + rng.randU32.1 % (max - min + 1), rng.randU32.2, ?_, ?_, ?_⟩
  · have hfirst : checkedAddU32 (max - min) 1 = some (max - min + 1) := if_pos hroom
    have hsecond : checkedAddU32 min (rng.randU32.1 % (max - min + 1)) =
        some (min + rng.randU32.1 % (max - min + 1)) := if_pos hsum
    rw [randRange, if_neg (UInt32.not_le.mpr hlt), hfirst, Option.bind_some]
    simp only [hsecond, Option.map_some]
  · rw [UInt32.le_iff_toNat_le, hvalue]
    exact Nat.le_add_right _ _
  · rw [UInt32.le_iff_toNat_le, hvalue]
    omega

theorem not_inRange_full (rng : DeterministicRng) : ¬ rng.InRange 0 0xFFFFFFFF := by
  rintro ⟨value, rng', hdraw, -⟩
  cases hdraw

theorem inRange_iff (rng : DeterministicRng) (hle : min ≤ max) :
    rng.InRange min max ↔ ¬ (min = 0 ∧ max = 0xFFFFFFFF) := by
  by_cases hfull : min = 0 ∧ max = 0xFFFFFFFF
  · obtain ⟨rfl, rfl⟩ := hfull
    exact iff_of_false rng.not_inRange_full (by simp)
  · refine iff_of_true ?_ hfull
    by_cases hsame : min = max
    · exact hsame ▸ rng.inRange_self min
    · refine rng.inRange_of_lt (UInt32.lt_of_le_of_ne hle hsame) ?_
      have hmax := max.toNat_lt
      by_contra hover
      have hmin : min.toNat = (0 : UInt32).toNat := by
        change min.toNat = 0
        omega
      have htop : max.toNat = (0xFFFFFFFF : UInt32).toNat := by
        change max.toNat = 4294967295
        omega
      exact hfull ⟨UInt32.toNat_inj.mp hmin, UInt32.toNat_inj.mp htop⟩

theorem randRange_zero (rng : DeterministicRng) (hi : i + 1 < 2 ^ 32) :
    ∃ value rng', rng.randRange 0 (.ofNat i) = some (value, rng') ∧ value.toNat ≤ i := by
  have hword : (UInt32.ofNat i).toNat = i := UInt32.toNat_ofNat_of_lt' (Nat.lt_of_succ_lt hi)
  have hrange : rng.InRange 0 (.ofNat i) := by
    refine (inRange_iff rng UInt32.zero_le).mpr ?_
    rintro ⟨-, hfull⟩
    have hlast := congrArg UInt32.toNat hfull
    rw [hword] at hlast
    change i = 4294967295 at hlast
    omega
  obtain ⟨value, rng', hdraw, -, hvalue⟩ := hrange
  rw [UInt32.le_iff_toNat_le, hword] at hvalue
  exact ⟨value, rng', hdraw, hvalue⟩

-- ---------------------------------------------------------------------------
-- Slices
-- ---------------------------------------------------------------------------

theorem checkedSubU32_ofNat_succ {n : Nat} (hn : n + 1 < 2 ^ 32) :
    checkedSubU32 (.ofNat (n + 1)) 1 = some (.ofNat n) := by
  have hword : (UInt32.ofNat (n + 1)).toNat = n + 1 := UInt32.toNat_ofNat_of_lt' hn
  have hone : (1 : UInt32) ≤ .ofNat (n + 1) := by
    rw [UInt32.le_iff_toNat_le, hword]
    exact Nat.le_add_left 1 n
  rw [checkedSubU32, if_pos hone, Option.some.injEq, ← UInt32.toNat_inj,
    UInt32.toNat_sub_of_le _ _ hone, hword, UInt32.toNat_ofNat_of_lt' (Nat.lt_of_succ_lt hn)]
  rfl

theorem choose_spec (rng : DeterministicRng) (hlength : slice.length < 2 ^ 32) :
    ∃ chosen rng', rng.choose slice = some (chosen, rng') ∧ (chosen = none ↔ slice = []) ∧
      ∀ element, chosen = some element → element ∈ slice := by
  unfold choose
  cases slice with
  | nil => exact ⟨none, rng, rfl, by simp, by simp⟩
  | cons a slice =>
    rw [List.length_cons] at hlength
    have hlast := checkedSubU32_ofNat_succ hlength
    obtain ⟨value, rng', hdraw, hvalue⟩ := rng.randRange_zero (i := slice.length) hlength
    have hin : value.toNat < (a :: slice).length := Nat.lt_succ_of_le hvalue
    rw [List.isEmpty_cons, if_neg (by decide), List.length_cons, hlast, Option.bind_some, hdraw,
      Option.bind_some, List.getElem?_eq_getElem hin]
    refine ⟨_, rng', rfl, by simp, fun element helement => ?_⟩
    obtain rfl := Option.some.inj helement
    exact List.getElem_mem hin

theorem swap_spec (hi : i < slice.length) (hj : j < slice.length) :
    ∃ swapped, swap slice i j = some swapped ∧ swapped.Perm slice := by
  refine ⟨(slice.set i slice[j]).set j slice[i], ?_, List.set_set_perm hi hj⟩
  rw [swap, List.getElem?_eq_getElem hi, List.getElem?_eq_getElem hj]
  rfl

theorem shuffle_loop_spec (rng : DeterministicRng) (hlength : slice.length < 2 ^ 32)
    (hi : i < slice.length ∨ i = 0) :
    ∃ shuffled rng', shuffle.loop rng slice i = some (shuffled, rng') ∧ shuffled.Perm slice := by
  induction i generalizing rng slice with
  | zero => exact ⟨slice, rng, rfl, .refl slice⟩
  | succ i ih =>
    have hin : i + 1 < slice.length := hi.resolve_right (Nat.succ_ne_zero i)
    obtain ⟨value, rng', hdraw, hvalue⟩ := rng.randRange_zero (i := i + 1) (by omega)
    obtain ⟨swapped, hswap, hperm⟩ := swap_spec hin (show value.toNat < slice.length by omega)
    have hsame := hperm.length_eq
    have hlength' : swapped.length < 2 ^ 32 := by omega
    obtain ⟨shuffled, rng'', hloop, hrest⟩ := ih rng' hlength' (.inl (by omega))
    refine ⟨shuffled, rng'', ?_, hrest.trans hperm⟩
    rw [shuffle.loop, hdraw, Option.bind_some, hswap, Option.bind_some, hloop]

theorem shuffle_spec (rng : DeterministicRng) (hlength : slice.length < 2 ^ 32) :
    ∃ shuffled rng', rng.shuffle slice = some (shuffled, rng') ∧ shuffled.Perm slice :=
  shuffle_loop_spec rng hlength (by omega)

/-- Every range but that of all words can be drawn from, and so slices of fewer elements
than there are words can be chosen from and shuffled. -/
theorem draws_in_range_iff (rng : DeterministicRng) :
    (∀ min max, min ≤ max → (rng.InRange min max ↔ ¬ (min = 0 ∧ max = 0xFFFFFFFF))) ∧
    ∀ {T : Type} (slice : List T), slice.length < 2 ^ 32 →
      (∃ chosen rng', rng.choose slice = some (chosen, rng') ∧ (chosen = none ↔ slice = []) ∧
        ∀ element, chosen = some element → element ∈ slice) ∧
      ∃ shuffled rng', rng.shuffle slice = some (shuffled, rng') ∧ shuffled.Perm slice :=
  ⟨fun _ _ hle => inRange_iff rng hle,
    fun _ hlength => ⟨choose_spec rng hlength, shuffle_spec rng hlength⟩⟩

theorem draws_in_range_iff_ten :
    ((new (.fill 32 0)).InRange 5 10 ↔ ¬ ((5 : UInt32) = 0 ∧ (10 : UInt32) = 0xFFFFFFFF)) ∧
      ∃ shuffled rng', (new (.fill 32 0)).shuffle [1, 2, 3, 4, 5] = some (shuffled, rng') ∧
        shuffled.Perm [1, 2, 3, 4, 5] :=
  ⟨(draws_in_range_iff (new (.fill 32 0))).1 5 10 (by decide),
    ((draws_in_range_iff (new (.fill 32 0))).2 [1, 2, 3, 4, 5] (by decide)).2⟩

theorem draws_in_range_fails :
    ¬ ∀ (rng : DeterministicRng) (min max : UInt32), min ≤ max → rng.InRange min max :=
  fun h => not_inRange_full (new (.fill 32 0)) (h _ 0 0xFFFFFFFF (by decide))

end LiteVision.Core.DeterministicRng
