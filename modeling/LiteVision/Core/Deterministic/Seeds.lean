import LiteVision.Bytes
import LiteVision.Core.Deterministic.Stream
import LiteVision.Lib.Congruential
import Mathlib.Tactic.IntervalCases
import Mathlib.Tactic.NormNum

/-!
# What a seed decides

Three words tell the state of the generator, and the state tells the first eight bytes of
its seed: all seeds with these bytes give one stream, and so do eight zero bytes and the
bytes of the number that stands in for them.
-/

namespace LiteVision.Core.DeterministicRng

open Lib

variable {rng rng' : DeterministicRng}

-- ---------------------------------------------------------------------------
-- Words and states
-- ---------------------------------------------------------------------------

theorem toNat_state_nextU32 (rng : DeterministicRng) :
    rng.nextU32.2.state.toNat =
      (rng.state.toNat * 0x5851f42d4c957f63 + 0x14057b921f4e31be) % 2 ^ 64 := by
  simp [nextU32]

theorem toNat_nextU32 (rng : DeterministicRng) :
    rng.nextU32.1.toNat = rng.nextU32.2.state.toNat / 2 ^ 32 := by
  have hstate := rng.nextU32.2.state.toNat_lt
  have hcount : (32 : UInt64).toNat % 64 = 32 := rfl
  change (rng.nextU32.2.state >>> 32).toUInt32.toNat = _
  rw [UInt64.toNat_toUInt32, UInt64.toNat_shiftRight, hcount, Nat.shiftRight_eq_div_pow]
  exact Nat.mod_eq_of_lt (by omega)

/-- The multiplier is odd, so a step can be taken back. -/
theorem eq_of_nextU32 (h : rng.nextU32.2 = rng'.nextU32.2) : rng = rng' := by
  have hinverse : (0x5851f42d4c957f63 : UInt64) * 0xde2807dfe90ffa4b = 1 := rfl
  have hstate : rng.state * 0x5851f42d4c957f63 + 0x14057b921f4e31be =
      rng'.state * 0x5851f42d4c957f63 + 0x14057b921f4e31be := congrArg state h
  have hproduct := congrArg (· * 0xde2807dfe90ffa4b) ((UInt64.add_left_inj _).mp hstate)
  simp only [UInt64.mul_assoc, hinverse, UInt64.mul_one] at hproduct
  cases rng
  cases rng'
  exact congrArg mk hproduct

def states (rng : DeterministicRng) (n : ℕ) : ℤ := (Source.skip nextU32 (n + 1) rng).state.toNat

theorem steps_states (rng : DeterministicRng) :
    Congruential.Steps (2 ^ 64) 0x5851f42d4c957f63 0x14057b921f4e31be rng.states := by
  intro n
  have hnext : Source.skip nextU32 (n + 1 + 1) rng =
      (Source.skip nextU32 (n + 1) rng).nextU32.2 := Source.skip_add (n + 1) 1 rng
  unfold states
  rw [hnext, toNat_state_nextU32]
  push_cast
  rw [mul_comm]
  exact Int.mod_modEq _ _

theorem states_ediv (rng : DeterministicRng) (n : ℕ) :
    rng.states n / 2 ^ 32 = ((Source.skip nextU32 n rng).nextU32.1.toNat : ℤ) := by
  have hnext : Source.skip nextU32 (n + 1) rng = (Source.skip nextU32 n rng).nextU32.2 :=
    Source.skip_add n 1 rng
  unfold states
  rw [hnext, toNat_nextU32]
  push_cast
  rfl

/-- Three small relations between the powers of the multiplier. -/
def relations : Matrix (Fin 3) (Fin 3) ℤ :=
  !![887281, -317014, -517431; 2126818, -765601, 3189337; 1708968, 4079707, 1442031]

/-- Three words tell the state they come from. -/
theorem eq_of_take (h : Source.take nextU32 3 rng = Source.take nextU32 3 rng') : rng = rng' := by
  apply eq_of_nextU32
  have hwords : ∀ n, n ≤ 2 → rng.states n / 2 ^ 32 = rng'.states n / 2 ^ 32 := by
    intro n hn
    have hword := congrArg (·[n]?) h
    simp only [Source.getElem?_take (Nat.lt_succ_of_le hn), Option.some.injEq] at hword
    rw [states_ediv, states_ediv, hword]
  have hfirst : rng.states 0 = rng'.states 0 := by
    apply rng.steps_states.eq_of_ediv_eq rng'.steps_states (B := 2 ^ 32) (by norm_num) relations
    · simp [relations, Matrix.det_fin_three]
    · intro i
      fin_cases i <;> simp [relations, Fin.sum_univ_three]
    · intro i
      fin_cases i <;> simp [relations, Fin.sum_univ_three]
    · exact hwords
  have hstate : rng.nextU32.2.state = rng'.nextU32.2.state :=
    UInt64.toNat_inj.mp (Int.ofNat_inj.mp hfirst)
  exact congrArg mk hstate

-- ---------------------------------------------------------------------------
-- Seeds
-- ---------------------------------------------------------------------------

def addByte (state : UInt64) (b : UInt8 × Nat) : UInt64 :=
  if b.2 < 8 then state + b.1.toUInt64 * ((1 : UInt64) <<< .ofNat (b.2 * 8)) else state

theorem foldl_addByte {bytes : List UInt8} {i : Nat} (hi : i + bytes.length ≤ 8) (state : UInt64) :
    (bytes.zipIdx i).foldl addByte state = state + .ofNat (256 ^ i * Bytes.ofLe bytes) := by
  induction bytes generalizing i state with
  | nil => simp [Bytes.ofLe]
  | cons b bytes ih =>
    rw [List.length_cons] at hi
    have hlt : i < 8 := by omega
    have hshift : (1 : UInt64) <<< .ofNat (i * 8) = .ofNat (256 ^ i) := by
      interval_cases i <;> rfl
    have hbyte : b.toUInt64 = .ofNat b.toNat := by
      rw [← UInt8.toNat_toUInt64, UInt64.ofNat_toNat]
    have hsplit : 256 ^ i * Bytes.ofLe (b :: bytes) =
        b.toNat * 256 ^ i + 256 ^ (i + 1) * Bytes.ofLe bytes := by
      rw [Bytes.ofLe]
      ring
    rw [List.zipIdx_cons, List.foldl_cons, ih (by omega), addByte, if_pos hlt, hshift, hsplit,
      hbyte]
    simp only [UInt64.ofNat_add, UInt64.ofNat_mul, UInt64.add_assoc]

theorem foldl_addByte_rest {bytes : List UInt8} {i : Nat} (hi : 8 ≤ i) (state : UInt64) :
    (bytes.zipIdx i).foldl addByte state = state := by
  induction bytes generalizing i with
  | nil => rfl
  | cons b bytes ih =>
    rw [List.zipIdx_cons, List.foldl_cons, addByte, if_neg (by omega), ih (by omega)]

/-- What stands in for a state of zero. -/
def standIn : UInt64 := 0x853aa1f0a8b4c2d

def start (seed : Bytes 32) : List UInt8 :=
  if seed.val.take 8 = List.replicate 8 0 then Bytes.toLe 8 standIn.toNat else seed.val.take 8

theorem toLe_state_new (seed : Bytes 32) : Bytes.toLe 8 (new seed).state.toNat = start seed := by
  have hlength : (seed.val.take 8).length = 8 := by
    rw [List.length_take, Bytes.length_val]
    rfl
  have hbytes := Bytes.toLe_ofLe (seed.val.take 8)
  have hlt := Bytes.ofLe_lt (seed.val.take 8)
  rw [hlength] at hbytes hlt
  have hfold : seed.val.zipIdx.foldl addByte 0 = .ofNat (Bytes.ofLe (seed.val.take 8)) := by
    have hsplit : seed.val.zipIdx = (seed.val.take 8).zipIdx ++ (seed.val.drop 8).zipIdx 8 := by
      conv_lhs => rw [← List.take_append_drop 8 seed.val, List.zipIdx_append, hlength]
    rw [hsplit, List.foldl_append, foldl_addByte_rest (by omega), foldl_addByte (by omega),
      Nat.pow_zero, Nat.one_mul, UInt64.zero_add]
  have hnumber : (UInt64.ofNat (Bytes.ofLe (seed.val.take 8))).toNat =
      Bytes.ofLe (seed.val.take 8) := UInt64.toNat_ofNat_of_lt' hlt
  have hzero : UInt64.ofNat (Bytes.ofLe (seed.val.take 8)) = 0 ↔
      seed.val.take 8 = List.replicate 8 0 := by
    rw [← UInt64.toNat_inj, hnumber]
    constructor
    · intro h
      rw [← hbytes, h]
      rfl
    · intro h
      rw [h]
      rfl
  change Bytes.toLe 8 (if seed.val.zipIdx.foldl addByte 0 = 0 then standIn
    else seed.val.zipIdx.foldl addByte 0).toNat = _
  rw [hfold, start]
  split
  · rename_i h
    rw [if_pos (hzero.mp h)]
  · rename_i h
    rw [if_neg (mt hzero.mpr h), hnumber, hbytes]

theorem new_eq_iff (seed seed' : Bytes 32) : new seed = new seed' ↔ start seed = start seed' := by
  constructor
  · intro h
    rw [← toLe_state_new, h, toLe_state_new]
  · intro h
    have hbytes : Bytes.ofU64 (new seed).state = Bytes.ofU64 (new seed').state := by
      apply Subtype.ext
      exact (toLe_state_new seed).trans (h.trans (toLe_state_new seed').symm)
    exact congrArg mk (Bytes.ofU64_inj hbytes)

theorem start_eq_iff (seed seed' : Bytes 32) :
    start seed = start seed' ↔ seed.val.take 8 = seed'.val.take 8 ∨
      seed.val.take 8 = List.replicate 8 0 ∧ seed'.val.take 8 = Bytes.toLe 8 standIn.toNat ∨
      seed.val.take 8 = Bytes.toLe 8 standIn.toNat ∧ seed'.val.take 8 = List.replicate 8 0 := by
  have hne : List.replicate 8 (0 : UInt8) ≠ Bytes.toLe 8 standIn.toNat := by decide
  unfold start
  split <;> split
  all_goals grind

theorem nextU32_of_draw (h : (rng.draw .u32).1 = (rng'.draw .u32).1) :
    rng.nextU32.1 = rng'.nextU32.1 := Bytes.ofU32_inj (Subtype.ext h)

/-- Two seeds give generators that agree in three words, or in all they ever return, exactly
if they have the same first eight bytes or one has zeros there and the other the bytes of
the number that stands in for zero. -/
theorem new_agree_iff (seed seed' : Bytes 32) :
    (Source.take nextU32 3 (new seed) = Source.take nextU32 3 (new seed') ↔
      seed.val.take 8 = seed'.val.take 8 ∨
      seed.val.take 8 = List.replicate 8 0 ∧ seed'.val.take 8 = Bytes.toLe 8 standIn.toNat ∨
      seed.val.take 8 = Bytes.toLe 8 standIn.toNat ∧ seed'.val.take 8 = List.replicate 8 0) ∧
    ((∀ draws, (Source.run draw (new seed) draws).1 = (Source.run draw (new seed') draws).1) ↔
      Source.take nextU32 3 (new seed) = Source.take nextU32 3 (new seed')) := by
  have hwords : Source.take nextU32 3 (new seed) = Source.take nextU32 3 (new seed') ↔
      new seed = new seed' := ⟨eq_of_take, fun h => by rw [h]⟩
  constructor
  · rw [hwords, new_eq_iff, start_eq_iff]
  · constructor
    · intro h
      have hrun := h [.u32, .u32, .u32]
      simp only [Source.run, List.cons.injEq] at hrun
      obtain ⟨hfirst, hsecond, hthird, -⟩ := hrun
      simp only [Source.take_succ, Source.take_zero, List.cons.injEq]
      exact ⟨nextU32_of_draw hfirst, nextU32_of_draw hsecond, nextU32_of_draw hthird, trivial⟩
    · intro h draws
      rw [hwords.mp h]

/-- Two words do not tell the state. -/
example :
    Source.take nextU32 2 ⟨177588⟩ = Source.take nextU32 2 ⟨0x6f5dc480a65d1e1b⟩ ∧
      Source.take nextU32 3 ⟨177588⟩ ≠ Source.take nextU32 3 ⟨0x6f5dc480a65d1e1b⟩ := by decide

end LiteVision.Core.DeterministicRng
