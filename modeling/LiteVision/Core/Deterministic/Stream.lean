import LiteVision.Core.Canonical
import LiteVision.Core.Deterministic
import LiteVision.Lib.Source

/-!
# Draws from one stream

Words of 32, 64 and 128 bits and byte buffers are all cut from the words that `next_u32`
gives out, least significant byte first. A buffer that ends within a word leaves the rest
of it unused.
-/

namespace LiteVision.Core.DeterministicRng

open Lib

def randU128 (rng : DeterministicRng) : U128 × DeterministicRng :=
  let lo := rng.randU64
  let hi := lo.2.randU64
  (BitVec.ofNat 128 lo.1.toNat ||| (BitVec.ofNat 128 hi.1.toNat <<< 64), hi.2)

/-- `buffer.chunks_mut(4)`. -/
def chunksMut : List UInt8 → List (List UInt8)
  | a :: b :: c :: d :: rest => [a, b, c, d] :: chunksMut rest
  | [] => []
  | rest => [rest]

def fillChunk (val : UInt32) (chunk : List UInt8) : List UInt8 :=
  chunk.zipIdx.map fun b => (val >>> .ofNat (b.2 * 8)).toUInt8

def fillBytes.loop (rng : DeterministicRng) : List (List UInt8) → List UInt8 × DeterministicRng
  | [] => ([], rng)
  | chunk :: chunks =>
    let val := rng.randU32
    let filled := fillBytes.loop val.2 chunks
    (fillChunk val.1 chunk ++ filled.1, filled.2)

def fillBytes (rng : DeterministicRng) (buffer : List UInt8) : List UInt8 × DeterministicRng :=
  fillBytes.loop rng (chunksMut buffer)

inductive Draw where
  | u32
  | u64
  | u128
  | fillBytes (buffer : List UInt8)

def draw (rng : DeterministicRng) : Draw → List UInt8 × DeterministicRng
  | .u32 => (Bytes.toLe 4 rng.randU32.1.toNat, rng.randU32.2)
  | .u64 => (Bytes.toLe 8 rng.randU64.1.toNat, rng.randU64.2)
  | .u128 => (Bytes.toLe 16 rng.randU128.1.toNat, rng.randU128.2)
  | .fillBytes buffer => rng.fillBytes buffer

def Draw.words : Draw → Nat
  | .u32 => 1
  | .u64 => 2
  | .u128 => 4
  | .fillBytes buffer => (buffer.length + 3) / 4

def Draw.size : Draw → Nat
  | .u32 => 4
  | .u64 => 8
  | .u128 => 16
  | .fillBytes buffer => buffer.length

def le (words : List UInt32) : List UInt8 := words.flatMap fun word => Bytes.toLe 4 word.toNat

@[simp] theorem le_nil : le [] = [] := rfl

@[simp] theorem le_cons (word : UInt32) (words : List UInt32) :
    le (word :: words) = Bytes.toLe 4 word.toNat ++ le words := rfl

-- ---------------------------------------------------------------------------
-- Numbers of several words
-- ---------------------------------------------------------------------------

theorem toLe_add (m n low high : Nat) (hlow : low < 256 ^ m) :
    Bytes.toLe (m + n) (low + 256 ^ m * high) = Bytes.toLe m low ++ Bytes.toLe n high := by
  induction m generalizing low with
  | zero =>
    obtain rfl : low = 0 := by simpa using hlow
    simp [Bytes.toLe]
  | succ m ih =>
    have hhigh : 256 ^ (m + 1) * high = 256 * (256 ^ m * high) := by
      rw [Nat.pow_succ', Nat.mul_assoc]
    have hrest : low / 256 < 256 ^ m := by
      rw [Nat.pow_succ] at hlow
      exact Nat.div_lt_of_lt_mul (by rwa [Nat.mul_comm])
    have hdiv : (low + 256 ^ (m + 1) * high) / 256 = low / 256 + 256 ^ m * high := by
      rw [hhigh]
      omega
    have hbyte : UInt8.ofNat (low + 256 ^ (m + 1) * high) = UInt8.ofNat low := by
      rw [← UInt8.toNat_inj, hhigh]
      simp only [UInt8.toNat_ofNat']
      omega
    rw [Nat.succ_add, Bytes.toLe, hdiv, ih _ hrest, hbyte]
    rfl

theorem toNat_or_shift (lo hi : UInt32) :
    (lo.toUInt64 ||| (hi.toUInt64 <<< 32)).toNat = lo.toNat + 256 ^ 4 * hi.toNat := by
  have hlo : lo.toNat < 2 ^ 32 := lo.toNat_lt
  have hhi : hi.toNat < 2 ^ 32 := hi.toNat_lt
  have hshift : (hi.toUInt64 <<< 32).toNat = hi.toNat <<< 32 := by
    have hcount : (32 : UInt64).toNat % 64 = 32 := rfl
    rw [UInt64.toNat_shiftLeft, UInt32.toNat_toUInt64, hcount, Nat.shiftLeft_eq,
      Nat.mod_eq_of_lt (by omega)]
  rw [UInt64.toNat_or, UInt32.toNat_toUInt64, hshift, Nat.or_comm,
    ← Nat.shiftLeft_add_eq_or_of_lt hlo, Nat.shiftLeft_eq]
  omega

theorem toNat_or_shift_u128 (lo hi : UInt64) :
    (BitVec.ofNat 128 lo.toNat ||| (BitVec.ofNat 128 hi.toNat <<< 64)).toNat =
      lo.toNat + 256 ^ 8 * hi.toNat := by
  have hlo : lo.toNat < 2 ^ 64 := lo.toNat_lt
  have hhi : hi.toNat < 2 ^ 64 := hi.toNat_lt
  have hlow : (BitVec.ofNat 128 lo.toNat).toNat = lo.toNat :=
    Nat.mod_eq_of_lt (by omega)
  have hshift : (BitVec.ofNat 128 hi.toNat <<< 64).toNat = hi.toNat <<< 64 := by
    rw [BitVec.toNat_shiftLeft, BitVec.toNat_ofNat, Nat.mod_eq_of_lt (a := hi.toNat) (by omega),
      Nat.shiftLeft_eq]
    exact Nat.mod_eq_of_lt (by omega)
  rw [BitVec.toNat_or, hlow, hshift, Nat.or_comm, ← Nat.shiftLeft_add_eq_or_of_lt hlo,
    Nat.shiftLeft_eq]
  omega

theorem toLe_randU64 (rng : DeterministicRng) :
    Bytes.toLe 8 rng.randU64.1.toNat = le (Source.take nextU32 2 rng) := by
  have hsplit := toLe_add 4 4 rng.nextU32.1.toNat rng.nextU32.2.nextU32.1.toNat
    rng.nextU32.1.toNat_lt
  rw [← toNat_or_shift] at hsplit
  simp only [Source.take, le_cons, le_nil, List.append_nil]
  exact hsplit

theorem toLe_randU128 (rng : DeterministicRng) :
    Bytes.toLe 16 rng.randU128.1.toNat = le (Source.take nextU32 4 rng) := by
  have hsplit := toLe_add 8 8 rng.randU64.1.toNat rng.randU64.2.randU64.1.toNat
    rng.randU64.1.toNat_lt
  rw [← toNat_or_shift_u128, toLe_randU64, toLe_randU64] at hsplit
  simp only [Source.take, le_cons, le_nil, List.append_nil, List.append_assoc] at hsplit ⊢
  exact hsplit

-- ---------------------------------------------------------------------------
-- Buffers
-- ---------------------------------------------------------------------------

theorem toUInt8_shiftRight (val : UInt32) {i : Nat} (hi : i < 4) :
    (val >>> .ofNat (i * 8)).toUInt8 = UInt8.ofNat (val.toNat / 256 ^ i) := by
  have hword : (UInt32.ofNat (i * 8)).toNat % 32 = 8 * i := by
    rw [UInt32.toNat_ofNat_of_lt' (by omega : i * 8 < 2 ^ 32)]
    omega
  rw [← UInt8.toNat_inj, UInt32.toNat_toUInt8, UInt32.toNat_shiftRight, hword,
    Nat.shiftRight_eq_div_pow, Nat.pow_mul]
  rfl

theorem fillChunk_eq (val : UInt32) {chunk : List UInt8} (hchunk : chunk.length ≤ 4) :
    fillChunk val chunk = (Bytes.toLe 4 val.toNat).take chunk.length := by
  suffices h : ∀ i, i + chunk.length ≤ 4 →
      ((chunk.zipIdx i).map fun b => (val >>> .ofNat (b.2 * 8)).toUInt8) =
        (Bytes.toLe (4 - i) (val.toNat / 256 ^ i)).take chunk.length by
    have hall := h 0 (by omega)
    rwa [Nat.sub_zero, Nat.pow_zero, Nat.div_one] at hall
  clear hchunk
  induction chunk with
  | nil => simp
  | cons b chunk ih =>
    intro i hi
    rw [List.length_cons] at hi
    obtain ⟨rest, hrest⟩ : ∃ rest, 4 - i = rest + 1 := ⟨3 - i, by omega⟩
    have hnext : 4 - (i + 1) = rest := by omega
    have htail := ih (i + 1) (by omega)
    rw [hnext, Nat.pow_succ, ← Nat.div_div_eq_div_mul] at htail
    rw [hrest, Bytes.toLe, List.zipIdx_cons, List.map_cons, htail,
      toUInt8_shiftRight val (by omega), List.length_cons, List.take_succ_cons]

theorem fillBytes_eq (rng : DeterministicRng) (buffer : List UInt8) :
    rng.fillBytes buffer =
      ((le (Source.take nextU32 ((buffer.length + 3) / 4) rng)).take buffer.length,
        Source.skip nextU32 ((buffer.length + 3) / 4) rng) := by
  have hword (rng : DeterministicRng) := Bytes.length_toLe 4 rng.nextU32.1.toNat
  unfold fillBytes
  fun_induction chunksMut buffer generalizing rng with
  | case1 a b c d rest ih =>
    have hwords : ((a :: b :: c :: d :: rest).length + 3) / 4 = (rest.length + 3) / 4 + 1 := by
      simp only [List.length_cons]
      omega
    have hchunk : fillChunk rng.nextU32.1 [a, b, c, d] = Bytes.toLe 4 rng.nextU32.1.toNat := by
      apply (fillChunk_eq _ (by simp)).trans
      exact List.take_of_length_le (hword rng).le
    have hlength : (a :: b :: c :: d :: rest).length =
        (Bytes.toLe 4 rng.nextU32.1.toNat).length + rest.length := by
      rw [hword, Nat.add_comm]
      rfl
    rw [hwords, fillBytes.loop, Source.take_succ, Source.skip_succ, ih, randU32, le_cons, hchunk,
      hlength, List.take_length_add_append]
  | case2 => rfl
  | case3 rest hmore hsome =>
    have hshort : rest.length < 4 := by
      match rest with
      | [] | [_] | [_, _] | [_, _, _] => simp
      | a :: b :: c :: d :: rest => exact absurd rfl (hmore a b c d rest)
    have hpos : 0 < rest.length := List.length_pos_iff.mpr hsome
    have hwords : (rest.length + 3) / 4 = 1 := by omega
    rw [hwords, fillBytes.loop, fillBytes.loop, Source.take_succ, Source.skip_succ,
      Source.take_zero, Source.skip_zero, randU32, le_cons, le_nil, List.append_nil, List.append_nil,
      fillChunk_eq _ (by omega)]

-- ---------------------------------------------------------------------------
-- Runs
-- ---------------------------------------------------------------------------

def Draw.cut (d : Draw) (words : List UInt32) : List UInt8 := (le words).take d.size

theorem cuts_draw : Source.Cuts nextU32 draw Draw.words Draw.cut := by
  intro rng d
  have hlength (words : List UInt32) : (le words).length = 4 * words.length := by
    induction words with
    | nil => rfl
    | cons word words ih =>
      rw [le_cons, List.length_append, Bytes.length_toLe, ih, List.length_cons]
      omega
  have hwhole (n : Nat) : (le (Source.take nextU32 n rng)).take (4 * n) =
      le (Source.take nextU32 n rng) := by
    apply List.take_of_length_le
    rw [hlength, Source.length_take]
  cases d with
  | u32 =>
    have hone := hwhole 1
    rw [Source.take_succ, Source.take_zero, le_cons, le_nil, List.append_nil] at hone
    exact Prod.ext hone.symm rfl
  | u64 => exact Prod.ext ((toLe_randU64 rng).trans (hwhole 2).symm) rfl
  | u128 => exact Prod.ext ((toLe_randU128 rng).trans (hwhole 4).symm) rfl
  | fillBytes buffer => exact rng.fillBytes_eq buffer

/-- A run of draws cuts the words of the generator into consecutive pieces: each draw
returns the first bytes of its own, and the generator goes on behind the last. -/
theorem draws_run (rng : DeterministicRng) (draws : List Draw) :
    (Source.run draw rng draws).2 = Source.skip nextU32 (draws.map Draw.words).sum rng ∧
      ∀ before d after, draws = before ++ d :: after →
        (Source.run draw rng draws).1[before.length]? =
          some ((le (((Source.take nextU32 (draws.map Draw.words).sum rng).drop
            (before.map Draw.words).sum).take d.words)).take d.size) := by
  constructor
  · exact cuts_draw.run_snd draws rng
  · rintro before d after rfl
    exact cuts_draw.run_fst before d after rng

end LiteVision.Core.DeterministicRng
