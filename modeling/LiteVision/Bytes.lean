import Mathlib.Algebra.Order.Ring.Nat
import Mathlib.Data.List.Lex
import Mathlib.Order.Basic
import Mathlib.Tactic.Common

/-!
# Bytes and machine words

`Bytes n` is the fixed-size array `[u8; n]`; a `Vec<u8>` is a list. The words
`u32` and `u64` are Lean's own, whose arithmetic wraps as in a release build.

Nothing here computes a hash or checks a signature: both come from outside,
as a `Crypto`.
-/

namespace LiteVision

instance linearOrderUInt8 : LinearOrder UInt8 :=
  LinearOrder.lift' UInt8.toNat fun _ _ => UInt8.toNat_inj.mp

abbrev Bytes (n : Nat) := { l : List UInt8 // l.length = n }

namespace Bytes

def fill (n : Nat) (b : UInt8) : Bytes n := ⟨List.replicate n b, List.length_replicate⟩

/-- `payload[off..off + n]`; the index is in range by `h`. -/
def slice (payload : List UInt8) (off n : Nat) (h : off + n ≤ payload.length) : Bytes n :=
  ⟨(payload.drop off).take n, by simp; omega⟩

/-- `payload.get(off..off + n)`. -/
def slice? (payload : List UInt8) (off n : Nat) : Option (Bytes n) :=
  if h : off + n ≤ payload.length then some (slice payload off n h) else none

theorem slice?_eq_some {payload : List UInt8} {off n : Nat} (h : off + n ≤ payload.length) :
    slice? payload off n = some (slice payload off n h) := by
  rw [slice?, dif_pos h]

theorem length_of_slice? {payload : List UInt8} {off n : Nat} {b : Bytes n}
    (h : slice? payload off n = some b) : off + n ≤ payload.length := by
  unfold slice? at h
  split at h
  · assumption
  · cases h

theorem length_val {n : Nat} (a : Bytes n) : a.val.length = n := a.property

theorem slice_first {n : Nat} (a : Bytes n) (t : List UInt8) (h : 0 + n ≤ (a.val ++ t).length) :
    slice (a.val ++ t) 0 n h = a := by
  apply Subtype.ext
  simp [slice, List.take_left' a.property]

theorem slice_second {n m : Nat} (a : Bytes n) (b : Bytes m) (t : List UInt8)
    (h : n + m ≤ (a.val ++ (b.val ++ t)).length) : slice (a.val ++ (b.val ++ t)) n m h = b := by
  apply Subtype.ext
  simp [slice, List.drop_left' a.property, List.take_left' b.property]

theorem slice_third {n m k : Nat} (a : Bytes n) (b : Bytes m) (d : Bytes k) (t : List UInt8)
    (h : n + m + k ≤ (a.val ++ (b.val ++ (d.val ++ t))).length) :
    slice (a.val ++ (b.val ++ (d.val ++ t))) (n + m) k h = d := by
  apply Subtype.ext
  simp [slice, ← List.drop_drop, List.drop_left' a.property, List.drop_left' b.property,
    List.take_left' d.property]

theorem append_inj {n : Nat} {a b : Bytes n} {s t : List UInt8} (h : a.val ++ s = b.val ++ t) :
    a = b ∧ s = t := by
  obtain ⟨hfront, hrest⟩ := List.append_inj h (a.property.trans b.property.symm)
  exact ⟨Subtype.ext hfront, hrest⟩

theorem flatMap_append_inj {n : Nat} {as bs : List (Bytes n)} {s t : List UInt8}
    (hl : as.length = bs.length) (h : as.flatMap Subtype.val ++ s = bs.flatMap Subtype.val ++ t) :
    as = bs ∧ s = t := by
  induction as generalizing bs with
  | nil =>
    obtain rfl := List.eq_nil_of_length_eq_zero hl.symm
    exact ⟨rfl, h⟩
  | cons a as ih =>
    cases bs with
    | nil => cases hl
    | cons b bs =>
      simp only [List.flatMap_cons, List.append_assoc] at h
      obtain ⟨rfl, hrest⟩ := append_inj h
      obtain ⟨rfl, rfl⟩ := ih (Nat.succ.inj hl) hrest
      exact ⟨rfl, rfl⟩

theorem flatten_append_inj {as bs : List (List UInt8)} {s t : List UInt8}
    (hl : as.map List.length = bs.map List.length) (h : as.flatten ++ s = bs.flatten ++ t) :
    as = bs ∧ s = t := by
  have hlength : as.flatten.length = bs.flatten.length := by
    rw [List.length_flatten, List.length_flatten, hl]
  obtain ⟨hflatten, hrest⟩ := List.append_inj h hlength
  exact ⟨List.eq_iff_flatten_eq.mpr ⟨hflatten, hl⟩, hrest⟩

-- ---------------------------------------------------------------------------
-- Little-endian words
-- ---------------------------------------------------------------------------

/-- The `n` lowest bytes of `x`, least significant first. -/
def toLe : (n : Nat) → Nat → List UInt8
  | 0, _ => []
  | n + 1, x => UInt8.ofNat x :: toLe n (x / 256)

def ofLe : List UInt8 → Nat
  | [] => 0
  | b :: bs => b.toNat + 256 * ofLe bs

theorem length_toLe (n x : Nat) : (toLe n x).length = n := by
  induction n generalizing x with
  | zero => rfl
  | succ n ih => simp [toLe, ih]

theorem ofLe_toLe (n x : Nat) : ofLe (toLe n x) = x % 256 ^ n := by
  induction n generalizing x with
  | zero => simp [toLe, ofLe, Nat.mod_one]
  | succ n ih =>
    rw [toLe, ofLe, ih, Nat.pow_succ', Nat.mod_mul]
    simp

theorem toLe_ofLe (l : List UInt8) : toLe l.length (ofLe l) = l := by
  induction l with
  | nil => rfl
  | cons b l ih =>
    have hlt := b.toNat_lt
    have hdiv : (b.toNat + 256 * ofLe l) / 256 = ofLe l := by omega
    rw [List.length_cons, ofLe, toLe, hdiv, ih]
    congr 1
    apply UInt8.toNat_inj.mp
    rw [UInt8.toNat_ofNat']
    omega

theorem ofLe_lt (l : List UInt8) : ofLe l < 256 ^ l.length := by
  induction l with
  | nil => simp [ofLe]
  | cons b l ih =>
    have hlt := b.toNat_lt
    rw [ofLe, List.length_cons, Nat.pow_succ']
    omega

/-- `u64::to_le_bytes`. -/
def ofU64 (x : UInt64) : Bytes 8 := ⟨toLe 8 x.toNat, length_toLe 8 _⟩

/-- `u32::to_le_bytes`. -/
def ofU32 (x : UInt32) : Bytes 4 := ⟨toLe 4 x.toNat, length_toLe 4 _⟩

/-- `u16::to_le_bytes`. -/
def ofU16 (x : UInt16) : Bytes 2 := ⟨toLe 2 x.toNat, length_toLe 2 _⟩

/-- `u64::from_le_bytes`. -/
def toU64 (b : Bytes 8) : UInt64 := UInt64.ofNat (ofLe b.val)

theorem toU64_ofU64 (x : UInt64) : toU64 (ofU64 x) = x := by
  have hx : x.toNat < 256 ^ 8 := x.toNat_lt
  rw [toU64, ofU64, ofLe_toLe, Nat.mod_eq_of_lt hx, UInt64.ofNat_toNat]

theorem ofU64_inj {x y : UInt64} (h : ofU64 x = ofU64 y) : x = y := by
  rw [← toU64_ofU64 x, h, toU64_ofU64]

theorem ofU32_inj {x y : UInt32} (h : ofU32 x = ofU32 y) : x = y := by
  have hx : x.toNat < 256 ^ 4 := x.toNat_lt
  have hy : y.toNat < 256 ^ 4 := y.toNat_lt
  have hbytes : toLe 4 x.toNat = toLe 4 y.toNat := congrArg Subtype.val h
  have hword := congrArg ofLe hbytes
  rw [ofLe_toLe, ofLe_toLe, Nat.mod_eq_of_lt hx, Nat.mod_eq_of_lt hy] at hword
  exact UInt32.toNat_inj.mp hword

theorem ofU16_inj {x y : UInt16} (h : ofU16 x = ofU16 y) : x = y := by
  have hx : x.toNat < 256 ^ 2 := x.toNat_lt
  have hy : y.toNat < 256 ^ 2 := y.toNat_lt
  have hbytes : toLe 2 x.toNat = toLe 2 y.toNat := congrArg Subtype.val h
  have hword := congrArg ofLe hbytes
  rw [ofLe_toLe, ofLe_toLe, Nat.mod_eq_of_lt hx, Nat.mod_eq_of_lt hy] at hword
  exact UInt16.toNat_inj.mp hword

theorem ofU16_eq_iff {x y : UInt16} : ofU16 x = ofU16 y ↔ x = y := ⟨ofU16_inj, congrArg ofU16⟩

theorem ofU32_eq_iff {x y : UInt32} : ofU32 x = ofU32 y ↔ x = y := ⟨ofU32_inj, congrArg ofU32⟩

theorem ofU64_eq_iff {x y : UInt64} : ofU64 x = ofU64 y ↔ x = y := ⟨ofU64_inj, congrArg ofU64⟩

theorem ofU64_ofNat_inj {m n : Nat} (hm : m < 2 ^ 64) (hn : n < 2 ^ 64)
    (h : ofU64 (.ofNat m) = ofU64 (.ofNat n)) : m = n := by
  have hword := congrArg UInt64.toNat (ofU64_inj h)
  rwa [UInt64.toNat_ofNat', UInt64.toNat_ofNat', Nat.mod_eq_of_lt hm, Nat.mod_eq_of_lt hn] at hword

/-- `i64::from_le_bytes`. -/
def toI64 (b : Bytes 8) : Int64 := (toU64 b).toInt64

theorem toI64_ofU64 (x : Int64) : toI64 (ofU64 x.toUInt64) = x := by
  rw [toI64, toU64_ofU64]
  rfl

end Bytes

-- ---------------------------------------------------------------------------
-- Words as numbers
-- ---------------------------------------------------------------------------

theorem eq_zero_iff {a : UInt64} : a = 0 ↔ a.toNat = 0 := UInt64.toNat_inj.symm

theorem toNat_add_of_lt {a b : UInt64} (h : a.toNat + b.toNat < 2 ^ 64) :
    (a + b).toNat = a.toNat + b.toNat := by
  rw [UInt64.toNat_add, Nat.mod_eq_of_lt h]

theorem toNat_min (a b : UInt64) : (min a b).toNat = min a.toNat b.toNat := by
  change (if a ≤ b then a else b).toNat = _
  split
  · rename_i h
    exact (Nat.min_eq_left (UInt64.le_iff_toNat_le.mp h)).symm
  · rename_i h
    exact (Nat.min_eq_right (Nat.le_of_not_le (mt UInt64.le_iff_toNat_le.mpr h))).symm

-- ---------------------------------------------------------------------------
-- Saturating words
-- ---------------------------------------------------------------------------

/-- The word nearest to `n`. -/
def saturate (n : Nat) : UInt64 := UInt64.ofNat (min n (2 ^ 64 - 1))

theorem toNat_saturate (n : Nat) : (saturate n).toNat = min n (2 ^ 64 - 1) := by
  have h : min n (2 ^ 64 - 1) < 2 ^ 64 := by omega
  rw [saturate, UInt64.toNat_ofNat', Nat.mod_eq_of_lt h]

def saturatingAdd (a b : UInt64) : UInt64 := saturate (a.toNat + b.toNat)

def saturatingSub (a b : UInt64) : UInt64 := saturate (a.toNat - b.toNat)

theorem toNat_saturatingSub (a b : UInt64) : (saturatingSub a b).toNat = a.toNat - b.toNat := by
  have h : a.toNat < 2 ^ 64 := a.toNat_lt
  rw [saturatingSub, toNat_saturate]
  omega

def saturatingMul (a b : UInt64) : UInt64 := saturate (a.toNat * b.toNat)

-- ---------------------------------------------------------------------------
-- Checked words
-- ---------------------------------------------------------------------------

/-- `a + b` as in a debug build; `none` for the panic. -/
def checkedAdd (a b : UInt64) : Option UInt64 :=
  if a.toNat + b.toNat < 2 ^ 64 then some (a + b) else none

def checkedMul (a b : UInt64) : Option UInt64 :=
  if a.toNat * b.toNat < 2 ^ 64 then some (a * b) else none

def checkedNeg (x : Int64) : Option Int64 := if x = Int64.minValue then none else some (-x)

theorem checkedAdd_of_lt {a b : UInt64} (h : a.toNat + b.toNat < 2 ^ 64) :
    checkedAdd a b = some (a + b) := if_pos h

theorem toNat_toUInt64_lt {x : Int64} (h : 0 ≤ x) : x.toUInt64.toNat < 2 ^ 63 := by
  have hlt := Int64.toInt_lt x
  rw [Int64.toInt_eq_toNatClampNeg h, ← Int64.toNat_toUInt64_of_le h] at hlt
  omega

/-- The primitives the code takes from outside: `blake3`, and `ed25519`
verification of a message under a public key (false for a malformed key). -/
structure Crypto where
  blake3 : List UInt8 → Bytes 32
  ed25519Verify : Bytes 32 → Bytes 32 → Bytes 64 → Bool

end LiteVision
