import LiteVision.Core.Canonical
import Mathlib.Algebra.Order.Ring.Nat
import Mathlib.Tactic.Ring

/-!
# What is written is read back

Every typed read accepts the bytes of the write of its type, whatever follows them.
For a varint this goes group by group: the bits read so far are those below the shift.
-/

namespace LiteVision.Core

open Lib Read

namespace ByteReader

def rest (r : ByteReader) : List UInt8 := r.data.drop r.position

theorem length_rest (r : ByteReader) : r.rest.length = r.remaining := List.length_drop

-- ---------------------------------------------------------------------------
-- Bytes and words
-- ---------------------------------------------------------------------------

theorem accepts_readBytes (bytes : List UInt8) :
    Accepts rest (readBytes bytes.length) bytes bytes := by
  intro r tail h
  have hlength : r.data.length - r.position = bytes.length + tail.length := by
    rw [← List.length_append, ← h]
    exact (length_rest r).symm
  have hbounds : r.position + bytes.length ≤ r.data.length := by
    have hin := r.inBounds
    omega
  refine ⟨⟨r.data, r.position + bytes.length, hbounds⟩, ?_, ?_⟩
  · have htake : (r.data.drop r.position).take bytes.length = bytes := by
      rw [show r.data.drop r.position = bytes ++ tail from h, List.take_left]
    rw [readBytes, dif_pos hbounds, htake]
  · change r.data.drop (r.position + bytes.length) = tail
    rw [← List.drop_drop, show r.data.drop r.position = bytes ++ tail from h, List.drop_left]

theorem accepts_word {α : Type} {n x : Nat} (hx : x < 256 ^ n) (ofNat : Nat → α) :
    Accepts rest ((readLe n).map ofNat) (Bytes.toLe n x) (ofNat x) := by
  have hbytes := accepts_readBytes (Bytes.toLe n x)
  rw [Bytes.length_toLe] at hbytes
  have hword := (hbytes.map Bytes.ofLe).map ofNat
  rwa [Bytes.ofLe_toLe, Nat.mod_eq_of_lt hx] at hword

theorem accepts_readU8 (value : UInt8) : Accepts rest readU8 [value] value :=
  (accepts_readBytes [value]).map fun b => b.headD 0

theorem accepts_readU16 (value : UInt16) :
    Accepts rest readU16 (Bytes.toLe 2 value.toNat) value := by
  have hword := accepts_word (n := 2) value.toNat_lt UInt16.ofNat
  rwa [UInt16.ofNat_toNat] at hword

theorem accepts_readU32 (value : UInt32) :
    Accepts rest readU32 (Bytes.toLe 4 value.toNat) value := by
  have hword := accepts_word (n := 4) value.toNat_lt UInt32.ofNat
  rwa [UInt32.ofNat_toNat] at hword

theorem accepts_readU64 (value : UInt64) :
    Accepts rest readU64 (Bytes.toLe 8 value.toNat) value := by
  have hword := accepts_word (n := 8) value.toNat_lt UInt64.ofNat
  rwa [UInt64.ofNat_toNat] at hword

theorem accepts_readU128 (value : U128) :
    Accepts rest readU128 (Bytes.toLe 16 value.toNat) value := by
  have hword := accepts_word (n := 16) value.isLt (BitVec.ofNat 128)
  rwa [BitVec.ofNat_toNat, BitVec.setWidth_eq] at hword

-- ---------------------------------------------------------------------------
-- Varints
-- ---------------------------------------------------------------------------

/-- The groups of a value, the lowest first; all but the last are marked. -/
def varint (value : UInt64) : List UInt8 :=
  let byte := (value &&& 0x7F).toUInt8
  let val := value >>> 7
  if val ≠ 0 then (byte ||| 0x80) :: varint val
  else [byte]
termination_by value.toNat
decreasing_by exact ByteWriter.shiftRight_lt ‹_›

theorem writeVarint_eq (w : ByteWriter) (value : UInt64) :
    w.writeVarint value = w.extend (varint value) := by
  induction w, value using ByteWriter.writeVarint.induct with
  | case1 w value byte val hval ih =>
    rw [ByteWriter.writeVarint, varint, if_pos hval, if_pos hval, ih]
    simp [ByteWriter.extend, byte, val]
  | case2 w value val hval =>
    rw [ByteWriter.writeVarint, varint, if_neg hval, if_neg hval]

theorem group_bits : ∀ n : Fin 128,
    UInt8.ofNat n &&& 0x80 = 0 ∧ UInt8.ofNat n &&& 0x7F = UInt8.ofNat n ∧
      (UInt8.ofNat n ||| 0x80) &&& 0x80 ≠ 0 ∧
      (UInt8.ofNat n ||| 0x80) &&& 0x7F = UInt8.ofNat n := by
  decide

theorem toNat_lt_of_shiftRight {value : UInt64} (h : ¬ value >>> 7 ≠ 0) : value.toNat < 128 := by
  have hzero : value.toNat / 128 = 0 := by
    rw [← ByteWriter.toNat_shiftRight, not_ne_iff.mp h]
    rfl
  omega

theorem low_group (value : UInt64) :
    (value &&& 0x7F).toUInt8 = UInt8.ofNat (value.toNat % 128) := by
  apply UInt8.toNat_inj.mp
  have hand : (value &&& 0x7F).toNat = value.toNat % 128 := by
    rw [UInt64.toNat_and]
    exact Nat.and_two_pow_sub_one_eq_mod _ 7
  rw [UInt64.toNat_toUInt8, hand, UInt8.toNat_ofNat']

theorem toNat_or_shiftLeft {result : UInt64} {shift : Nat} (hresult : result.toNat < 2 ^ shift)
    (hshift : shift < 64) (word : UInt64) :
    (result ||| (word <<< UInt64.ofNat shift)).toNat =
      (result.toNat + word.toNat * 2 ^ shift) % 2 ^ 64 := by
  have hamount : (UInt64.ofNat shift).toNat % 64 = shift := by
    rw [UInt64.toNat_ofNat']
    omega
  have hword : 2 ^ 64 = 2 ^ shift * 2 ^ (64 - shift) := by
    rw [← Nat.pow_add, Nat.add_sub_cancel' hshift.le]
  -- what is cut off is a multiple of the power the word was shifted by
  have hshifted : (word <<< UInt64.ofNat shift).toNat =
      2 ^ shift * (word.toNat % 2 ^ (64 - shift)) := by
    rw [UInt64.toNat_shiftLeft, hamount, Nat.shiftLeft_eq, hword, Nat.mul_comm,
      Nat.mul_mod_mul_left]
  have hsplit : (result.toNat + word.toNat * 2 ^ shift) % 2 ^ 64 =
      2 ^ shift * (word.toNat % 2 ^ (64 - shift)) + result.toNat := by
    rw [hword, Nat.mod_mul, Nat.add_mul_mod_self_right, Nat.mod_eq_of_lt hresult,
      Nat.add_mul_div_right _ _ (Nat.two_pow_pos shift), Nat.div_eq_of_lt hresult, Nat.zero_add,
      Nat.add_comm]
  rw [UInt64.toNat_or, hshifted, Nat.or_comm, ← Nat.two_pow_add_eq_or_of_lt hresult, hsplit]

theorem toNat_or_shift {result : UInt64} {shift n : Nat} (hresult : result.toNat < 2 ^ shift)
    (hn : n < 128) (hfit : n * 2 ^ shift < 2 ^ 64) (hshift : shift < 64) :
    (result ||| ((UInt8.ofNat n).toUInt64 <<< UInt64.ofNat shift)).toNat =
      result.toNat + n * 2 ^ shift := by
  have hbyte : (UInt8.ofNat n).toUInt64.toNat = n := by
    rw [UInt8.toNat_toUInt64, UInt8.toNat_ofNat', Nat.mod_eq_of_lt (by omega)]
  have hword : 2 ^ 64 = 2 ^ (64 - shift) * 2 ^ shift := by
    rw [← Nat.pow_add, Nat.sub_add_cancel hshift.le]
  have hsum : (n + 1) * 2 ^ shift ≤ 2 ^ 64 := by
    rw [hword] at hfit ⊢
    exact Nat.mul_le_mul_right _ (Nat.lt_of_mul_lt_mul_right hfit)
  rw [Nat.succ_mul] at hsum
  rw [toNat_or_shiftLeft hresult hshift, hbyte, Nat.mod_eq_of_lt (by omega)]

theorem accepts_loop_last {byte : UInt8} (h : byte &&& 0x80 = 0) (result : UInt64) (shift : Nat) :
    Accepts rest (readVarint.loop result shift) [byte]
      (result ||| ((byte &&& 0x7F).toUInt64 <<< UInt64.ofNat shift)) := by
  rw [readVarint.loop, ← List.append_nil [byte]]
  refine (accepts_readU8 byte).bind ?_
  simp only [h, if_true]
  exact accepts_pure _

theorem accepts_loop_more {byte : UInt8} (h : byte &&& 0x80 ≠ 0) {result a : UInt64} {shift : Nat}
    (hshift : shift + 7 < 64) {input : List UInt8}
    (hmore : Accepts rest (readVarint.loop
      (result ||| ((byte &&& 0x7F).toUInt64 <<< UInt64.ofNat shift)) (shift + 7)) input a) :
    Accepts rest (readVarint.loop result shift) (byte :: input) a := by
  rw [readVarint.loop, ← List.singleton_append]
  refine (accepts_readU8 byte).bind ?_
  simp only [h, if_false]
  rwa [dif_neg (Nat.not_le.mpr hshift)]

theorem accepts_loop (value result : UInt64) (shift : Nat) (hshift : shift < 64)
    (hfit : value.toNat * 2 ^ shift < 2 ^ 64) (hresult : result.toNat < 2 ^ shift) :
    Accepts rest (readVarint.loop result shift) (varint value)
      (UInt64.ofNat (result.toNat + value.toNat * 2 ^ shift)) := by
  -- by the groups of the value; the bits of `result` stay below the shift
  induction value using varint.induct generalizing result shift with
  | case1 value val hval ih =>
    have hlow : value.toNat % 128 < 128 := Nat.mod_lt _ (by decide)
    obtain ⟨-, -, hmark, hbits⟩ := group_bits ⟨value.toNat % 128, hlow⟩
    have hrest : val.toNat = value.toNat / 128 := ByteWriter.toNat_shiftRight value
    have hmul : value.toNat * 2 ^ shift =
        val.toNat * 2 ^ (shift + 7) + value.toNat % 128 * 2 ^ shift := by
      conv_lhs => rw [← Nat.div_add_mod value.toNat 128, ← hrest]
      ring
    have hmore : shift + 7 < 64 := by
      have hpos : 1 ≤ val.toNat := Nat.pos_of_ne_zero fun hz => hval (UInt64.toNat_inj.mp hz)
      have hle : 1 * 2 ^ (shift + 7) ≤ val.toNat * 2 ^ (shift + 7) := Nat.mul_le_mul_right _ hpos
      rw [← Nat.pow_lt_pow_iff_right (a := 2) (by decide)]
      omega
    have hor := toNat_or_shift hresult hlow (by omega) hshift
    have hbelow : result.toNat + value.toNat % 128 * 2 ^ shift < 2 ^ (shift + 7) := by
      have hle : value.toNat % 128 * 2 ^ shift ≤ 127 * 2 ^ shift :=
        Nat.mul_le_mul_right _ (Nat.lt_succ_iff.mp hlow)
      rw [Nat.pow_add]
      omega
    rw [varint, if_pos hval, low_group]
    apply accepts_loop_more hmark hmore
    rw [hbits]
    have hgoesOn := ih _ (shift + 7) hmore (by omega) (hor.trans_lt hbelow)
    rw [hor, Nat.add_assoc, Nat.add_comm (_ * _), ← hmul] at hgoesOn
    exact hgoesOn
  | case2 value val hval =>
    have hsmall : value.toNat < 128 := toNat_lt_of_shiftRight hval
    obtain ⟨hlast, hbits, -, -⟩ := group_bits ⟨value.toNat, hsmall⟩
    have hor := toNat_or_shift hresult hsmall hfit hshift
    rw [varint, if_neg hval, low_group, Nat.mod_eq_of_lt hsmall, ← hor, UInt64.ofNat_toNat]
    have hend := accepts_loop_last hlast result shift
    rwa [hbits] at hend

theorem accepts_readVarint (value : UInt64) : Accepts rest readVarint (varint value) value := by
  have hloop := accepts_loop value 0 0 (by decide) (by simpa using value.toNat_lt) (by decide)
  rw [readVarint]
  simpa using hloop

end ByteReader

-- ---------------------------------------------------------------------------
-- Sequences
-- ---------------------------------------------------------------------------

def Item.encoding : Item → List UInt8
  | .u8 value => [value]
  | .u16 value => Bytes.toLe 2 value.toNat
  | .u32 value => Bytes.toLe 4 value.toNat
  | .u64 value => Bytes.toLe 8 value.toNat
  | .u128 value => Bytes.toLe 16 value.toNat
  | .i8 value => [value.toUInt8]
  | .i16 value => Bytes.toLe 2 value.toUInt16.toNat
  | .i32 value => Bytes.toLe 4 value.toUInt32.toNat
  | .i64 value => Bytes.toLe 8 value.toUInt64.toNat
  | .i128 value => Bytes.toLe 16 value.toU128.toNat
  | .varint value => ByteReader.varint value
  | .bytes value => value

theorem ByteWriter.write_eq (w : ByteWriter) (item : Item) :
    w.write item = w.extend item.encoding := by
  cases item with
  | varint value => exact ByteReader.writeVarint_eq w value
  | _ => rfl

theorem ByteWriter.buffer_foldl_write (items : List Item) (w : ByteWriter) :
    (items.foldl write w).buffer = w.buffer ++ items.flatMap Item.encoding := by
  induction items generalizing w with
  | nil => exact (List.append_nil _).symm
  | cons item items ih =>
    rw [List.foldl_cons, ih, write_eq, List.flatMap_cons, ← List.append_assoc]
    rfl

open ByteReader in
theorem Item.accepts (item : Item) : Accepts rest (read item.shape) item.encoding item := by
  cases item with
  | u8 value => exact (accepts_readU8 value).map Item.u8
  | u16 value => exact (accepts_readU16 value).map Item.u16
  | u32 value => exact (accepts_readU32 value).map Item.u32
  | u64 value => exact (accepts_readU64 value).map Item.u64
  | u128 value => exact (accepts_readU128 value).map Item.u128
  | i8 value => exact ((accepts_readU8 value.toUInt8).map UInt8.toInt8).map Item.i8
  | i16 value => exact ((accepts_readU16 value.toUInt16).map UInt16.toInt16).map Item.i16
  | i32 value => exact ((accepts_readU32 value.toUInt32).map UInt32.toInt32).map Item.i32
  | i64 value => exact ((accepts_readU64 value.toUInt64).map UInt64.toInt64).map Item.i64
  | i128 value => exact ((accepts_readU128 value.toU128).map I128.ofU128).map Item.i128
  | varint value => exact (accepts_readVarint value).map Item.varint
  | bytes value => exact (accepts_readBytes value).map Item.bytes

/-- What a writer wrote a reader reads, and what follows is still to be read. -/
theorem canonical_round_trip (items : List Item) (suffix : List UInt8) :
    ∃ r, Read.all ByteReader.read (items.map Item.shape)
        (ByteReader.new ((items.foldl ByteWriter.write ByteWriter.new).intoBytes ++ suffix)) =
          some (.ok items, r) ∧
      r.remaining = suffix.length := by
  have hbytes : (items.foldl ByteWriter.write ByteWriter.new).intoBytes =
      items.flatMap Item.encoding := ByteWriter.buffer_foldl_write items ByteWriter.new
  obtain ⟨r, hread, hrest⟩ := accepts_all Item.accepts items (ByteReader.new _) suffix
    (congrArg (· ++ suffix) hbytes)
  refine ⟨r, hread, ?_⟩
  rw [← ByteReader.length_rest, hrest]

end LiteVision.Core
