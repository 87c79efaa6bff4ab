import LiteVision.Bytes
import LiteVision.Lib.Reading

/-!
# The canonical byte codec

`canonical.rs`: a writer that appends to a buffer and a reader that walks along one.
Integers are little-endian words, a varint is seven bits to a byte.
-/

namespace LiteVision.Core

open Lib

inductive CoreError where
  | invalidEncoding (message : String)
  deriving DecidableEq

abbrev U128 := BitVec 128

/-- Two's complement, as Lean's own signed words are. -/
structure I128 where ofU128 ::
  toU128 : U128
  deriving DecidableEq

-- ---------------------------------------------------------------------------
-- Writing
-- ---------------------------------------------------------------------------

structure ByteWriter where
  buffer : List UInt8
  deriving DecidableEq

namespace ByteWriter

def new : ByteWriter := ⟨[]⟩

def extend (w : ByteWriter) (bytes : List UInt8) : ByteWriter := ⟨w.buffer ++ bytes⟩

/-- `extend_from_slice(&value.to_le_bytes())` for a word of `n` bytes. -/
def writeLe (n : Nat) (w : ByteWriter) (value : Nat) : ByteWriter := w.extend (Bytes.toLe n value)

def writeU8 (w : ByteWriter) (value : UInt8) : ByteWriter := w.extend [value]

def writeU16 (w : ByteWriter) (value : UInt16) : ByteWriter := w.writeLe 2 value.toNat

def writeU32 (w : ByteWriter) (value : UInt32) : ByteWriter := w.writeLe 4 value.toNat

def writeU64 (w : ByteWriter) (value : UInt64) : ByteWriter := w.writeLe 8 value.toNat

def writeU128 (w : ByteWriter) (value : U128) : ByteWriter := w.writeLe 16 value.toNat

def writeI8 (w : ByteWriter) (value : Int8) : ByteWriter := w.extend [value.toUInt8]

def writeI16 (w : ByteWriter) (value : Int16) : ByteWriter := w.writeLe 2 value.toUInt16.toNat

def writeI32 (w : ByteWriter) (value : Int32) : ByteWriter := w.writeLe 4 value.toUInt32.toNat

def writeI64 (w : ByteWriter) (value : Int64) : ByteWriter := w.writeLe 8 value.toUInt64.toNat

def writeI128 (w : ByteWriter) (value : I128) : ByteWriter := w.writeLe 16 value.toU128.toNat

def writeBytes (w : ByteWriter) (value : List UInt8) : ByteWriter := w.extend value

theorem toNat_shiftRight (val : UInt64) : (val >>> 7).toNat = val.toNat / 128 := by
  rw [UInt64.toNat_shiftRight]
  exact Nat.shiftRight_eq_div_pow _ 7

theorem shiftRight_lt {val : UInt64} (h : val >>> 7 ≠ 0) : (val >>> 7).toNat < val.toNat := by
  have hshift := toNat_shiftRight val
  have hne : (val >>> 7).toNat ≠ 0 := fun hz => h (UInt64.toNat_inj.mp hz)
  omega

def writeVarint (w : ByteWriter) (value : UInt64) : ByteWriter :=
  let byte := (value &&& 0x7F).toUInt8
  let val := value >>> 7
  if val ≠ 0 then (w.extend [byte ||| 0x80]).writeVarint val
  else w.extend [byte]
termination_by value.toNat
decreasing_by exact shiftRight_lt ‹_›

def intoBytes (w : ByteWriter) : List UInt8 := w.buffer

end ByteWriter

-- ---------------------------------------------------------------------------
-- Reading
-- ---------------------------------------------------------------------------

/-- A reader stands within its data, or at its end. -/
structure ByteReader where
  data : List UInt8
  position : Nat
  inBounds : position ≤ data.length

namespace ByteReader

def new (data : List UInt8) : ByteReader := ⟨data, 0, Nat.zero_le _⟩

/-- The sum of `position` and `count` is a `usize`. No vector is so long that it
overflows within the bounds; beyond them the read panics, at the sum or at the slice. -/
def readBytes (count : Nat) : Read ByteReader CoreError (List UInt8) := fun r =>
  if h : r.position + count ≤ r.data.length then
    some (.ok ((r.data.drop r.position).take count), ⟨r.data, r.position + count, h⟩)
  else if r.position + count < 2 ^ 64 then
    some (.error (.invalidEncoding
      s!"Out of bounds: position {r.position} + count {count} > length {r.data.length}"), r)
  else none

def readLe (n : Nat) : Read ByteReader CoreError Nat := (readBytes n).map Bytes.ofLe

def readU8 : Read ByteReader CoreError UInt8 := (readBytes 1).map fun b => b.headD 0

def readU16 : Read ByteReader CoreError UInt16 := (readLe 2).map UInt16.ofNat

def readU32 : Read ByteReader CoreError UInt32 := (readLe 4).map UInt32.ofNat

def readU64 : Read ByteReader CoreError UInt64 := (readLe 8).map UInt64.ofNat

def readU128 : Read ByteReader CoreError U128 := (readLe 16).map (BitVec.ofNat 128)

def readI8 : Read ByteReader CoreError Int8 := readU8.map UInt8.toInt8

def readI16 : Read ByteReader CoreError Int16 := readU16.map UInt16.toInt16

def readI32 : Read ByteReader CoreError Int32 := readU32.map UInt32.toInt32

def readI64 : Read ByteReader CoreError Int64 := readU64.map UInt64.toInt64

def readI128 : Read ByteReader CoreError I128 := readU128.map .ofU128

/-- The loop of `read_varint`; the groups of seven bits come from the lowest on. -/
def readVarint.loop (result : UInt64) (shift : Nat) : Read ByteReader CoreError UInt64 :=
  readU8.bind fun byte =>
    let result := result ||| ((byte &&& 0x7F).toUInt64 <<< UInt64.ofNat shift)
    if byte &&& 0x80 = 0 then .pure result
    else if h : shift + 7 ≥ 64 then .fail (.invalidEncoding "Varint overflow")
    else readVarint.loop result (shift + 7)
termination_by 64 - shift

def readVarint : Read ByteReader CoreError UInt64 := readVarint.loop 0 0

def remaining (r : ByteReader) : Nat := r.data.length - r.position

end ByteReader

-- ---------------------------------------------------------------------------
-- Sequences of typed values
-- ---------------------------------------------------------------------------

inductive Item where
  | u8 (value : UInt8)
  | u16 (value : UInt16)
  | u32 (value : UInt32)
  | u64 (value : UInt64)
  | u128 (value : U128)
  | i8 (value : Int8)
  | i16 (value : Int16)
  | i32 (value : Int32)
  | i64 (value : Int64)
  | i128 (value : I128)
  | varint (value : UInt64)
  | bytes (value : List UInt8)
  deriving DecidableEq

inductive Shape where
  | u8 | u16 | u32 | u64 | u128 | i8 | i16 | i32 | i64 | i128 | varint
  | bytes (count : Nat)
  deriving DecidableEq

def Item.shape : Item → Shape
  | .u8 _ => .u8
  | .u16 _ => .u16
  | .u32 _ => .u32
  | .u64 _ => .u64
  | .u128 _ => .u128
  | .i8 _ => .i8
  | .i16 _ => .i16
  | .i32 _ => .i32
  | .i64 _ => .i64
  | .i128 _ => .i128
  | .varint _ => .varint
  | .bytes value => .bytes value.length

def ByteWriter.write (w : ByteWriter) : Item → ByteWriter
  | .u8 value => w.writeU8 value
  | .u16 value => w.writeU16 value
  | .u32 value => w.writeU32 value
  | .u64 value => w.writeU64 value
  | .u128 value => w.writeU128 value
  | .i8 value => w.writeI8 value
  | .i16 value => w.writeI16 value
  | .i32 value => w.writeI32 value
  | .i64 value => w.writeI64 value
  | .i128 value => w.writeI128 value
  | .varint value => w.writeVarint value
  | .bytes value => w.writeBytes value

def ByteReader.read : Shape → Read ByteReader CoreError Item
  | .u8 => readU8.map .u8
  | .u16 => readU16.map .u16
  | .u32 => readU32.map .u32
  | .u64 => readU64.map .u64
  | .u128 => readU128.map .u128
  | .i8 => readI8.map .i8
  | .i16 => readI16.map .i16
  | .i32 => readI32.map .i32
  | .i64 => readI64.map .i64
  | .i128 => readI128.map .i128
  | .varint => readVarint.map .varint
  | .bytes count => (readBytes count).map .bytes

end LiteVision.Core
