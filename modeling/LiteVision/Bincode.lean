import LiteVision.Bytes
import LiteVision.Lib.Codec
import Mathlib.Data.UInt

/-!
# The binary format of records

The models take `bincode::serialize` and `bincode::deserialize` as a codec from outside.
This is one such codec, the format as it is documented: words of their size, least byte
first, lengths as `u64`, a variant as its place in the declaration, and nothing between. A
record is its fields in their order. What comes after a record is not looked at.
-/

namespace LiteVision.Bincode

open Lib

def number (n : Nat) : Codec UInt8 Nat where
  write k := Bytes.toLe n k
  read l := if n ≤ l.length then some (Bytes.ofLe (l.take n), l.drop n) else none
  Fits k := k < 256 ^ n
  read_write {k} hk rest := by
    have hlength := Bytes.length_toLe n k
    have hle : n ≤ (Bytes.toLe n k ++ rest).length := by
      rw [List.length_append, hlength]
      exact Nat.le_add_right n rest.length
    simp only [if_pos hle, List.take_left' hlength, List.drop_left' hlength, Bytes.ofLe_toLe,
      Nat.mod_eq_of_lt hk]
  of_read {l k rest} h := by
    split at h
    · rename_i hle
      cases h
      have hlength : (l.take n).length = n := List.length_take_of_le hle
      have hlt := Bytes.ofLe_lt (l.take n)
      have hbytes := Bytes.toLe_ofLe (l.take n)
      rw [hlength] at hlt hbytes
      refine ⟨hlt, ?_⟩
      rw [hbytes, List.take_append_drop]
    · cases h

def len : Codec UInt8 Nat := number 8

def u16 : Codec UInt8 UInt16 :=
  (number 2).via UInt16.toNat (fun k => if k < 2 ^ 16 then some (.ofNat k) else none) fun k x => by
    have hx := x.toNat_lt
    split
    · rename_i hk
      rw [Option.some.injEq, ← UInt16.toNat_inj, UInt16.toNat_ofNat_of_lt' hk]
    · exact iff_of_false (by simp) (by omega)

def u32 : Codec UInt8 UInt32 :=
  (number 4).via UInt32.toNat (fun k => if k < 2 ^ 32 then some (.ofNat k) else none) fun k x => by
    have hx := x.toNat_lt
    split
    · rename_i hk
      rw [Option.some.injEq, ← UInt32.toNat_inj, UInt32.toNat_ofNat_of_lt' hk]
    · exact iff_of_false (by simp) (by omega)

def u64 : Codec UInt8 UInt64 :=
  (number 8).via UInt64.toNat (fun k => if k < 2 ^ 64 then some (.ofNat k) else none) fun k x => by
    have hx := x.toNat_lt
    split
    · rename_i hk
      rw [Option.some.injEq, ← UInt64.toNat_inj, UInt64.toNat_ofNat_of_lt' hk]
    · exact iff_of_false (by simp) (by omega)

def tag : Codec UInt8 Bool :=
  Codec.item.via (fun present => if present then 1 else 0)
    (fun b => if b = 0 then some false else if b = 1 then some true else none) fun b present => by
    cases present <;> grind

/-- `[u8; n]`. -/
def bytes (n : Nat) : Codec UInt8 (Bytes n) := Codec.array n

def option {α : Type} (x : Codec UInt8 α) : Codec UInt8 (Option α) := Codec.option tag x

def vec {α : Type} (x : Codec UInt8 α) : Codec UInt8 (List α) := Codec.counted len x

def blob : Codec UInt8 (List UInt8) := vec Codec.item

/-- `String`: the bytes of its UTF-8 form. -/
def string : Codec UInt8 String :=
  blob.via (fun s => s.toByteArray.data.toList) (fun l => String.fromUTF8? ⟨⟨l⟩⟩) fun l s => by
    unfold String.fromUTF8?
    split
    · rename_i hvalid
      rw [Option.some.injEq, ← String.toByteArray_inj]
      constructor
      · intro h
        rw [← h]
        rfl
      · rintro rfl
        rfl
    · rename_i hinvalid
      refine iff_of_false (by simp) ?_
      rintro rfl
      exact hinvalid s.isValidUTF8

/-- An enumeration whose variants hold nothing, in the order of its declaration. -/
def enumeration {α : Type} [DecidableEq α] (variants : List α) (hall : ∀ a, a ∈ variants)
    (hnodup : variants.Nodup) (hcount : variants.length ≤ 2 ^ 32) : Codec UInt8 α :=
  u32.via (fun a => .ofNat (variants.idxOf a)) (fun place => variants[place.toNat]?)
    fun place a => by
      have hlt := List.idxOf_lt_length_of_mem (hall a)
      have hplace : (UInt32.ofNat (variants.idxOf a)).toNat = variants.idxOf a :=
        UInt32.toNat_ofNat_of_lt' (Nat.lt_of_lt_of_le hlt hcount)
      rw [← UInt32.toNat_inj, hplace]
      constructor
      · intro h
        obtain ⟨hplace, rfl⟩ := List.getElem?_eq_some_iff.mp h
        exact (hnodup.idxOf_getElem _ _).symm
      · intro h
        rw [h, List.getElem?_eq_getElem hlt, List.getElem_idxOf]

-- ---------------------------------------------------------------------------
-- What fits
-- ---------------------------------------------------------------------------

@[simp] theorem fits_u16 (x : UInt16) : u16.Fits x := x.toNat_lt

@[simp] theorem fits_u32 (x : UInt32) : u32.Fits x := x.toNat_lt

@[simp] theorem fits_u64 (x : UInt64) : u64.Fits x := x.toNat_lt

@[simp] theorem fits_bytes {n : Nat} (a : Bytes n) : (bytes n).Fits a := trivial

@[simp] theorem fits_enumeration {α : Type} [DecidableEq α] {variants : List α}
    {hall : ∀ a, a ∈ variants} {hnodup : variants.Nodup} {hcount : variants.length ≤ 2 ^ 32}
    (a : α) : (enumeration variants hall hnodup hcount).Fits a :=
  fits_u32 _

@[simp] theorem fits_option {α : Type} {x : Codec UInt8 α} {o : Option α} :
    (option x).Fits o ↔ ∀ a ∈ o, x.Fits a := and_iff_right trivial

@[simp] theorem fits_vec {α : Type} {x : Codec UInt8 α} {as : List α} :
    (vec x).Fits as ↔ as.length < 2 ^ 64 ∧ ∀ a ∈ as, x.Fits a := Iff.rfl

@[simp] theorem fits_blob {as : List UInt8} : blob.Fits as ↔ as.length < 2 ^ 64 :=
  and_iff_left fun _ _ => trivial

@[simp] theorem fits_string (s : String) : string.Fits s ↔ s.utf8ByteSize < 2 ^ 64 :=
  fits_blob

end LiteVision.Bincode
