import Mathlib.Data.Fintype.Basic
import Mathlib.Tactic.Common

/-!
# Hexadecimal strings

The models take `hex::encode` and `hex::decode` from outside, as functions of which they need
no more than that decoding gives back what was encoded. Here is one such pair: two digits for
each byte, written in lower case and read in either.
-/

namespace LiteVision

def hexDigit (n : Nat) : Char := "0123456789abcdef".toList.getD n '0'

def hexEncode (bytes : List UInt8) : String :=
  String.ofList (bytes.flatMap fun b => [hexDigit (b.toNat / 16), hexDigit (b.toNat % 16)])

def hexValue (ch : Char) : Option Nat :=
  if '0' ≤ ch ∧ ch ≤ '9' then some (ch.toNat - '0'.toNat)
  else if 'a' ≤ ch ∧ ch ≤ 'f' then some (ch.toNat - 'a'.toNat + 10)
  else if 'A' ≤ ch ∧ ch ≤ 'F' then some (ch.toNat - 'A'.toNat + 10)
  else none

def hexDecode.loop : List Char → Option (List UInt8)
  | [] => some []
  | [_] => none
  | high :: low :: rest =>
    (hexValue high).bind fun high => (hexValue low).bind fun low =>
      (loop rest).map fun bytes => UInt8.ofNat (high * 16 + low) :: bytes

def hexDecode (v : String) : Option (List UInt8) := hexDecode.loop v.toList

theorem hexValue_hexDigit {n : Nat} (h : n < 16) : hexValue (hexDigit n) = some n := by
  have hall : ∀ n : Fin 16, hexValue (hexDigit n) = some n.val := by decide
  exact hall ⟨n, h⟩

theorem hexDecode_hexEncode (bytes : List UInt8) : hexDecode (hexEncode bytes) = some bytes := by
  rw [hexDecode, hexEncode, String.toList_ofList]
  induction bytes with
  | nil => rfl
  | cons b bytes ih =>
    have hb := b.toNat_lt
    have hbyte : b.toNat / 16 * 16 + b.toNat % 16 = b.toNat := by omega
    rw [List.flatMap_cons, List.cons_append, List.cons_append, List.nil_append, hexDecode.loop,
      hexValue_hexDigit (by omega), hexValue_hexDigit (by omega), ih]
    simp only [Option.bind_some, Option.map_some, hbyte, UInt8.ofNat_toNat]

theorem hexEncode_injective : Function.Injective hexEncode := by
  intro bytes bytes' h
  have hdecode := hexDecode_hexEncode bytes
  rw [h, hexDecode_hexEncode] at hdecode
  exact (Option.some.inj hdecode).symm

end LiteVision
