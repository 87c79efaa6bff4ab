import LiteVision.Hex
import LiteVision.Observability.Redaction
import Mathlib.Data.String.Basic

/-!
# Masked strings

A string of more than four bytes is masked down to its first and its last two bytes. They
are taken by their positions, so redaction returns just when both positions are between
characters in all strings that it comes to mask.
-/

namespace LiteVision.Observability

variable {chars front back : List Char} {n : Nat}

-- ---------------------------------------------------------------------------
-- Slices
-- ---------------------------------------------------------------------------

/-- `n` bytes from the start a character ends. -/
def IsCharBoundary (chars : List Char) (n : Nat) : Prop :=
  ∃ front, front <+: chars ∧ String.utf8Len front = n

theorem sliceTo_zero_eq_some :
    sliceTo chars 0 = some front ↔ front <+: chars ∧ String.utf8Len front = 0 := by
  rw [sliceTo, Option.some.injEq, String.utf8Len_eq_zero]
  constructor
  · rintro rfl
    exact ⟨List.nil_prefix, rfl⟩
  · exact fun h => h.2.symm

theorem sliceTo_eq_some :
    sliceTo chars n = some front ↔ front <+: chars ∧ String.utf8Len front = n := by
  induction chars generalizing n front with
  | nil =>
    cases n with
    | zero => exact sliceTo_zero_eq_some
    | succ n =>
      refine iff_of_false nofun ?_
      rintro ⟨hstart, hlen⟩
      rw [List.prefix_nil.mp hstart] at hlen
      cases hlen
  | cons ch chars ih =>
    cases n with
    | zero => exact sliceTo_zero_eq_some
    | succ n =>
      have hpos := ch.utf8Size_pos
      rw [sliceTo]
      constructor
      · intro h
        split at h
        · obtain ⟨rest, hrest, rfl⟩ := Option.map_eq_some_iff.mp h
          obtain ⟨hstart, hlen⟩ := ih.mp hrest
          exact ⟨List.cons_prefix_cons.mpr ⟨rfl, hstart⟩, by rw [String.utf8Len_cons]; omega⟩
        · cases h
      · rintro ⟨hstart, hlen⟩
        rcases List.prefix_cons_iff.mp hstart with rfl | ⟨rest, rfl, hrest⟩
        · cases hlen
        · rw [String.utf8Len_cons] at hlen
          rw [if_pos (by omega), ih.mpr ⟨hrest, by omega⟩]
          rfl

theorem sliceFrom_eq_some :
    sliceFrom chars n = some back ↔ ∃ front, chars = front ++ back ∧ String.utf8Len front = n := by
  induction chars generalizing n with
  | nil =>
    cases n with
    | zero => simp [sliceFrom, eq_comm]
    | succ n =>
      refine iff_of_false nofun ?_
      rintro ⟨front, happend, hlen⟩
      rw [(List.append_eq_nil_iff.mp happend.symm).1] at hlen
      cases hlen
  | cons ch chars ih =>
    cases n with
    | zero => simp [sliceFrom]
    | succ n =>
      have hpos := ch.utf8Size_pos
      rw [sliceFrom]
      constructor
      · intro h
        split at h
        · obtain ⟨front, rfl, hlen⟩ := ih.mp h
          exact ⟨ch :: front, rfl, by rw [String.utf8Len_cons]; omega⟩
        · cases h
      · rintro ⟨front, happend, hlen⟩
        cases front with
        | nil => cases hlen
        | cons ch' front =>
          obtain ⟨rfl, rfl⟩ := List.cons.inj happend
          rw [String.utf8Len_cons] at hlen
          rw [if_pos (by omega), ih]
          exact ⟨front, rfl, by omega⟩

namespace Redactor

variable {c : Crypto} {encode : List UInt8 → String} {redactor : Redactor} {s s' : String}

-- ---------------------------------------------------------------------------
-- One string
-- ---------------------------------------------------------------------------

/-- The string is short, or a character ends two bytes from its start and two from its end. -/
def Maskable (s : String) : Prop :=
  s.utf8ByteSize ≤ 4 ∨
    IsCharBoundary s.toList 2 ∧ IsCharBoundary s.toList (s.utf8ByteSize - 2)

theorem isSome_sliceTo : (sliceTo chars n).isSome ↔ IsCharBoundary chars n := by
  simp only [Option.isSome_iff_exists, sliceTo_eq_some, IsCharBoundary]

theorem isSome_sliceFrom : (sliceFrom chars n).isSome ↔ IsCharBoundary chars n := by
  simp only [Option.isSome_iff_exists, sliceFrom_eq_some, IsCharBoundary]
  constructor
  · rintro ⟨back, front, rfl, hlen⟩
    exact ⟨front, List.prefix_append front back, hlen⟩
  · rintro ⟨front, ⟨back, rfl⟩, hlen⟩
    exact ⟨back, front, rfl, hlen⟩

theorem isSome_maskString : (maskString s).isSome ↔ Maskable s := by
  rw [maskString, Maskable]
  split
  · rename_i hshort
    exact iff_of_true rfl (.inl hshort)
  · rename_i hlong
    rw [or_iff_right hlong, ← isSome_sliceTo, ← isSome_sliceFrom]
    cases sliceTo s.toList 2 <;> simp

theorem utf8ByteSize_eq (s : String) : s.utf8ByteSize = String.utf8Len s.toList := by
  rw [← String.utf8ByteSize_ofList, String.ofList_toList]

theorem length_le_utf8Len (chars : List Char) : chars.length ≤ String.utf8Len chars := by
  induction chars with
  | nil => exact Nat.le_refl 0
  | cons ch chars ih =>
    have hpos := ch.utf8Size_pos
    rw [List.length_cons, String.utf8Len_cons]
    omega

theorem prefix_take_two {l : List Char} (hlen : String.utf8Len front = 2) :
    front <+: l.take 2 ↔ front <+: l := by
  rw [List.prefix_take_iff, and_iff_left (hlen ▸ length_le_utf8Len front)]

theorem sliceFrom_last (hsize : 2 ≤ s.utf8ByteSize) :
    sliceFrom s.toList (s.utf8ByteSize - 2) = some back ↔
      back.reverse <+: s.toList.reverse.take 2 ∧ String.utf8Len back = 2 := by
  have hsuffix : sliceFrom s.toList (s.utf8ByteSize - 2) = some back ↔
      back <:+ s.toList ∧ String.utf8Len back = 2 := by
    rw [utf8ByteSize_eq] at hsize ⊢
    rw [sliceFrom_eq_some]
    constructor
    · rintro ⟨front, happend, hlen⟩
      rw [happend, String.utf8Len_append] at hlen hsize
      exact ⟨⟨front, happend.symm⟩, by omega⟩
    · rintro ⟨⟨front, happend⟩, hlen⟩
      refine ⟨front, happend.symm, ?_⟩
      rw [← happend, String.utf8Len_append]
      omega
  rw [hsuffix]
  refine and_congr_left fun hlen => ?_
  rw [prefix_take_two (by rwa [String.utf8Len_reverse]), List.reverse_prefix]

theorem maskString_congr (hlong : 4 < s.utf8ByteSize) (hsize : s.utf8ByteSize = s'.utf8ByteSize)
    (hfirst : s.toList.take 2 = s'.toList.take 2)
    (hlast : s.toList.reverse.take 2 = s'.toList.reverse.take 2) :
    maskString s = maskString s' := by
  have hstart : sliceTo s.toList 2 = sliceTo s'.toList 2 := by
    refine Option.ext fun front => ?_
    rw [sliceTo_eq_some, sliceTo_eq_some]
    refine and_congr_left fun hlen => ?_
    rw [← prefix_take_two hlen, hfirst, prefix_take_two hlen]
  have hrest : sliceFrom s.toList (s.utf8ByteSize - 2) =
      sliceFrom s'.toList (s'.utf8ByteSize - 2) := by
    refine Option.ext fun back => ?_
    rw [sliceFrom_last (by omega), sliceFrom_last (by omega), hlast]
  rw [maskString, maskString, hstart, hrest, hsize]

-- ---------------------------------------------------------------------------
-- Values
-- ---------------------------------------------------------------------------

mutual
def Redactable (redactor : Redactor) : Value → Prop
  | .object map => RedactableEntries redactor map
  | .array items => RedactableItems redactor items
  | _ => True
def RedactableItems (redactor : Redactor) : Values → Prop
  | .nil => True
  | .cons value rest => Redactable redactor value ∧ RedactableItems redactor rest
def RedactableEntries (redactor : Redactor) : Entries → Prop
  | .nil => True
  | .cons key value rest =>
    (if redactor.shouldRedact key then
        redactor.getRedactionType key = .masked → Maskable (asStr value)
      else Redactable redactor value) ∧
      RedactableEntries redactor rest
end

theorem isSome_redactValue (key : String) (value : Value) :
    (redactValue c encode redactor key value).isSome ↔
      (redactor.getRedactionType key = .masked → Maskable (asStr value)) := by
  rw [redactValue]
  cases redactor.getRedactionType key with
  | removed => simp
  | hashed => simp
  | masked => simpa using isSome_maskString

mutual
theorem isSome_redactJson (value : Value) :
    (redactJson c encode redactor value).isSome ↔ Redactable redactor value := by
  cases value with
  | object map =>
    rw [redactJson, Redactable, Option.isSome_map]
    exact isSome_redactEntries map
  | array items =>
    rw [redactJson, Redactable, Option.isSome_map]
    exact isSome_redactItems items
  | null => simp [redactJson, Redactable]
  | bool b => simp [redactJson, Redactable]
  | number n => simp [redactJson, Redactable]
  | string s => simp [redactJson, Redactable]
theorem isSome_redactItems (items : Values) :
    (redactItems c encode redactor items).isSome ↔ RedactableItems redactor items := by
  cases items with
  | nil => simp [redactItems, RedactableItems]
  | cons value rest =>
    rw [redactItems, RedactableItems, ← isSome_redactJson value, ← isSome_redactItems rest]
    cases redactJson c encode redactor value <;> simp
theorem isSome_redactEntries (map : Entries) :
    (redactEntries c encode redactor map).isSome ↔ RedactableEntries redactor map := by
  cases map with
  | nil => simp [redactEntries, RedactableEntries]
  | cons key value rest =>
    rw [redactEntries, RedactableEntries, ← isSome_redactEntries rest]
    split
    · rw [← isSome_redactValue]
      cases redactValue c encode redactor key value <;> simp
    · rw [← isSome_redactJson value]
      cases redactJson c encode redactor value <;> simp
end

/-- Redaction returns just when all that it masks can be masked, and a masked string shows
its first and last two characters and its length only. -/
theorem redaction_returns_iff (c : Crypto) (encode : List UInt8 → String) (redactor : Redactor) :
    (∀ json, (redactJson c encode redactor json).isSome ↔ Redactable redactor json) ∧
    (∀ fromStr toStr input, (redactString c encode redactor fromStr toStr input).isSome ↔
      Redactable redactor ((fromStr input).getD (.string input))) ∧
    ∀ s s' : String, 4 < s.utf8ByteSize → s.utf8ByteSize = s'.utf8ByteSize →
      s.toList.take 2 = s'.toList.take 2 →
      s.toList.reverse.take 2 = s'.toList.reverse.take 2 → maskString s = maskString s' := by
  refine ⟨isSome_redactJson, fun fromStr toStr input => ?_, fun s s' => maskString_congr⟩
  rw [redactString, Option.isSome_map]
  exact isSome_redactJson _

/-- The second byte of the address is inside of its second character. -/
theorem redaction_returns_fails :
    ¬ ∀ (c : Crypto) (encode : List UInt8 → String) (redactor : Redactor) (json : Value),
      (redactJson c encode redactor json).isSome := by
  intro h
  let c : Crypto := { blake3 := fun _ => .fill 32 0, ed25519Verify := fun _ _ _ => true }
  have hjson := h c hexEncode .new (.object (.cons "email" (.string "héllo") .nil))
  exact absurd hjson (by decide)

end Redactor

end LiteVision.Observability
