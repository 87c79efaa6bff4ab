import LiteVision.Hex
import LiteVision.Observability.Redaction

/-!
# What a redacted value tells

Two values that differ only under keys that are to be removed should come out the same.
They do if every key that is removed by a rule has one of the built-in words in it; the
value of any other such key is hashed instead.
-/

namespace LiteVision.Observability

mutual
/-- The values differ at most in what is stored under keys with `removed`. -/
inductive Value.Agree (removed : String → Prop) : Value → Value → Prop
  | null : Value.Agree removed .null .null
  | bool (b : Bool) : Value.Agree removed (.bool b) (.bool b)
  | number (n : Number) : Value.Agree removed (.number n) (.number n)
  | string (s : String) : Value.Agree removed (.string s) (.string s)
  | array {items items' : Values} (h : Values.Agree removed items items') :
    Value.Agree removed (.array items) (.array items')
  | object {map map' : Entries} (h : Entries.Agree removed map map') :
    Value.Agree removed (.object map) (.object map')
inductive Values.Agree (removed : String → Prop) : Values → Values → Prop
  | nil : Values.Agree removed .nil .nil
  | cons {value value' : Value} {rest rest' : Values} (hvalue : Value.Agree removed value value')
      (hrest : Values.Agree removed rest rest') :
    Values.Agree removed (.cons value rest) (.cons value' rest')
inductive Entries.Agree (removed : String → Prop) : Entries → Entries → Prop
  | nil : Entries.Agree removed .nil .nil
  | removed {key : String} {value value' : Value} {rest rest' : Entries} (hkey : removed key)
      (hrest : Entries.Agree removed rest rest') :
    Entries.Agree removed (.cons key value rest) (.cons key value' rest')
  | kept {key : String} {value value' : Value} {rest rest' : Entries}
      (hvalue : Value.Agree removed value value') (hrest : Entries.Agree removed rest rest') :
    Entries.Agree removed (.cons key value rest) (.cons key value' rest')
end

theorem Value.Agree.asStr {removed : String → Prop} {value value' : Value}
    (h : Value.Agree removed value value') : Redactor.asStr value = Redactor.asStr value' := by
  cases h <;> rfl

namespace Redactor

variable {c : Crypto} {encode : List UInt8 → String} {redactor : Redactor} {key : String}

-- ---------------------------------------------------------------------------
-- Keys
-- ---------------------------------------------------------------------------

def HasWord (fieldName : String) : Prop :=
  ∃ word ∈ ["secret", "key", "password", "token", "private"],
    contains (toLowercase fieldName) word = true

def firstRule (redactor : Redactor) (fieldName : String) : Option RedactionType :=
  (redactor.customRules.find? fun rule => rule.1 fieldName).map Prod.snd

/-- The key is configured to be removed: by its field, else by its first rule, else by a word. -/
def Removes (redactor : Redactor) (fieldName : String) : Prop :=
  redactor.sensitiveFields.get fieldName = some .removed ∨
    redactor.sensitiveFields.get fieldName = none ∧
      (redactor.firstRule fieldName = some .removed ∨
        redactor.firstRule fieldName = none ∧ HasWord fieldName)

theorem getRedactionType_of_field {t : RedactionType}
    (h : redactor.sensitiveFields.get key = some t) : redactor.getRedactionType key = t := by
  simp only [getRedactionType, h]

theorem hasWord_iff : HasWord key ↔
    (contains (toLowercase key) "secret" || contains (toLowercase key) "key" ||
      contains (toLowercase key) "password" || contains (toLowercase key) "token" ||
      contains (toLowercase key) "private") = true := by
  simp only [HasWord, List.mem_cons, List.not_mem_nil, or_false, exists_eq_or_imp, exists_eq_left,
    Bool.or_eq_true, or_assoc]

theorem getRedactionType_of_none (h : redactor.sensitiveFields.get key = none) :
    redactor.getRedactionType key = .removed ↔ HasWord key := by
  -- the two functions test the words in different orders
  have horder : ∀ secret key password token priv : Bool,
      (if password || secret || key then RedactionType.removed
        else if token || priv then .removed else .hashed) = .removed ↔
      (secret || key || password || token || priv) = true := by decide
  rw [getRedactionType, h, hasWord_iff]
  exact horder _ _ _ _ _

theorem getRedactionType_ne_masked (h : redactor.sensitiveFields.get key = none) :
    redactor.getRedactionType key ≠ .masked := by
  simp only [getRedactionType, h]
  split
  · exact fun hmasked => nomatch hmasked
  · split <;> exact fun hmasked => nomatch hmasked

theorem shouldRedact_of_rule {t : RedactionType} (h : redactor.firstRule key = some t) :
    redactor.shouldRedact key = true := by
  obtain ⟨rule, hfind, -⟩ := Option.map_eq_some_iff.mp h
  have hmatch : rule.1 key = true := by simpa using List.find?_some hfind
  have hany : (redactor.customRules.any fun rule => rule.1 key) = true :=
    List.any_eq_true.mpr ⟨rule, List.mem_of_find?_eq_some hfind, hmatch⟩
  rw [shouldRedact, hany]
  split <;> rfl

theorem shouldRedact_of_word (h : HasWord key) : redactor.shouldRedact key = true := by
  rw [shouldRedact]
  split
  · rfl
  · split
    · rfl
    · exact hasWord_iff.mp h

theorem Removes.shouldRedact (h : redactor.Removes key) : redactor.shouldRedact key = true := by
  rcases h with hfield | ⟨-, hrule | ⟨-, hword⟩⟩
  · rw [Redactor.shouldRedact, hfield]
    rfl
  · exact shouldRedact_of_rule hrule
  · exact shouldRedact_of_word hword

theorem removes_iff_getRedactionType :
    (∀ key, redactor.Removes key → redactor.getRedactionType key = .removed) ↔
      ∀ key, redactor.sensitiveFields.get key = none →
        redactor.firstRule key = some .removed → HasWord key := by
  constructor
  · intro h key hfield hrule
    exact (getRedactionType_of_none hfield).mp (h key (.inr ⟨hfield, .inl hrule⟩))
  · rintro h key (hfield | ⟨hfield, hrule | ⟨-, hword⟩⟩)
    · exact getRedactionType_of_field hfield
    · exact (getRedactionType_of_none hfield).mpr (h key hfield hrule)
    · exact (getRedactionType_of_none hfield).mpr hword

-- ---------------------------------------------------------------------------
-- Values
-- ---------------------------------------------------------------------------

theorem redactValue_of_removed (h : redactor.getRedactionType key = .removed) (value : Value) :
    redactValue c encode redactor key value = some (.string "[REDACTED]") := by
  rw [redactValue, h]

theorem redactValue_congr {removed : String → Prop} {value value' : Value}
    (h : Value.Agree removed value value') :
    redactValue c encode redactor key value = redactValue c encode redactor key value' := by
  rw [redactValue, redactValue, h.asStr]

mutual
/-- Where the types are right, values that agree come out the same. -/
theorem redactJson_congr (htype : ∀ key, redactor.Removes key →
    redactor.getRedactionType key = .removed) {value value' : Value} :
    Value.Agree redactor.Removes value value' →
      redactJson c encode redactor value = redactJson c encode redactor value'
  | .null => rfl
  | .bool _ => rfl
  | .number _ => rfl
  | .string _ => rfl
  | .array h => by rw [redactJson, redactJson, redactItems_congr htype h]
  | .object h => by rw [redactJson, redactJson, redactEntries_congr htype h]
theorem redactItems_congr (htype : ∀ key, redactor.Removes key →
    redactor.getRedactionType key = .removed) {items items' : Values} :
    Values.Agree redactor.Removes items items' →
      redactItems c encode redactor items = redactItems c encode redactor items'
  | .nil => rfl
  | .cons hvalue hrest => by
    rw [redactItems, redactItems, redactJson_congr htype hvalue, redactItems_congr htype hrest]
theorem redactEntries_congr (htype : ∀ key, redactor.Removes key →
    redactor.getRedactionType key = .removed) {map map' : Entries} :
    Entries.Agree redactor.Removes map map' →
      redactEntries c encode redactor map = redactEntries c encode redactor map'
  | .nil => rfl
  | .removed hkey hrest => by
    rw [redactEntries, redactEntries, redactEntries_congr htype hrest, hkey.shouldRedact,
      if_pos rfl, if_pos rfl, redactValue_of_removed (htype _ hkey),
      redactValue_of_removed (htype _ hkey)]
  | .kept hvalue hrest => by
    rw [redactEntries, redactEntries, redactEntries_congr htype hrest,
      redactJson_congr htype hvalue, redactValue_congr hvalue]
end

def single (key s : String) : Value := .object (.cons key (.string s) .nil)

theorem single_agree {removed : String → Prop} (h : removed key) (s s' : String) :
    Value.Agree removed (single key s) (single key s') :=
  .object (.removed h .nil)

theorem redactJson_single_ne (hencode : Function.Injective encode)
    (hfield : redactor.sensitiveFields.get key = none)
    (hrule : redactor.firstRule key = some .removed) (hword : ¬ HasWord key) {s s' : String}
    (hdiffer : (c.blake3 s.toUTF8.data.toList).val.take 8 ≠
      (c.blake3 s'.toUTF8.data.toList).val.take 8) :
    redactJson c encode redactor (single key s) ≠ redactJson c encode redactor (single key s') := by
  have hhashed : redactor.getRedactionType key = .hashed := by
    cases ht : redactor.getRedactionType key with
    | hashed => rfl
    | removed => exact absurd ((getRedactionType_of_none hfield).mp ht) hword
    | masked => exact absurd ht (getRedactionType_ne_masked hfield)
  have hsingle (s : String) : redactJson c encode redactor (single key s) =
      some (single key ("[HASH:" ++ hashString c encode s ++ "]")) := by
    rw [single, redactJson, redactEntries, redactEntries, shouldRedact_of_rule hrule, if_pos rfl,
      redactValue, hhashed]
    rfl
  intro h
  rw [hsingle, hsingle] at h
  simp only [single, Option.some.injEq, Value.object.injEq, Entries.cons.injEq,
    Value.string.injEq, String.append_left_inj, String.append_right_inj, true_and, and_true] at h
  exact hdiffer (hencode h)

/-- As long as there are two strings whose hashes do not begin alike, and `hex` writes no two
byte strings alike: a redactor gives the same for any two values that differ only under keys
that are to be removed, just when every key that is removed by a rule alone has one of the
words in it. -/
theorem noninterference_iff (c : Crypto) (encode : List UInt8 → String)
    (hencode : Function.Injective encode) (redactor : Redactor)
    (hblake3 : ∃ s s' : String, (c.blake3 s.toUTF8.data.toList).val.take 8 ≠
      (c.blake3 s'.toUTF8.data.toList).val.take 8) :
    (∀ value value', Value.Agree redactor.Removes value value' →
      redactJson c encode redactor value = redactJson c encode redactor value') ↔
      ∀ key, redactor.sensitiveFields.get key = none →
        redactor.firstRule key = some .removed → HasWord key := by
  constructor
  · intro h key hfield hrule
    by_contra hword
    obtain ⟨s, s', hdiffer⟩ := hblake3
    exact redactJson_single_ne hencode hfield hrule hword hdiffer
      (h _ _ (single_agree (.inr ⟨hfield, .inl hrule⟩) s s'))
  · intro h value value' hagree
    exact redactJson_congr (removes_iff_getRedactionType.mpr h) hagree

/-- A rule whose keys have a word in them. -/
theorem noninterference_iff_word :
    let c : Crypto :=
      { blake3 := fun bytes => .fill 32 (bytes.getD 0 0), ed25519Verify := fun _ _ _ => true }
    let redactor := new.addPatternRule (fun name => contains name "token") .removed
    (∀ value value', Value.Agree redactor.Removes value value' →
      redactJson c hexEncode redactor value = redactJson c hexEncode redactor value') ↔
      ∀ key, redactor.sensitiveFields.get key = none →
        redactor.firstRule key = some .removed → HasWord key := by
  intro c redactor
  exact noninterference_iff c hexEncode hexEncode_injective redactor ⟨"a", "b", by decide +kernel⟩

/-- A rule that removes notes. -/
theorem noninterference_fails :
    ¬ ∃ (c : Crypto) (encode : List UInt8 → String), Function.Injective encode ∧
      (∃ s s' : String, (c.blake3 s.toUTF8.data.toList).val.take 8 ≠
        (c.blake3 s'.toUTF8.data.toList).val.take 8) ∧
      ∀ (pattern : String → Bool) (redactionType : RedactionType) (value value' : Value),
        let redactor := new.addPatternRule pattern redactionType
        Value.Agree redactor.Removes value value' →
          redactJson c encode redactor value = redactJson c encode redactor value' := by
  rintro ⟨c, encode, hencode, ⟨s, s', hdiffer⟩, h⟩
  let redactor := new.addPatternRule (fun name => name = "note") .removed
  have hfield : redactor.sensitiveFields.get "note" = none := by decide +kernel
  have hrule : redactor.firstRule "note" = some .removed := by decide
  have hword : ¬ HasWord "note" := by
    rw [hasWord_iff]
    decide
  exact redactJson_single_ne hencode hfield hrule hword hdiffer
    (h _ _ _ _ (single_agree (.inr ⟨hfield, .inl hrule⟩) s s'))

end Redactor

end LiteVision.Observability
