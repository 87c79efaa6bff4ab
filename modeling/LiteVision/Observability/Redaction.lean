import LiteVision.Bytes
import LiteVision.Lib.Map
import Mathlib.Data.List.Infix

/-!
# Redaction

What the redactor leaves of a JSON value. A key is looked up among the sensitive fields,
the pattern rules and some words; but only the fields and the words decide how its value
is redacted. A rule says that there is something to redact, and its type is not used.
-/

namespace LiteVision.Observability

open Lib

-- ---------------------------------------------------------------------------
-- JSON
-- ---------------------------------------------------------------------------

inductive Number where
  | posInt (n : UInt64)
  | negInt (n : Int64)
  | float (x : Float)

mutual
inductive Value where
  | null
  | bool (b : Bool)
  | number (n : Number)
  | string (s : String)
  | array (items : Values)
  | object (map : Entries)
inductive Values where
  | nil
  | cons (value : Value) (rest : Values)
inductive Entries where
  | nil
  | cons (key : String) (value : Value) (rest : Entries)
end

-- ---------------------------------------------------------------------------
-- Strings
-- ---------------------------------------------------------------------------

/-- The lower case of the characters that have an ASCII letter in theirs: `A` to `Z`, the
Kelvin sign and the `I` with a dot. Others are left as they are, since the lower case is
only searched for ASCII words. -/
def lowerChar (ch : Char) : List Char :=
  if ch.toNat = 0x212A then ['k']
  else if ch.toNat = 0x0130 then ['i', Char.ofNat 0x0307]
  else [ch.toLower]

def toLowercase (s : String) : String := String.ofList (s.toList.flatMap lowerChar)

def contains (s word : String) : Bool := word.toList <:+: s.toList

/-- `&input[..n]`; `none` for the panic when that ends inside of a character. -/
def sliceTo : List Char → Nat → Option (List Char)
  | _, 0 => some []
  | [], _ + 1 => none
  | ch :: chars, n + 1 =>
    if ch.utf8Size ≤ n + 1 then (sliceTo chars (n + 1 - ch.utf8Size)).map (ch :: ·) else none

/-- `&input[n..]`. -/
def sliceFrom : List Char → Nat → Option (List Char)
  | chars, 0 => some chars
  | [], _ + 1 => none
  | ch :: chars, n + 1 =>
    if ch.utf8Size ≤ n + 1 then sliceFrom chars (n + 1 - ch.utf8Size) else none

-- ---------------------------------------------------------------------------
-- The redactor
-- ---------------------------------------------------------------------------

inductive RedactionType where
  | hashed
  | removed
  | masked
  deriving DecidableEq

structure Redactor where
  sensitiveFields : Map String RedactionType
  customRules : List ((String → Bool) × RedactionType)

namespace Redactor

def defaultFields : List (String × RedactionType) :=
  [("password", .removed), ("api_key", .removed), ("secret", .removed), ("private_key", .removed),
    ("token", .removed), ("prompt", .hashed), ("input", .hashed), ("user_data", .hashed),
    ("email", .masked), ("phone", .masked), ("address", .masked)]

def new : Redactor where
  sensitiveFields := defaultFields.foldl (fun fields entry => fields.insert entry.1 entry.2) .empty
  customRules := []

def addSensitiveField (redactor : Redactor) (field : String) (redactionType : RedactionType) :
    Redactor :=
  { redactor with sensitiveFields := redactor.sensitiveFields.insert field redactionType }

def addPatternRule (redactor : Redactor) (pattern : String → Bool)
    (redactionType : RedactionType) : Redactor :=
  { redactor with customRules := redactor.customRules ++ [(pattern, redactionType)] }

def shouldRedact (redactor : Redactor) (fieldName : String) : Bool :=
  if (redactor.sensitiveFields.get fieldName).isSome then true
  else if redactor.customRules.any fun rule => rule.1 fieldName then true
  else
    let lower := toLowercase fieldName
    contains lower "secret" || contains lower "key" || contains lower "password" ||
      contains lower "token" || contains lower "private"

def getRedactionType (redactor : Redactor) (fieldName : String) : RedactionType :=
  match redactor.sensitiveFields.get fieldName with
  | some t => t
  | none =>
    let lower := toLowercase fieldName
    if contains lower "password" || contains lower "secret" || contains lower "key" then .removed
    else if contains lower "token" || contains lower "private" then .removed
    else .hashed

/-- `encode` is `hex::encode`, in all that follows. -/
def hashString (c : Crypto) (encode : List UInt8 → String) (input : String) : String :=
  encode ((c.blake3 input.toUTF8.data.toList).val.take 8)

/-- `none` for a panic, as in all that follows. -/
def maskString (input : String) : Option String :=
  if input.utf8ByteSize ≤ 4 then some (String.ofList (List.replicate input.utf8ByteSize '*'))
  else
    let maskedLen := input.utf8ByteSize - 2 - 2
    (sliceTo input.toList 2).bind fun start =>
      (sliceFrom input.toList (input.utf8ByteSize - 2)).map fun rest =>
        String.ofList start ++ "**" ++ toString maskedLen ++ "**" ++ String.ofList rest

/-- `value.as_str().unwrap_or("")`. -/
def asStr : Value → String
  | .string s => s
  | _ => ""

def redactValue (c : Crypto) (encode : List UInt8 → String) (redactor : Redactor)
    (fieldName : String) (value : Value) : Option Value :=
  match redactor.getRedactionType fieldName with
  | .removed => some (.string "[REDACTED]")
  | .hashed => some (.string ("[HASH:" ++ hashString c encode (asStr value) ++ "]"))
  | .masked => (maskString (asStr value)).map .string

mutual
def redactJson (c : Crypto) (encode : List UInt8 → String) (redactor : Redactor) :
    Value → Option Value
  | .object map => (redactEntries c encode redactor map).map .object
  | .array items => (redactItems c encode redactor items).map .array
  | .null => some .null
  | .bool b => some (.bool b)
  | .number n => some (.number n)
  | .string s => some (.string s)
def redactItems (c : Crypto) (encode : List UInt8 → String) (redactor : Redactor) :
    Values → Option Values
  | .nil => some .nil
  | .cons value rest =>
    (redactJson c encode redactor value).bind fun value =>
      (redactItems c encode redactor rest).map fun rest => .cons value rest
def redactEntries (c : Crypto) (encode : List UInt8 → String) (redactor : Redactor) :
    Entries → Option Entries
  | .nil => some .nil
  | .cons key value rest =>
    (if redactor.shouldRedact key then redactValue c encode redactor key value
      else redactJson c encode redactor value).bind fun value =>
        (redactEntries c encode redactor rest).map fun rest => .cons key value rest
end

/-- `fromStr` and `toStr` are `serde_json::from_str` and `serde_json::to_string`. -/
def redactString (c : Crypto) (encode : List UInt8 → String) (redactor : Redactor)
    (fromStr : String → Option Value) (toStr : Value → Option String) (input : String) :
    Option String :=
  (redactJson c encode redactor ((fromStr input).getD (.string input))).map fun redacted =>
    (toStr redacted).getD input

end Redactor

end LiteVision.Observability
