import LiteVision.Bytes
import LiteVision.Hex
import LiteVision.Lib.Map

/-!
# Trace contexts in headers

A trace context is written into the headers of a request and read from those of another
node. Reading copies the decoded trace id into 32 bytes, which fails for a shorter one.
Writing a context without a parent leaves the header of an earlier parent where it is.
-/

namespace LiteVision.Observability

open Lib

structure TraceId where
  bytes : Bytes 32
  deriving DecidableEq

structure SpanId where
  id : UInt64
  deriving DecidableEq

structure TraceContext where
  traceId : TraceId
  spanId : SpanId
  parentSpanId : Option SpanId
  deriving DecidableEq

/-- `encode` is `hex::encode`. -/
def TraceId.toHex (encode : List UInt8 → String) (traceId : TraceId) : String :=
  encode traceId.bytes.val

def SpanId.toString (spanId : SpanId) : String := spanId.id.toNat.repr

/-- `v.parse::<u64>().ok()`: digits of a number that fits, after a `+` or not. -/
def parseU64 (v : String) : Option UInt64 :=
  let digits := match v.toList with
    | '+' :: digits => digits
    | digits => digits
  if digits ≠ [] ∧ digits.all Char.isDigit ∧ Nat.ofDigitChars 10 digits 0 < 2 ^ 64 then
    some (UInt64.ofNat (Nat.ofDigitChars 10 digits 0))
  else none

def propagateTraceContext (encode : List UInt8 → String) (headers : Map String String)
    (context : TraceContext) : Map String String :=
  let headers := headers.insert "x-trace-id" (context.traceId.toHex encode)
  let headers := headers.insert "x-span-id" context.spanId.toString
  match context.parentSpanId with
  | some parent => headers.insert "x-parent-span-id" parent.toString
  | none => headers

/-- `copy_from_slice`, with `none` for its panic: the slice is to be as long as the array. -/
def copyFromSlice (slice : List UInt8) : Option (Bytes 32) :=
  if h : slice.length = 32 then some ⟨slice, h⟩ else none

def spanIdOf (headers : Map String String) (key : String) : Option SpanId :=
  (headers.get key).bind fun v => (parseU64 v).map SpanId.mk

/-- `decode` is `hex::decode`. The outer `none` is for a panic. -/
def extractTraceContext (decode : String → Option (List UInt8)) (headers : Map String String) :
    Option (Option TraceContext) :=
  match (headers.get "x-trace-id").bind decode with
  | none => some none
  | some bytes =>
    (copyFromSlice (bytes.take (min 32 bytes.length))).map fun arr =>
      (spanIdOf headers "x-span-id").map fun spanId =>
        { traceId := ⟨arr⟩, spanId, parentSpanId := spanIdOf headers "x-parent-span-id" }

-- ---------------------------------------------------------------------------
-- Numbers and bytes
-- ---------------------------------------------------------------------------

theorem parseU64_repr (n : UInt64) : parseU64 n.toNat.repr = some n := by
  have hdigit : ∀ ch ∈ Nat.toDigits 10 n.toNat, ch.isDigit = true := fun ch hmem =>
    Nat.isDigit_of_mem_toDigits (by decide) (by decide) hmem
  have hdigits : (match n.toNat.repr.toList with
      | '+' :: digits => digits
      | digits => digits) = Nat.toDigits 10 n.toNat := by
    rw [Nat.toList_repr]
    split
    · rename_i digits heq
      have hplus := hdigit '+' (heq ▸ List.mem_cons_self)
      cases hplus
    · rfl
  rw [parseU64, hdigits, Nat.ofDigitChars_ten_toDigits]
  rw [if_pos ⟨Nat.toDigits_ne_nil, List.all_eq_true.mpr hdigit, n.toNat_lt⟩, UInt64.ofNat_toNat]

-- ---------------------------------------------------------------------------
-- Reading
-- ---------------------------------------------------------------------------

variable {encode : List UInt8 → String} {decode : String → Option (List UInt8)}
  {headers : Map String String}
  {context : TraceContext} {key : String}

theorem isSome_copyFromSlice {slice : List UInt8} :
    (copyFromSlice slice).isSome ↔ slice.length = 32 := by
  unfold copyFromSlice
  split
  · rename_i h
    exact iff_of_true rfl h
  · rename_i h
    exact iff_of_false Bool.false_ne_true h

theorem isSome_extractTraceContext :
    (extractTraceContext decode headers).isSome ↔
      ∀ bytes, (headers.get "x-trace-id").bind decode = some bytes → 32 ≤ bytes.length := by
  unfold extractTraceContext
  cases (headers.get "x-trace-id").bind decode with
  | none => simp
  | some bytes =>
    simp only [Option.isSome_map, isSome_copyFromSlice, List.length_take, Option.some.injEq,
      forall_eq']
    omega

-- ---------------------------------------------------------------------------
-- Writing and reading
-- ---------------------------------------------------------------------------

theorem get_propagateTraceContext (encode : List UInt8 → String) (headers : Map String String)
    (context : TraceContext) (hkey : key ≠ "x-parent-span-id") :
    (propagateTraceContext encode headers context).get key =
      if key = "x-span-id" then some context.spanId.toString
      else if key = "x-trace-id" then some (context.traceId.toHex encode) else headers.get key := by
  unfold propagateTraceContext
  cases context.parentSpanId with
  | none => simp only [Map.get_insert]
  | some parent => simp only [Map.get_insert, hkey, if_false]

theorem parentSpanId_propagateTraceContext (headers : Map String String)
    (context : TraceContext) :
    spanIdOf (propagateTraceContext encode headers context) "x-parent-span-id" =
      context.parentSpanId.or (spanIdOf headers "x-parent-span-id") := by
  unfold propagateTraceContext spanIdOf
  cases context.parentSpanId with
  | none =>
    have hspan : "x-parent-span-id" ≠ "x-span-id" := by decide
    have htrace : "x-parent-span-id" ≠ "x-trace-id" := by decide
    simp only [Map.get_insert_ne _ _ hspan, Map.get_insert_ne _ _ htrace, Option.none_or]
  | some parent =>
    simp only [Map.get_insert_self, Option.bind_some, SpanId.toString, parseU64_repr,
      Option.map_some, Option.some_or]

theorem extract_propagate (hdecode : ∀ bytes, decode (encode bytes) = some bytes)
    (headers : Map String String) (context : TraceContext) :
    extractTraceContext decode (propagateTraceContext encode headers context) =
      some (some { context with
        parentSpanId := context.parentSpanId.or (spanIdOf headers "x-parent-span-id") }) := by
  have htrace := get_propagateTraceContext encode headers context
    (show "x-trace-id" ≠ "x-parent-span-id" by decide)
  have hspan := get_propagateTraceContext encode headers context
    (show "x-span-id" ≠ "x-parent-span-id" by decide)
  rw [if_neg (by decide), if_pos rfl] at htrace
  rw [if_pos rfl] at hspan
  have hspanId : spanIdOf (propagateTraceContext encode headers context) "x-span-id" =
      some context.spanId := by
    rw [spanIdOf, hspan, Option.bind_some, SpanId.toString, parseU64_repr, Option.map_some]
  have hslice : copyFromSlice (context.traceId.bytes.val.take
      (min 32 context.traceId.bytes.val.length)) = some context.traceId.bytes := by
    have hlen := context.traceId.bytes.property
    rw [hlen, Nat.min_self, List.take_of_length_le (Nat.le_of_eq hlen), copyFromSlice,
      dif_pos hlen]
  rw [extractTraceContext, htrace, Option.bind_some, TraceId.toHex, hdecode]
  simp only [hslice, hspanId, parentSpanId_propagateTraceContext, Option.map_some]

/-- Reading panics on no other headers than those with a trace id that is too short. A context
is read as it was written, unless it has no parent and the headers have one already. -/
theorem trace_context_iff (encode : List UInt8 → String) (decode : String → Option (List UInt8))
    (hdecode : ∀ bytes, decode (encode bytes) = some bytes) :
    (∀ headers, (extractTraceContext decode headers).isSome ↔
      ∀ bytes, (headers.get "x-trace-id").bind decode = some bytes → 32 ≤ bytes.length) ∧
    ∀ headers context,
      extractTraceContext decode (propagateTraceContext encode headers context) =
        some (some context) ↔
        context.parentSpanId.isSome ∨ spanIdOf headers "x-parent-span-id" = none := by
  refine ⟨fun headers => isSome_extractTraceContext, fun headers context => ?_⟩
  rw [extract_propagate hdecode, Option.some.injEq, Option.some.injEq]
  obtain ⟨traceId, spanId, parentSpanId⟩ := context
  cases parentSpanId with
  | none => simp [TraceContext.mk.injEq]
  | some parent => simp

/-- A context without a parent and headers that have nothing yet. -/
theorem trace_context_iff_first :
    let context : TraceContext := ⟨⟨.fill 32 1⟩, ⟨7⟩, none⟩
    extractTraceContext hexDecode (propagateTraceContext hexEncode .empty context) =
      some (some context) :=
  ((trace_context_iff hexEncode hexDecode hexDecode_hexEncode).2 .empty _).mpr
    (.inr (by rw [spanIdOf, Map.get_empty, Option.bind_none]))

/-- A trace id of one byte, and a parent that stays from an earlier context. -/
theorem trace_context_fails :
    ¬ (∀ headers, (extractTraceContext hexDecode headers).isSome) ∧
    ¬ ∀ headers context,
      extractTraceContext hexDecode (propagateTraceContext hexEncode headers context) =
        some (some context) := by
  constructor
  · intro h
    exact absurd (h (Map.empty.insert "x-trace-id" "00")) (by decide)
  · intro h
    have hcontext := h (Map.empty.insert "x-parent-span-id" "9") ⟨⟨.fill 32 1⟩, ⟨7⟩, none⟩
    rw [extract_propagate hexDecode_hexEncode] at hcontext
    exact absurd hcontext (by decide)

end LiteVision.Observability
