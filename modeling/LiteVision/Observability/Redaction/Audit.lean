import LiteVision.Lib.HashChain
import LiteVision.Lib.Trace
import LiteVision.Observability.Redaction

/-!
# The audit trail

Each entry of the trail is hashed together with the hash before it. `log_binds_iff`: the
last hash tells the times of the entries, and of each the text made of its event type, its
action and its actor, without the boundaries in it. The details are not hashed.
-/

namespace LiteVision.Observability

open Lib

structure AuditEntry where
  timestampMs : UInt64
  eventType : String
  actor : Option String
  action : String
  details : Map String Value
  hash : Option (Bytes 32)

structure AuditTrail where
  entries : List AuditEntry
  immutabilityEnabled : Bool

/-- The arguments of a call of `append`, and the time at which it is made. -/
structure AuditCall where
  now : UInt64
  eventType : String
  action : String
  actor : Option String
  details : Map String Value

namespace AuditEntry

/-- An actor that is missing and one with an empty name add the same. -/
def hashed (entry : AuditEntry) : List UInt8 :=
  (Bytes.ofU64 entry.timestampMs).val ++ entry.eventType.toUTF8.data.toList ++
    entry.action.toUTF8.data.toList ++ (entry.actor.getD "").toUTF8.data.toList

def fields (entry : AuditEntry) : UInt64 × String × String × Option String × Map String Value :=
  (entry.timestampMs, entry.eventType, entry.action, entry.actor, entry.details)

end AuditEntry

namespace AuditTrail

def preimage (prevHash : Bytes 32) (bytes : List UInt8) : List UInt8 := prevHash.val ++ bytes

def new : AuditTrail where
  entries := []
  immutabilityEnabled := true

def withImmutability (trail : AuditTrail) (enabled : Bool) : AuditTrail :=
  { trail with immutabilityEnabled := enabled }

def recomputeHashes.loop (c : Crypto) (prevHash : Bytes 32) : List AuditEntry → List AuditEntry
  | [] => []
  | entry :: entries =>
    let hash := c.blake3 (preimage prevHash entry.hashed)
    { entry with hash := some hash } :: loop c hash entries

def recomputeHashes (c : Crypto) (trail : AuditTrail) : AuditTrail :=
  { trail with entries := recomputeHashes.loop c (.fill 32 0) trail.entries }

def append (c : Crypto) (trail : AuditTrail) (call : AuditCall) : AuditTrail :=
  let entry : AuditEntry :=
    { timestampMs := call.now
      eventType := call.eventType
      actor := call.actor
      action := call.action
      details := call.details
      hash := none }
  let trail := { trail with entries := trail.entries ++ [entry] }
  if trail.immutabilityEnabled then trail.recomputeHashes c else trail

/-- An entry without a hash is passed over. -/
def verify.loop (c : Crypto) (expectedPrevHash : Bytes 32) : List AuditEntry → Bool
  | [] => true
  | entry :: entries =>
    match entry.hash with
    | none => loop c expectedPrevHash entries
    | some hash =>
      if c.blake3 (preimage expectedPrevHash entry.hashed) ≠ hash then false
      else loop c hash entries

def verify (c : Crypto) (trail : AuditTrail) : Bool := verify.loop c (.fill 32 0) trail.entries

end AuditTrail

-- ---------------------------------------------------------------------------
-- Calls
-- ---------------------------------------------------------------------------

namespace AuditCall

/-- `details.insert(key.to_string(), Value::String(value.to_string()))`, one after another. -/
def strings (entries : List (String × String)) : Map String Value :=
  entries.foldl (fun details entry => details.insert entry.1 (.string entry.2)) .empty

def slashingEvent (now : UInt64) (validatorId reason evidence : String) : AuditCall where
  now
  eventType := "slashing"
  action := "validator_slashed"
  actor := some "system"
  details := strings [("validator_id", validatorId), ("reason", reason), ("evidence", evidence)]

def fraudProof (now : UInt64) (jobId fraudType proofData : String) : AuditCall where
  now
  eventType := "fraud"
  action := "fraud_proof_submitted"
  actor := some "system"
  details := strings [("job_id", jobId), ("fraud_type", fraudType), ("proof_data", proofData)]

def governanceAction (now : UInt64) (action : String) (params : Map String Value) : AuditCall where
  now
  eventType := "governance"
  action
  actor := some "governance"
  details := params

def partitionMigration (now : UInt64) (partitionId fromNode toNode : String) : AuditCall where
  now
  eventType := "partition"
  action := "migration"
  actor := some "system"
  details :=
    strings [("partition_id", partitionId), ("from_node", fromNode), ("to_node", toNode)]

def entry (call : AuditCall) : AuditEntry where
  timestampMs := call.now
  eventType := call.eventType
  actor := call.actor
  action := call.action
  details := call.details
  hash := none

/-- What the hash sees of a call. -/
def text (call : AuditCall) : UInt64 × String :=
  (call.now, call.eventType ++ call.action ++ call.actor.getD "")

theorem fields_inj {call call' : AuditCall} (h : call.entry.fields = call'.entry.fields) :
    call = call' := by
  cases call
  cases call'
  simp_all [entry, AuditEntry.fields]

theorem hashed_eq (call : AuditCall) : call.entry.hashed =
    (Bytes.ofU64 call.text.1).val ++ call.text.2.toByteArray.data.toList := by
  simp [AuditEntry.hashed, entry, text, String.toByteArray_append]

theorem hashed_eq_iff {call call' : AuditCall} :
    call.entry.hashed = call'.entry.hashed ↔ call.text = call'.text := by
  constructor
  · intro h
    rw [hashed_eq, hashed_eq] at h
    obtain ⟨htime, htext⟩ := Bytes.append_inj h
    refine Prod.ext (Bytes.ofU64_inj htime) (String.toByteArray_inj.mp ?_)
    exact ByteArray.ext (Array.toList_inj.mp htext)
  · intro h
    rw [hashed_eq, hashed_eq, h]

theorem map_hashed_eq_iff {calls calls' : List AuditCall} :
    (calls.map fun call => call.entry.hashed) = (calls'.map fun call => call.entry.hashed) ↔
      calls.map text = calls'.map text := by
  induction calls generalizing calls' with
  | nil => simp
  | cons call calls ih =>
    cases calls' with
    | nil => simp
    | cons call' calls' => simp only [List.map_cons, List.cons.injEq, hashed_eq_iff, ih]

end AuditCall

namespace AuditTrail

variable {c : Crypto}

-- ---------------------------------------------------------------------------
-- Hashes of entries
-- ---------------------------------------------------------------------------

theorem loop_loop (prevHash : Bytes 32) (entries rest : List AuditEntry) :
    recomputeHashes.loop c prevHash (recomputeHashes.loop c prevHash entries ++ rest) =
      recomputeHashes.loop c prevHash (entries ++ rest) := by
  induction entries generalizing prevHash with
  | nil => rfl
  | cons entry entries ih =>
    let hash := c.blake3 (preimage prevHash entry.hashed)
    exact congrArg ({ entry with hash := some hash } :: ·) (ih hash)

theorem fields_loop (prevHash : Bytes 32) (entries : List AuditEntry) :
    (recomputeHashes.loop c prevHash entries).map AuditEntry.fields =
      entries.map AuditEntry.fields := by
  induction entries generalizing prevHash with
  | nil => rfl
  | cons entry entries ih => exact congrArg (entry.fields :: ·) (ih _)

theorem verify_loop (prevHash : Bytes 32) (entries : List AuditEntry) :
    verify.loop c prevHash (recomputeHashes.loop c prevHash entries) = true := by
  induction entries generalizing prevHash with
  | nil => rfl
  | cons entry entries ih =>
    have hsame : ({ entry with hash := some (c.blake3 (preimage prevHash entry.hashed)) } :
        AuditEntry).hashed = entry.hashed := rfl
    simp only [recomputeHashes.loop, verify.loop, hsame, ne_eq, not_true_eq_false, if_false]
    exact ih _

theorem getLast?_loop (prevHash : Bytes 32) (entry : AuditEntry) (entries : List AuditEntry) :
    (recomputeHashes.loop c prevHash (entry :: entries)).getLast?.bind AuditEntry.hash =
      some (HashChain.last c.blake3 preimage prevHash ((entry :: entries).map AuditEntry.hashed)) := by
  induction entries generalizing prevHash entry with
  | nil => rfl
  | cons next entries ih => exact ih (c.blake3 (preimage prevHash entry.hashed)) next

-- ---------------------------------------------------------------------------
-- Trails
-- ---------------------------------------------------------------------------

variable (c) in
def log (calls : List AuditCall) : AuditTrail := Trace.exec (append c) new calls

variable (c) in
def inputs (calls : List AuditCall) : Set (List UInt8) :=
  {x | x ∈ HashChain.inputs c.blake3 preimage (.fill 32 0)
    (calls.map fun call => call.entry.hashed)}

def lastHash (trail : AuditTrail) : Option (Bytes 32) := trail.entries.getLast?.bind AuditEntry.hash

theorem log_eq (calls : List AuditCall) :
    log c calls =
      { entries := recomputeHashes.loop c (.fill 32 0) (calls.map AuditCall.entry)
        immutabilityEnabled := true } := by
  induction calls using List.reverseRecOn with
  | nil => rfl
  | append_singleton calls call ih =>
    rw [log, Trace.exec_concat, ← log, ih, List.map_append]
    exact congrArg (AuditTrail.mk · true) (loop_loop _ _ [call.entry])

theorem log_fields (calls : List AuditCall) :
    (log c calls).entries.map AuditEntry.fields =
      calls.map fun call => call.entry.fields := by
  rw [log_eq, fields_loop, List.map_map]
  rfl

theorem verify_log (calls : List AuditCall) : (log c calls).verify c = true := by
  rw [log_eq]
  exact verify_loop _ _

theorem log_fields_inj {calls calls' : List AuditCall}
    (h : (log c calls).entries.map AuditEntry.fields = (log c calls').entries.map AuditEntry.fields) :
    calls = calls' := by
  rw [log_fields, log_fields] at h
  exact List.map_injective_iff.mpr (fun _ _ heq => AuditCall.fields_inj heq) h

theorem lastHash_log (call : AuditCall) (calls : List AuditCall) :
    (log c (call :: calls)).lastHash = some (HashChain.last c.blake3 preimage (.fill 32 0)
      ((call :: calls).map fun call => call.entry.hashed)) := by
  rw [log_eq, lastHash, List.map_cons, getLast?_loop, ← List.map_cons, List.map_map]
  rfl

theorem lastHash_congr {calls calls' : List AuditCall}
    (h : calls.map AuditCall.text = calls'.map AuditCall.text) :
    (log c calls).lastHash = (log c calls').lastHash := by
  have hhashed := AuditCall.map_hashed_eq_iff.mpr h
  cases calls with
  | nil =>
    obtain rfl := List.map_eq_nil_iff.mp h.symm
    rfl
  | cons call calls =>
    cases calls' with
    | nil => cases h
    | cons call' calls' => rw [lastHash_log, lastHash_log, hhashed]

/-- The last hash of a trail tells the texts of its calls, if the hashes have no collision. -/
theorem text_of_lastHash {calls calls' : List AuditCall} (hlen : calls.length = calls'.length)
    (hinj : Set.InjOn c.blake3 (inputs c calls ∪ inputs c calls'))
    (h : (log c calls).lastHash = (log c calls').lastHash) :
    calls.map AuditCall.text = calls'.map AuditCall.text := by
  cases calls with
  | nil =>
    obtain rfl := List.eq_nil_of_length_eq_zero hlen.symm
    rfl
  | cons call calls =>
    cases calls' with
    | nil => cases hlen
    | cons call' calls' =>
      rw [lastHash_log, lastHash_log] at h
      obtain ⟨-, hhashed⟩ := HashChain.last_inj (fun _ _ _ _ heq => Bytes.append_inj heq) hinj
        (fun _ hx => .inl hx) (fun _ hx => .inr hx) (by simpa using hlen) (Option.some.inj h)
      exact AuditCall.map_hashed_eq_iff.mp hhashed

/-- The last hash of a trail binds what is recorded, unless another trail has the same
times and texts. -/
theorem log_binds_iff (c : Crypto) (calls calls' : List AuditCall)
    (hlen : calls.length = calls'.length)
    (hinj : Set.InjOn c.blake3 (inputs c calls ∪ inputs c calls')) :
    ((log c calls).lastHash = (log c calls').lastHash →
      (log c calls).entries.map AuditEntry.fields = (log c calls').entries.map AuditEntry.fields) ↔
    (calls.map AuditCall.text = calls'.map AuditCall.text → calls = calls') := by
  constructor
  · intro hbinds htext
    exact log_fields_inj (hbinds (lastHash_congr htext))
  · intro hfields hlast
    rw [hfields (text_of_lastHash hlen hinj hlast)]

/-- A trail of two votes, and one in which the time of the first vote is another one. -/
theorem log_binds_iff_votes :
    let c : Crypto :=
      { blake3 := fun input => .fill 32 (input.getD 0 0 + input.getD 32 0)
        ed25519Verify := fun _ _ _ => true }
    let votes (first : UInt64) : List AuditCall :=
      [.governanceAction first "vote" .empty, .governanceAction 9 "vote" .empty]
    (log c (votes 7)).lastHash ≠ (log c (votes 8)).lastHash := by
  intro c votes hlast
  have hinj : Set.InjOn c.blake3 (inputs c (votes 7) ∪ inputs c (votes 8)) := by
    -- the four inputs are hashed to 7, 16, 8 and 17
    rintro x (hx | hx) y (hy | hy) heq <;>
      rcases List.mem_pair.mp hx with rfl | rfl <;> rcases List.mem_pair.mp hy with rfl | rfl <;>
      first | rfl | exact absurd heq (by decide)
  have hfields := (log_binds_iff c (votes 7) (votes 8) rfl hinj).mpr (fun htext => ?_) hlast
  · exact absurd (congrArg (fun call => call.entry.timestampMs) (List.cons.inj
      (log_fields_inj hfields)).1) (by decide)
  · exact absurd (congrArg Prod.fst (List.cons.inj htext).1) (by decide)

/-- Two fraud proofs for different jobs have the same hash. -/
theorem log_binds_fails :
    ¬ ∀ (c : Crypto) (calls calls' : List AuditCall), calls.length = calls'.length →
      Set.InjOn c.blake3 (inputs c calls ∪ inputs c calls') →
      (log c calls).lastHash = (log c calls').lastHash →
      (log c calls).entries.map AuditEntry.fields =
        (log c calls').entries.map AuditEntry.fields := by
  intro h
  let c : Crypto := { blake3 := fun _ => .fill 32 0, ed25519Verify := fun _ _ _ => true }
  let proof (jobId : String) : List AuditCall := [.fraudProof 7 jobId "double_signing" "0xab"]
  have hsame : (proof "job-1").map AuditCall.text = (proof "job-2").map AuditCall.text := rfl
  have hinj : Set.InjOn c.blake3 (inputs c (proof "job-1") ∪ inputs c (proof "job-2")) := by
    rintro x (hx | hx) y (hy | hy) - <;> obtain rfl := List.mem_singleton.mp hx <;>
      obtain rfl := List.mem_singleton.mp hy <;> rfl
  have hfields := h c (proof "job-1") (proof "job-2") rfl hinj (lastHash_congr hsame)
  have hdetails := congrArg AuditCall.details (List.cons.inj (log_fields_inj hfields)).1
  have hjob := congrArg (fun details => details.get "job_id") hdetails
  simp [AuditCall.fraudProof, AuditCall.strings, Map.get_insert] at hjob

end AuditTrail

end LiteVision.Observability
