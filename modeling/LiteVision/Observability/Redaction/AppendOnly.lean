import LiteVision.Observability.Redaction.Audit

/-!
# The trail only grows

With immutability enabled, every call hashes all entries again. A hash that is there comes
out the same, since the entries with a hash come first and theirs are of the chain; an entry
from a time when immutability was not enabled gets its hash at the next call.
-/

namespace LiteVision.Observability.AuditTrail

open Lib

variable {c : Crypto} {trail : AuditTrail} {call : AuditCall}

inductive Reachable (c : Crypto) : AuditTrail → Prop
  | new : Reachable c .new
  | withImmutability {trail : AuditTrail} (enabled : Bool) (h : Reachable c trail) :
    Reachable c (trail.withImmutability enabled)
  | append {trail : AuditTrail} (call : AuditCall) (h : Reachable c trail) :
    Reachable c (append c trail call)

/-- The entries with a hash come first, and their hashes are those of the chain. -/
def HashedFirst (c : Crypto) (trail : AuditTrail) : Prop :=
  ∃ hashed plain, trail.entries = recomputeHashes.loop c (.fill 32 0) hashed ++ plain ∧
    ∀ entry ∈ plain, entry.hash = none

/-- Every entry is still there with its fields, and as it was if it had a hash. -/
def Keeps (trail trail' : AuditTrail) : Prop :=
  ∀ (i : Nat) (entry : AuditEntry), trail.entries[i]? = some entry →
    ∃ entry' : AuditEntry, trail'.entries[i]? = some entry' ∧ entry'.fields = entry.fields ∧
      (entry.hash.isSome → entry' = entry)

-- ---------------------------------------------------------------------------
-- The loop
-- ---------------------------------------------------------------------------

theorem isSome_of_mem_loop {prevHash : Bytes 32} {entries : List AuditEntry} {entry : AuditEntry}
    (h : entry ∈ recomputeHashes.loop c prevHash entries) : entry.hash.isSome := by
  induction entries generalizing prevHash with
  | nil => cases h
  | cons first entries ih =>
    rcases List.mem_cons.mp h with rfl | hrest
    · rfl
    · exact ih hrest

theorem loop_prefix (prevHash : Bytes 32) (entries rest : List AuditEntry) :
    recomputeHashes.loop c prevHash entries <+:
      recomputeHashes.loop c prevHash (entries ++ rest) := by
  induction entries generalizing prevHash with
  | nil => exact List.nil_prefix
  | cons entry entries ih => exact List.cons_prefix_cons.mpr ⟨rfl, ih _⟩

theorem getElem?_loop_fields (prevHash : Bytes 32) (entries : List AuditEntry) (i : Nat) :
    (recomputeHashes.loop c prevHash entries)[i]?.map AuditEntry.fields =
      entries[i]?.map AuditEntry.fields := by
  rw [← List.getElem?_map, fields_loop, List.getElem?_map]

-- ---------------------------------------------------------------------------
-- One call
-- ---------------------------------------------------------------------------

theorem append_of_enabled (c : Crypto) (h : trail.immutabilityEnabled = true) (call : AuditCall) :
    (append c trail call).entries =
      recomputeHashes.loop c (.fill 32 0) (trail.entries ++ [call.entry]) := by
  simp only [append, h, if_true]
  rfl

theorem append_of_disabled (c : Crypto) (h : trail.immutabilityEnabled = false)
    (call : AuditCall) : (append c trail call).entries = trail.entries ++ [call.entry] := by
  simp only [append, h]
  rfl

theorem immutabilityEnabled_append (c : Crypto) (trail : AuditTrail) (call : AuditCall) :
    (append c trail call).immutabilityEnabled = trail.immutabilityEnabled := by
  unfold append
  cases h : trail.immutabilityEnabled <;> rfl

theorem Reachable.hashedFirst (h : Reachable c trail) : HashedFirst c trail := by
  induction h with
  | new => exact ⟨[], [], rfl, fun _ hmem => nomatch hmem⟩
  | withImmutability enabled _ ih => exact ih
  | @append trail call _ ih =>
    cases henabled : trail.immutabilityEnabled with
    | true =>
      refine ⟨trail.entries ++ [call.entry], [], ?_, fun _ hmem => nomatch hmem⟩
      rw [append_of_enabled c henabled, List.append_nil]
    | false =>
      obtain ⟨hashed, plain, hentries, hplain⟩ := ih
      refine ⟨hashed, plain ++ [call.entry], ?_, fun entry hmem => ?_⟩
      · rw [append_of_disabled c henabled, hentries, List.append_assoc]
      · rcases List.mem_append.mp hmem with hmem | hmem
        · exact hplain entry hmem
        · rw [List.mem_singleton.mp hmem]
          rfl

theorem keeps_append (h : HashedFirst c trail) (henabled : trail.immutabilityEnabled = true)
    (call : AuditCall) : trail.Keeps (append c trail call) := by
  obtain ⟨hashed, plain, hentries, hplain⟩ := h
  intro i entry hget
  have hfields := getElem?_loop_fields (c := c) (.fill 32 0) (trail.entries ++ [call.entry]) i
  rw [List.getElem?_append_left (List.getElem?_eq_some_iff.mp hget).1, hget, Option.map_some,
    ← append_of_enabled c henabled] at hfields
  obtain ⟨entry', hget', hsame⟩ := Option.map_eq_some_iff.mp hfields
  refine ⟨entry', hget', hsame, fun hhash => ?_⟩
  -- what has a hash is of the first part, and this comes out the same
  have hmem : entry ∉ plain := by
    intro hmem
    rw [hplain entry hmem] at hhash
    cases hhash
  have hfirst : (recomputeHashes.loop c (.fill 32 0) hashed)[i]? = some entry := by
    rw [hentries] at hget
    rcases Nat.lt_or_ge i (recomputeHashes.loop c (.fill 32 0) hashed).length with hlt | hge
    · rwa [List.getElem?_append_left hlt] at hget
    · rw [List.getElem?_append_right hge] at hget
      exact absurd (List.mem_of_getElem? hget) hmem
  have hstart : recomputeHashes.loop c (.fill 32 0) hashed <+: (append c trail call).entries := by
    rw [append_of_enabled c henabled, hentries, List.append_assoc, loop_loop]
    exact loop_prefix _ _ _
  obtain ⟨rest, hrest⟩ := hstart
  rw [← hrest, List.getElem?_append_left (List.getElem?_eq_some_iff.mp hfirst).1, hfirst] at hget'
  exact (Option.some.inj hget').symm

theorem Keeps.prefix {trail' : AuditTrail} (h : trail.Keeps trail')
    (hall : ∀ entry ∈ trail.entries, entry.hash.isSome) : trail.entries <+: trail'.entries := by
  refine List.prefix_iff_getElem?.mpr fun i hi => ?_
  obtain ⟨entry', hget, -, hsame⟩ := h i trail.entries[i] (List.getElem?_eq_getElem hi)
  rw [hget, hsame (hall _ (List.getElem_mem hi))]

-- ---------------------------------------------------------------------------
-- Sequences of calls
-- ---------------------------------------------------------------------------

theorem Reachable.exec (h : Reachable c trail) (calls : List AuditCall) :
    Reachable c (Trace.exec (AuditTrail.append c) trail calls) :=
  Trace.invariant (fun _ call h => .append call h) h calls

theorem exec_enabled (h : trail.immutabilityEnabled = true) (calls : List AuditCall) :
    (Trace.exec (append c) trail calls).immutabilityEnabled = true :=
  Trace.invariant (I := fun trail => trail.immutabilityEnabled = true)
    (fun trail call h => (immutabilityEnabled_append c trail call).trans h) h calls

theorem isSome_of_mem_append (henabled : trail.immutabilityEnabled = true) (call : AuditCall)
    {entry : AuditEntry} (h : entry ∈ (append c trail call).entries) : entry.hash.isSome := by
  rw [append_of_enabled c henabled] at h
  exact isSome_of_mem_loop h

theorem verify_append (henabled : trail.immutabilityEnabled = true) (call : AuditCall) :
    (append c trail call).verify c = true := by
  rw [verify, append_of_enabled c henabled]
  exact verify_loop _ _

/-- After each call the trail can be verified, all of it has hashes, and what it had before is
there as it was. Only entries from before the first call can have been without a hash. -/
theorem append_only (c : Crypto) (trail : AuditTrail) (hreach : Reachable c trail)
    (henabled : trail.immutabilityEnabled = true) (calls : List AuditCall) (call : AuditCall) :
    let before := Trace.exec (append c) trail calls
    let after := append c before call
    after.verify c = true ∧ (∀ entry ∈ after.entries, entry.hash.isSome) ∧ before.Keeps after ∧
      (calls ≠ [] → before.entries <+: after.entries) := by
  intro before after
  have hbefore : before.immutabilityEnabled = true := exec_enabled henabled calls
  have hkeeps : before.Keeps after := keeps_append (hreach.exec calls).hashedFirst hbefore call
  refine ⟨verify_append hbefore call, fun entry => isSome_of_mem_append hbefore call, hkeeps,
    fun hne => hkeeps.prefix fun entry hmem => ?_⟩
  obtain ⟨earlier, last, rfl⟩ := List.eq_nil_or_concat' calls |>.resolve_left hne
  rw [show before = append c (Trace.exec (append c) trail earlier) last from
    Trace.exec_concat last] at hmem
  exact isSome_of_mem_append (exec_enabled henabled earlier) last hmem

/-- An entry from before immutability was enabled, and two calls after that. -/
theorem append_only_late :
    let c : Crypto := { blake3 := fun _ => .fill 32 0, ed25519Verify := fun _ _ _ => true }
    let vote : AuditCall := .governanceAction 7 "vote" .empty
    let trail := (append c (new.withImmutability false) vote).withImmutability true
    let before := Trace.exec (append c) trail [vote]
    trail.immutabilityEnabled = true ∧ (append c before vote).verify c = true ∧
      before.entries <+: (append c before vote).entries := by
  intro c vote trail before
  have hreach : Reachable c trail :=
    .withImmutability true (.append vote (.withImmutability false .new))
  obtain ⟨hverify, -, -, hstart⟩ := append_only c trail hreach rfl [vote] vote
  exact ⟨rfl, hverify, hstart (List.cons_ne_nil vote [])⟩

/-- The first call after immutability is enabled gives a hash to an entry without one. -/
theorem append_only_fails :
    ¬ ∀ (c : Crypto) (trail : AuditTrail), Reachable c trail → trail.immutabilityEnabled = true →
      ∀ (call : AuditCall) (i : Nat) (entry : AuditEntry), trail.entries[i]? = some entry →
      (append c trail call).entries[i]? = some entry := by
  intro h
  let c : Crypto := { blake3 := fun _ => .fill 32 0, ed25519Verify := fun _ _ _ => true }
  let vote : AuditCall := .governanceAction 7 "vote" .empty
  have hkept := h c ((append c (new.withImmutability false) vote).withImmutability true)
    (.withImmutability true (.append vote (.withImmutability false .new))) rfl vote 0 _ rfl
  exact nomatch congrArg AuditEntry.hash (Option.some.inj hkept)

end LiteVision.Observability.AuditTrail
