import LiteVision.Truth.CrossPartition
import Mathlib.Data.List.Nodup

/-!
# Accepted messages

The registry remembers ids, and the id of a message is taken as it comes. So no
id is accepted twice; whether two messages can say the same thing depends on
where their ids come from.
-/

namespace LiteVision.Truth

open Lib

/-- All that a message says: its fields but the id. -/
structure MessageContent where
  sourcePartitionId : PartitionId
  targetPartitionId : PartitionId
  sourceBlockHeight : UInt64
  payloadHash : Bytes 32
  nonce : UInt64
  deriving DecidableEq

def CrossPartitionMessage.content (m : CrossPartitionMessage) : MessageContent where
  sourcePartitionId := m.sourcePartitionId
  targetPartitionId := m.targetPartitionId
  sourceBlockHeight := m.sourceBlockHeight
  payloadHash := m.payloadHash
  nonce := m.nonce

/-- The message that `CrossPartitionMessage::new` makes of a content. -/
def MessageContent.message (c : Crypto) (content : MessageContent) : CrossPartitionMessage :=
  .new c content.sourcePartitionId content.targetPartitionId content.sourceBlockHeight
    content.payloadHash content.nonce

namespace PartitionManager

variable (c : Crypto)

-- ---------------------------------------------------------------------------
-- No id twice
-- ---------------------------------------------------------------------------

def received (s : PartitionManager) : Op → Option CrossPartitionMessage
  | .processCrossPartitionMessage message proof =>
    if (s.processCrossPartitionMessage c message proof).1 = .ok () then some message else none
  | _ => none

def accepted : PartitionManager → List Op → List CrossPartitionMessage
  | _, [] => []
  | s, op :: run => (s.received c op).toList ++ accepted (s.step c op) run

theorem received_eq_some {s : PartitionManager} {op : Op} {m : CrossPartitionMessage} :
    s.received c op = some m ↔
      ∃ proof, op = .processCrossPartitionMessage m proof ∧ s.Passes c m proof := by
  cases op with
  | processCrossPartitionMessage message proof =>
    simp only [received, process_ok, Option.ite_none_right_eq_some, Option.some.injEq,
      Op.processCrossPartitionMessage.injEq]
    constructor
    · rintro ⟨hpass, rfl⟩
      exact ⟨proof, ⟨rfl, rfl⟩, hpass⟩
    · rintro ⟨proof', ⟨rfl, rfl⟩, hpass⟩
      exact ⟨hpass, rfl⟩
  | _ => simp [received]

theorem consumed_step (s : PartitionManager) (op : Op) :
    (s.step c op).messageRegistry.consumed =
      (s.received c op).elim s.messageRegistry.consumed
        fun m => insert m.messageId s.messageRegistry.consumed := by
  cases op with
  | processCrossPartitionMessage message proof =>
    simp only [received, step]
    rcases process_cases c s message proof with ⟨-, heq⟩ | ⟨-, err, heq⟩
    · simp [heq, ConsumedMessageRegistry.markConsumed]
    · simp [heq]
  | prune currentHeight => exact ConsumedMessageRegistry.consumed_prune _ currentHeight pruneWindow
  | _ => rfl

theorem accepted_ids (s : PartitionManager) (run : List Op) :
    ((s.accepted c run).map CrossPartitionMessage.messageId).Nodup ∧
      ∀ m ∈ s.accepted c run, m.messageId ∉ s.messageRegistry.consumed := by
  induction run generalizing s with
  | nil => exact ⟨.nil, fun m hm => nomatch hm⟩
  | cons op run ih =>
    obtain ⟨hnodup, hfresh⟩ := ih (s.step c op)
    rw [consumed_step] at hfresh
    cases hr : s.received c op with
    | none =>
      simp only [hr, Option.elim] at hfresh
      simpa [accepted, hr] using ⟨hnodup, hfresh⟩
    | some m =>
      obtain ⟨proof, -, hpass⟩ := (received_eq_some c).mp hr
      simp only [hr, Option.elim, Finset.mem_insert, not_or] at hfresh
      simp only [accepted, hr, Option.toList_some, List.singleton_append, List.map_cons,
        List.nodup_cons, List.mem_map, List.mem_cons]
      refine ⟨⟨?_, hnodup⟩, ?_⟩
      · rintro ⟨m', hm', heq⟩
        exact (hfresh m' hm').1 heq
      · rintro m' (rfl | hm')
        · exact hpass.1
        · exact (hfresh m' hm').2

-- ---------------------------------------------------------------------------
-- No content twice
-- ---------------------------------------------------------------------------

/-- A message that passes has the id that `CrossPartitionMessage::new` gives it. -/
def CarriesId (s : PartitionManager) (op : Op) : Prop :=
  ∀ m proof, op = .processCrossPartitionMessage m proof → s.Passes c m proof →
    m = m.content.message c

theorem accepted_of_carriesId {s : PartitionManager} {run : List Op}
    (h : Trace.Always (step c) (CarriesId c) s run) :
    ∀ m ∈ s.accepted c run, m = m.content.message c := by
  induction run generalizing s with
  | nil => exact fun m hm => nomatch hm
  | cons op run ih =>
    intro m hm
    rcases List.mem_append.mp hm with hfirst | hrest
    · obtain ⟨proof, hop, hpass⟩ := (received_eq_some c).mp (Option.mem_toList.mp hfirst)
      exact h.1 m proof hop hpass
    · exact ih h.2 m hrest

/-- If every message that passes the checks carries the id derived from its
content, no content is accepted twice. -/
theorem accepted_contents_nodup (run : List Op)
    (h : Trace.Always (step c) (CarriesId c) .new run) :
    ((accepted c .new run).map CrossPartitionMessage.content).Nodup := by
  let idOf := fun content : MessageContent => (content.message c).messageId
  have hids : ((accepted c .new run).map CrossPartitionMessage.content).map idOf =
      (accepted c .new run).map CrossPartitionMessage.messageId := by
    rw [List.map_map]
    apply List.map_congr_left
    intro m hm
    exact (congrArg CrossPartitionMessage.messageId (accepted_of_carriesId c h m hm)).symm
  apply List.Nodup.of_map idOf
  rw [hids]
  exact (accepted_ids c .new run).1

/-- Two messages with the ids of `CrossPartitionMessage::new`, of which the
second repeats the first and is refused. -/
theorem accepted_contents_nodup_repeated :
    let c : Crypto := { blake3 := fun _ => .fill 32 0, ed25519Verify := fun _ _ _ => true }
    let process := Op.processCrossPartitionMessage (.new c 1 2 100 (.fill 32 0) 1)
      { sourceBlockHash := .fill 32 1, sourcePartitionRoot := .fill 32 0, merkleProof := [],
        partitionInclusionProof := [], qcValidatorCount := 3, qcSignatures := [] }
    let run := [.addPartition 1, process, process]
    accepted c .new run = [.new c 1 2 100 (.fill 32 0) 1] ∧
      ((accepted c .new run).map CrossPartitionMessage.content).Nodup := by
  intro c process run
  refine ⟨by decide, accepted_contents_nodup c run ?_⟩
  have hid (s : PartitionManager) : CarriesId c s process := by
    intro m proof h _
    obtain ⟨rfl, -⟩ := Op.processCrossPartitionMessage.inj h
    rfl
  exact ⟨fun m proof h => (nomatch h), hid _, hid _, trivial⟩

/-- One content accepted under two ids. -/
theorem message_replay_safety_fails :
    ¬ ∀ (c : Crypto) (run : List Op),
      ((accepted c .new run).map CrossPartitionMessage.content).Nodup := by
  intro h
  let c : Crypto := { blake3 := fun _ => .fill 32 0, ed25519Verify := fun _ _ _ => true }
  let process := fun id => Op.processCrossPartitionMessage
    { CrossPartitionMessage.new c 1 2 100 (.fill 32 0) 1 with messageId := .fill 32 id }
    { sourceBlockHash := .fill 32 1, sourcePartitionRoot := .fill 32 0, merkleProof := [],
      partitionInclusionProof := [], qcValidatorCount := 3, qcSignatures := [] }
  exact absurd (h c [.addPartition 1, process 1, process 2]) (by decide)

-- ---------------------------------------------------------------------------
-- What is accepted
-- ---------------------------------------------------------------------------

/-- A Merkle path leads from a hash to a root: the hash is combined with each
element in turn, the lesser of the two first. -/
inductive LeadsTo : Bytes 32 → List (Bytes 32) → Bytes 32 → Prop
  | done (x : Bytes 32) : LeadsTo x [] x
  | left {x y root : Bytes 32} {path : List (Bytes 32)} (h : x.val < y.val)
      (next : LeadsTo (combineHashes c x y) path root) : LeadsTo x (y :: path) root
  | right {x y root : Bytes 32} {path : List (Bytes 32)} (h : ¬ x.val < y.val)
      (next : LeadsTo (combineHashes c y x) path root) : LeadsTo x (y :: path) root

theorem leadsTo_iff {x root : Bytes 32} {path : List (Bytes 32)} :
    LeadsTo c x path root ↔ CrossPartitionProof.climb c x path = root := by
  constructor
  · intro h
    induction h with
    | done x => rfl
    | left h next ih => rw [← ih]; simp [CrossPartitionProof.climb, h]
    | right h next ih => rw [← ih]; simp [CrossPartitionProof.climb, h]
  · induction path generalizing x with
    | nil => rintro rfl; exact .done x
    | cons y path ih =>
      intro h
      by_cases hlt : x.val < y.val
      · exact .left hlt (ih (by simpa [CrossPartitionProof.climb, hlt] using h))
      · exact .right hlt (ih (by simpa [CrossPartitionProof.climb, hlt] using h))

/-- A message is accepted just when its id is new, its height is not too old, its
path leads to the root recorded for the source partition, and the proof says of
itself that two validators or more stand behind it. The signatures are not asked. -/
theorem message_accepted_iff (s : PartitionManager) (message : CrossPartitionMessage)
    (proof : CrossPartitionProof) :
    (s.processCrossPartitionMessage c message proof).1 = .ok () ↔
      message.messageId ∉ s.messageRegistry.consumed ∧
      s.messageRegistry.minValidHeight ≤ message.sourceBlockHeight ∧
      2 ≤ proof.qcValidatorCount ∧
      ∃ root, s.globalStateRoot.getPartitionRoot message.sourcePartitionId = some root ∧
        LeadsTo c message.payloadHash proof.merkleProof root ∧ proof.sourcePartitionRoot = root := by
  rw [process_ok, Passes, CrossPartitionProof.verify_ok]
  simp only [leadsTo_iff]
  constructor
  · rintro ⟨hid, hheight, hroot, hpath, hcount⟩
    exact ⟨hid, hheight, hcount, proof.sourcePartitionRoot, hroot, hpath, rfl⟩
  · rintro ⟨hid, hheight, hcount, root, hroot, hpath, rfl⟩
    exact ⟨hid, hheight, hroot, hpath, hcount⟩

/-- A message is accepted without a single signature. -/
theorem message_quorum_fails :
    ¬ ∀ (c : Crypto) (s : PartitionManager) (message : CrossPartitionMessage)
      (proof : CrossPartitionProof), (s.processCrossPartitionMessage c message proof).1 = .ok () →
        2 ≤ (proof.qcSignatures.map Prod.fst).toFinset.card ∧
        proof.qcValidatorCount.toNat ≤ (proof.qcSignatures.map Prod.fst).toFinset.card ∧
        ∃ root, s.globalStateRoot.getPartitionRoot message.sourcePartitionId = some root ∧
          LeadsTo c message.payloadHash proof.merkleProof root := by
  intro h
  let c : Crypto := { blake3 := fun _ => .fill 32 0, ed25519Verify := fun _ _ _ => true }
  let proof : CrossPartitionProof :=
    { sourceBlockHash := .fill 32 1, sourcePartitionRoot := .fill 32 0, merkleProof := [],
      partitionInclusionProof := [], qcValidatorCount := 3, qcSignatures := [] }
  have hcount := (h c (new.addPartition 1) (.new c 1 2 100 (.fill 32 0) 1) proof (by decide)).1
  exact absurd hcount (by decide)

end PartitionManager

end LiteVision.Truth
