import LiteVision.Lib.HashChain
import LiteVision.Rpack.Container.Reading

/-!
# Deltas

A delta goes from one scene hash to another, the hash of the delta itself. Its patches are
carried along but never applied: what it changes of a pack is the scene hash. So the scene
hash of a pack tells by which deltas it was reached, and nothing else does. `bincode` comes
from outside, as a codec.
-/

namespace LiteVision.Rpack

open Lib Bincode

structure DeltaMetadata where
  author : Bytes 32
  timestamp : UInt64
  description : String
  prerequisites : List (Bytes 32)
  deriving DecidableEq

def DeltaMetadata.default : DeltaMetadata where
  author := .fill 32 0
  timestamp := 0
  description := ""
  prerequisites := []

inductive PatchType where
  | object
  | property
  | animation
  | asset
  | material
  deriving DecidableEq

inductive PatchOperation where
  | add (data : List UInt8)
  | remove
  | modify (data : List UInt8)
  deriving DecidableEq

structure Patch where
  patchType : PatchType
  path : String
  operation : PatchOperation
  deriving DecidableEq

structure RPackDelta where
  baseId : Bytes 32
  targetId : Bytes 32
  version : UInt32
  patches : List Patch
  metadata : DeltaMetadata
  deriving DecidableEq

namespace RPackDelta

-- ---------------------------------------------------------------------------
-- Operations
-- ---------------------------------------------------------------------------

def new (baseId : Bytes 32) : RPackDelta where
  baseId
  targetId := .fill 32 0
  version := 1
  patches := []
  metadata := .default

def withMetadata (delta : RPackDelta) (author : Bytes 32) (description : String) : RPackDelta :=
  { delta with metadata := { delta.metadata with author, description } }

def addPatch (delta : RPackDelta) (patch : Patch) : RPackDelta :=
  { delta with patches := delta.patches ++ [patch] }

/-- The old target is hashed with the rest. -/
def computeTargetId (c : Crypto) (bincode : Codec UInt8 RPackDelta) (delta : RPackDelta) :
    RPackDelta :=
  { delta with targetId := c.blake3 (bincode.write delta) }

/-- The loop over the patches does nothing. -/
def apply (delta : RPackDelta) (base : RPack) : Option RPack :=
  some { base with header := { base.header with sceneIrHash := delta.targetId } }

def isApplicable (delta : RPackDelta) (base : RPack) : Bool :=
  base.header.sceneIrHash = delta.baseId

-- ---------------------------------------------------------------------------
-- The history of a pack
-- ---------------------------------------------------------------------------

variable {c : Crypto} {bincode : Codec UInt8 RPackDelta} {base last last' : RPack}
  {deltas deltas' : List RPackDelta}

def unsealed (delta : RPackDelta) : RPackDelta := { delta with targetId := .fill 32 0 }

/-- The id was computed once, when the delta was complete. -/
def Sealed (c : Crypto) (bincode : Codec UInt8 RPackDelta) (delta : RPackDelta) : Prop :=
  delta = delta.unsealed.computeTargetId c bincode

/-- A pack that is reached from another by applicable deltas. -/
inductive Upgrades (c : Crypto) (bincode : Codec UInt8 RPackDelta) :
    RPack → List RPackDelta → RPack → Prop where
  | nil (pack : RPack) : Upgrades c bincode pack [] pack
  | cons {base next last : RPack} {delta : RPackDelta} {deltas : List RPackDelta} :
    delta.Sealed c bincode → delta.isApplicable base = true → delta.apply base = some next →
      Upgrades c bincode next deltas last → Upgrades c bincode base (delta :: deltas) last

def hash (c : Crypto) (bincode : Codec UInt8 RPackDelta) (delta : RPackDelta) : Bytes 32 :=
  c.blake3 (bincode.write delta)

def body (delta : RPackDelta) : UInt32 × List Patch × DeltaMetadata :=
  (delta.version, delta.patches, delta.metadata)

def join (baseId : Bytes 32) (body : UInt32 × List Patch × DeltaMetadata) : RPackDelta where
  baseId
  targetId := .fill 32 0
  version := body.1
  patches := body.2.1
  metadata := body.2.2

theorem join_inj (d e : Bytes 32) (b b' : UInt32 × List Patch × DeltaMetadata)
    (h : join d b = join e b') : d = e ∧ b = b' := by
  obtain ⟨version, patches, metadata⟩ := b
  obtain ⟨version', patches', metadata'⟩ := b'
  cases h
  exact ⟨rfl, rfl⟩

theorem join_body (delta : RPackDelta) : join delta.baseId delta.body = delta.unsealed := rfl

theorem eq_of_unsealed {delta delta' : RPackDelta} (hsealed : delta.Sealed c bincode)
    (hsealed' : delta'.Sealed c bincode) (h : delta.unsealed = delta'.unsealed) :
    delta = delta' := by
  rw [hsealed, hsealed', h]

theorem Upgrades.pack_eq (h : Upgrades c bincode base deltas last) :
    last = { base with header := { base.header with sceneIrHash := last.header.sceneIrHash } } := by
  induction h with
  | nil => rfl
  | cons hsealed happlicable happly hrest ih =>
    cases happly
    exact ih

theorem Upgrades.chain (h : Upgrades c bincode base deltas last) :
    HashChain.last (hash c bincode) join base.header.sceneIrHash (deltas.map body) =
        last.header.sceneIrHash ∧
      HashChain.inputs (hash c bincode) join base.header.sceneIrHash (deltas.map body) =
        deltas.map unsealed := by
  induction h with
  | nil => exact ⟨rfl, rfl⟩
  | @cons base next last delta deltas hsealed happlicable happly hrest ih =>
    cases happly
    have hbase : base.header.sceneIrHash = delta.baseId := of_decide_eq_true happlicable
    have htarget : hash c bincode delta.unsealed = delta.targetId := (congrArg targetId hsealed).symm
    simp only [List.map_cons, HashChain.last, HashChain.inputs, hbase, join_body, htarget]
    exact ⟨ih.1, congrArg (delta.unsealed :: ·) ih.2⟩

theorem Upgrades.sealed (h : Upgrades c bincode base deltas last) :
    ∀ delta ∈ deltas, delta.Sealed c bincode := by
  induction h with
  | nil => simp
  | cons hsealed happlicable happly hrest ih => exact List.forall_mem_cons.mpr ⟨hsealed, ih⟩

theorem eq_of_map_unsealed (hsealed : ∀ delta ∈ deltas, delta.Sealed c bincode)
    (hsealed' : ∀ delta ∈ deltas', delta.Sealed c bincode)
    (h : deltas.map unsealed = deltas'.map unsealed) : deltas = deltas' := by
  induction deltas generalizing deltas' with
  | nil => exact (List.map_eq_nil_iff.mp h.symm).symm
  | cons delta deltas ih =>
    cases deltas' with
    | nil => cases h
    | cons delta' deltas' =>
      obtain ⟨hfirst, hrest⟩ := List.forall_mem_cons.mp hsealed
      obtain ⟨hfirst', hrest'⟩ := List.forall_mem_cons.mp hsealed'
      obtain ⟨hhead, htail⟩ := List.cons.inj h
      rw [eq_of_unsealed hfirst hfirst' hhead, ih hrest hrest' htail]

/-- As long as `blake3` neither collides on the deltas nor comes back to the scene hash of the
base: packs that are reached from one base have the same scene hash just when they went through
the same deltas in the same order, and are the base in all but that hash. -/
theorem upgrades_iff (c : Crypto) (bincode : Codec UInt8 RPackDelta) (inputs : Set (List UInt8))
    (hblake3 : Set.InjOn c.blake3 inputs) (base last last' : RPack)
    (hbase : ∀ bytes ∈ inputs, c.blake3 bytes ≠ base.header.sceneIrHash)
    (deltas deltas' : List RPackDelta)
    (hdeltas : ∀ delta ∈ deltas ++ deltas',
      bincode.Fits delta.unsealed ∧ bincode.write delta.unsealed ∈ inputs)
    (h : Upgrades c bincode base deltas last) (h' : Upgrades c bincode base deltas' last') :
    (last.header.sceneIrHash = last'.header.sceneIrHash ↔ deltas = deltas') ∧
      last =
        { base with header := { base.header with sceneIrHash := last.header.sceneIrHash } } := by
  obtain ⟨hlast, hinputs⟩ := h.chain
  obtain ⟨hlast', hinputs'⟩ := h'.chain
  let inputSet := {delta | bincode.Fits delta ∧ bincode.write delta ∈ inputs}
  have hinj : Set.InjOn (hash c bincode) inputSet := by
    rintro delta ⟨hfits, hin⟩ delta' ⟨hfits', hin'⟩ heq
    exact (Codec.write_eq_write_iff hfits hfits').mp (hblake3 hin hin' heq)
  refine ⟨⟨fun hsame => ?_, ?_⟩, h.pack_eq⟩
  · have hbodies : deltas.map body = deltas'.map body := by
      refine HashChain.last_inj_of_root join_inj hinj (fun delta hmem => hbase _ hmem.2)
        ?_ ?_ (hlast.trans (hsame.trans hlast'.symm))
      · rw [hinputs, List.forall_mem_map]
        exact fun delta hmem => hdeltas delta (List.mem_append_left _ hmem)
      · rw [hinputs', List.forall_mem_map]
        exact fun delta hmem => hdeltas delta (List.mem_append_right _ hmem)
    refine eq_of_map_unsealed h.sealed h'.sealed ?_
    rw [← hinputs, ← hinputs', hbodies]
  · rintro rfl
    rw [← hlast, ← hlast']

end RPackDelta

-- ---------------------------------------------------------------------------
-- The format
-- ---------------------------------------------------------------------------

namespace PatchOperation

inductive Variant where
  | add
  | remove
  | modify
  deriving DecidableEq

def Variant.Data : Variant → Type
  | add | modify => List UInt8
  | remove => Unit

def parts : PatchOperation ≃ Σ variant : Variant, variant.Data where
  toFun
    | add data => ⟨.add, data⟩
    | remove => ⟨.remove, ()⟩
    | modify data => ⟨.modify, data⟩
  invFun
    | ⟨.add, data⟩ => add data
    | ⟨.remove, _⟩ => remove
    | ⟨.modify, data⟩ => modify data
  left_inv operation := by cases operation <;> rfl
  right_inv p := by
    obtain ⟨variant, data⟩ := p
    cases variant <;> rfl

def Variant.codec : (variant : Variant) → Codec UInt8 variant.Data
  | add | modify => blob
  | remove => .empty

def codec : Codec UInt8 PatchOperation :=
  (Codec.tagged (enumeration [Variant.add, .remove, .modify] (fun v => by cases v <;> simp)
    (by decide) (by decide)) Variant.codec).record parts

end PatchOperation

def Patch.codec : Codec UInt8 Patch :=
  ((enumeration [PatchType.object, .property, .animation, .asset, .material]
    (fun t => by cases t <;> simp) (by decide) (by decide)).pair
      (string.pair PatchOperation.codec)).record
    { toFun := fun p => (p.patchType, p.path, p.operation)
      invFun := fun p => ⟨p.1, p.2.1, p.2.2⟩
      left_inv := fun _ => rfl
      right_inv := fun _ => rfl }

def DeltaMetadata.codec : Codec UInt8 DeltaMetadata :=
  ((bytes 32).pair (u64.pair (string.pair (vec (bytes 32))))).record
    { toFun := fun m => (m.author, m.timestamp, m.description, m.prerequisites)
      invFun := fun p => ⟨p.1, p.2.1, p.2.2.1, p.2.2.2⟩
      left_inv := fun _ => rfl
      right_inv := fun _ => rfl }

def RPackDelta.codec : Codec UInt8 RPackDelta :=
  ((bytes 32).pair ((bytes 32).pair (u32.pair ((vec Patch.codec).pair DeltaMetadata.codec)))).record
    { toFun := fun d => (d.baseId, d.targetId, d.version, d.patches, d.metadata)
      invFun := fun p => ⟨p.1, p.2.1, p.2.2.1, p.2.2.2.1, p.2.2.2.2⟩
      left_inv := fun _ => rfl
      right_inv := fun _ => rfl }

/-- A pack with one delta, and with another one after it. -/
theorem RPackDelta.upgrades_iff_two :
    let c : Crypto :=
      { blake3 := fun bytes => .fill 32 (1 + bytes.getD 0 0), ed25519Verify := fun _ _ _ => true }
    let base : RPack := ⟨.new, [], []⟩
    let first := (((new (.fill 32 0)).addPatch ⟨.object, "/scene", .remove⟩).withMetadata
      (.fill 32 7) "one").computeTargetId c codec
    let second := ((new first.targetId).addPatch
      ⟨.property, "/scene/nodes", .modify [1]⟩).computeTargetId c codec
    ∃ once twice, Upgrades c codec base [first] once ∧
      Upgrades c codec base [first, second] twice ∧
      once.header.sceneIrHash ≠ twice.header.sceneIrHash := by
  intro c base first second
  obtain ⟨once, hnext⟩ : ∃ once, first.apply base = some once := ⟨_, rfl⟩
  obtain ⟨twice, hlast⟩ : ∃ twice, second.apply once = some twice := ⟨_, rfl⟩
  have happlicable : second.isApplicable once = true := by
    cases hnext
    decide
  have honce : Upgrades c codec base [first] once := .cons rfl (by decide) hnext (.nil once)
  have htwice : Upgrades c codec base [first, second] twice :=
    .cons rfl (by decide) hnext (.cons rfl happlicable hlast (.nil twice))
  refine ⟨once, twice, honce, htwice, ?_⟩
  have hinj : Set.InjOn c.blake3
      {codec.write first.unsealed, codec.write second.unsealed} := by
    rw [Set.injOn_pair]
    intro heq
    exact absurd heq (by decide)
  have hremove : PatchOperation.codec.Fits .remove := ⟨fits_enumeration _, trivial⟩
  have hmodify : PatchOperation.codec.Fits (.modify [1]) :=
    ⟨fits_enumeration _, fits_blob.mpr (by decide)⟩
  have hfits : codec.Fits first.unsealed ∧ codec.Fits second.unsealed := by
    constructor <;> simp [codec, DeltaMetadata.codec, Patch.codec, first, second, unsealed, new,
      addPatch, withMetadata, computeTargetId, DeltaMetadata.default, hremove, hmodify] <;>
      decide
  have hiff := upgrades_iff c codec _ hinj base once twice ?_ [first] [first, second] ?_ honce
    htwice
  · rw [ne_eq, hiff.1]
    decide
  · rintro bytes (rfl | rfl) <;> decide
  · rintro delta hmem
    simp only [List.cons_append, List.nil_append, List.mem_cons, List.not_mem_nil, or_false] at hmem
    rcases hmem with rfl | rfl | rfl
    · exact ⟨hfits.1, .inl rfl⟩
    · exact ⟨hfits.1, .inl rfl⟩
    · exact ⟨hfits.2, .inr rfl⟩

end LiteVision.Rpack
