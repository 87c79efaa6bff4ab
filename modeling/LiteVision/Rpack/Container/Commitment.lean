import LiteVision.Bincode
import LiteVision.Lib.Trace
import LiteVision.Rpack.Container
import Mathlib.Data.List.Induction

/-!
# What the hash of a pack commits to

Two packs with one hash have the same header and chunk table. A payload without
compressed data is the one whose hash the table has; of a payload with compressed data
the table has the length only. Of `bincode` nothing counts but that it tells apart what is
serialized.
-/

namespace LiteVision.Rpack

open Lib Bincode

structure ChunkCall where
  chunkType : ChunkType
  payload : List UInt8
  compressed : Option (List UInt8)
  deriving DecidableEq

def ChunkCall.hashed (call : ChunkCall) : List UInt8 := call.compressed.getD call.payload

inductive BuilderOp where
  | withDeterministicSeed (seed : Bytes 32)
  | withCompression (compressed : Bool)
  | withEncryption (encrypted : Bool)
  | withStreaming (allowed : Bool)
  | withRendererProfileHint (profile : UInt16)
  | addChunk (call : ChunkCall)

def BuilderOp.call? : BuilderOp → Option ChunkCall
  | .addChunk call => some call
  | _ => none

namespace RPackBuilder

def step (c : Crypto) (builder : RPackBuilder) : BuilderOp → RPackBuilder
  | .withDeterministicSeed seed => builder.withDeterministicSeed seed
  | .withCompression compressed => builder.withCompression compressed
  | .withEncryption encrypted => builder.withEncryption encrypted
  | .withStreaming allowed => builder.withStreaming allowed
  | .withRendererProfileHint profile => builder.withRendererProfileHint profile
  | .addChunk call => (builder.addChunk c call.chunkType call.payload call.compressed).2

def run (c : Crypto) (ops : List BuilderOp) : RPackBuilder := Trace.exec (step c) new ops

def pack (c : Crypto) (headerSize : HeaderSize) (ops : List BuilderOp) : RPack :=
  (run c ops).build headerSize

def chunkCalls (ops : List BuilderOp) : List ChunkCall := ops.filterMap BuilderOp.call?

/-- What is hashed in a run, the pack at its end included. -/
def hashed (c : Crypto) (serialize : RPackCanonical → List UInt8) (headerSize : HeaderSize)
    (ops : List BuilderOp) : Set (List UInt8) :=
  insert (serialize (pack c headerSize ops).canonical)
    {data | ∃ call ∈ chunkCalls ops, data = call.hashed}

def chunkHeader (c : Crypto) (i : Nat) (call : ChunkCall) : ChunkHeader where
  chunkId := UInt32.ofNat i
  chunkType := call.chunkType
  flags := if call.compressed.isSome then 1 else 0
  uncompressedSize := UInt64.ofNat call.payload.length
  compressedSize := call.compressed.elim (UInt64.ofNat call.payload.length) fun comp =>
    UInt64.ofNat comp.length
  contentHash := c.blake3 call.hashed
  dataOffset := 0

variable {c : Crypto} {serialize : RPackCanonical → List UInt8} {headerSize : HeaderSize}
  {ops ops' : List BuilderOp}

-- ---------------------------------------------------------------------------
-- What a run builds
-- ---------------------------------------------------------------------------

def unbuilt (header : RPackHeader) : RPackHeader :=
  { header with chunkTableOffset := 0, chunkCount := 0, totalUncompressedSize := 0 }

theorem withFlag_chunks (builder : RPackBuilder) (flag : UInt32) (switch : Bool) :
    (builder.withFlag flag switch).chunks = builder.chunks := by
  cases switch <;> rfl

theorem withFlag_unbuilt {builder : RPackBuilder} (h : unbuilt builder.header = builder.header)
    (flag : UInt32) (switch : Bool) : unbuilt (builder.withFlag flag switch).header =
      (builder.withFlag flag switch).header := by
  cases switch with
  | false => exact h
  | true =>
    exact congrArg (fun header : RPackHeader => { header with flags := header.flags ||| flag }) h

theorem step_unbuilt (builder : RPackBuilder) (op : BuilderOp)
    (h : unbuilt builder.header = builder.header) :
    unbuilt (builder.step c op).header = (builder.step c op).header := by
  cases op with
  | withDeterministicSeed seed =>
    exact congrArg (fun header : RPackHeader =>
      { header with deterministicSeed := some seed, flags := header.flags ||| 0x08 }) h
  | withCompression compressed => exact withFlag_unbuilt h _ _
  | withEncryption encrypted => exact withFlag_unbuilt h _ _
  | withStreaming allowed => exact withFlag_unbuilt h _ _
  | withRendererProfileHint profile =>
    exact congrArg (fun header : RPackHeader => { header with rendererProfileHint := profile }) h
  | addChunk call => exact h

theorem run_unbuilt (ops : List BuilderOp) : unbuilt (run c ops).header = (run c ops).header :=
  Trace.invariant (I := fun builder : RPackBuilder => unbuilt builder.header = builder.header)
    step_unbuilt rfl ops

theorem addChunk_chunks (builder : RPackBuilder) (call : ChunkCall) :
    (builder.addChunk c call.chunkType call.payload call.compressed).2.chunks =
      builder.chunks ++ [(chunkHeader c builder.chunks.length call, call.payload)] := by
  unfold addChunk chunkHeader ChunkCall.hashed
  cases call.compressed <;> rfl

theorem step_chunks (builder : RPackBuilder) (op : BuilderOp) :
    (builder.step c op).chunks = builder.chunks ++ op.call?.toList.map fun call =>
      (chunkHeader c builder.chunks.length call, call.payload) := by
  cases op with
  | withDeterministicSeed seed => exact (List.append_nil _).symm
  | withCompression compressed => exact (withFlag_chunks ..).trans (List.append_nil _).symm
  | withEncryption encrypted => exact (withFlag_chunks ..).trans (List.append_nil _).symm
  | withStreaming allowed => exact (withFlag_chunks ..).trans (List.append_nil _).symm
  | withRendererProfileHint profile => exact (List.append_nil _).symm
  | addChunk call => exact addChunk_chunks builder call

theorem chunkCalls_concat (ops : List BuilderOp) (op : BuilderOp) :
    chunkCalls (ops ++ [op]) = chunkCalls ops ++ op.call?.toList := by
  rw [chunkCalls, List.filterMap_append]
  cases op <;> rfl

theorem run_chunks (ops : List BuilderOp) :
    (run c ops).chunks = (chunkCalls ops).mapIdx fun i call =>
      (chunkHeader c i call, call.payload) := by
  induction ops using List.reverseRecOn with
  | nil => rfl
  | append_singleton ops op ih =>
    rw [run, Trace.exec_concat, ← run, step_chunks, ih, chunkCalls_concat, List.length_mapIdx]
    cases op.call? with
    | none => simp
    | some call => simp

theorem pack_chunkTable (ops : List BuilderOp) :
    (pack c headerSize ops).chunkTable = (chunkCalls ops).mapIdx (chunkHeader c) := by
  rw [pack, build, run_chunks]
  exact List.ext_getElem? fun i => by simp [Function.comp_def]

theorem pack_chunkData (ops : List BuilderOp) :
    (pack c headerSize ops).chunkData = (chunkCalls ops).mapIdx fun i call =>
      ⟨UInt32.ofNat i, call.payload⟩ := by
  rw [pack, build, run_chunks]
  exact List.mapIdx_mapIdx

theorem verifyChunk_pack (ops : List BuilderOp) (chunkId : UInt32) (data : List UInt8) :
    (pack c headerSize ops).verifyChunk c chunkId data = true ↔
      ∃ call, (chunkCalls ops)[chunkId.toNat]? = some call ∧
        c.blake3 data = c.blake3 call.hashed := by
  rw [RPack.verifyChunk, pack_chunkTable, List.getElem?_mapIdx]
  cases (chunkCalls ops)[chunkId.toNat]? with
  | none => simp
  | some call => simp [chunkHeader]

theorem verifyChunk_getChunk {chunkId : UInt32} {call : ChunkCall} {chunk : ChunkData}
    (hcall : (chunkCalls ops)[chunkId.toNat]? = some call)
    (hchunk : (pack c headerSize ops).getChunk chunkId = some chunk)
    (hblake3 : Set.InjOn c.blake3 {call.payload, call.hashed}) :
    (pack c headerSize ops).verifyChunk c chunkId chunk.payload = true ↔
      ∀ comp, call.compressed = some comp → comp = call.payload := by
  rw [RPack.getChunk, pack_chunkData, List.getElem?_mapIdx, hcall] at hchunk
  obtain rfl := Option.some.inj hchunk
  have hverify : (pack c headerSize ops).verifyChunk c chunkId call.payload = true ↔
      call.payload = call.hashed := by
    rw [verifyChunk_pack, hcall]
    simp only [Option.some.injEq, exists_eq_left']
    exact hblake3.eq_iff (.inl rfl) (.inr rfl)
  rw [hverify, ChunkCall.hashed]
  cases call.compressed with
  | none => exact iff_of_true rfl fun _ h => nomatch h
  | some comp =>
    constructor
    · rintro h _ ⟨⟩
      exact h.symm
    · exact fun h => (h comp rfl).symm

-- ---------------------------------------------------------------------------
-- Equal hashes
-- ---------------------------------------------------------------------------

/-- Two chunks with the same entry in the table: of a payload with compressed data only
the length is seen. -/
structure SameHashed (call call' : ChunkCall) : Prop where
  chunkType : call.chunkType = call'.chunkType
  compressed : call.compressed = call'.compressed
  length : UInt64.ofNat call.payload.length = UInt64.ofNat call'.payload.length
  payload : call.compressed = none → call.payload = call'.payload

/-- The runs differ in payloads only, and only in such as have compressed data. -/
structure Repacked (c : Crypto) (ops ops' : List BuilderOp) : Prop where
  header : (run c ops).header = (run c ops').header
  chunks : List.Forall₂ SameHashed (chunkCalls ops) (chunkCalls ops')
  differ : chunkCalls ops ≠ chunkCalls ops'

theorem SameHashed.hashed {call call' : ChunkCall} (h : SameHashed call call') :
    call.hashed = call'.hashed := by
  rw [ChunkCall.hashed, ChunkCall.hashed, ← h.compressed]
  cases hcompressed : call.compressed with
  | none => exact h.payload hcompressed
  | some comp => rfl

theorem compressed_eq_of_hashed {call call' : ChunkCall}
    (hsome : call.compressed.isSome = call'.compressed.isSome)
    (hhashed : call.hashed = call'.hashed) : call.compressed = call'.compressed ∧
      (call.compressed = none → call.payload = call'.payload) := by
  unfold ChunkCall.hashed at hhashed
  cases hcompressed : call.compressed with
  | none =>
    rw [hcompressed, Option.isSome_none, eq_comm, Option.isSome_eq_false_iff,
      Option.isNone_iff_eq_none] at hsome
    rw [hcompressed, hsome] at hhashed
    exact ⟨hsome.symm, fun _ => hhashed⟩
  | some comp =>
    rw [hcompressed, Option.isSome_some, eq_comm, Option.isSome_iff_exists] at hsome
    obtain ⟨comp', hcompressed'⟩ := hsome
    rw [hcompressed, hcompressed'] at hhashed
    exact ⟨(congrArg some hhashed).trans hcompressed'.symm, fun hnone => nomatch hnone⟩

theorem chunkHeader_eq_iff {inputs : Set (List UInt8)} (hblake3 : Set.InjOn c.blake3 inputs)
    (i : Nat) {call call' : ChunkCall} (hcall : call.hashed ∈ inputs)
    (hcall' : call'.hashed ∈ inputs) :
    chunkHeader c i call = chunkHeader c i call' ↔ SameHashed call call' := by
  constructor
  · intro h
    have hhashed := hblake3 hcall hcall' (congrArg ChunkHeader.contentHash h)
    have hsome : call.compressed.isSome = call'.compressed.isSome := by
      have hflags := congrArg ChunkHeader.flags h
      simp only [chunkHeader] at hflags
      cases hc : call.compressed.isSome <;> cases hc' : call'.compressed.isSome <;>
        simp [hc, hc'] at hflags ⊢
    obtain ⟨hcompressed, hpayload⟩ := compressed_eq_of_hashed hsome hhashed
    exact ⟨congrArg ChunkHeader.chunkType h, hcompressed,
      congrArg ChunkHeader.uncompressedSize h, hpayload⟩
  · intro h
    rw [chunkHeader, chunkHeader, h.chunkType, h.compressed, h.length, h.hashed]

theorem mapIdx_eq_iff_forall₂ {α β : Type} {f : Nat → α → β} {R : α → α → Prop}
    {l l' : List α} (h : ∀ i, ∀ a ∈ l, ∀ a' ∈ l', f i a = f i a' ↔ R a a') :
    l.mapIdx f = l'.mapIdx f ↔ List.Forall₂ R l l' := by
  induction l generalizing l' f with
  | nil => cases l' <;> simp
  | cons a l ih =>
    cases l' with
    | nil => simp
    | cons a' l' =>
      have htail : l.mapIdx (fun i => f (i + 1)) = l'.mapIdx (fun i => f (i + 1)) ↔
          List.Forall₂ R l l' :=
        ih fun i b hb b' hb' =>
          h (i + 1) b (List.mem_cons_of_mem a hb) b' (List.mem_cons_of_mem a' hb')
      rw [List.mapIdx_cons, List.mapIdx_cons, List.cons.injEq, List.forall₂_cons, htail,
        h 0 a List.mem_cons_self a' List.mem_cons_self]

theorem pack_totalUncompressedSize (ops : List BuilderOp) :
    (pack c headerSize ops).header.totalUncompressedSize =
      ((chunkCalls ops).map fun call => UInt64.ofNat call.payload.length).foldl (· + ·) 0 := by
  change ((pack c headerSize ops).chunkData.map fun data =>
    UInt64.ofNat data.payload.length).foldl (· + ·) 0 = _
  rw [pack_chunkData]
  exact congrArg (List.foldl (· + ·) 0) (List.ext_getElem? fun i => by simp [Function.comp_def])

theorem pack_header (ops : List BuilderOp) :
    (pack c headerSize ops).header = { (run c ops).header with
      chunkCount := UInt32.ofNat (chunkCalls ops).length
      totalUncompressedSize := (pack c headerSize ops).header.totalUncompressedSize
      chunkTableOffset := headerSize } := by
  have hlength : (run c ops).chunks.length = (chunkCalls ops).length := by
    rw [run_chunks, List.length_mapIdx]
  rw [← hlength]
  rfl

theorem SameHashed.lengths {calls calls' : List ChunkCall}
    (h : List.Forall₂ SameHashed calls calls') :
    calls.map (fun call => UInt64.ofNat call.payload.length) =
      calls'.map fun call => UInt64.ofNat call.payload.length := by
  induction h with
  | nil => rfl
  | cons hcall _ ih => rw [List.map_cons, List.map_cons, hcall.length, ih]

theorem pack_header_eq_iff (hchunks : List.Forall₂ SameHashed (chunkCalls ops) (chunkCalls ops')) :
    (pack c headerSize ops).header = (pack c headerSize ops').header ↔
      (run c ops).header = (run c ops').header := by
  constructor
  · intro h
    calc (run c ops).header = unbuilt (run c ops).header := (run_unbuilt ops).symm
      _ = unbuilt (pack c headerSize ops).header := rfl
      _ = unbuilt (pack c headerSize ops').header := by rw [h]
      _ = unbuilt (run c ops').header := rfl
      _ = (run c ops').header := run_unbuilt ops'
  · intro h
    rw [pack_header, pack_header ops', h, pack_totalUncompressedSize, pack_totalUncompressedSize,
      SameHashed.lengths hchunks, hchunks.length_eq]

theorem canonical_eq_iff (hblake3 : Set.InjOn c.blake3 (hashed c serialize headerSize ops ∪
    hashed c serialize headerSize ops')) :
    (pack c headerSize ops).canonical = (pack c headerSize ops').canonical ↔
      (run c ops).header = (run c ops').header ∧
        List.Forall₂ SameHashed (chunkCalls ops) (chunkCalls ops') := by
  have hcalls : (chunkCalls ops).mapIdx (chunkHeader c) =
      (chunkCalls ops').mapIdx (chunkHeader c) ↔
        List.Forall₂ SameHashed (chunkCalls ops) (chunkCalls ops') :=
    mapIdx_eq_iff_forall₂ fun i call hcall call' hcall' =>
      chunkHeader_eq_iff hblake3 i (.inl (.inr ⟨call, hcall, rfl⟩))
        (.inr (.inr ⟨call', hcall', rfl⟩))
  simp only [RPack.canonical, RPackCanonical.mk.injEq]
  rw [pack_chunkTable, pack_chunkTable, hcalls]
  exact and_congr_left fun hchunks => pack_header_eq_iff hchunks

end RPackBuilder

-- ---------------------------------------------------------------------------
-- The format
-- ---------------------------------------------------------------------------

def ChunkHeader.codec : Codec UInt8 ChunkHeader :=
  (u32.pair ((enumeration [ChunkType.sceneIR, .geometry, .texture, .shader, .animation, .metadata,
    .extension, .custom] (fun t => by cases t <;> simp) (by decide) (by decide)).pair
      (u16.pair (u64.pair (u64.pair ((bytes 32).pair u64)))))).record
    { toFun := fun h =>
        (h.chunkId, h.chunkType, h.flags, h.uncompressedSize, h.compressedSize, h.contentHash,
          h.dataOffset)
      invFun := fun p =>
        ⟨p.1, p.2.1, p.2.2.1, p.2.2.2.1, p.2.2.2.2.1, p.2.2.2.2.2.1, p.2.2.2.2.2.2⟩
      left_inv := fun _ => rfl
      right_inv := fun _ => rfl }

def RPackHeader.codec : Codec UInt8 RPackHeader :=
  (u32.pair (u32.pair ((bytes 32).pair ((bytes 32).pair (u64.pair (u32.pair (u64.pair
    ((Bincode.option (bytes 32)).pair u16)))))))).record
    { toFun := fun h =>
        (h.containerVersion, h.flags, h.sceneIrHash, h.metadataHash, h.chunkTableOffset,
          h.chunkCount, h.totalUncompressedSize, h.deterministicSeed, h.rendererProfileHint)
      invFun := fun p =>
        ⟨p.1, p.2.1, p.2.2.1, p.2.2.2.1, p.2.2.2.2.1, p.2.2.2.2.2.1, p.2.2.2.2.2.2.1,
          p.2.2.2.2.2.2.2.1, p.2.2.2.2.2.2.2.2⟩
      left_inv := fun _ => rfl
      right_inv := fun _ => rfl }

theorem ChunkHeader.fits_codec (header : ChunkHeader) : codec.Fits header := by simp [codec]

theorem RPackHeader.fits_codec (header : RPackHeader) : codec.Fits header := by simp [codec]

theorem ChunkHeader.length_write (header : ChunkHeader) : (codec.write header).length = 66 := by
  have hu16 (x : UInt16) : (u16.write x).length = 2 := Bytes.length_toLe 2 _
  have hu32 (x : UInt32) : (u32.write x).length = 4 := Bytes.length_toLe 4 _
  have hu64 (x : UInt64) : (u64.write x).length = 8 := Bytes.length_toLe 8 _
  have hbytes (a : Bytes 32) : ((bytes 32).write a).length = 32 := a.property
  simp only [codec, Codec.write_record, Codec.write_pair, Equiv.coe_fn_mk, List.length_append,
    hu16, hu32, hu64, hbytes]
  rfl

namespace RPackCanonical

def write (canonical : RPackCanonical) : List UInt8 :=
  RPackHeader.codec.write canonical.header ++ (vec ChunkHeader.codec).write canonical.chunkTable

theorem injective_write : Function.Injective write := by
  rintro ⟨header, table⟩ ⟨header', table'⟩ h
  obtain ⟨rfl, h⟩ := Codec.write_append_inj (RPackHeader.fits_codec header)
    (RPackHeader.fits_codec header') h
  have hsize (table : List ChunkHeader) :
      (table.flatMap ChunkHeader.codec.write).length = 66 * table.length := by
    simp [List.length_flatMap, ChunkHeader.length_write, Nat.mul_comm]
  have hlen (n : Nat) : (len.write n).length = 8 := Bytes.length_toLe 8 n
  have htable : table.flatMap ChunkHeader.codec.write = table'.flatMap ChunkHeader.codec.write :=
    (List.append_inj h (by rw [hlen, hlen])).2
  have hcount : table.length = table'.length := by
    have := congrArg List.length htable
    rw [hsize, hsize] at this
    omega
  have hread (table : List ChunkHeader) := Codec.readMany_flatMap
    (fun header (_ : header ∈ table) => ChunkHeader.fits_codec header) []
  have hsame := (hread table).symm.trans (by rw [htable, hcount, hread table'])
  cases hsame
  rfl

end RPackCanonical

/-- The same header, and in every place a chunk of the same type with the same payload. -/
structure RPack.SameContent (pack pack' : RPack) : Prop where
  header : pack.header = pack'.header
  chunkType : ∀ i : Nat, pack.chunkTable[i]?.map ChunkHeader.chunkType =
    pack'.chunkTable[i]?.map ChunkHeader.chunkType
  payload : ∀ i : Nat, pack.chunkData[i]?.map ChunkData.payload =
    pack'.chunkData[i]?.map ChunkData.payload

namespace RPackBuilder

variable {c : Crypto} {headerSize : HeaderSize} {ops ops' : List BuilderOp}

theorem SameHashed.calls_eq {calls calls' : List ChunkCall}
    (h : List.Forall₂ SameHashed calls calls')
    (hpayload : calls.map ChunkCall.payload = calls'.map ChunkCall.payload) : calls = calls' := by
  induction h with
  | nil => rfl
  | @cons call call' calls calls' hcall _ ih =>
    rw [List.map_cons, List.map_cons, List.cons.injEq] at hpayload
    obtain rfl := ih hpayload.2
    cases call
    cases call'
    obtain rfl := hcall.chunkType
    obtain rfl := hcall.compressed
    obtain rfl := hpayload.1
    rfl

theorem sameContent_iff (hchunks : List.Forall₂ SameHashed (chunkCalls ops) (chunkCalls ops'))
    (hheader : (run c ops).header = (run c ops').header) :
    (pack c headerSize ops).SameContent (pack c headerSize ops') ↔
      chunkCalls ops = chunkCalls ops' := by
  have hpayload (ops : List BuilderOp) (i : Nat) :
      (pack c headerSize ops).chunkData[i]?.map ChunkData.payload =
        ((chunkCalls ops).map ChunkCall.payload)[i]? := by
    rw [pack_chunkData, List.getElem?_mapIdx, List.getElem?_map, Option.map_map]
    rfl
  constructor
  · intro h
    refine SameHashed.calls_eq hchunks (List.ext_getElem? fun i => ?_)
    rw [← hpayload, ← hpayload, h.payload]
  · intro h
    refine ⟨(pack_header_eq_iff hchunks).mpr hheader, fun i => ?_, fun i => ?_⟩
    · rw [pack_chunkTable, pack_chunkTable, h]
    · rw [hpayload, hpayload, h]

/-- As long as `blake3` does not collide on what two runs hash, their packs are told apart
by the hash just when the runs do not put different payloads behind the same compressed
data, all else alike. -/
theorem container_hash_binds_iff (c : Crypto) (serialize : RPackCanonical → List UInt8)
    (hserialize : Function.Injective serialize) (headerSize : HeaderSize)
    (ops ops' : List BuilderOp)
    (hblake3 : Set.InjOn c.blake3
      (hashed c serialize headerSize ops ∪ hashed c serialize headerSize ops')) :
    ((pack c headerSize ops).computeContainerHash c serialize =
        (pack c headerSize ops').computeContainerHash c serialize →
      (pack c headerSize ops).SameContent (pack c headerSize ops')) ↔ ¬ Repacked c ops ops' := by
  rw [RPack.computeContainerHash, RPack.computeContainerHash,
    hblake3.eq_iff (.inl (.inl rfl)) (.inr (.inl rfl)), hserialize.eq_iff,
    canonical_eq_iff hblake3]
  constructor
  · rintro h ⟨hheader, hchunks, hdiffer⟩
    exact hdiffer ((sameContent_iff hchunks hheader).mp (h ⟨hheader, hchunks⟩))
  · rintro h ⟨hheader, hchunks⟩
    exact (sameContent_iff hchunks hheader).mpr
      (not_not.mp fun hdiffer => h ⟨hheader, hchunks, hdiffer⟩)

theorem hashed_addChunk (call : ChunkCall) : hashed c serialize headerSize [.addChunk call] =
    {serialize (pack c headerSize [.addChunk call]).canonical, call.hashed} := by
  simp only [hashed, chunkCalls, List.filterMap_cons, BuilderOp.call?, List.filterMap_nil,
    List.mem_singleton, exists_eq_left, Set.ofPred_eq_eq_singleton]

/-- Two plain chunks; byte 129 of what a pack hashes is the first of the content hash. -/
theorem container_hash_binds_iff_plain :
    let c : Crypto :=
      { blake3 := fun bytes => .fill 32 (bytes.getD 129 100 + bytes.getD 0 0)
        ed25519Verify := fun _ _ _ => true }
    let ops := [BuilderOp.addChunk ⟨.texture, [10], none⟩]
    let ops' := [BuilderOp.addChunk ⟨.texture, [20], none⟩]
    ((pack c 128 ops).computeContainerHash c RPackCanonical.write =
        (pack c 128 ops').computeContainerHash c RPackCanonical.write →
      (pack c 128 ops).SameContent (pack c 128 ops')) ↔ ¬ Repacked c ops ops' := by
  intro c ops ops'
  refine container_hash_binds_iff c _ RPackCanonical.injective_write 128 ops ops' ?_
  rw [hashed_addChunk, hashed_addChunk]
  rintro a ((rfl | rfl) | (rfl | rfl)) b ((rfl | rfl) | (rfl | rfl)) heq
  case inl.inl.inl.inl => rfl
  case inl.inr.inl.inr => rfl
  case inr.inl.inr.inl => rfl
  case inr.inr.inr.inr => rfl
  all_goals exact absurd heq (by decide +kernel)

/-- Two packs of one chunk each, with different payloads and the same compressed data. -/
theorem container_hash_binds_fails :
    ¬ ∃ (c : Crypto) (serialize : RPackCanonical → List UInt8) (headerSize : HeaderSize),
      ∀ ops ops' : List BuilderOp,
        (pack c headerSize ops).computeContainerHash c serialize =
          (pack c headerSize ops').computeContainerHash c serialize →
        (pack c headerSize ops).SameContent (pack c headerSize ops') := by
  rintro ⟨c, serialize, headerSize, h⟩
  have hsame := h [.addChunk ⟨.texture, [1], some [2]⟩] [.addChunk ⟨.texture, [3], some [2]⟩] rfl
  have hpayload : some [(1 : UInt8)] = some [3] := hsame.payload 0
  exact absurd hpayload (by decide)

end RPackBuilder

end LiteVision.Rpack
