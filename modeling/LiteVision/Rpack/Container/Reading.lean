import LiteVision.Rpack.Container.Commitment

/-!
# Reading packs

`parse_header` looks for a header behind the magic bytes, in as many bytes as a header
takes in memory. The queries of a pack find what was added to its builder, and its flags
say what was switched on.
-/

namespace LiteVision.Rpack

open Lib

namespace RPackHeader

def isCompressed (header : RPackHeader) : Bool := header.flags &&& 0x01 ≠ 0

def isEncrypted (header : RPackHeader) : Bool := header.flags &&& 0x02 ≠ 0

def allowsStreaming (header : RPackHeader) : Bool := header.flags &&& 0x04 ≠ 0

def isDeterministicMode (header : RPackHeader) : Bool := header.flags &&& 0x08 ≠ 0

end RPackHeader

namespace RPack

def magicBytes : Bytes 8 := ⟨[0x52, 0x50, 0x41, 0x43, 0x4B, 0x00, 0x01, 0x00], rfl⟩

def validateMagic (data : List UInt8) : Bool := 8 ≤ data.length ∧ data.take 8 = magicBytes.val

def parseHeader (bincode : Codec UInt8 RPackHeader) (headerSize : HeaderSize)
    (data : List UInt8) : Option RPackHeader :=
  if ¬ validateMagic data then none
  else if data.length < 8 + headerSize.toNat then none
  else bincode.decode ((data.drop 8).take headerSize.toNat)

def getChunksByType (pack : RPack) (chunkType : ChunkType) : List ChunkData :=
  (pack.chunkTable.filter fun header => header.chunkType = chunkType).filterMap fun header =>
    pack.chunkData[header.chunkId.toNat]?

def isStreamable (pack : RPack) : Bool := pack.header.allowsStreaming

-- ---------------------------------------------------------------------------
-- Headers
-- ---------------------------------------------------------------------------

theorem validateMagic_iff {data : List UInt8} :
    validateMagic data = true ↔ magicBytes.val <+: data := by
  have hlength : magicBytes.val.length = 8 := rfl
  rw [validateMagic, decide_eq_true_iff, List.prefix_iff_eq_take, hlength]
  constructor
  · rintro ⟨-, htake⟩
    exact htake.symm
  · intro htake
    refine ⟨?_, htake.symm⟩
    have := congrArg List.length htake
    rw [hlength, List.length_take] at this
    omega

variable {bincode : Codec UInt8 RPackHeader} {headerSize : HeaderSize} {header : RPackHeader}

/-- A header is parsed just where the bytes of a file start with the magic bytes and the
header, the file is long enough for a header in memory, and that is long enough for the
header as it is written. -/
theorem parseHeader_eq_some_iff {data : List UInt8} :
    parseHeader bincode headerSize data = some header ↔ bincode.Fits header ∧
      magicBytes.val ++ bincode.write header <+: data ∧ 8 + headerSize.toNat ≤ data.length ∧
        (bincode.write header).length ≤ headerSize.toNat := by
  unfold parseHeader
  split
  · rename_i hmagic
    rw [validateMagic_iff] at hmagic
    refine iff_of_false nofun fun h => hmagic ?_
    exact (List.prefix_append _ _).trans h.2.1
  · rename_i hmagic
    rw [not_not, validateMagic_iff] at hmagic
    obtain ⟨data, rfl⟩ := hmagic
    rw [List.drop_left' magicBytes.property, List.length_append, Bytes.length_val]
    split
    · rename_i hshort
      exact iff_of_false nofun fun h => by omega
    · rename_i hlong
      rw [Codec.decode_eq_some_iff, List.prefix_append_right_inj, List.prefix_take_iff]
      refine and_congr_right fun _ => ?_
      constructor
      · rintro ⟨hstart, hsize⟩
        exact ⟨hstart, by omega, hsize⟩
      · rintro ⟨hstart, -, hsize⟩
        exact ⟨hstart, hsize⟩

/-- A header that is written behind the magic bytes is parsed again, if enough bytes follow;
with too few bytes, or if a header in memory is too short, nothing is parsed. -/
theorem parseHeader_write (bincode : Codec UInt8 RPackHeader) (headerSize : HeaderSize)
    (header : RPackHeader) (hfits : bincode.Fits header) (rest : List UInt8) :
    parseHeader bincode headerSize (magicBytes.val ++ (bincode.write header ++ rest)) =
      if (bincode.write header).length ≤ headerSize.toNat ∧
        headerSize.toNat ≤ (bincode.write header).length + rest.length then some header
      else none := by
  have hlength : (magicBytes.val ++ (bincode.write header ++ rest)).length =
      8 + ((bincode.write header).length + rest.length) := by
    rw [List.length_append, List.length_append, Bytes.length_val]
  split
  · rename_i h
    rw [parseHeader_eq_some_iff, hlength, ← List.append_assoc]
    exact ⟨hfits, List.prefix_append _ rest, by omega, h.1⟩
  · rename_i h
    rw [Option.eq_none_iff_forall_ne_some]
    intro header' hparse
    obtain ⟨hfits', ⟨tail, hstart⟩, hlong, hsize⟩ := parseHeader_eq_some_iff.mp hparse
    rw [hlength] at hlong
    rw [List.append_assoc, List.append_cancel_left_eq] at hstart
    -- the two headers stand at the front of the same bytes
    obtain ⟨rfl, -⟩ := Codec.write_append_inj hfits' hfits hstart
    exact h ⟨hsize, by omega⟩

/-- A header without a seed takes 95 bytes, and 128 of them in memory. -/
theorem parseHeader_write_short :
    let bytes := magicBytes.val ++ RPackHeader.codec.write .new
    parseHeader RPackHeader.codec 128 (bytes ++ List.replicate 32 0) = none ∧
      parseHeader RPackHeader.codec 128 (bytes ++ List.replicate 33 0) = some .new := by
  intro bytes
  have hlength : (RPackHeader.codec.write .new).length = 95 := by decide
  have hparse (n : Nat) := parseHeader_write RPackHeader.codec 128 .new
    (RPackHeader.fits_codec .new) (List.replicate n 0)
  rw [List.append_assoc, List.append_assoc, hparse, hparse, hlength]
  decide

end RPack

-- ---------------------------------------------------------------------------
-- What a run leaves to be read
-- ---------------------------------------------------------------------------

def BuilderOp.flags : BuilderOp → UInt32
  | .withDeterministicSeed _ => 0x08
  | .withCompression true => 0x01
  | .withEncryption true => 0x02
  | .withStreaming true => 0x04
  | .withCompression false | .withEncryption false | .withStreaming false
  | .withRendererProfileHint _ | .addChunk _ => 0

def BuilderOp.seed? : BuilderOp → Option (Bytes 32)
  | .withDeterministicSeed seed => some seed
  | .withCompression _ | .withEncryption _ | .withStreaming _ | .withRendererProfileHint _
  | .addChunk _ => none

namespace RPackBuilder

variable {c : Crypto} {headerSize : HeaderSize} {ops : List BuilderOp}

theorem step_flags (builder : RPackBuilder) (op : BuilderOp) :
    (builder.step c op).header.flags = builder.header.flags ||| op.flags := by
  have hzero (a : UInt32) : a = a ||| 0 := (UInt32.or_zero ..).symm
  cases op with
  | withDeterministicSeed seed => rfl
  | withCompression compressed =>
    cases compressed with
    | false => exact hzero _
    | true => rfl
  | withEncryption encrypted =>
    cases encrypted with
    | false => exact hzero _
    | true => rfl
  | withStreaming allowed =>
    cases allowed with
    | false => exact hzero _
    | true => rfl
  | withRendererProfileHint profile => exact hzero _
  | addChunk call => exact hzero _

theorem or_and_ne_zero (a b bit : UInt32) :
    (a ||| b) &&& bit ≠ 0 ↔ a &&& bit ≠ 0 ∨ b &&& bit ≠ 0 := by
  have hdistrib : (a ||| b) &&& bit = (a &&& bit) ||| (b &&& bit) :=
    UInt32.toBitVec_inj.mp BitVec.and_or_distrib_right
  rw [hdistrib, ne_eq, UInt32.or_eq_zero_iff, not_and_or]

theorem run_flags (ops : List BuilderOp) (bit : UInt32) :
    (run c ops).header.flags &&& bit ≠ 0 ↔ ∃ op ∈ ops, op.flags &&& bit ≠ 0 := by
  induction ops using List.reverseRecOn with
  | nil => simp [run, new, RPackHeader.new]
  | append_singleton ops op ih =>
    rw [run, Trace.exec_concat, ← run, step_flags, or_and_ne_zero, ih]
    simp [or_and_right, exists_or]

theorem flags_and_switch {op switch : BuilderOp}
    (hswitch : switch ∈ [.withCompression true, .withEncryption true, .withStreaming true]) :
    op.flags &&& switch.flags ≠ 0 ↔ op = switch := by
  simp only [List.mem_cons, List.not_mem_nil, or_false] at hswitch
  rcases op with _ | ⟨_ | _⟩ | ⟨_ | _⟩ | ⟨_ | _⟩ | _ | _ <;>
    rcases hswitch with rfl | rfl | rfl <;> simp [BuilderOp.flags] <;> decide

theorem flags_and_eight {op : BuilderOp} : op.flags &&& 0x08 ≠ 0 ↔ op.seed?.isSome := by
  rcases op with _ | ⟨_ | _⟩ | ⟨_ | _⟩ | ⟨_ | _⟩ | _ | _ <;>
    simp [BuilderOp.flags, BuilderOp.seed?] <;> decide

theorem step_seed (builder : RPackBuilder) (op : BuilderOp) :
    (builder.step c op).header.deterministicSeed =
      op.seed?.or builder.header.deterministicSeed := by
  cases op with
  | withDeterministicSeed seed => rfl
  | withCompression compressed => cases compressed <;> rfl
  | withEncryption encrypted => cases encrypted <;> rfl
  | withStreaming allowed => cases allowed <;> rfl
  | withRendererProfileHint profile => rfl
  | addChunk call => rfl

theorem run_seed (ops : List BuilderOp) :
    (run c ops).header.deterministicSeed = (ops.filterMap BuilderOp.seed?).getLast? := by
  induction ops using List.reverseRecOn with
  | nil => rfl
  | append_singleton ops op ih =>
    rw [run, Trace.exec_concat, ← run, step_seed, ih, List.filterMap_append]
    cases hseed : op.seed? with
    | none => simp [hseed]
    | some seed => simp [hseed]

/-- A built pack says of its flags and of its seed what the calls of its builder said: a flag
is set if some call switched it on, and the seed is the last one given. -/
theorem pack_switches (c : Crypto) (headerSize : HeaderSize) (ops : List BuilderOp) :
    let header := (pack c headerSize ops).header
    (header.isCompressed = true ↔ .withCompression true ∈ ops) ∧
    (header.isEncrypted = true ↔ .withEncryption true ∈ ops) ∧
    ((pack c headerSize ops).isStreamable = true ↔ .withStreaming true ∈ ops) ∧
    (header.isDeterministicMode = true ↔ header.deterministicSeed.isSome) ∧
    header.deterministicSeed = (ops.filterMap BuilderOp.seed?).getLast? := by
  have hflag (bit : UInt32) : (pack c headerSize ops).header.flags &&& bit ≠ 0 ↔
      ∃ op ∈ ops, op.flags &&& bit ≠ 0 := run_flags ops bit
  have hseed : (pack c headerSize ops).header.deterministicSeed =
      (ops.filterMap BuilderOp.seed?).getLast? := run_seed ops
  have hswitch (switch : BuilderOp)
      (h : switch ∈ [.withCompression true, .withEncryption true, .withStreaming true]) :
      (pack c headerSize ops).header.flags &&& switch.flags ≠ 0 ↔ switch ∈ ops := by
    simp only [hflag, flags_and_switch h, exists_eq_right]
  have hmode : (∃ op ∈ ops, op.flags &&& 0x08 ≠ 0) ↔
      (ops.filterMap BuilderOp.seed?).getLast?.isSome := by
    simp only [flags_and_eight, Option.isSome_iff_ne_none, ne_eq, List.getLast?_eq_none_iff,
      List.filterMap_eq_nil_iff, not_forall, exists_prop]
  simp only [RPackHeader.isCompressed, RPackHeader.isEncrypted, RPack.isStreamable,
    RPackHeader.allowsStreaming, RPackHeader.isDeterministicMode, decide_eq_true_iff]
  exact ⟨hswitch (.withCompression true) (by simp), hswitch (.withEncryption true) (by simp),
    hswitch (.withStreaming true) (by simp), by rw [hflag, hmode, hseed], hseed⟩

-- the ids of the chunks are their places, as long as a word can tell these apart
theorem lookup_chunkHeader {i : Nat} {call : ChunkCall} (hcount : (chunkCalls ops).length ≤ 2 ^ 32)
    (hcall : (chunkCalls ops)[i]? = some call) :
    (pack c headerSize ops).chunkData[(chunkHeader c i call).chunkId.toNat]? =
      some ⟨UInt32.ofNat i, call.payload⟩ := by
  have hi := (List.getElem?_eq_some_iff.mp hcall).1
  have hlt : i < UInt32.size := Nat.lt_of_lt_of_le hi hcount
  have hid : (chunkHeader c i call).chunkId.toNat = i := UInt32.toNat_ofNat_of_lt' hlt
  rw [hid, pack_chunkData, List.getElem?_mapIdx, hcall]
  rfl

/-- A built pack gives back what was added to its builder: by its id each payload, and by a
type those that were added with it, in the order in which they were added. -/
theorem pack_contents (c : Crypto) (headerSize : HeaderSize) (ops : List BuilderOp)
    (hcount : (chunkCalls ops).length ≤ 2 ^ 32) :
    (∀ chunkId, (pack c headerSize ops).getChunk chunkId =
      (chunkCalls ops)[chunkId.toNat]?.map fun call => ⟨chunkId, call.payload⟩) ∧
    ∀ chunkType, (pack c headerSize ops).getChunksByType chunkType =
      (chunkCalls ops).zipIdx.filterMap fun added =>
        if added.1.chunkType = chunkType then some ⟨.ofNat added.2, added.1.payload⟩ else none := by
  constructor
  · intro chunkId
    rw [RPack.getChunk, pack_chunkData, List.getElem?_mapIdx, UInt32.ofNat_toNat]
  · intro chunkType
    rw [RPack.getChunksByType, List.filterMap_filter, pack_chunkTable, List.mapIdx_eq_zipIdx_map,
      List.filterMap_map]
    refine List.filterMap_congr fun added hadded => ?_
    have hcall := List.mem_zipIdx_iff_getElem?.mp hadded
    simp only [Function.comp_apply, decide_eq_true_iff, lookup_chunkHeader hcount hcall]
    rfl

/-- Two chunks of one type, and one of another between them. -/
theorem pack_contents_three :
    let c : Crypto :=
      { blake3 := fun bytes => .fill 32 (bytes.getD 0 0), ed25519Verify := fun _ _ _ => true }
    let ops := [.addChunk ⟨.sceneIR, [1], none⟩, .addChunk ⟨.geometry, [2], none⟩,
      .addChunk ⟨.sceneIR, [3], some [4]⟩]
    (pack c 128 ops).getChunksByType .sceneIR = [⟨0, [1]⟩, ⟨2, [3]⟩] := by
  intro c ops
  exact (pack_contents c 128 ops (by decide)).2 .sceneIR

end RPackBuilder

end LiteVision.Rpack
