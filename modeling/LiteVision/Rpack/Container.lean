import LiteVision.Bytes

/-!
# Resource packs

`RPackBuilder` collects chunks and builds a pack of them. The hash of the pack is of its
header and of the chunk table, so a payload counts only through the hash that the table
has for it. For a chunk that comes with compressed data that is the hash of these, while
the pack keeps the payload.
-/

namespace LiteVision.Rpack

/-- A layout in memory is the compiler's choice: its size comes from outside. -/
abbrev HeaderSize := UInt64

structure RPackHeader where
  containerVersion : UInt32
  flags : UInt32
  sceneIrHash : Bytes 32
  metadataHash : Bytes 32
  chunkTableOffset : UInt64
  chunkCount : UInt32
  totalUncompressedSize : UInt64
  deterministicSeed : Option (Bytes 32)
  rendererProfileHint : UInt16
  deriving DecidableEq

def RPackHeader.new : RPackHeader where
  containerVersion := 1
  flags := 0
  sceneIrHash := .fill 32 0
  metadataHash := .fill 32 0
  chunkTableOffset := 0
  chunkCount := 0
  totalUncompressedSize := 0
  deterministicSeed := none
  rendererProfileHint := 0

inductive ChunkType where
  | sceneIR
  | geometry
  | texture
  | shader
  | animation
  | metadata
  | extension
  | custom
  deriving DecidableEq

structure ChunkHeader where
  chunkId : UInt32
  chunkType : ChunkType
  flags : UInt16
  uncompressedSize : UInt64
  compressedSize : UInt64
  contentHash : Bytes 32
  dataOffset : UInt64
  deriving DecidableEq

structure ChunkData where
  chunkId : UInt32
  payload : List UInt8
  deriving DecidableEq

structure RPack where
  header : RPackHeader
  chunkTable : List ChunkHeader
  chunkData : List ChunkData
  deriving DecidableEq

-- ---------------------------------------------------------------------------
-- The builder
-- ---------------------------------------------------------------------------

structure RPackBuilder where
  header : RPackHeader
  chunks : List (ChunkHeader × List UInt8)

namespace RPackBuilder

def new : RPackBuilder where
  header := .new
  chunks := []

def withDeterministicSeed (builder : RPackBuilder) (seed : Bytes 32) : RPackBuilder :=
  { builder with
    header := { builder.header with
      deterministicSeed := some seed
      flags := builder.header.flags ||| 0x08 } }

/-- What the three switches do: they set a flag, and never clear it. -/
def withFlag (builder : RPackBuilder) (flag : UInt32) (switch : Bool) : RPackBuilder :=
  if switch then
    { builder with header := { builder.header with flags := builder.header.flags ||| flag } }
  else builder

def withCompression (builder : RPackBuilder) (compressed : Bool) : RPackBuilder :=
  builder.withFlag 0x01 compressed

def withEncryption (builder : RPackBuilder) (encrypted : Bool) : RPackBuilder :=
  builder.withFlag 0x02 encrypted

def withStreaming (builder : RPackBuilder) (allowed : Bool) : RPackBuilder :=
  builder.withFlag 0x04 allowed

def withRendererProfileHint (builder : RPackBuilder) (profile : UInt16) : RPackBuilder :=
  { builder with header := { builder.header with rendererProfileHint := profile } }

def addChunk (c : Crypto) (builder : RPackBuilder) (chunkType : ChunkType)
    (payload : List UInt8) (compressed : Option (List UInt8)) : UInt32 × RPackBuilder :=
  let chunkId := UInt32.ofNat builder.chunks.length
  let uncompressedSize := UInt64.ofNat payload.length
  let chunkHeader : ChunkHeader :=
    { chunkId := chunkId
      chunkType := chunkType
      flags := if compressed.isSome then 1 else 0
      uncompressedSize := uncompressedSize
      compressedSize := compressed.elim uncompressedSize fun comp => UInt64.ofNat comp.length
      contentHash := compressed.elim (c.blake3 payload) c.blake3
      dataOffset := 0 }
  (chunkId, { builder with chunks := builder.chunks ++ [(chunkHeader, payload)] })

def build (headerSize : HeaderSize) (builder : RPackBuilder) : RPack :=
  let chunkData := builder.chunks.mapIdx fun i chunk => ChunkData.mk (UInt32.ofNat i) chunk.2
  { header := { builder.header with
      chunkCount := UInt32.ofNat builder.chunks.length
      totalUncompressedSize :=
        (chunkData.map fun data => UInt64.ofNat data.payload.length).foldl (· + ·) 0
      chunkTableOffset := headerSize }
    chunkTable := builder.chunks.map Prod.fst
    chunkData := chunkData }

end RPackBuilder

-- ---------------------------------------------------------------------------
-- Hashes
-- ---------------------------------------------------------------------------

/-- What is serialized for the hash of a pack. -/
structure RPackCanonical where
  header : RPackHeader
  chunkTable : List ChunkHeader
  deriving DecidableEq

namespace RPack

def canonical (pack : RPack) : RPackCanonical where
  header := pack.header
  chunkTable := pack.chunkTable

/-- `serialize` is `bincode::serialize`. -/
def computeContainerHash (c : Crypto) (serialize : RPackCanonical → List UInt8) (pack : RPack) :
    Bytes 32 := c.blake3 (serialize pack.canonical)

def verifyChunk (c : Crypto) (pack : RPack) (chunkId : UInt32) (data : List UInt8) : Bool :=
  match pack.chunkTable[chunkId.toNat]? with
  | some header => c.blake3 data = header.contentHash
  | none => false

def getChunk (pack : RPack) (chunkId : UInt32) : Option ChunkData :=
  pack.chunkData[chunkId.toNat]?

end RPack

end LiteVision.Rpack
