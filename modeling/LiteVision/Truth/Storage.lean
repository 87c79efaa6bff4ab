import LiteVision.Lib.History
import LiteVision.Truth.Block.Hash

/-!
# Storage on disk

`Storage` of `storage.rs`: a state, blocks and snapshots in memory, written to the files of
a data directory and read back from them. Blocks are written one a file, with an index of
their heights; files that the index does not list stay where they are. What a file holds is
left to `Formats`: JSON for state, index and snapshots, `bincode` for blocks.
-/

namespace LiteVision.Truth

open Lib

structure Snapshot where
  height : UInt64
  stateRoot : Bytes 32
  blockHash : Bytes 32
  deriving DecidableEq

structure Storage where
  state : State
  blocks : Map UInt64 Block
  snapshots : List Snapshot
  archivalHeight : UInt64
  pruneHeight : UInt64
  /-- Empty if none is set. -/
  dataDir : String

/-- The three cases that wrap another error keep none of its text. -/
inductive StorageError where
  | io
  | serialization
  | bincode
  | stateNotFound
  | blockNotFound (height : UInt64)
  deriving DecidableEq

inductive FileName where
  | state
  | block (height : UInt64)
  | blockIndex
  | snapshots
  deriving DecidableEq

/-- The files, by directory and name. -/
abbrev Disk := Map (String × FileName) (List UInt8)

/-- `serde_json`: what a write leaves in a file, and whether it succeeds. -/
structure Json (α : Type) where
  write : α → List UInt8 × Bool
  read : List UInt8 → Option α

structure Formats where
  state : Json State
  block : Codec UInt8 Block
  index : Json (List UInt64)
  snapshots : Json (List Snapshot)

namespace Storage

def new : Storage where
  state := .new
  blocks := .empty
  snapshots := []
  archivalHeight := 10000
  pruneHeight := 1000
  dataDir := ""

def withDataDir (s : Storage) (dataDir : String) : Storage := { s with dataDir }

def hasDataDir (s : Storage) : Bool := !s.dataDir.isEmpty

-- ---------------------------------------------------------------------------
-- Writing
-- ---------------------------------------------------------------------------

/-- The outcome of a write to a file that is truncated first. -/
def writeJson {α : Type} (json : Json α) (path : String × FileName) (value : α) (disk : Disk) :
    Except StorageError Unit × Disk :=
  let (data, written) := json.write value
  (if written then .ok () else .error .serialization, disk.insert path data)

def saveState (fmt : Formats) (s : Storage) (disk : Disk) : Except StorageError Unit × Disk :=
  if ¬ s.hasDataDir then (.error .io, disk)
  else writeJson fmt.state (s.dataDir, .state) s.state disk

def writeAll (disk : Disk) (files : List ((String × FileName) × List UInt8)) : Disk :=
  files.foldl (fun disk file => disk.insert file.1 file.2) disk

def blockFiles (fmt : Formats) (it : Map.Iteration UInt64 Block) (s : Storage) :
    List ((String × FileName) × List UInt8) :=
  (it.entries s.blocks).map fun entry => ((s.dataDir, .block entry.1), fmt.block.write entry.2)

def index (it : Map.Iteration UInt64 Block) (s : Storage) : List UInt64 :=
  (it.entries s.blocks).map Prod.fst

def saveBlocks (fmt : Formats) (it : Map.Iteration UInt64 Block) (s : Storage) (disk : Disk) :
    Except StorageError Unit × Disk :=
  if ¬ s.hasDataDir then (.error .io, disk)
  else writeJson fmt.index (s.dataDir, .blockIndex) (s.index it)
    (writeAll disk (s.blockFiles fmt it))

def saveSnapshots (fmt : Formats) (s : Storage) (disk : Disk) : Except StorageError Unit × Disk :=
  if ¬ s.hasDataDir then (.error .io, disk)
  else writeJson fmt.snapshots (s.dataDir, .snapshots) s.snapshots disk

def persist (fmt : Formats) (it : Map.Iteration UInt64 Block) (s : Storage) (disk : Disk) :
    Except StorageError Unit × Disk :=
  match s.saveState fmt disk with
  | (.error e, disk) => (.error e, disk)
  | (.ok (), disk) =>
    match s.saveBlocks fmt it disk with
    | (.error e, disk) => (.error e, disk)
    | (.ok (), disk) => s.saveSnapshots fmt disk

-- ---------------------------------------------------------------------------
-- Reading
-- ---------------------------------------------------------------------------

def loadState (fmt : Formats) (disk : Disk) (s : Storage) : Except StorageError Unit × Storage :=
  if ¬ s.hasDataDir then (.error .io, s)
  else match disk.get (s.dataDir, .state) with
    | none => (.error .stateNotFound, s)
    | some data =>
      match fmt.state.read data with
      | none => (.error .serialization, s)
      | some state => (.ok (), { s with state })

/-- The loop of `load_blocks`: what was read before an error stays. -/
def readBlocks (fmt : Formats) (disk : Disk) (s : Storage) :
    List UInt64 → Except StorageError Unit × Storage
  | [] => (.ok (), s)
  | height :: heights =>
    match disk.get (s.dataDir, .block height) with
    | none => readBlocks fmt disk s heights
    | some data =>
      match fmt.block.decode data with
      | none => (.error .bincode, s)
      | some block => readBlocks fmt disk { s with blocks := s.blocks.insert height block } heights

def loadBlocks (fmt : Formats) (disk : Disk) (s : Storage) : Except StorageError Unit × Storage :=
  if ¬ s.hasDataDir then (.error .io, s)
  else match disk.get (s.dataDir, .blockIndex) with
    | none => (.ok (), s)
    | some data =>
      match fmt.index.read data with
      | none => (.error .serialization, s)
      | some heights => readBlocks fmt disk s heights

def loadSnapshots (fmt : Formats) (disk : Disk) (s : Storage) :
    Except StorageError Unit × Storage :=
  if ¬ s.hasDataDir then (.error .io, s)
  else match disk.get (s.dataDir, .snapshots) with
    | none => (.ok (), s)
    | some data =>
      match fmt.snapshots.read data with
      | none => (.error .serialization, s)
      | some snapshots => (.ok (), { s with snapshots })

def load (fmt : Formats) (disk : Disk) (s : Storage) : Except StorageError Unit × Storage :=
  match s.loadState fmt disk with
  | (.error e, s) => (.error e, s)
  | (.ok (), s) =>
    match s.loadBlocks fmt disk with
    | (.error e, s) => (.error e, s)
    | (.ok (), s) => s.loadSnapshots fmt disk

def loadOrCreate (fmt : Formats) (disk : Disk) (s : Storage) :
    Except StorageError Unit × Storage :=
  match s.load fmt disk with
  | (.ok (), s) => (.ok (), s)
  | (.error .stateNotFound, s) => (.ok (), { s with state := .new })
  | (.error e, s) => (.error e, s)

-- ---------------------------------------------------------------------------
-- In memory
-- ---------------------------------------------------------------------------

def storeBlock (s : Storage) (block : Block) : Storage :=
  { s with blocks := s.blocks.insert block.header.height block }

def getBlock (s : Storage) (height : UInt64) : Option Block := s.blocks.get height

def createSnapshot (s : Storage) (height : UInt64) (stateRoot blockHash : Bytes 32) : Storage :=
  let snapshots := s.snapshots ++ [⟨height, stateRoot, blockHash⟩]
  { s with snapshots := if snapshots.length > 100 then snapshots.drop 1 else snapshots }

def prune (s : Storage) (keepHeight : UInt64) : Storage :=
  { s with blocks := s.blocks.retain fun height _ => height ≥ keepHeight }

/-- `none` is the overflow of a subtraction in a debug build. -/
def canPrune (s : Storage) (height : UInt64) : Option Bool :=
  match s.snapshots.getLast? with
  | none => some false
  | some snapshot =>
    if ¬ height < snapshot.height then some false
    else if snapshot.height < s.pruneHeight then none
    else some (height < snapshot.height - s.pruneHeight)

end Storage

end LiteVision.Truth
