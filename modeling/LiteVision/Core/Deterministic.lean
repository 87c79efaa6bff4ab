import LiteVision.Core.Types
import LiteVision.Words

/-!
# Deterministic random numbers

`deterministic.rs`: a linear congruential generator, and what is drawn from it. The
arithmetic of the state wraps; the rest overflows as in a debug build, and `none` is a
panic. (In a release build the range wraps to zero, and the remainder by it panics.)
-/

namespace LiteVision.Core

structure DeterministicRng where
  state : UInt64
  deriving DecidableEq

namespace DeterministicRng

/-- The first eight bytes of the seed, unless they are zero. -/
def new (seed : Bytes 32) : DeterministicRng :=
  let state := seed.val.zipIdx.foldl
    (fun state b =>
      if b.2 < 8 then state + b.1.toUInt64 * ((1 : UInt64) <<< .ofNat (b.2 * 8)) else state) 0
  ⟨if state = 0 then 0x853aa1f0a8b4c2d else state⟩

def fromBlockSeed (c : Crypto) (domain : List UInt8) (prevHash : Bytes 32) (height : UInt64) :
    DeterministicRng :=
  new (DomainSeparatedHash.deriveSeed c domain prevHash height)

def nextU32 (rng : DeterministicRng) : UInt32 × DeterministicRng :=
  let state := rng.state * 0x5851f42d4c957f63 + 0x14057b921f4e31be
  ((state >>> 32).toUInt32, ⟨state⟩)

def randU32 (rng : DeterministicRng) : UInt32 × DeterministicRng := rng.nextU32

def randU64 (rng : DeterministicRng) : UInt64 × DeterministicRng :=
  let lo := rng.nextU32
  let hi := lo.2.nextU32
  (lo.1.toUInt64 ||| (hi.1.toUInt64 <<< 32), hi.2)

def randRange (rng : DeterministicRng) (min max : UInt32) : Option (UInt32 × DeterministicRng) :=
  if max ≤ min then some (min, rng)
  else
    (checkedAddU32 (max - min) 1).bind fun range =>
      let drawn := rng.randU32
      (checkedAddU32 min (drawn.1 % range)).map fun result => (result, drawn.2)

variable {T : Type}

/-- The length is cut down to a `u32`. -/
def choose (rng : DeterministicRng) (slice : List T) : Option (Option T × DeterministicRng) :=
  if slice.isEmpty then some (none, rng)
  else
    (checkedSubU32 (.ofNat slice.length) 1).bind fun last =>
      (rng.randRange 0 last).bind fun drawn =>
        slice[drawn.1.toNat]?.map fun element => (some element, drawn.2)

def swap (slice : List T) (i j : Nat) : Option (List T) :=
  slice[i]?.bind fun a => slice[j]?.map fun b => (slice.set i b).set j a

/-- The loop of `shuffle`, from `i` down to 1. -/
def shuffle.loop (rng : DeterministicRng) (slice : List T) :
    Nat → Option (List T × DeterministicRng)
  | 0 => some (slice, rng)
  | i + 1 =>
    (rng.randRange 0 (.ofNat (i + 1))).bind fun drawn =>
      (swap slice (i + 1) drawn.1.toNat).bind fun slice => shuffle.loop drawn.2 slice i

def shuffle (rng : DeterministicRng) (slice : List T) : Option (List T × DeterministicRng) :=
  shuffle.loop rng slice (slice.length - 1)

end DeterministicRng

end LiteVision.Core
