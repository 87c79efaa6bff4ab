import LiteVision.Bytes
import LiteVision.Lib.Pairing

/-!
# Merkle trees

The Merkle tree of `cryptography.rs`, over any type of hashes and any way to
combine two of them; the code's own is `combineHashes`. The `height` of a tree
is left out: nothing reads it.
-/

namespace LiteVision.Truth

open Lib

def combineHashes (c : Crypto) (left right : Bytes 32) : Bytes 32 := c.blake3 (left.val ++ right.val)

structure MerkleNode (H : Type) where
  hash : H
  isLeft : Bool

structure MerkleProof (H : Type) where
  leafHash : H
  path : List (MerkleNode H)
  rootHash : H

structure MerkleTree (H : Type) where
  leaves : List H
  nodes : List H

namespace MerkleTree

variable {H : Type} (combine : H → H → H)

/-- A level and all above it, up to the level of one. -/
def levels (level : List H) : List (List H) :=
  if 1 < level.length then level :: levels (Pairing.pairUp combine level) else [level]
termination_by level.length
decreasing_by
  rw [Pairing.length_pairUp]
  omega

def new (leaves : List H) : MerkleTree H :=
  if leaves.isEmpty then { leaves := [], nodes := [] }
  else { leaves, nodes := (levels combine leaves).flatten }

def root (tree : MerkleTree H) : Option H := tree.nodes.getLast?

/-- The sibling that `proof` puts on the path: right of an odd index, left of an
even one, and the node itself where there is none. -/
def sibling (level : List H) (idx : Nat) (h : idx < level.length) : H :=
  let isLeft := idx % 2 = 1
  let siblingIdx := if isLeft then idx + 1 else if idx > 0 then idx - 1 else idx
  if hs : siblingIdx < level.length ∧ siblingIdx ≠ idx then level[siblingIdx] else level[idx]

/-- The loop of `proof`: one node of the path for each level below the root. -/
def path (level : List H) (idx : Nat) (h : idx < level.length) : List (MerkleNode H) :=
  if 1 < level.length then
    { hash := sibling level idx h, isLeft := idx % 2 = 1 } ::
      path (Pairing.pairUp combine level) (idx / 2) (by rw [Pairing.length_pairUp]; omega)
  else []
termination_by level.length
decreasing_by
  rw [Pairing.length_pairUp]
  omega

def proof (tree : MerkleTree H) (index : Nat) : Option (MerkleProof H) :=
  if h : index < tree.leaves.length then
    tree.root.map fun rootHash =>
      { leafHash := tree.leaves[index], path := path combine tree.leaves index h, rootHash }
  else none

def climb (current : H) (path : List (MerkleNode H)) : H :=
  path.foldl (fun current node =>
    if node.isLeft then combine node.hash current else combine current node.hash) current

def verifyProof [DecidableEq H] (proof : MerkleProof H) : Bool :=
  climb combine proof.leafHash proof.path = proof.rootHash

-- ---------------------------------------------------------------------------
-- Climbing
-- ---------------------------------------------------------------------------

@[simp] theorem climb_nil (x : H) : climb combine x [] = x := rfl

theorem climb_cons (x : H) (node : MerkleNode H) (path : List (MerkleNode H)) :
    climb combine x (node :: path) =
      climb combine (Function.uncurry combine (Pairing.orient node.isLeft x node.hash)) path := by
  cases h : node.isLeft <;> simp [climb, Pairing.orient, h]

theorem climb_append (x : H) (path rest : List (MerkleNode H)) :
    climb combine x (path ++ rest) = climb combine (climb combine x path) rest :=
  List.foldl_append

def climbed : H → List (MerkleNode H) → List (H × H)
  | _, [] => []
  | x, node :: path =>
    let pair := Pairing.orient node.isLeft x node.hash
    pair :: climbed (Function.uncurry combine pair) path

-- ---------------------------------------------------------------------------
-- The root
-- ---------------------------------------------------------------------------

theorem getLast?_levels (leaves : List H) :
    (levels combine leaves).getLast? =
      some (Pairing.level combine leaves (Nat.clog 2 leaves.length)) := by
  induction leaves using levels.induct combine with
  | case1 level h ih =>
    rw [levels, if_pos h, List.getLast?_cons, ih, Option.getD_some, Pairing.clog_pairUp combine h,
      Pairing.level_succ]
  | case2 level h =>
    rw [levels, if_neg h, Nat.clog_of_right_le_one (not_lt.mp h)]
    rfl

theorem root_new {leaves : List H} (h : leaves ≠ []) :
    ∃ rootHash, (new combine leaves).root = some rootHash ∧
      Pairing.level combine leaves (Nat.clog 2 leaves.length) = [rootHash] := by
  have hlen : (Pairing.level combine leaves (Nat.clog 2 leaves.length)).length = 1 := by
    have hpos := List.length_pos_of_ne_nil
      (Pairing.level_ne_nil combine h (Nat.clog 2 leaves.length))
    have hle := mt (Pairing.one_lt_length_level combine).mp (lt_irrefl (Nat.clog 2 leaves.length))
    omega
  obtain ⟨rootHash, hroot⟩ := List.length_eq_one_iff.mp hlen
  refine ⟨rootHash, ?_, hroot⟩
  have hlast := getLast?_levels combine leaves
  rw [hroot] at hlast
  obtain ⟨below, hbelow⟩ := List.getLast?_eq_some_iff.mp hlast
  rw [root, new, if_neg (by simpa using h), hbelow]
  simp

end MerkleTree

end LiteVision.Truth
