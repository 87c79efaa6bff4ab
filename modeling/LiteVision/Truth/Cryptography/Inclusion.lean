import LiteVision.Truth.Cryptography
import Mathlib.Data.Nat.Pairing

/-!
# Inclusion proofs

What a proof of `MerkleTree::proof` and one that `verify_proof` accepts have to
do with the leaves. `proof` picks a wrong sibling on most levels, so its proofs
verify only where the hash on the wrong side happens to be the right one.
`verify_proof` knows nothing of the depth of the tree: it shows membership only
for paths as long as the tree is deep.
-/

namespace LiteVision.Truth

open Lib Pairing

namespace MerkleTree

variable {H : Type} (combine : H → H → H)

/-- No two of the pairs hashed in the tree and on the path from `x` collide. -/
def NoCollision (leaves : List H) (x : H) (path : List (MerkleNode H)) : Prop :=
  Set.InjOn (Function.uncurry combine)
    {pair | Combined combine leaves pair ∨ pair ∈ climbed combine x path}

/-- On every level below the root, the sibling taken is the partner of the node. -/
def SiblingsMatch (leaves : List H) (index : Nat) : Prop :=
  ∀ k < Nat.clog 2 leaves.length, ∀ h : index / 2 ^ k < (level combine leaves k).length,
    sibling (level combine leaves k) (index / 2 ^ k) h = partner (level combine leaves k) (index / 2 ^ k) h

/-- `proof` gives a proof for the leaf at `index`, and it verifies. -/
def Complete [DecidableEq H] (leaves : List H) (index : Nat) : Prop :=
  ∃ proof, (new combine leaves).proof combine index = some proof ∧
    leaves[index]? = some proof.leafHash ∧ verifyProof combine proof = true

-- ---------------------------------------------------------------------------
-- Paths of the prover
-- ---------------------------------------------------------------------------

theorem siblingsMatch_single {leaves : List H} {index : Nat} (h : ¬ 1 < leaves.length) :
    SiblingsMatch combine leaves index := by
  intro k hk
  rw [Nat.clog_of_right_le_one (not_lt.mp h)] at hk
  exact absurd hk (Nat.not_lt_zero k)

theorem siblingsMatch_succ {leaves : List H} {index : Nat} (hlen : 1 < leaves.length)
    (h : index < leaves.length) :
    SiblingsMatch combine leaves index ↔
      sibling leaves index h = partner leaves index h ∧
        SiblingsMatch combine (pairUp combine leaves) (index / 2) := by
  have hdiv : ∀ k, index / 2 ^ (k + 1) = index / 2 / 2 ^ k := fun k => by
    rw [Nat.pow_succ', Nat.div_div_eq_div_mul]
  constructor
  · intro hmatch
    refine ⟨?_, fun k hk hlt => ?_⟩
    · have hzero := hmatch 0 (Nat.clog_pos Nat.one_lt_two hlen)
      simp only [level_zero, Nat.pow_zero, Nat.div_one] at hzero
      exact hzero h
    · have hsucc := hmatch (k + 1) (by rw [clog_pairUp combine hlen]; omega)
      simp only [level_succ, hdiv] at hsucc
      exact hsucc hlt
  · rintro ⟨hzero, hsucc⟩ k hk
    cases k with
    | zero =>
      simp only [level_zero, Nat.pow_zero, Nat.div_one]
      exact fun _ => hzero
    | succ k =>
      simp only [level_succ, hdiv]
      apply hsucc k
      rw [clog_pairUp combine hlen] at hk
      omega

theorem path_single {level : List H} {idx : Nat} (h : idx < level.length)
    (hlen : ¬ 1 < level.length) : path combine level idx h = [] := by
  rw [path, if_neg hlen]

theorem path_succ {level : List H} {idx : Nat} (h : idx < level.length) (hlen : 1 < level.length) :
    ∃ hnext : idx / 2 < (pairUp combine level).length,
      path combine level idx h =
        { hash := sibling level idx h, isLeft := idx % 2 = 1 } ::
          path combine (pairUp combine level) (idx / 2) hnext := by
  refine ⟨by rw [length_pairUp]; omega, ?_⟩
  rw [path, if_pos hlen]

theorem climb_path {leaves : List H} {index : Nat} (h : index < leaves.length)
    (hmatch : SiblingsMatch combine leaves index) :
    level combine leaves (Nat.clog 2 leaves.length) =
      [climb combine leaves[index] (path combine leaves index h)] := by
  induction leaves, index, h using path.induct combine with
  | case1 level idx h hlen ih =>
    obtain ⟨hsibling, hrest⟩ := (siblingsMatch_succ combine hlen h).mp hmatch
    obtain ⟨hnext, hpath⟩ := path_succ combine h hlen
    have habove := getElem?_pairUp combine h
    rw [List.getElem?_eq_getElem hnext, Option.some.injEq, ← hsibling] at habove
    rw [clog_pairUp combine hlen, level_succ, ih hrest, hpath, climb_cons, habove]
  | case2 level idx h hlen =>
    obtain ⟨x, rfl⟩ := List.length_eq_one_iff.mp (show level.length = 1 by omega)
    obtain rfl : idx = 0 := by simpa using h
    rw [path_single combine h hlen]
    simp

/-- Without collisions a path of the prover leads to the root only from its own
node, and with the right siblings. -/
theorem climb_path_inj {leaves : List H} {index : Nat} (h : index < leaves.length) {x : H}
    (hinj : NoCollision combine leaves x (path combine leaves index h))
    (hroot : level combine leaves (Nat.clog 2 leaves.length) =
      [climb combine x (path combine leaves index h)]) :
    x = leaves[index] ∧ SiblingsMatch combine leaves index := by
  induction leaves, index, h using path.induct combine generalizing x with
  | case1 level idx h hlen ih =>
    obtain ⟨hnext, hpath⟩ := path_succ combine h hlen
    have habove := getElem?_pairUp combine h
    rw [List.getElem?_eq_getElem hnext, Option.some.injEq] at habove
    rw [hpath] at hinj hroot
    rw [clog_pairUp combine hlen, level_succ, climb_cons] at hroot
    obtain ⟨hnode, hrest⟩ := ih (hinj.mono fun pair hpair => by
      rcases hpair with hpair | hpair
      · exact .inl (hpair.of_pairUp hlen)
      · exact .inr (List.mem_cons_of_mem _ hpair)) hroot
    have hpair := hinj (.inr List.mem_cons_self)
      (.inl ⟨0, Nat.clog_pos Nat.one_lt_two hlen, List.mem_of_getElem? (getElem?_pairs h)⟩)
      (hnode.trans habove)
    obtain ⟨hx, hsibling⟩ := orient_inj.mp hpair
    exact ⟨hx, (siblingsMatch_succ combine hlen h).mpr ⟨hsibling, hrest⟩⟩
  | case2 level idx h hlen =>
    obtain ⟨y, rfl⟩ := List.length_eq_one_iff.mp (show level.length = 1 by omega)
    obtain rfl : idx = 0 := by simpa using h
    rw [path_single combine h hlen] at hroot
    refine ⟨?_, siblingsMatch_single combine hlen⟩
    simpa using hroot.symm

-- ---------------------------------------------------------------------------
-- Completeness
-- ---------------------------------------------------------------------------

variable [DecidableEq H]

theorem complete_iff_climb {leaves : List H} {index : Nat} (h : index < leaves.length) :
    Complete combine leaves index ↔
      level combine leaves (Nat.clog 2 leaves.length) =
        [climb combine leaves[index] (path combine leaves index h)] := by
  have hne : leaves ≠ [] := List.ne_nil_of_length_pos (by omega)
  obtain ⟨rootHash, hroot, hlevel⟩ := root_new combine hne
  have hleaves : (new combine leaves).leaves = leaves := by simp [new, hne]
  have hproof : (new combine leaves).proof combine index =
      some { leafHash := leaves[index], path := path combine leaves index h, rootHash } := by
    simp [proof, hleaves, h, hroot]
  rw [hlevel]
  constructor
  · rintro ⟨p, hp, -, hverify⟩
    rw [hproof] at hp
    obtain rfl := Option.some.inj hp
    have hclimb : climb combine leaves[index] (path combine leaves index h) = rootHash := by
      simpa [verifyProof] using hverify
    rw [hclimb]
  · intro hclimb
    refine ⟨_, hproof, List.getElem?_eq_getElem h, ?_⟩
    simpa [verifyProof, eq_comm] using hclimb

/-- The proof for a leaf verifies when the siblings on its path are right and,
short of a collision, only then. -/
theorem proof_complete_iff {leaves : List H} {index : Nat} (h : index < leaves.length) :
    (SiblingsMatch combine leaves index → Complete combine leaves index) ∧
      (NoCollision combine leaves leaves[index] (path combine leaves index h) →
        Complete combine leaves index → SiblingsMatch combine leaves index) := by
  constructor
  · intro hmatch
    exact (complete_iff_climb combine h).mpr (climb_path combine h hmatch)
  · intro hinj hcomplete
    exact (climb_path_inj combine h hinj ((complete_iff_climb combine h).mp hcomplete)).2

/-- Leaf 1 of `0, 1, 0, 1`: the leaf after it is that before it. -/
theorem proof_complete_iff_repeated : Complete Nat.pair [0, 1, 0, 1] 1 := by
  refine (proof_complete_iff Nat.pair (by decide)).1 ?_
  intro k hk h
  have hdepth : Nat.clog 2 [0, 1, 0, 1].length = 2 := by decide
  rw [hdepth] at hk
  match k, hk with
  | 0, _ => rfl
  | 1, _ => rfl

/-- The second of two leaves is combined with itself instead of the first. -/
theorem proof_complete_fails :
    ¬ ∀ (c : Crypto) (leaves : List (Bytes 32)) (index : Nat), index < leaves.length →
      Complete (combineHashes c) leaves index := by
  intro h
  -- a hash that keeps the first 32 bytes, so that a node is its left child
  let c : Crypto :=
    { blake3 := fun bytes => (Bytes.slice? bytes 0 32).getD (.fill 32 0)
      ed25519Verify := fun _ _ _ => true }
  let leaves := [Bytes.fill 32 0, Bytes.fill 32 1]
  have hclimb := (complete_iff_climb (combineHashes c) (Nat.lt_succ_self 1)).mp
    (h c leaves 1 (Nat.lt_succ_self 1))
  obtain ⟨_, hpath⟩ := path_succ (combineHashes c) (show 1 < leaves.length from Nat.lt_succ_self 1)
    (Nat.lt_succ_self 1)
  rw [hpath, path_single _ _ (by decide)] at hclimb
  revert hclimb
  decide

-- ---------------------------------------------------------------------------
-- Soundness
-- ---------------------------------------------------------------------------

omit [DecidableEq H]

theorem climbed_append (x : H) (path rest : List (MerkleNode H)) :
    climbed combine x (path ++ rest) =
      climbed combine x path ++ climbed combine (climb combine x path) rest := by
  induction path generalizing x with
  | nil => rfl
  | cons node path ih => simp only [List.cons_append, climbed, ih, climb_cons]

variable {combine}

theorem mem_level_of_climb {leaves : List H} {x : H} {path : List (MerkleNode H)} {k : Nat}
    (hinj : NoCollision combine leaves x path) (hk : k + path.length ≤ Nat.clog 2 leaves.length)
    (h : climb combine x path ∈ level combine leaves (k + path.length)) :
    x ∈ level combine leaves k := by
  induction path generalizing x k with
  | nil => exact h
  | cons node path ih =>
    rw [List.length_cons] at hk
    have hnext : Function.uncurry combine (orient node.isLeft x node.hash) ∈
        level combine leaves (k + 1) := by
      apply ih
      · refine hinj.mono fun pair hpair => ?_
        rcases hpair with hpair | hpair
        · exact .inl hpair
        · exact .inr (List.mem_cons_of_mem _ hpair)
      · omega
      · rw [climb_cons, List.length_cons, show k + (path.length + 1) = k + 1 + path.length by omega]
          at h
        exact h
    rw [level_succ', pairUp, List.mem_map] at hnext
    obtain ⟨pair, hpair, heq⟩ := hnext
    obtain rfl := hinj (.inl ⟨k, by omega, hpair⟩) (.inr List.mem_cons_self) heq
    obtain ⟨hleft, hright⟩ := mem_of_mem_pairs hpair
    cases hside : node.isLeft with
    | false => simpa [orient, hside] using hleft
    | true => simpa [orient, hside] using hright

variable [DecidableEq H]

/-- A proof that verifies against the root of the tree, short of a collision:
with a path as long as the tree is deep it shows a leaf; a shorter one shows an
inner node, and a longer one something that a leaf was combined from. -/
theorem verified_node {leaves : List H} {p : MerkleProof H}
    (hinj : NoCollision combine leaves p.leafHash p.path)
    (hroot : (new combine leaves).root = some p.rootHash) (hverify : verifyProof combine p = true) :
    (p.path.length = Nat.clog 2 leaves.length → p.leafHash ∈ leaves) ∧
      (p.path.length < Nat.clog 2 leaves.length →
        p.leafHash ∈ level combine leaves (Nat.clog 2 leaves.length - p.path.length)) ∧
      (Nat.clog 2 leaves.length < p.path.length →
        climb combine p.leafHash (p.path.take (p.path.length - Nat.clog 2 leaves.length)) ∈
          leaves) := by
  have hne : leaves ≠ [] := by
    rintro rfl
    simp [new, root] at hroot
  obtain ⟨rootHash, hroot', hlevel⟩ := root_new combine hne
  obtain rfl := Option.some.inj (hroot.symm.trans hroot')
  have hclimb : climb combine p.leafHash p.path ∈
      level combine leaves (Nat.clog 2 leaves.length) := by
    rw [hlevel, List.mem_singleton]
    simpa [verifyProof] using hverify
  have hshort : p.path.length ≤ Nat.clog 2 leaves.length →
      p.leafHash ∈ level combine leaves (Nat.clog 2 leaves.length - p.path.length) := by
    intro hle
    apply mem_level_of_climb hinj
    · omega
    · rwa [Nat.sub_add_cancel hle]
  refine ⟨fun heq => ?_, fun hlt => hshort hlt.le, fun hlt => ?_⟩
  · have hleaf := hshort heq.le
    rwa [heq, Nat.sub_self] at hleaf
  · have hsplit := List.take_append_drop (p.path.length - Nat.clog 2 leaves.length) p.path
    rw [← hsplit, climb_append] at hclimb
    have hdrop : (p.path.drop (p.path.length - Nat.clog 2 leaves.length)).length =
        Nat.clog 2 leaves.length := by rw [List.length_drop]; omega
    refine mem_level_of_climb (k := 0) (hinj.mono fun pair hpair => ?_)
      (show 0 + _ ≤ _ by rw [hdrop, Nat.zero_add]) ?_
    · rcases hpair with hpair | hpair
      · exact .inl hpair
      · rw [← hsplit, climbed_append]
        exact .inr (List.mem_append_right _ hpair)
    · rwa [hdrop, Nat.zero_add]

/-- The proof for the second of two leaves. -/
theorem verified_node_two_leaves :
    let p : MerkleProof Nat := { leafHash := 2, path := [⟨1, true⟩], rootHash := Nat.pair 1 2 }
    verifyProof Nat.pair p = true ∧ p.leafHash ∈ [1, 2] := by
  intro p
  have hinj : NoCollision Nat.pair [1, 2] p.leafHash p.path := fun _ _ _ _ heq =>
    Nat.pairEquiv.injective heq
  have hroot : (new Nat.pair [1, 2]).root = some p.rootHash := by
    obtain ⟨rootHash, hroot, hlevel⟩ := root_new Nat.pair (List.cons_ne_nil 1 [2])
    rw [hroot]
    exact congrArg some (List.cons.inj hlevel).1.symm
  have hverify : verifyProof Nat.pair p = true := by decide
  exact ⟨hverify, (verified_node hinj hroot hverify).1 (by decide)⟩

/-- The root of two leaves, with an empty path, verifies as a leaf. -/
theorem leaf_soundness_fails :
    ¬ ∀ combine : Nat → Nat → Nat, Function.Injective2 combine → ∀ leaves ≠ [], ∀ p,
      verifyProof combine p = true → (new combine leaves).root = some p.rootHash →
        p.leafHash ∈ leaves := by
  intro h
  obtain ⟨rootHash, hroot, hlevel⟩ := root_new Nat.pair (List.cons_ne_nil 1 [2])
  have hpair : rootHash = Nat.pair 1 2 := (List.cons.inj hlevel).1.symm
  have hmem := h Nat.pair (fun _ _ _ _ heq => Nat.pair_eq_pair.mp heq) [1, 2] (by decide)
    { leafHash := rootHash, path := [], rootHash } (by simp [verifyProof]) hroot
  rw [hpair] at hmem
  revert hmem
  decide

end MerkleTree

end LiteVision.Truth
