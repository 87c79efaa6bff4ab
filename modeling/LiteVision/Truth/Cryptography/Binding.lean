import LiteVision.Truth.Cryptography
import Mathlib.Data.Nat.Pairing

/-!
# The root binds the leaves

`MerkleTree::new` flattens all levels and takes the last hash for the root. `root_binding`:
it is what the leaves reduce to by pairs, and leaf lists of one length with the same root
are the same, if no two pairs hashed in the trees collide.
-/

namespace LiteVision.Truth

open Lib Pairing

namespace MerkleTree

variable {H : Type} (combine : H → H → H)

theorem root_eq_reduce (leaves : List H) : (new combine leaves).root = reduce combine leaves := by
  by_cases hne : leaves = []
  · subst hne
    rw [reduce]
    rfl
  · obtain ⟨rootHash, hroot, hlevel⟩ := root_new combine hne
    rw [hroot, reduce_eq, hlevel]
    rfl

/-- The root is the value the leaves reduce to, and among leaf lists of one length it belongs
to one, short of a collision. -/
theorem root_binding (combine : H → H → H) :
    (∀ leaves, (new combine leaves).root = reduce combine leaves) ∧
      ∀ leaves other : List H, leaves.length = other.length →
        Set.InjOn (Function.uncurry combine)
          {pair | Combined combine leaves pair ∨ Combined combine other pair} →
        (new combine leaves).root = (new combine other).root → leaves = other := by
  refine ⟨root_eq_reduce combine, fun leaves other hlen hinj hroot => ?_⟩
  rw [root_eq_reduce, root_eq_reduce] at hroot
  exact reduce_inj hlen hinj hroot

/-- Three leaves of which the last differs. -/
theorem root_binding_three : (new Nat.pair [1, 2, 3]).root ≠ (new Nat.pair [1, 2, 4]).root := by
  intro hroot
  have hinj : Set.InjOn (Function.uncurry Nat.pair)
      {pair | Combined Nat.pair [1, 2, 3] pair ∨ Combined Nat.pair [1, 2, 4] pair} :=
    fun _ _ _ _ heq => Nat.pairEquiv.injective heq
  exact absurd ((root_binding Nat.pair).2 [1, 2, 3] [1, 2, 4] rfl hinj hroot) (by decide)

end MerkleTree

end LiteVision.Truth
