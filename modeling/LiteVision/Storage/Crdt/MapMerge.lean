import LiteVision.Storage.Crdt

/-!
# Merging maps

A merged map should have the keys of both maps, and for a key of both the merge of its
two values. The loop drops what the merge of values returns, so a key of both keeps the
value on the left.
-/

namespace LiteVision.Storage

open Lib

variable {K V : Type} [LinearOrder K] {left right : Map K V} {mergeValue : V → V → V}

/-- The map has the keys of both, with the values merged by `mergeValue`. -/
structure Merges (mergeValue : V → V → V) (left right merged : Map K V) : Prop where
  keys : merged.keys = left.keys ∪ right.keys
  both : ∀ k a b, left.get k = some a → right.get k = some b →
    merged.get k = some (mergeValue a b)
  onlyLeft : ∀ k a, left.get k = some a → right.get k = none → merged.get k = some a
  onlyRight : ∀ k b, left.get k = none → right.get k = some b → merged.get k = some b

theorem get_mergeOrMap (left right : Map K V) (mergeValue : V → V → V) (k : K) :
    (mergeOrMap left right mergeValue).get k = (left.get k).or (right.get k) := by
  rw [mergeOrMap, Map.get_mergeWith]
  cases right.get k <;> cases left.get k <;> rfl

theorem keys_mergeOrMap (left right : Map K V) (mergeValue : V → V → V) :
    (mergeOrMap left right mergeValue).keys = left.keys ∪ right.keys := by
  ext k
  rw [Finset.mem_union, Map.mem_keys, Map.mem_keys, Map.mem_keys, get_mergeOrMap]
  cases left.get k <;> cases right.get k <;> simp

/-- The map is merged by `mergeValue` just when `mergeValue` returns the value on the left
for every key of both maps. -/
theorem merge_or_map_iff (left right : Map K V) (mergeValue : V → V → V) :
    Merges mergeValue left right (mergeOrMap left right mergeValue) ↔
      ∀ k a b, left.get k = some a → right.get k = some b → mergeValue a b = a := by
  constructor
  · intro h k a b ha hb
    have hmerged := h.both k a b ha hb
    rw [get_mergeOrMap, ha] at hmerged
    exact (Option.some.inj hmerged).symm
  · intro h
    constructor
    case keys => exact keys_mergeOrMap left right mergeValue
    case both =>
      intro k a b ha hb
      rw [get_mergeOrMap, ha, h k a b ha hb]
      rfl
    case onlyLeft =>
      intro k a ha _
      rw [get_mergeOrMap, ha]
      rfl
    case onlyRight =>
      intro k b ha hb
      rw [get_mergeOrMap, ha, hb]
      rfl

/-- The greater of two values, which is the one on the right. -/
theorem merge_or_map_fails :
    ¬ ∀ (left right : Map UInt64 UInt64) (mergeValue : UInt64 → UInt64 → UInt64),
      Merges mergeValue left right (mergeOrMap left right mergeValue) := by
  intro h
  have hboth := (h (Map.empty.insert 1 1) (Map.empty.insert 1 2) max).both 1 1 2
    (by decide) (by decide)
  rw [get_mergeOrMap] at hboth
  exact absurd hboth (by decide)

end LiteVision.Storage
