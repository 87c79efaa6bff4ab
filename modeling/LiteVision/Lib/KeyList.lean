import LiteVision.Lib.Map

/-!
# A map with a list of its keys

Next to a map a program keeps its keys in a list, each of them once, to have them in an
order of their own. `Lists` says that the two are in step; it is kept by writing a key and
appending it unless it is there, and by erasing a key on both sides.
-/

namespace LiteVision.Lib

namespace Map

variable {K V : Type} [DecidableEq K] {l : List K} {m : Map K V}

/-- The list has the keys of the map, each of them once. -/
structure Lists (l : List K) (m : Map K V) : Prop where
  nodup : l.Nodup
  mem : ∀ k, k ∈ l ↔ k ∈ m.keys

omit [DecidableEq K] in
theorem lists_empty : Lists [] (empty : Map K V) := ⟨List.nodup_nil, fun k => by simp⟩

theorem Lists.toFinset (h : Lists l m) : l.toFinset = m.keys := by
  ext k
  rw [List.mem_toFinset, h.mem]

theorem Lists.insert (h : Lists l m) (k : K) (v : V) :
    Lists (if k ∈ l then l else l ++ [k]) (m.insert k v) := by
  split
  · rename_i hk
    refine ⟨h.nodup, fun j => ?_⟩
    rw [keys_insert, Finset.mem_insert, ← h.mem]
    constructor
    · exact .inr
    · rintro (rfl | hj)
      · exact hk
      · exact hj
  · rename_i hk
    refine ⟨List.nodup_append.mpr ⟨h.nodup, List.nodup_singleton k, ?_⟩, fun j => ?_⟩
    · rintro j hj i hi rfl
      obtain rfl := List.mem_singleton.mp hi
      exact hk hj
    · rw [keys_insert, Finset.mem_insert, List.mem_append, List.mem_singleton, h.mem, or_comm]

theorem Lists.erase (h : Lists l m) (k : K) : Lists (l.erase k) (m.erase k) := by
  refine ⟨h.nodup.erase k, fun j => ?_⟩
  rw [h.nodup.mem_erase_iff, keys_erase, Finset.mem_erase, h.mem]

end Map

end LiteVision.Lib
