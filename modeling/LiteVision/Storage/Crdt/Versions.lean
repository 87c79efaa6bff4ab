import LiteVision.Storage.Crdt

/-!
# The order of version vectors

A vector is the function `get`, which is zero where there is no entry. `dominates` is the
pointwise order of these functions and `merge` their pointwise maximum, so the laws of a
semilattice are those of functions into a linear order.
-/

namespace LiteVision.Storage

open Lib
open Map (Iteration)

namespace VersionVector

variable {a b c : VersionVector} {r s : UInt64}

theorem dominates_iff : a.dominates b = true ↔ b.get ≤ a.get := by
  simp only [dominates, List.all_eq_true, Bool.not_eq_true', decide_eq_false_iff_not, not_lt]
  constructor
  · intro h r
    rw [get]
    cases hr : b.clocks.get r with
    | none => exact UInt64.zero_le
    | some clock => exact h (r, clock) ((Iteration.ascending.mem b.clocks r clock).mpr hr)
  · rintro h ⟨r, clock⟩ hr
    have hclock := h r
    rwa [get, (Iteration.ascending.mem b.clocks r clock).mp hr] at hclock

theorem get_merge (a b : VersionVector) : (a.merge b).get = a.get ⊔ b.get := by
  funext r
  rw [get, merge, Map.get_mergeWith, Pi.sup_apply, get, get]
  cases hr : b.clocks.get r with
  | none => exact (max_eq_left UInt64.zero_le).symm
  | some clock => rfl

theorem get_increment (a : VersionVector) (r s : UInt64) :
    (a.increment r).get s = if s = r then a.get r + 1 else a.get s := by
  rw [get, increment, Map.get_insert]
  split <;> rfl

theorem get_lt_increment (h : a.get r < UInt64.ofNat (2 ^ 64 - 1)) :
    a.get < (a.increment r).get := by
  have hstep : a.get r < a.get r + 1 := by
    have hroom : (a.get r).toNat < 2 ^ 64 - 1 := h
    rw [UInt64.lt_iff_toNat_lt, UInt64.toNat_add]
    change _ < ((a.get r).toNat + 1) % 2 ^ 64
    omega
  rw [Pi.lt_def]
  refine ⟨fun s => ?_, r, ?_⟩
  · rw [get_increment]
    split
    · rename_i hs
      exact hs ▸ hstep.le
    · exact le_refl _
  · rwa [get_increment, if_pos rfl]

/-- The laws of a join semilattice, where vectors with the same `get` count as equal, and
an increment that goes strictly up. -/
theorem semilattice (a b c : VersionVector) (r : UInt64) :
    (a.dominates a = true ∧
      (a.dominates b = true → b.dominates c = true → a.dominates c = true) ∧
      (a.dominates b = true ∧ b.dominates a = true ↔ ∀ s, a.get s = b.get s)) ∧
    ((a.merge b).dominates a = true ∧ (a.merge b).dominates b = true ∧
      (c.dominates a = true → c.dominates b = true → c.dominates (a.merge b) = true)) ∧
    ((∀ s, (a.merge b).get s = (b.merge a).get s) ∧
      (∀ s, ((a.merge b).merge c).get s = (a.merge (b.merge c)).get s) ∧
      ∀ s, (a.merge a).get s = a.get s) ∧
    ((a.get r).toNat + 1 < 2 ^ 64 →
      (a.increment r).dominates a = true ∧ a.dominates (a.increment r) = false) := by
  simp only [← Bool.not_eq_true, dominates_iff, get_merge, ← funext_iff]
  refine ⟨⟨le_refl _, fun hab hbc => hbc.trans hab, ?_⟩,
    ⟨le_sup_left, le_sup_right, fun hca hcb => sup_le hca hcb⟩,
    ⟨sup_comm _ _, sup_assoc _ _ _, sup_idem _⟩, fun hroom => ?_⟩
  · exact ⟨fun h => le_antisymm h.2 h.1, fun h => ⟨h.ge, h.le⟩⟩
  · have hup : a.get < (a.increment r).get := get_lt_increment (Nat.lt_sub_of_add_lt hroom)
    exact ⟨hup.le, hup.not_ge⟩

/-- What two replicas have seen, and one more update. -/
theorem semilattice_merged :
    let a := (new.increment 1).increment 1
    let b := (new.increment 2).increment 1
    (a.merge b).get 1 = 2 ∧ (a.merge b).get 2 = 1 ∧
      ((a.merge b).increment 1).dominates (a.merge b) = true ∧
      (a.merge b).dominates ((a.merge b).increment 1) = false := by
  intro a b
  have hget (r : UInt64) : (a.merge b).get r = max (a.get r) (b.get r) :=
    congrFun (get_merge a b) r
  have hfirst : (a.merge b).get 1 = 2 := (hget 1).trans (by decide)
  have hsecond : (a.merge b).get 2 = 1 := (hget 2).trans (by decide)
  refine ⟨hfirst, hsecond, (semilattice (a.merge b) a b 1).2.2.2 ?_⟩
  rw [hfirst]
  decide

end VersionVector

theorem AntiEntropy.get_sync {S Delta : Type} (self other : AntiEntropy S)
    (agent : AntiEntropyAgent S Delta) :
    (self.sync other agent).versionVector.get =
      self.versionVector.get ⊔ other.versionVector.get := by
  unfold sync
  split
  · rename_i h
    exact (sup_eq_left.mpr (VersionVector.dominates_iff.mp h)).symm
  · exact VersionVector.get_merge _ _

end LiteVision.Storage
