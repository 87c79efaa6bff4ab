import LiteVision.Truth.State.Operators

/-!
# Reputation

An operator is suspended below 500 and active again from 1000 on. In between it stays what
it is, so the status tells a band of reputations: `reputation_bands`, over any run of
transactions.
-/

namespace LiteVision.Truth

open Lib OperatorRegistry

/-- The reputations that go with a status, and the statuses there are. -/
structure OperatorState.InBand (operator : OperatorState) : Prop where
  bounded : operator.reputation ≤ 10000
  status : operator.status = .active ∨ operator.status = .suspended
  active : operator.status = .active → 500 ≤ operator.reputation
  suspended : operator.status = .suspended → operator.reputation < 1000

namespace OperatorState

variable {operator : OperatorState}

theorem toNat_raised (h : operator.reputation ≤ 10000) {delta : UInt64}
    (hdelta : delta.toNat < 2 ^ 63) :
    (min (operator.reputation + delta) 10000).toNat =
      min (operator.reputation.toNat + delta.toNat) 10000 := by
  have hle := UInt64.le_iff_toNat_le.mp h
  have hbound : (10000 : UInt64).toNat = 10000 := rfl
  rw [toNat_min, toNat_add_of_lt (by omega), hbound]

theorem inBand_increaseReputation (h : operator.InBand) {delta : UInt64}
    (hdelta : delta.toNat < 2 ^ 63) : (operator.increaseReputation delta).InBand := by
  have hraised := toNat_raised h.bounded hdelta
  unfold increaseReputation
  dsimp only
  generalize min (operator.reputation + delta) 10000 = reputation at hraised ⊢
  have hbounded : reputation ≤ 10000 := UInt64.le_iff_toNat_le.mpr (hraised ▸ Nat.min_le_right ..)
  split
  · rename_i hreturns
    have hhigh : 500 ≤ reputation := UInt64.le_trans (by decide) hreturns.2
    exact ⟨hbounded, .inl rfl, fun _ => hhigh, fun hs => nomatch hs⟩
  · rename_i hstays
    refine ⟨hbounded, h.status, fun ha => ?_, fun hs => ?_⟩
    · -- an active operator was above 500 before
      have hbefore : 500 ≤ operator.reputation.toNat := UInt64.le_iff_toNat_le.mp (h.active ha)
      rw [UInt64.le_iff_toNat_le, hraised]
      exact Nat.le_min.mpr ⟨Nat.le_add_right_of_le hbefore, by decide⟩
    · exact UInt64.not_le.mp fun hhigh => hstays ⟨hs, hhigh⟩

theorem inBand_decreaseReputation (h : operator.InBand) (delta : UInt64) :
    (operator.decreaseReputation delta).InBand := by
  have hlowered := toNat_saturatingSub operator.reputation delta
  unfold decreaseReputation
  dsimp only
  generalize saturatingSub operator.reputation delta = reputation at hlowered ⊢
  have hle : reputation ≤ operator.reputation :=
    UInt64.le_iff_toNat_le.mpr (hlowered ▸ Nat.sub_le ..)
  have hbounded : reputation ≤ 10000 := UInt64.le_trans hle h.bounded
  split
  · rename_i hfalls
    have hlow : reputation < 1000 := UInt64.lt_trans hfalls.2 (by decide)
    exact ⟨hbounded, .inr rfl, fun ha => (nomatch ha), fun _ => hlow⟩
  · rename_i hstays
    refine ⟨hbounded, h.status, fun ha => ?_, fun hs => ?_⟩
    · exact UInt64.not_lt.mp fun hlow => hstays ⟨ha, hlow⟩
    · exact UInt64.lt_of_le_of_lt hle (h.suspended hs)

end OperatorState

/-- The calls that transactions make: registrations as active with a reputation of 1000,
and changes of a reputation by no more than the positive half of the words. -/
def OperatorRegistry.RegistryOp.Ordinary : RegistryOp → Prop
  | .register operator => operator.status = .active ∧ operator.reputation = 1000
  | .increaseReputation _ delta => delta.toNat < 2 ^ 63
  | .decreaseReputation .. => True
  | .updateStake .. | .slash .. | .deactivate _ => False

theorem Transaction.registryOp?_ordinary {tx : Transaction} {height : UInt64} {op : RegistryOp}
    (h : tx.registryOp? height = some op) : op.Ordinary := by
  cases ht : tx.txType with
  | operatorRegister =>
    simp only [registryOp?, ht, Option.bind_eq_bind, Option.bind_eq_some_iff, Option.some.injEq] at h
    obtain ⟨id, -, pubkey, -, stake, -, rfl⟩ := h
    exact ⟨rfl, rfl⟩
  | reputationUpdate =>
    simp only [registryOp?, ht, Option.bind_eq_bind, Option.bind_eq_some_iff,
      Option.some.injEq] at h
    obtain ⟨target, -, delta, -, rfl⟩ := h
    split
    · rename_i hsign
      exact toNat_toUInt64_lt hsign
    · trivial
  | _ => simp [registryOp?, ht] at h

namespace OperatorRegistry

/-- Every operator is in the band of its status. -/
def Banded (r : OperatorRegistry) : Prop := ∀ id operator, r.get id = some operator → operator.InBand

theorem banded_new : Banded new := by
  intro id operator hget
  simp [new, get] at hget

theorem banded_step {r : OperatorRegistry} {op : RegistryOp} (h : Banded r) (hop : op.Ordinary) :
    Banded (r.step op) := by
  intro id operator hget
  rw [get_step] at hget
  split at hget
  · cases op with
    | register new =>
      obtain rfl := Option.some.inj hget
      obtain ⟨hstatus, hreputation⟩ := hop
      exact ⟨by rw [hreputation]; decide, .inl hstatus, fun _ => by rw [hreputation]; decide,
        fun hs => by rw [hstatus] at hs; cases hs⟩
    | increaseReputation target delta =>
      obtain ⟨before, hbefore, rfl⟩ := Option.map_eq_some_iff.mp hget
      exact OperatorState.inBand_increaseReputation (h id before hbefore) hop
    | decreaseReputation target delta =>
      obtain ⟨before, hbefore, rfl⟩ := Option.map_eq_some_iff.mp hget
      exact OperatorState.inBand_decreaseReputation (h id before hbefore) delta
    | updateStake | slash | deactivate => exact hop.elim
  · exact h id operator hget

end OperatorRegistry

namespace State

theorem banded_transact {c : Crypto} {s : State} (h : Banded s.settlement.operatorRegistry)
    (tx : Transaction) : Banded (transact c s tx).settlement.operatorRegistry := by
  rcases transact_registry c s tx with ⟨hsame, -⟩ | ⟨op, hop, -, heq⟩
  · rwa [hsame]
  · rw [heq]
    exact banded_step h (Transaction.registryOp?_ordinary hop)

/-- Reputations stay in the bands of their operators' statuses, whatever transactions come. -/
theorem reputation_bands (c : Crypto) (txs : List Transaction) :
    Banded (Trace.exec (transact c) .new txs).settlement.operatorRegistry :=
  Trace.invariant (I := fun s : State => Banded s.settlement.operatorRegistry)
    (fun _ tx h => banded_transact h tx) banded_new txs

end State

end LiteVision.Truth
