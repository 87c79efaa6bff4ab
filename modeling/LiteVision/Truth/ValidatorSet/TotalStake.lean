import LiteVision.Truth.ValidatorSet.Rewards

/-!
# The total stake

`total_stake` stands for the sum over the validators that are not removed.
`total_stake_iff`: it is that sum in every state of a run, and `remove` never
takes more than there is, just when each step changes the total by as much as
the validators.
-/

namespace LiteVision.Truth

open Lib

namespace Validator

/-- What a validator counts for in the total: nothing once it is removed. -/
def bonded (v : Validator) : Nat := if v.status = .removed then 0 else v.totalStake.toNat

theorem bonded_removed {v : Validator} (h : v.status = .removed) : v.bonded = 0 := if_pos h

theorem bonded_of_ne {v : Validator} (h : v.status ≠ .removed) : v.bonded = v.totalStake.toNat :=
  if_neg h

theorem bonded_cases (v : Validator) :
    (v.status = .removed ∧ v.bonded = 0) ∨
      (v.status ≠ .removed ∧ v.bonded = v.totalStake.toNat) := by
  by_cases h : v.status = .removed
  · exact .inl ⟨h, bonded_removed h⟩
  · exact .inr ⟨h, bonded_of_ne h⟩

/-- The two parts of the stake fit in a word. -/
def PartsFit (v : Validator) : Prop := v.stake.toNat + v.delegatedStake.toNat < 2 ^ 64

theorem toNat_totalStake {v : Validator} (h : v.PartsFit) :
    v.totalStake.toNat = v.stake.toNat + v.delegatedStake.toNat := toNat_add_of_lt h

theorem updateStake_spec {v : Validator} {amount : UInt64}
    (h : v.stake.toNat + amount.toNat + v.delegatedStake.toNat < 2 ^ 64) :
    (v.updateStake (v.stake + amount)).PartsFit ∧
      (v.updateStake (v.stake + amount)).bonded =
        if v.status = .removed then 0
        else v.stake.toNat + v.delegatedStake.toNat + amount.toNat := by
  have hstake : (v.stake + amount).toNat = v.stake.toNat + amount.toNat :=
    toNat_add_of_lt (by omega)
  have hfit : (v.updateStake (v.stake + amount)).PartsFit := by
    simp only [PartsFit, updateStake, hstake]
    exact h
  have htotal : (v.updateStake (v.stake + amount)).totalStake.toNat =
      v.stake.toNat + v.delegatedStake.toNat + amount.toNat := by
    rw [toNat_totalStake hfit]
    simp only [updateStake, hstake]
    omega
  refine ⟨hfit, ?_⟩
  by_cases hr : v.status = .removed
  · rw [if_pos hr]
    exact bonded_removed hr
  · rw [if_neg hr, ← htotal]
    exact bonded_of_ne hr

theorem addDelegation_spec {v : Validator} {amount : UInt64}
    (h : v.stake.toNat + amount.toNat + v.delegatedStake.toNat < 2 ^ 64) :
    (v.addDelegation amount).PartsFit ∧
      (v.addDelegation amount).totalStake.toNat = v.stake.toNat + v.delegatedStake.toNat +
        amount.toNat := by
  have hdelegated : (v.delegatedStake + amount).toNat = v.delegatedStake.toNat + amount.toNat :=
    toNat_add_of_lt (by omega)
  have hfit : (v.addDelegation amount).PartsFit := by
    simp only [PartsFit, addDelegation, hdelegated]
    omega
  refine ⟨hfit, ?_⟩
  rw [toNat_totalStake hfit]
  simp only [addDelegation, hdelegated]
  omega

theorem jail_spec {v : Validator} (h : v.PartsFit) (epoch amount : UInt64) :
    (v.jail epoch amount).PartsFit ∧
      (v.jail epoch amount).bonded = v.stake.toNat - amount.toNat + v.delegatedStake.toNat := by
  have hfit : (v.jail epoch amount).PartsFit := by
    have hparts : v.stake.toNat + v.delegatedStake.toNat < 2 ^ 64 := h
    simp only [PartsFit, jail, toNat_saturatingSub]
    omega
  refine ⟨hfit, ?_⟩
  have hstatus : (v.jail epoch amount).status ≠ .removed := by simp [jail]
  rw [bonded_of_ne hstatus, toNat_totalStake hfit]
  simp only [jail, toNat_saturatingSub]

end Validator

namespace ValidatorSet

/-- The total is what the validators add up to. -/
def Accounted (s : ValidatorSet) : Prop :=
  s.totalStake.toNat = (s.validators.map Validator.bonded).sum

/-- Ids are distinct, and no validator's stake overflows. -/
structure Sound (s : ValidatorSet) : Prop where
  nodup : (s.validators.map Validator.id).Nodup
  fit : ∀ v ∈ s.validators, v.PartsFit

def NoUnderflow (s : ValidatorSet) : Op → Prop
  | .remove id => ∀ v, s.get id = some v → v.totalStake ≤ s.totalStake
  | _ => True

variable {s s' : ValidatorSet} {id : Bytes 32} {v : Validator} {f : Validator → Validator}

theorem accounted_update (h : Accounted s) (hget : s.get id = some v)
    (heq : s'.validators = s.update id f) :
    Accounted s' ↔ s'.totalStake.toNat + v.bonded = s.totalStake.toNat + (f v).bonded := by
  have hsum := Keyed.sum_update (f := f) Validator.bonded hget
  rw [Accounted] at h
  rw [Accounted, heq, update]
  omega

theorem accounted_erase (h : Accounted s) (hget : s.get id = some v)
    (heq : s'.validators = Keyed.erase Validator.id s.validators id) :
    Accounted s' ↔ s'.totalStake.toNat + v.bonded = s.totalStake.toNat := by
  have hsum := Keyed.sum_erase Validator.bonded hget
  rw [Accounted] at h
  rw [Accounted, heq]
  omega

theorem Accounted.bonded_le (h : Accounted s) (hget : s.get id = some v) :
    v.bonded ≤ s.totalStake.toNat := by
  rw [h]
  exact Keyed.le_sum Validator.bonded hget

theorem Sound.fit_of_get (h : Sound s) (hget : s.get id = some v) : v.PartsFit :=
  h.fit v (Keyed.mem_of_find hget)

-- ---------------------------------------------------------------------------
-- Rewards
-- ---------------------------------------------------------------------------

/-- An entry of the rewards finds an active validator with room for it. -/
def Payable (l : List Validator) (entry : Bytes 32 × UInt64) : Prop :=
  ∃ v, Keyed.find Validator.id l entry.1 = some v ∧ v.status = .active ∧
    v.stake.toNat + entry.2.toNat + v.delegatedStake.toNat < 2 ^ 64

theorem payable_pay {l : List Validator} {entry other : Bytes 32 × UInt64}
    (hne : other.1 ≠ entry.1) (h : Payable l other) : Payable (pay l entry) other := by
  obtain ⟨v, hfind, hrest⟩ := h
  refine ⟨v, ?_, hrest⟩
  rw [pay, Keyed.find_update fun v => v.id_updateStake _, if_neg hne, hfind]

theorem sum_pay {l : List Validator} {entry : Bytes 32 × UInt64} (hfit : ∀ v ∈ l, v.PartsFit)
    (h : Payable l entry) :
    ((pay l entry).map Validator.bonded).sum =
      (l.map Validator.bonded).sum + entry.2.toNat := by
  obtain ⟨v, hfind, hactive, hroom⟩ := h
  have hr : v.status ≠ .removed := by simp [hactive]
  have hsum := Keyed.sum_update (f := fun v => v.updateStake (v.stake + entry.2))
    Validator.bonded hfind
  have hparts := Validator.toNat_totalStake (hfit v (Keyed.mem_of_find hfind))
  rw [(Validator.updateStake_spec hroom).2, if_neg hr, Validator.bonded_of_ne hr] at hsum
  rw [pay]
  omega

theorem fit_pay {l : List Validator} {entry : Bytes 32 × UInt64} (hfit : ∀ v ∈ l, v.PartsFit)
    (h : Payable l entry) : ∀ v ∈ pay l entry, v.PartsFit := by
  obtain ⟨v, hfind, -, hroom⟩ := h
  intro w hw
  rcases Keyed.mem_update hw with hl | ⟨v', hv', rfl⟩
  · exact hfit w hl
  · obtain rfl := Option.some.inj (hfind.symm.trans hv')
    exact (Validator.updateStake_spec hroom).1

theorem foldl_pay {entries : List (Bytes 32 × UInt64)} (hnodup : (entries.map Prod.fst).Nodup)
    {l : List Validator} (hfit : ∀ v ∈ l, v.PartsFit) (h : ∀ entry ∈ entries, Payable l entry) :
    ((entries.foldl pay l).map Validator.bonded).sum =
        (l.map Validator.bonded).sum + (entries.map fun e => e.2.toNat).sum ∧
      ∀ v ∈ entries.foldl pay l, v.PartsFit := by
  induction entries generalizing l with
  | nil => exact ⟨rfl, hfit⟩
  | cons entry entries ih =>
    rw [List.map_cons, List.nodup_cons] at hnodup
    have hfirst := h entry List.mem_cons_self
    have hrest : ∀ other ∈ entries, Payable (pay l entry) other := by
      intro other hother
      have hne : other.1 ≠ entry.1 := fun heq =>
        hnodup.1 (List.mem_map.mpr ⟨other, hother, heq⟩)
      exact payable_pay hne (h other (List.mem_cons_of_mem entry hother))
    obtain ⟨hsum, hafter⟩ := ih hnodup.2 (fit_pay hfit hfirst) hrest
    refine ⟨?_, hafter⟩
    rw [List.foldl_cons, hsum, sum_pay hfit hfirst, List.map_cons, List.sum_cons]
    omega

theorem ids_foldl_pay (entries : List (Bytes 32 × UInt64)) (l : List Validator) :
    (entries.foldl pay l).map Validator.id = l.map Validator.id := by
  induction entries generalizing l with
  | nil => rfl
  | cons entry entries ih =>
    rw [List.foldl_cons, ih, pay, Keyed.map_key_update fun v => v.id_updateStake _]

variable {totalReward : UInt64} {commission : Bytes 32 → UInt64}

theorem payable_of_entry (h : Sound s) (it : Map.Iteration (Bytes 32) UInt64)
    (hroom : ∀ v ∈ s.getActive, v.stake.toNat + (s.netReward totalReward commission v).toNat +
      v.delegatedStake.toNat < 2 ^ 64) :
    ∀ entry ∈ it.entries (s.calculateRewards totalReward commission),
      Payable s.validators entry := by
  intro entry hentry
  obtain ⟨v, hv, hid, hvalue⟩ := active_of_reward ((it.mem _ entry.1 entry.2).mp hentry)
  obtain ⟨hfind, hactive⟩ := get_of_mem_getActive h.nodup hv
  have hfits := hroom v hv
  rw [hvalue] at hfits
  exact ⟨v, hid ▸ hfind, hactive, hfits⟩

-- ---------------------------------------------------------------------------
-- What one step does
-- ---------------------------------------------------------------------------

def Op.brings : Op → UInt64
  | .add _ stake _ => stake
  | .bond _ amount => amount
  | .delegate _ _ amount => amount
  | .distributeRewards totalReward _ => totalReward
  | _ => 0

def gain (s : ValidatorSet) (op : Op) (v : Validator) : UInt64 :=
  match op with
  | .bond id amount => if v.id = id then amount else 0
  | .delegate _ id amount => if v.id = id then amount else 0
  | .distributeRewards totalReward commission =>
    if v.status = .active then s.netReward totalReward commission v else 0
  | _ => 0

/-- If the call succeeds, no addition it makes overflows. -/
def Fits (it : Map.Iteration (Bytes 32) UInt64) (s : ValidatorSet) (op : Op) : Prop :=
  (∃ s', Moves it s op s') →
    s.totalStake.toNat + op.brings.toNat < 2 ^ 64 ∧
    ∀ v ∈ s.validators,
      v.stake.toNat + (s.gain op v).toNat + v.delegatedStake.toNat < 2 ^ 64

theorem room_found {op : Op} {amount : UInt64}
    (hgain : ∀ v ∈ s.validators,
      v.stake.toNat + (s.gain op v).toNat + v.delegatedStake.toNat < 2 ^ 64)
    (hget : s.get id = some v) (hop : v.id = id → s.gain op v = amount) :
    v.stake.toNat + amount.toNat + v.delegatedStake.toNat < 2 ^ 64 := by
  rw [← hop (Keyed.key_of_find hget)]
  exact hgain v (Keyed.mem_of_find hget)

theorem room_active
    (hgain : ∀ v ∈ s.validators,
      v.stake.toNat + (s.gain (.distributeRewards totalReward commission) v).toNat +
        v.delegatedStake.toNat < 2 ^ 64) :
    ∀ v ∈ s.getActive, v.stake.toNat + (s.netReward totalReward commission v).toNat +
      v.delegatedStake.toNat < 2 ^ 64 := by
  intro v hv
  obtain ⟨hmem, hactive⟩ := List.mem_filter.mp hv
  have hroom := hgain v hmem
  rwa [gain, if_pos (of_decide_eq_true hactive)] at hroom

/-- The step changes the total by as much as the validators: it takes away or bonds
to no removed validator that counts for something, completes no exit with delegations,
slashes no more than there is and no removed validator with stake, and pays the
rewards out without rest. -/
def KeepsTotal (s : ValidatorSet) : Op → Prop
  | .remove id => ∀ v, s.get id = some v → v.status = .removed → v.totalStake = 0
  | .bond id amount => ∀ v, s.get id = some v → v.status = .removed → amount = 0
  | .unbondComplete id => ∀ v, s.get id = some v → v.canUnbond s.currentEpoch = true →
      (v.status ≠ .removed → v.delegatedStake = 0) ∧
      (v.status = .removed → v.stake = 0 ∨ s.totalStake = 0)
  | .slash id slashType _ scaled => ∀ v, s.get id = some v →
      let amount := slashType.slashAmount scaled
      (v.status ≠ .removed → amount ≤ v.stake ∨ s.totalStake = v.stake) ∧
      (v.status = .removed → v.delegatedStake = 0 ∧ v.stake ≤ amount ∧
        (amount = 0 ∨ s.totalStake = 0))
  | .distributeRewards totalReward commission =>
      (s.getActive.map fun v => (s.netReward totalReward commission v).toNat).sum =
        totalReward.toNat
  | _ => True

theorem accounted_added (h : Accounted s) {id pubkey : Bytes 32} {stake : UInt64}
    (hfits : s.totalStake.toNat + stake.toNat < 2 ^ 64) :
    Accounted { s with
      totalStake := s.totalStake + stake
      validators := s.validators ++ [.new id stake pubkey] } := by
  have hnew : (Validator.new id stake pubkey).bonded = stake.toNat := by
    rw [Validator.bonded_of_ne (by simp [Validator.new]), Validator.totalStake_new]
  rw [Accounted] at h ⊢
  dsimp only
  rw [toNat_add_of_lt hfits, List.map_append, List.sum_append, List.map_singleton,
    List.sum_singleton, hnew, h]

theorem accounted_erased (h : Accounted s) (hget : s.get id = some v) :
    (Accounted { s with
      validators := Keyed.erase Validator.id s.validators id
      totalStake := s.totalStake - v.totalStake } ∧ v.totalStake ≤ s.totalStake) ↔
      (v.status = .removed → v.totalStake = 0) := by
  have hle := h.bonded_le hget
  have hT : s.totalStake.toNat < 2 ^ 64 := s.totalStake.toNat_lt
  rw [accounted_erase h hget rfl]
  dsimp only
  rw [UInt64.toNat_sub, UInt64.le_iff_toNat_le, eq_zero_iff]
  rcases v.bonded_cases with ⟨hr, hv⟩ | ⟨hr, hv⟩
  · simp only [hr, forall_const]
    omega
  · simp only [hr, false_implies, iff_true]
    omega

theorem accounted_bonded (h : Accounted s) (hget : s.get id = some v) {amount : UInt64}
    (hfits : s.totalStake.toNat + amount.toNat < 2 ^ 64)
    (hroom : v.stake.toNat + amount.toNat + v.delegatedStake.toNat < 2 ^ 64) :
    Accounted { s with
      validators := s.update id fun v => v.updateStake (v.stake + amount)
      totalStake := s.totalStake + amount } ↔ (v.status = .removed → amount = 0) := by
  have hparts := Validator.toNat_totalStake (v := v) (by rw [Validator.PartsFit]; omega)
  rw [accounted_update h hget rfl, (Validator.updateStake_spec hroom).2]
  dsimp only
  rw [toNat_add_of_lt hfits, eq_zero_iff]
  rcases v.bonded_cases with ⟨hr, hv⟩ | ⟨hr, hv⟩
  · simp only [hr, if_true, forall_const]
    omega
  · simp only [hr, if_false, false_implies, iff_true]
    omega

theorem accounted_delegated (h : Accounted s) (hget : s.get id = some v) {amount : UInt64}
    {delegations : Map (Bytes 32) (List Delegation)} (hstatus : v.status = .active)
    (hfits : s.totalStake.toNat + amount.toNat < 2 ^ 64)
    (hroom : v.stake.toNat + amount.toNat + v.delegatedStake.toNat < 2 ^ 64) :
    Accounted { s with
      validators := s.update id fun v => v.addDelegation amount
      totalStake := s.totalStake + amount
      delegations } := by
  have hparts := Validator.toNat_totalStake (v := v) (by rw [Validator.PartsFit]; omega)
  have hr : v.status ≠ .removed := by simp [hstatus]
  have hafter : (v.addDelegation amount).bonded = _ := Validator.bonded_of_ne hr
  rw [accounted_update h hget rfl, hafter, (Validator.addDelegation_spec hroom).2,
    Validator.bonded_of_ne hr]
  dsimp only
  rw [toNat_add_of_lt hfits]
  omega

theorem accounted_exited (h : Accounted s) (hsound : Sound s) (hget : s.get id = some v) :
    Accounted { s with
      validators := s.update id Validator.remove
      totalStake := saturatingSub s.totalStake v.stake } ↔
      (v.status ≠ .removed → v.delegatedStake = 0) ∧
      (v.status = .removed → v.stake = 0 ∨ s.totalStake = 0) := by
  have hle := h.bonded_le hget
  have hparts := Validator.toNat_totalStake (hsound.fit_of_get hget)
  have hafter : v.remove.bonded = 0 := Validator.bonded_removed rfl
  rw [accounted_update h hget rfl, hafter]
  dsimp only
  rw [toNat_saturatingSub, eq_zero_iff, eq_zero_iff, eq_zero_iff]
  rcases v.bonded_cases with ⟨hr, hv⟩ | ⟨hr, hv⟩
  · simp only [hr, ne_eq, not_true_eq_false, false_implies, true_and, forall_const]
    omega
  · simp only [hr, ne_eq, not_false_eq_true, forall_const, false_implies, and_true]
    omega

theorem accounted_slashed (h : Accounted s) (hsound : Sound s) (hget : s.get id = some v)
    {amount : UInt64} {slashingRecords : List SlashingRecord} :
    Accounted { s with
      validators := s.update id fun v => v.jail s.currentEpoch amount
      totalStake := saturatingSub s.totalStake amount
      slashingRecords } ↔
      (v.status ≠ .removed → amount ≤ v.stake ∨ s.totalStake = v.stake) ∧
      (v.status = .removed → v.delegatedStake = 0 ∧ v.stake ≤ amount ∧
        (amount = 0 ∨ s.totalStake = 0)) := by
  have hle := h.bonded_le hget
  have hparts := Validator.toNat_totalStake (hsound.fit_of_get hget)
  rw [accounted_update h hget rfl, (Validator.jail_spec (hsound.fit_of_get hget) _ _).2]
  dsimp only
  rw [toNat_saturatingSub]
  simp only [UInt64.le_iff_toNat_le, ← UInt64.toNat_inj, UInt64.toNat_zero]
  rcases v.bonded_cases with ⟨hr, hv⟩ | ⟨hr, hv⟩
  · simp only [hr, ne_eq, not_true_eq_false, false_implies, true_and, forall_const]
    omega
  · simp only [hr, ne_eq, not_false_eq_true, forall_const, false_implies, and_true]
    omega

theorem bonded_released (newEpoch : UInt64) (v : Validator) :
    (released newEpoch v).bonded = v.bonded := by
  rcases released_cases newEpoch v with heq | ⟨hjailed, heq⟩
  · rw [heq]
  · rw [heq, Validator.bonded_of_ne (by simp), Validator.bonded_of_ne (v := v) (by simp [hjailed])]
    rfl

theorem accounted_epoch (h : Accounted s) (newEpoch : UInt64) :
    Accounted { s with
      validators := s.validators.map (released newEpoch)
      currentEpoch := newEpoch } := by
  have hsame : Validator.bonded ∘ released newEpoch = Validator.bonded :=
    funext (bonded_released newEpoch)
  rw [Accounted] at h ⊢
  dsimp only
  rw [List.map_map, hsame, h]

theorem accounted_rewarded (h : Accounted s) (hsound : Sound s)
    (it : Map.Iteration (Bytes 32) UInt64)
    (hfits : s.totalStake.toNat + totalReward.toNat < 2 ^ 64)
    (hroom : ∀ v ∈ s.getActive, v.stake.toNat + (s.netReward totalReward commission v).toNat +
      v.delegatedStake.toNat < 2 ^ 64) :
    Accounted { s with
      validators := (it.entries (s.calculateRewards totalReward commission)).foldl pay s.validators
      totalStake := s.totalStake + totalReward } ↔
      (s.getActive.map fun v => (s.netReward totalReward commission v).toNat).sum =
        totalReward.toNat := by
  have hpaid := (foldl_pay (it.nodup _) hsound.fit (payable_of_entry hsound it hroom)).1
  rw [it.sum_entries _ UInt64.toNat, total_calculateRewards hsound.nodup] at hpaid
  rw [Accounted] at h ⊢
  dsimp only
  rw [hpaid, toNat_add_of_lt hfits, h]
  omega

variable (it : Map.Iteration (Bytes 32) UInt64)

/-- A call without overflow keeps the total right, and does not underflow, exactly if
it changes the total by as much as the validators. -/
theorem accounted_step (hsound : Sound s) (h : Accounted s) {op : Op} (hfits : Fits it s op) :
    (Accounted (s.step it op) ∧ NoUnderflow s op) ↔ KeepsTotal s op := by
  rcases step_cases it s op with hmove | ⟨heq, hno⟩
  · obtain ⟨hroom, hgain⟩ := hfits ⟨_, hmove⟩
    generalize s.step it op = s' at hmove ⊢
    cases hmove with
    | added _ _ _ => exact iff_of_true ⟨accounted_added h hroom, trivial⟩ trivial
    | erased hget =>
      have hiff := accounted_erased h hget
      simpa [NoUnderflow, KeepsTotal, hget] using hiff
    | bonded hget =>
      have hg := room_found hgain hget fun hid => if_pos hid
      refine Iff.trans (and_iff_left trivial) (Iff.trans (accounted_bonded h hget hroom hg) ?_)
      simp [KeepsTotal, hget]
    | unbonding hget hstatus =>
      refine iff_of_true ⟨(accounted_update h hget rfl).mpr ?_, trivial⟩ trivial
      rw [Validator.bonded_of_ne (by simp [hstatus])]
      rfl
    | exited hget hcan =>
      have hiff := accounted_exited h hsound hget
      simpa [NoUnderflow, KeepsTotal, hget, hcan] using hiff
    | delegated hget hstatus =>
      have hg := room_found hgain hget fun hid => if_pos hid
      exact iff_of_true ⟨accounted_delegated h hget hstatus hroom hg, trivial⟩ trivial
    | slashed hget =>
      refine Iff.trans (and_iff_left trivial) (Iff.trans (accounted_slashed h hsound hget) ?_)
      simp [KeepsTotal, hget]
    | epoch => exact iff_of_true ⟨accounted_epoch h _, trivial⟩ trivial
    | rewarded =>
      exact Iff.trans (and_iff_left trivial)
        (accounted_rewarded h hsound it hroom (room_active hgain))
  · rw [heq]
    cases op with
    | remove id =>
      exact iff_of_true ⟨h, fun v hget => absurd (.erased hget) (hno _)⟩
        fun v hget => absurd (.erased hget) (hno _)
    | bond id amount =>
      exact iff_of_true ⟨h, trivial⟩ fun v hget => absurd (.bonded hget) (hno _)
    | unbondComplete id =>
      exact iff_of_true ⟨h, trivial⟩ fun v hget hcan => absurd (.exited hget hcan) (hno _)
    | slash id slashType evidenceHash scaled =>
      exact iff_of_true ⟨h, trivial⟩ fun v hget => absurd (.slashed hget) (hno _)
    | distributeRewards totalReward commission => exact absurd .rewarded (hno _)
    | _ => exact iff_of_true ⟨h, trivial⟩ trivial

theorem fit_update (hsound : Sound s) (hget : s.get id = some v) (h : (f v).PartsFit) :
    ∀ w ∈ s.update id f, w.PartsFit := by
  intro w hw
  rcases Keyed.mem_update hw with hmem | ⟨v', hv', rfl⟩
  · exact hsound.fit w hmem
  · obtain rfl := Option.some.inj (hget.symm.trans hv')
    exact h

theorem sound_update (hsound : Sound s) (hget : s.get id = some v)
    (heq : s'.validators = s.update id f) (hid : ∀ v, (f v).id = v.id) (h : (f v).PartsFit) :
    Sound s' := by
  constructor
  · rw [heq, update, Keyed.map_key_update hid]
    exact hsound.nodup
  · rw [heq]
    exact fit_update hsound hget h

theorem fit_released {newEpoch : UInt64} (h : v.PartsFit) : (released newEpoch v).PartsFit := by
  rcases released_cases newEpoch v with heq | ⟨-, heq⟩
  · rwa [heq]
  · rw [heq]
    exact h

theorem sound_step (hsound : Sound s) {op : Op} (hfits : Fits it s op) : Sound (s.step it op) := by
  rcases step_cases it s op with hmove | ⟨heq, -⟩
  · obtain ⟨hroom, hgain⟩ := hfits ⟨_, hmove⟩
    generalize s.step it op = s' at hmove ⊢
    cases hmove with
    | @added id pubkey stake _ _ hnew =>
      constructor
      · exact Keyed.nodup_concat hsound.nodup hnew
      · intro w hw
        rcases List.mem_append.mp hw with hmem | hlast
        · exact hsound.fit w hmem
        · obtain rfl := List.mem_singleton.mp hlast
          exact stake.toNat_lt
    | @erased id v hget =>
      have hsub := Keyed.erase_sublist Validator.id s.validators id
      exact ⟨(hsub.map Validator.id).nodup hsound.nodup, fun w hw => hsound.fit w (hsub.subset hw)⟩
    | bonded hget =>
      have hg := room_found hgain hget fun hid => if_pos hid
      exact sound_update hsound hget rfl (fun v => v.id_updateStake _)
        (Validator.updateStake_spec hg).1
    | unbonding hget hstatus =>
      have hfit := hsound.fit_of_get hget
      exact sound_update hsound hget rfl (fun v => v.id_startUnbonding _) hfit
    | exited hget hcan =>
      have hfit := hsound.fit_of_get hget
      exact sound_update hsound hget rfl Validator.id_remove hfit
    | delegated hget hstatus =>
      have hg := room_found hgain hget fun hid => if_pos hid
      exact sound_update hsound hget rfl (fun v => v.id_addDelegation _)
        (Validator.addDelegation_spec hg).1
    | slashed hget =>
      exact sound_update hsound hget rfl (fun v => v.id_jail _ _)
        (Validator.jail_spec (hsound.fit_of_get hget) _ _).1
    | @epoch newEpoch =>
      constructor
      · rw [map_id_released]
        exact hsound.nodup
      · intro w hw
        obtain ⟨v, hv, rfl⟩ := List.mem_map.mp hw
        exact fit_released (hsound.fit v hv)
    | rewarded =>
      have hpayable := payable_of_entry hsound it (room_active hgain)
      exact ⟨by rw [ids_foldl_pay]; exact hsound.nodup,
        (foldl_pay (it.nodup _) hsound.fit hpayable).2⟩
  · rwa [heq]

-- ---------------------------------------------------------------------------
-- Runs
-- ---------------------------------------------------------------------------

theorem accounted_new : Accounted new := rfl

theorem sound_new : Sound new := ⟨.nil, fun _ hv => nomatch hv⟩

/-- In a run without overflow the total is right in every state, and no `remove`
underflows, just when every step changes the total by as much as the validators. -/
theorem total_stake_iff (run : List Op) (hfits : Trace.Always (step it) (Fits it) .new run) :
    ((∀ before, before <+: run → Accounted (Trace.exec (step it) .new before)) ∧
      Trace.Always (step it) NoUnderflow .new run) ↔
    Trace.Always (step it) KeepsTotal .new run :=
  Trace.prefixes_and_iff_always (fun _ _ hsound _ hfit => sound_step it hsound hfit)
    (fun _ _ hsound h hfit => accounted_step it hsound h hfit) sound_new accounted_new hfits

/-- A validator bonds more and leaves, and the other one gets the rewards. -/
theorem total_stake_iff_leaving :
    let it : Map.Iteration (Bytes 32) UInt64 := .ascending
    let run : List Op := [.add (.fill 32 1) 5000 (.fill 32 2), .bond (.fill 32 1) 1000,
      .add (.fill 32 3) 4000 (.fill 32 4), .unbondStart (.fill 32 1), .processEpochTransition 21,
      .unbondComplete (.fill 32 1), .distributeRewards 600 fun _ => 0]
    (∀ before, before <+: run → Accounted (Trace.exec (step it) .new before)) ∧
      Trace.Always (step it) NoUnderflow .new run := by
  intro it run
  refine (total_stake_iff it run ?_).mpr ?_
  · exact ⟨fun _ => by decide, fun _ => by decide, fun _ => by decide, fun _ => by decide,
      fun _ => by decide, fun _ => by decide, fun _ => by decide, trivial⟩
  · have hbond : ∀ v, (Trace.exec (step it) new (run.take 1)).get (.fill 32 1) = some v →
        decide (v.status ≠ .removed) = true := (Option.all_eq_true _ _).mp (by decide)
    have hexit : ∀ v, (Trace.exec (step it) new (run.take 5)).get (.fill 32 1) = some v →
        decide (v.status ≠ .removed ∧ v.delegatedStake = 0) = true :=
      (Option.all_eq_true _ _).mp (by decide)
    refine ⟨trivial, fun v hget hr => absurd hr (of_decide_eq_true (hbond v hget)), trivial,
      trivial, trivial, fun v hget _ => ?_, ?_, trivial⟩
    · obtain ⟨hstatus, hdelegated⟩ := of_decide_eq_true (hexit v hget)
      exact ⟨fun _ => hdelegated, fun hr => absurd hr hstatus⟩
    · unfold KeepsTotal
      decide

/-- A validator with a delegation leaves, and the delegation stays in the total. -/
theorem total_stake_fails :
    ¬ ∀ (it : Map.Iteration (Bytes 32) UInt64) (run : List Op),
      Trace.Always (step it) (Fits it) .new run →
        (∀ before, before <+: run → Accounted (Trace.exec (step it) .new before)) ∧
          Trace.Always (step it) NoUnderflow .new run := by
  intro h
  have hall := (h .ascending [.add (.fill 32 1) 5000 (.fill 32 2),
    .delegate (.fill 32 9) (.fill 32 1) 500, .unbondStart (.fill 32 1),
    .processEpochTransition 21, .unbondComplete (.fill 32 1)]
    ⟨fun _ => by decide, fun _ => by decide, fun _ => by decide, fun _ => by decide,
      fun _ => by decide, trivial⟩).1 _ List.prefix_rfl
  exact absurd hall (by unfold Accounted; decide)

end ValidatorSet

end LiteVision.Truth
