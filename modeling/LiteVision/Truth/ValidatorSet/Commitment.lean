import LiteVision.Truth.ValidatorSet.Selection

/-!
# What the hash of a validator set says

`validator_set_hash` goes over the validators in the order of their ids and takes in the id,
the stake and the power of each. Ids are distinct in every set that calls reach, so sets have
one hash just when the same ids have the same stakes and powers in both. Whether a validator
is active, jailed, unbonding or long gone is not in the hash.
-/

namespace LiteVision.Truth

open Lib

/-- What the hash takes in of one validator. -/
def Validator.share (v : Validator) : Bytes 32 × UInt64 × UInt64 := (v.id, v.stake, v.power)

def shareBytes (share : Bytes 32 × UInt64 × UInt64) : Bytes 48 :=
  ⟨share.1.val ++ ((Bytes.ofU64 share.2.1).val ++ (Bytes.ofU64 share.2.2).val), by
    simp only [List.length_append, Bytes.length_val]⟩

namespace ValidatorSet

def hashInput (s : ValidatorSet) : List UInt8 :=
  let sorted := s.validators.mergeSort fun a b => a.id ≤ b.id
  sorted.flatMap fun v => (shareBytes v.share).val

def validatorSetHash (c : Crypto) (s : ValidatorSet) : Bytes 32 := c.blake3 s.hashInput

variable {c : Crypto} {s s' : ValidatorSet} {inputs : Set (List UInt8)}

theorem shareBytes_inj : Function.Injective shareBytes := by
  rintro ⟨id, stake, power⟩ ⟨id', stake', power'⟩ h
  obtain ⟨rfl, hrest⟩ := Bytes.append_inj (congrArg Subtype.val h)
  obtain ⟨hstake, hpower⟩ := Bytes.append_inj (hrest : (Bytes.ofU64 stake).val ++ _ = _)
  obtain rfl := Bytes.ofU64_inj hstake
  obtain rfl := Bytes.ofU64_inj (Subtype.ext hpower)
  rfl

theorem hashInput_eq (s : ValidatorSet) :
    s.hashInput = (((s.validators.map Validator.share).mergeSort fun a b => a.1 ≤ b.1).map
      shareBytes).flatMap Subtype.val := by
  have hsorted : (s.validators.mergeSort fun a b => a.id ≤ b.id).map Validator.share =
      (s.validators.map Validator.share).mergeSort fun a b => a.1 ≤ b.1 :=
    List.map_mergeSort fun _ _ _ _ => rfl
  rw [← hsorted, hashInput, List.flatMap_map, List.flatMap_map]

theorem length_hashInput (s : ValidatorSet) : s.hashInput.length = s.validators.length * 48 := by
  have hlength (bytes : List (Bytes 48)) :
      (bytes.flatMap Subtype.val).length = bytes.length * 48 := by
    induction bytes with
    | nil => rfl
    | cons first bytes ih =>
      rw [List.flatMap_cons, List.length_append, ih, Bytes.length_val, List.length_cons]
      omega
  rw [hashInput_eq, hlength, List.length_map, List.length_mergeSort, List.length_map]

theorem hashInput_eq_iff (h : Table s.validators) (h' : Table s'.validators) :
    s.hashInput = s'.hashInput ↔
      ∀ id, (s.get id).map Validator.share = (s'.get id).map Validator.share := by
  have hnodup {l : List Validator} (htable : Table l) :
      ((l.map Validator.share).map Prod.fst).Nodup := by
    rw [List.map_map]
    exact htable.nodup
  have hget (s : ValidatorSet) (id : Bytes 32) :
      Keyed.find Prod.fst (s.validators.map Validator.share) id =
        (s.get id).map Validator.share :=
    Keyed.find_through (fun _ => rfl) s.validators id
  have hsorted := Keyed.mergeSort_eq_iff (hnodup h) (hnodup h')
  simp only [hget] at hsorted
  rw [← hsorted]
  constructor
  · intro heq
    have hlength := congrArg List.length heq
    rw [length_hashInput, length_hashInput] at hlength
    rw [hashInput_eq, hashInput_eq] at heq
    have hbytes := Bytes.flatMap_append_inj (s := []) (t := []) (by simp; omega)
      (congrArg (· ++ []) heq)
    exact shareBytes_inj.list_map hbytes.1
  · intro heq
    rw [hashInput_eq, hashInput_eq, heq]

/-- Calls that leave every id with its stake and power. -/
inductive Silent : Call → Prop
  | unbondStart (id : Bytes 32) : Silent (.op (.unbondStart id))
  | unbondComplete (id : Bytes 32) : Silent (.op (.unbondComplete id))
  | processEpochTransition (newEpoch : UInt64) : Silent (.op (.processEpochTransition newEpoch))
  | sortByPower : Silent .sortByPower

theorem share_update (s : ValidatorSet) {id : Bytes 32} {f : Validator → Validator}
    (hf : ∀ v, (f v).share = v.share) (j : Bytes 32) :
    (Keyed.find Validator.id (s.update id f) j).map Validator.share =
      (s.get j).map Validator.share := by
  have hid (v : Validator) : (f v).id = v.id := congrArg Prod.fst (hf v)
  rw [update, Keyed.find_update hid]
  split
  · rename_i hj
    rw [hj, Option.map_map]
    exact congrFun (congrArg Option.map (funext hf)) _
  · rfl

theorem share_call_of_silent (it : Map.Iteration (Bytes 32) UInt64) (h : Table s.validators)
    {call : Call} (hsilent : Silent call) (id : Bytes 32) :
    ((s.call it call).get id).map Validator.share = (s.get id).map Validator.share := by
  cases hsilent with
  | sortByPower =>
    rw [ValidatorSet.call, sortByPower, get, get, Keyed.find_perm h.nodup
      (List.mergeSort_perm s.validators _).symm]
  | unbondStart id' =>
    rw [ValidatorSet.call, step]
    unfold unbondStart
    split
    · rfl
    · split
      · rfl
      · exact s.share_update (f := fun v => v.startUnbonding s.currentEpoch) (fun _ => rfl) id
  | unbondComplete id' =>
    rw [ValidatorSet.call, step]
    unfold unbondComplete
    split
    · rfl
    · split
      · rfl
      · exact s.share_update (f := Validator.remove) (fun _ => rfl) id
  | processEpochTransition newEpoch =>
    have hshare (v : Validator) : (released newEpoch v).share = v.share := by
      rcases released_cases newEpoch v with heq | ⟨-, heq⟩ <;> rw [heq]
      rfl
    rw [ValidatorSet.call, step, processEpochTransition, get,
      Keyed.find_map (id_released newEpoch), Option.map_map]
    exact congrFun (congrArg Option.map (funext hshare)) _

/-- As long as `blake3` does not collide on what it is given: sets that calls reach have one hash
just when every id has the same stake and power in both or is in neither. To leave, to be
released and to be sorted changes no hash. -/
theorem validatorSetHash_iff (c : Crypto) (it it' : Map.Iteration (Bytes 32) UInt64)
    (inputs : Set (List UInt8)) (hblake3 : Set.InjOn c.blake3 inputs) (run run' : List Call)
    (hin : (Trace.exec (call it) new run).hashInput ∈ inputs)
    (hin' : (Trace.exec (call it') new run').hashInput ∈ inputs) :
    let s := Trace.exec (call it) new run
    let s' := Trace.exec (call it') new run'
    (s.validatorSetHash c = s'.validatorSetHash c ↔
      ∀ id, (s.get id).map Validator.share = (s'.get id).map Validator.share) ∧
    ∀ next, Silent next → (s.call it next).validatorSetHash c = s.validatorSetHash c := by
  intro s s'
  have htable : Table s.validators := table_exec it run
  have htable' : Table s'.validators := table_exec it' run'
  refine ⟨(hblake3.eq_iff hin hin').trans (hashInput_eq_iff htable htable'), ?_⟩
  intro next hnext
  have hinput := (hashInput_eq_iff (table_call it htable next) htable).mpr
    (share_call_of_silent it htable hnext)
  rw [validatorSetHash, hinput, validatorSetHash]

/-- One validator, and the same one with another next to it. -/
theorem validatorSetHash_iff_second :
    let c : Crypto :=
      { blake3 := fun bytes => .fill 32 (UInt8.ofNat bytes.length)
        ed25519Verify := fun _ _ _ => true }
    let first : Call := .op (.add (.fill 32 1) 1000 (.fill 32 1))
    let second : Call := .op (.add (.fill 32 2) 5000 (.fill 32 2))
    (Trace.exec (call .ascending) new [first]).validatorSetHash c ≠
      (Trace.exec (call .ascending) new [first, second]).validatorSetHash c := by
  intro c first second
  have hone := length_hashInput (Trace.exec (call .ascending) new [first])
  have htwo := length_hashInput (Trace.exec (call .ascending) new [first, second])
  have hinj : Set.InjOn c.blake3 {(Trace.exec (call .ascending) new [first]).hashInput,
      (Trace.exec (call .ascending) new [first, second]).hashInput} := by
    have hne : c.blake3 (Trace.exec (call .ascending) new [first]).hashInput ≠
        c.blake3 (Trace.exec (call .ascending) new [first, second]).hashInput := by
      simp only [c, hone, htwo]
      decide
    rintro a (rfl | rfl) b (rfl | rfl) heq
    case inl.inl => rfl
    case inr.inr => rfl
    case inl.inr => exact absurd heq hne
    case inr.inl => exact absurd heq.symm hne
  obtain ⟨hiff, -⟩ := validatorSetHash_iff c .ascending .ascending _ hinj [first] [first, second]
    (.inl rfl) (.inr rfl)
  rw [ne_eq, hiff]
  intro hshares
  exact absurd (hshares (.fill 32 2)) (by decide)

end ValidatorSet

end LiteVision.Truth
