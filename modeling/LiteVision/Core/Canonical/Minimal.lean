import LiteVision.Core.Canonical.RoundTrip
import LiteVision.Lib.Leb128

/-!
# Which varints are canonical

A reader stops at the first group without a mark. It takes zero groups at the end as
they come, and of a tenth group it keeps the lowest bit. So the bytes it accepts are
those of a writer only where neither of the two happens.
-/

namespace LiteVision.Core.ByteReader

open Lib Lib.Leb128 Read

variable {r r' : ByteReader} {v : UInt64}

def consumed (r r' : ByteReader) : List UInt8 := r.rest.take (r'.position - r.position)

/-- The next bytes of a reader, up to the first one without a mark. -/
def nextGroups (r : ByteReader) : List UInt8 :=
  r.rest.take ((r.rest.takeWhile fun b => b &&& 0x80 ≠ 0).length + 1)

/-- No zero group at the end, and no more than one bit in the tenth. -/
def Canonical (groups : List UInt8) : Prop :=
  Shortest groups ∧ (groups.length = 10 → groups.getLast? = some 1)

-- ---------------------------------------------------------------------------
-- What a reader accepts
-- ---------------------------------------------------------------------------

theorem mark_bit : ∀ n : Fin 256, UInt8.ofNat n &&& 0x80 = 0 ↔ n.val < 128 := by
  decide +kernel

theorem unmarked_iff (b : UInt8) : b &&& 0x80 = 0 ↔ b.toNat < 128 := by
  have hbits := mark_bit ⟨b.toNat, b.toNat_lt⟩
  rwa [UInt8.ofNat_toNat] at hbits

theorem toNat_group (b : UInt8) : (b &&& 0x7F).toUInt64.toNat = b.toNat % 128 := by
  rw [UInt8.toNat_toUInt64, UInt8.toNat_and]
  exact Nat.and_two_pow_sub_one_eq_mod _ 7

theorem toNat_or_group {result : UInt64} {shift : Nat} (hresult : result.toNat < 2 ^ shift)
    (hshift : shift < 64) (b : UInt8) :
    (result ||| ((b &&& 0x7F).toUInt64 <<< UInt64.ofNat shift)).toNat =
      (result.toNat + b.toNat % 128 * 2 ^ shift) % 2 ^ 64 := by
  rw [toNat_or_shiftLeft hresult hshift, toNat_group]

theorem readU8_ok {b : UInt8} (h : readU8 r = some (.ok b, r')) :
    r.rest = b :: r'.rest ∧ r'.position = r.position + 1 := by
  obtain ⟨bytes, s, hread, hpure⟩ := bind_eq_ok.mp h
  rw [readBytes] at hread
  split at hread
  · rename_i hbounds
    obtain ⟨hbytes, rfl⟩ := Prod.mk.inj (Option.some.inj hread)
    obtain ⟨hb, rfl⟩ := Prod.mk.inj (Option.some.inj hpure)
    have hget : r.position < r.data.length := hbounds
    have hrest : r.rest = r.data[r.position] :: r.data.drop (r.position + 1) :=
      List.drop_eq_getElem_cons hget
    refine ⟨?_, rfl⟩
    rw [hrest, ← Except.ok.inj hb, ← Except.ok.inj hbytes, List.drop_eq_getElem_cons hget]
    rfl
  · split at hread <;> cases hread

theorem loop_cases {result : UInt64} {shift : Nat}
    (h : readVarint.loop result shift r = some (.ok v, r')) :
    ∃ b s, r.rest = b :: s.rest ∧ s.position = r.position + 1 ∧
      ((b.toNat < 128 ∧ v = result ||| ((b &&& 0x7F).toUInt64 <<< UInt64.ofNat shift) ∧ r' = s) ∨
        (128 ≤ b.toNat ∧ shift + 7 < 64 ∧
          readVarint.loop (result ||| ((b &&& 0x7F).toUInt64 <<< UInt64.ofNat shift)) (shift + 7) s =
            some (.ok v, r'))) := by
  rw [readVarint.loop] at h
  obtain ⟨b, s, hbyte, hnext⟩ := bind_eq_ok.mp h
  obtain ⟨hrest, hposition⟩ := readU8_ok hbyte
  refine ⟨b, s, hrest, hposition, ?_⟩
  by_cases hmark : b &&& 0x80 = 0
  · rw [if_pos hmark] at hnext
    obtain ⟨hv, rfl⟩ := Prod.mk.inj (Option.some.inj hnext)
    exact .inl ⟨(unmarked_iff b).mp hmark, (Except.ok.inj hv).symm, rfl⟩
  · rw [if_neg hmark] at hnext
    have hmarked : 128 ≤ b.toNat := Nat.le_of_not_lt fun hlt => hmark ((unmarked_iff b).mpr hlt)
    split at hnext
    · cases hnext
    · rename_i hshift
      exact .inr ⟨hmarked, Nat.lt_of_not_le hshift, hnext⟩

/-- What a varint was read from: groups, and the number in them as far as it fits. -/
theorem loop_ok {more shift : Nat} {result : UInt64} (hshift : shift + 7 * more = 63)
    (hresult : result.toNat < 2 ^ shift)
    (h : readVarint.loop result shift r = some (.ok v, r')) :
    ∃ groups, Groups groups ∧ r.rest = groups ++ r'.rest ∧
      r'.position = r.position + groups.length ∧ groups.length ≤ more + 1 ∧
      v.toNat = (result.toNat + value groups * 2 ^ shift) % 2 ^ 64 := by
  -- by the rounds that may still come; the bits of `result` stay below the shift
  induction more generalizing r result shift with
  | zero =>
    obtain ⟨b, s, hrest, hposition, hcase⟩ := loop_cases h
    rcases hcase with ⟨hb, rfl, rfl⟩ | ⟨-, hless, -⟩
    · refine ⟨[b], .last hb, hrest, hposition, Nat.le_refl 1, ?_⟩
      rw [toNat_or_group hresult (by omega), value, value, Nat.mul_zero, Nat.add_zero]
    · omega
  | succ more ih =>
    obtain ⟨b, s, hrest, hposition, hcase⟩ := loop_cases h
    rcases hcase with ⟨hb, rfl, rfl⟩ | ⟨hb, hless, hnext⟩
    · refine ⟨[b], .last hb, hrest, hposition, Nat.le_add_left 1 _, ?_⟩
      rw [toNat_or_group hresult (by omega), value, value, Nat.mul_zero, Nat.add_zero]
    · have hgroup : b.toNat % 128 * 2 ^ shift ≤ 127 * 2 ^ shift :=
        Nat.mul_le_mul_right _ (Nat.lt_succ_iff.mp (Nat.mod_lt _ (by decide)))
      have hbelow : result.toNat + b.toNat % 128 * 2 ^ shift < 2 ^ (shift + 7) := by
        rw [Nat.pow_add]
        omega
      have hword : 2 ^ (shift + 7) ≤ 2 ^ 64 := Nat.pow_le_pow_right (by decide) (by omega)
      have hor := toNat_or_group hresult (by omega) b
      rw [Nat.mod_eq_of_lt (hbelow.trans_le hword)] at hor
      obtain ⟨groups, hgroups, hrest', hposition', hlength, hv⟩ :=
        ih (by omega) (hor.trans_lt hbelow) hnext
      refine ⟨b :: groups, .more hb hgroups, ?_, ?_, ?_, ?_⟩
      · rw [hrest, hrest', List.cons_append]
      · rw [hposition', hposition, List.length_cons]
        omega
      · rw [List.length_cons]
        omega
      · rw [hv, hor, value]
        congr 1
        ring

theorem takeWhile_marked {groups : List UInt8} (hgroups : Groups groups) (tail : List UInt8) :
    ((groups ++ tail).takeWhile fun b => b &&& 0x80 ≠ 0).length + 1 = groups.length := by
  have hwhile : (groups ++ tail).takeWhile (fun b => b &&& 0x80 ≠ 0) = groups.dropLast := by
    induction hgroups with
    | @last b hb => simp [(unmarked_iff b).mpr hb]
    | @more b bs hb hbs ih =>
      have hmark : ¬ b &&& 0x80 = 0 := fun h => Nat.not_lt.mpr hb ((unmarked_iff b).mp h)
      rw [List.cons_append, List.takeWhile_cons_of_pos (by simpa using hmark), ih,
        List.dropLast_cons_of_ne_nil hbs.ne_nil]
  have hpos := List.length_pos_iff.mpr hgroups.ne_nil
  rw [hwhile, List.length_dropLast]
  omega

theorem nextGroups_eq {groups tail : List UInt8} (hgroups : Groups groups)
    (hrest : r.rest = groups ++ tail) : r.nextGroups = groups := by
  rw [nextGroups, hrest, takeWhile_marked hgroups, List.take_left]

theorem readVarint_ok (h : readVarint r = some (.ok v, r')) :
    Groups r.nextGroups ∧ consumed r r' = r.nextGroups ∧ r.nextGroups.length ≤ 10 ∧
      v.toNat = value r.nextGroups % 2 ^ 64 := by
  obtain ⟨groups, hgroups, hrest, hposition, hlength, hv⟩ :=
    loop_ok (show 0 + 7 * 9 = 63 from rfl) (by decide) h
  rw [nextGroups_eq hgroups hrest]
  refine ⟨hgroups, ?_, hlength, ?_⟩
  · rw [consumed, hposition, Nat.add_sub_cancel_left, hrest, List.take_left]
  · simpa using hv

-- ---------------------------------------------------------------------------
-- What a writer writes
-- ---------------------------------------------------------------------------

theorem groups_varint (value : UInt64) :
    Groups (varint value) ∧ Leb128.value (varint value) = value.toNat ∧ Shortest (varint value) := by
  induction value using varint.induct with
  | case1 value val hval ih =>
    obtain ⟨hgroups, hvalue, hshort⟩ := ih
    have hlow : value.toNat % 128 < 128 := Nat.mod_lt _ (by decide)
    obtain ⟨-, -, hmark, hbits⟩ := group_bits ⟨value.toNat % 128, hlow⟩
    have hmarked := Nat.le_of_not_lt (mt (unmarked_iff _).mpr hmark)
    have hgroup : (UInt8.ofNat (value.toNat % 128) ||| 0x80).toNat % 128 = value.toNat % 128 := by
      rw [← toNat_group, hbits, UInt8.toNat_toUInt64, UInt8.toNat_ofNat', Nat.mod_eq_of_lt (by omega)]
    have hrest : val.toNat = value.toNat / 128 := ByteWriter.toNat_shiftRight value
    have hpos : 0 < val.toNat := Nat.pos_of_ne_zero fun hz => hval (UInt64.toNat_inj.mp hz)
    rw [varint, if_pos hval, low_group]
    refine ⟨.more hmarked hgroups, ?_, (shortest_more hgroups).mpr ?_⟩
    · rw [Leb128.value, hgroup, show Leb128.value (varint (value >>> 7)) = _ from hvalue, hrest]
      omega
    · exact hshort.getLast?_ne hgroups (hvalue.symm ▸ hpos)
  | case2 value val hval =>
    have hsmall : value.toNat < 128 := toNat_lt_of_shiftRight hval
    have hbyte : (UInt8.ofNat value.toNat).toNat = value.toNat := by
      rw [UInt8.toNat_ofNat', Nat.mod_eq_of_lt (by omega)]
    rw [varint, if_neg hval, low_group, Nat.mod_eq_of_lt hsmall]
    refine ⟨.last (by rwa [hbyte]), ?_, fun hlength => absurd hlength (Nat.lt_irrefl 1)⟩
    simp [Leb128.value, hsmall]

/-- The tenth group has the highest bit of a word and no other. -/
theorem canonical_iff {groups : List UInt8} (hgroups : Groups groups) (hlength : groups.length ≤ 10) :
    Canonical groups ↔ Shortest groups ∧ Leb128.value groups < 2 ^ 64 := by
  obtain ⟨last, hlast, hsmall, hlow, hhigh⟩ := value_bounds hgroups
  have htop : 128 ^ 9 * 2 = 2 ^ 64 := by decide
  unfold Canonical
  refine and_congr_right fun hshort => ?_
  by_cases hten : groups.length = 10
  · have hne : last.toNat ≠ 0 := by
      intro hz
      exact hshort (by omega) (hlast.trans (congrArg some (UInt8.toNat_inj.mp hz)))
    rw [hten] at hlow hhigh
    rw [hlast]
    constructor
    · intro h
      obtain rfl := Option.some.inj (h hten)
      exact hhigh.trans_eq ((Nat.mul_comm _ _).trans htop)
    · intro h _
      have hone : last.toNat = 1 := by omega
      exact congrArg some (UInt8.toNat_inj.mp hone)
  · refine iff_of_true (fun h => absurd h hten) ?_
    have hplaces : 128 ^ (groups.length - 1) ≤ 128 ^ 8 := Nat.pow_le_pow_right (by decide) (by omega)
    have hword : 128 * 128 ^ 8 < 2 ^ 64 := by decide
    calc Leb128.value groups < (last.toNat + 1) * 128 ^ (groups.length - 1) := hhigh
      _ ≤ 128 * 128 ^ 8 := Nat.mul_le_mul (by omega) hplaces
      _ < 2 ^ 64 := hword

/-- What a varint was read from is what is written for its value exactly if the input
is canonical there. -/
theorem canonical_varint_iff (r r' : ByteReader) (v : UInt64) (h : readVarint r = some (.ok v, r')) :
    consumed r r' = (ByteWriter.new.writeVarint v).intoBytes ↔ Canonical r.nextGroups := by
  obtain ⟨hgroups, hconsumed, hlength, hv⟩ := readVarint_ok h
  obtain ⟨hgroups', hvalue, hshort'⟩ := groups_varint v
  have hwritten : (ByteWriter.new.writeVarint v).intoBytes = varint v := by
    rw [writeVarint_eq]
    exact List.nil_append _
  rw [hconsumed, hwritten, canonical_iff hgroups hlength]
  constructor
  · intro heq
    rw [heq]
    exact ⟨hshort', hvalue.symm ▸ v.toNat_lt⟩
  · rintro ⟨hshort, hfits⟩
    rw [Nat.mod_eq_of_lt hfits] at hv
    exact hgroups.unique hshort hgroups' hshort' (hv.symm.trans hvalue.symm)

/-- Three groups and a byte after them. -/
theorem canonical_varint_iff_three_groups :
    ∃ r', readVarint (new [0x80, 0x80, 0x01, 0x2A]) = some (.ok 16384, r') ∧
      consumed (new [0x80, 0x80, 0x01, 0x2A]) r' =
        (ByteWriter.new.writeVarint 16384).intoBytes := by
  have hread : readVarint (new [0x80, 0x80, 0x01, 0x2A]) =
      some (.ok 16384, ⟨[0x80, 0x80, 0x01, 0x2A], 3, by decide⟩) := by
    rw [readVarint, readVarint.loop]
    change readVarint.loop _ _ ⟨[0x80, 0x80, 0x01, 0x2A], 1, _⟩ = _
    rw [readVarint.loop]
    change readVarint.loop _ _ ⟨[0x80, 0x80, 0x01, 0x2A], 2, _⟩ = _
    rw [readVarint.loop]
    rfl
  refine ⟨_, hread, (canonical_varint_iff _ _ _ hread).mpr ⟨fun _ => ?_, fun hten => ?_⟩⟩
  · decide
  · exact absurd hten (by decide)

theorem canonical_varint_fails :
    ¬ ∀ r r' v, readVarint r = some (.ok v, r') →
      consumed r r' = (ByteWriter.new.writeVarint v).intoBytes := by
  intro h
  have hread : readVarint (new [0x80, 0x00]) =
      some (.ok 0, ⟨[0x80, 0x00], 2, Nat.le_refl 2⟩) := by
    rw [readVarint, readVarint.loop]
    change readVarint.loop _ _ ⟨[0x80, 0x00], 1, _⟩ = _
    rw [readVarint.loop]
    rfl
  have hbytes := h _ _ _ hread
  rw [writeVarint_eq, varint] at hbytes
  exact absurd hbytes (by decide)

end LiteVision.Core.ByteReader
