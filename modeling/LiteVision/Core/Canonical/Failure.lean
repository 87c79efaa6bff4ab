import LiteVision.Core.Canonical.Minimal

/-!
# Reads that fail

A read should take all the bytes of a value or none. A read of bytes does, if the end it
asks for is a `usize` at all. A varint is read byte by byte, so where it breaks off, or
does not end in ten bytes, those that were read are gone.
-/

namespace LiteVision.Core

open Lib Lib.Leb128 Read

/-- How many of the next bytes a value of the shape takes. -/
def Shape.width (next : List UInt8) : Shape → Nat
  | .u8 => 1
  | .u16 => 2
  | .u32 => 4
  | .u64 => 8
  | .u128 => 16
  | .i8 => 1
  | .i16 => 2
  | .i32 => 4
  | .i64 => 8
  | .i128 => 16
  | .varint => (next.takeWhile fun b => b &&& 0x80 ≠ 0).length + 1
  | .bytes count => count

namespace ByteReader

variable {α β : Type} {r r' : ByteReader} {n : Nat}

/-- The read does not panic, and it takes `n` bytes or fails and takes none. -/
def Clean (read : Read ByteReader CoreError α) (n : Nat) (r : ByteReader) : Prop :=
  ∃ result r', read r = some (result, r') ∧ r'.data = r.data ∧
    match result with
    | .ok _ => r'.position = r.position + n
    | .error _ => r'.position = r.position

/-- `position + n` is a `usize`: it is within the data, or at least not beyond all words. -/
def SumFits (r : ByteReader) (n : Nat) : Prop :=
  r.position + n ≤ r.data.length ∨ r.position + n < 2 ^ 64

/-- A varint ends within the next ten bytes, or there is no next byte; the end of any
other value is a `usize`. -/
def Safe (r : ByteReader) : Shape → Prop
  | .varint => (∃ b ∈ r.rest.take 10, b &&& 0x80 = 0) ∨ (r.rest = [] ∧ r.SumFits 1)
  | shape => r.SumFits (shape.width r.rest)

instance (r : ByteReader) (n : Nat) : Decidable (r.SumFits n) :=
  inferInstanceAs (Decidable (_ ∨ _))

-- ---------------------------------------------------------------------------
-- Bytes and words
-- ---------------------------------------------------------------------------

theorem clean_map (f : α → β) (read : Read ByteReader CoreError α) (n : Nat) (r : ByteReader) :
    Clean (read.map f) n r ↔ Clean read n r := by
  unfold Clean
  rw [map_apply]
  constructor
  · rintro ⟨result, r', hread, hdata, hposition⟩
    obtain ⟨⟨result, _⟩, hold, heq⟩ := Option.map_eq_some_iff.mp hread
    obtain ⟨rfl, rfl⟩ := Prod.mk.inj heq
    refine ⟨result, _, hold, hdata, ?_⟩
    cases result <;> exact hposition
  · rintro ⟨result, r', hread, hdata, hposition⟩
    refine ⟨result.map f, r', by rw [hread]; rfl, hdata, ?_⟩
    cases result <;> exact hposition

theorem clean_readBytes (r : ByteReader) (count : Nat) :
    Clean (readBytes count) count r ↔ r.SumFits count := by
  unfold Clean SumFits readBytes
  by_cases hbounds : r.position + count ≤ r.data.length
  · simp [hbounds]
  · simp [hbounds]

theorem clean_readLe (r : ByteReader) (n : Nat) : Clean (readLe n) n r ↔ r.SumFits n :=
  (clean_map Bytes.ofLe _ n r).trans (clean_readBytes r n)

theorem clean_word (f : Nat → α) (r : ByteReader) (n : Nat) :
    Clean ((readLe n).map f) n r ↔ r.SumFits n :=
  (clean_map f _ n r).trans (clean_readLe r n)

theorem clean_readU8 (r : ByteReader) : Clean readU8 1 r ↔ r.SumFits 1 :=
  (clean_map _ _ 1 r).trans (clean_readBytes r 1)

-- ---------------------------------------------------------------------------
-- Varints
-- ---------------------------------------------------------------------------

/-- A reader of the same data, as far or farther. -/
def Onward (r r' : ByteReader) : Prop := r'.data = r.data ∧ r.position ≤ r'.position

theorem Onward.refl (r : ByteReader) : Onward r r := ⟨rfl, Nat.le_refl _⟩

theorem Onward.trans (r r' r'' : ByteReader) (h : Onward r r') (h' : Onward r' r'') :
    Onward r r'' :=
  ⟨h'.1.trans h.1, Nat.le_trans h.2 h'.2⟩

theorem onward_readBytes (count : Nat) : Moves Onward (readBytes count) := by
  intro r result r' h
  unfold readBytes at h
  split at h
  · obtain ⟨-, rfl⟩ := Prod.mk.inj (Option.some.inj h)
    exact ⟨rfl, Nat.le_add_right _ _⟩
  · split at h
    · obtain ⟨-, rfl⟩ := Prod.mk.inj (Option.some.inj h)
      exact Onward.refl _
    · cases h

theorem onward_readU8 : Moves Onward readU8 :=
  (onward_readBytes 1).bind Onward.trans fun _ => moves_pure Onward.refl _

theorem onward_loop (result : UInt64) (shift : Nat) :
    Moves Onward (readVarint.loop result shift) := by
  induction result, shift using readVarint.loop.induct with
  | case1 result shift ih =>
    rw [readVarint.loop]
    refine onward_readU8.bind Onward.trans fun byte => ?_
    split
    · exact moves_pure Onward.refl _
    · split
      · exact moves_fail Onward.refl _
      · rename_i hshift
        exact ih byte hshift

theorem onward_readVarint {result : Except CoreError UInt64} (hne : r.rest ≠ [])
    (h : readVarint r = some (result, r')) : r'.data = r.data ∧ r.position < r'.position := by
  obtain ⟨byte, tail, hrest⟩ := List.exists_cons_of_ne_nil hne
  obtain ⟨s, hbyte, -⟩ := accepts_readU8 byte r tail hrest
  obtain ⟨-, hposition⟩ := readU8_ok hbyte
  have hdata := (onward_readU8 r _ s hbyte).1
  have hmoves : Onward s r' := by
    rw [readVarint, readVarint.loop] at h
    simp only [Read.bind, hbyte] at h
    split at h
    · exact moves_pure Onward.refl _ s result r' h
    · split at h
      · exact moves_fail Onward.refl _ s result r' h
      · exact onward_loop _ _ s result r' h
  refine ⟨hmoves.1.trans hdata, ?_⟩
  have hle := hmoves.2
  omega

theorem groups_of_end {bytes : List UInt8} {n : Nat} (h : ∃ b ∈ bytes.take n, b &&& 0x80 = 0) :
    ∃ groups tail, bytes = groups ++ tail ∧ Groups groups ∧ groups.length ≤ n := by
  induction bytes generalizing n with
  | nil =>
    obtain ⟨b, hb, -⟩ := h
    simp at hb
  | cons c bytes ih =>
    cases n with
    | zero =>
      obtain ⟨b, hb, -⟩ := h
      simp at hb
    | succ n =>
      by_cases hc : c &&& 0x80 = 0
      · exact ⟨[c], bytes, rfl, .last ((unmarked_iff c).mp hc), Nat.le_add_left 1 n⟩
      · obtain ⟨b, hb, hend⟩ := h
        rw [List.take_succ_cons] at hb
        rcases List.mem_cons.mp hb with rfl | hmem
        · exact absurd hend hc
        · obtain ⟨groups, tail, rfl, hgroups, hlength⟩ := ih ⟨b, hmem, hend⟩
          have hmarked := Nat.le_of_not_lt (mt (unmarked_iff c).mpr hc)
          exact ⟨c :: groups, tail, rfl, .more hmarked hgroups, Nat.succ_le_succ hlength⟩

theorem Groups.exists_end {groups : List UInt8} (h : Groups groups) :
    ∃ b ∈ groups, b &&& 0x80 = 0 := by
  induction h with
  | @last b hb => exact ⟨b, List.mem_cons_self, (unmarked_iff b).mpr hb⟩
  | more _ _ ih =>
    obtain ⟨b, hb, hend⟩ := ih
    exact ⟨b, List.mem_cons_of_mem _ hb, hend⟩

theorem accepts_groups {groups : List UInt8} (hgroups : Groups groups) (result : UInt64)
    {shift : Nat} (hshift : shift + 7 * groups.length ≤ 70) :
    ∃ value, Accepts rest (readVarint.loop result shift) groups value := by
  induction hgroups generalizing result shift with
  | @last b hb => exact ⟨_, accepts_loop_last ((unmarked_iff b).mpr hb) result shift⟩
  | @more b groups hb hgroups ih =>
    have hpos := List.length_pos_iff.mpr hgroups.ne_nil
    rw [List.length_cons] at hshift
    have hmore : shift + 7 + 7 * groups.length ≤ 70 := by omega
    obtain ⟨value, hvalue⟩ := ih (result ||| ((b &&& 0x7F).toUInt64 <<< UInt64.ofNat shift)) hmore
    have hmark : b &&& 0x80 ≠ 0 := fun h => Nat.not_lt.mpr hb ((unmarked_iff b).mp h)
    exact ⟨value, accepts_loop_more hmark (by omega) hvalue⟩

theorem clean_readVarint_nil (hrest : r.rest = []) :
    Clean readVarint n r ↔ r.SumFits 1 := by
  constructor
  · rintro ⟨result, r', hread, -⟩
    by_contra hfits
    have hnone : readU8 r = none := by
      obtain ⟨hout, hbeyond⟩ := not_or.mp hfits
      rw [readU8, map_apply, readBytes, dif_neg hout, if_neg hbeyond]
      rfl
    rw [readVarint, readVarint.loop] at hread
    simp only [Read.bind, hnone] at hread
    cases hread
  · intro hfits
    obtain ⟨result, r', hread, hsame⟩ := (clean_readU8 r).mpr hfits
    cases result with
    | ok b =>
      have hbyte := (readU8_ok hread).1
      rw [hrest] at hbyte
      cases hbyte
    | error e =>
      refine ⟨.error e, r', ?_, hsame⟩
      rw [readVarint, readVarint.loop]
      simp only [Read.bind, hread]

theorem end_of_readVarint {v : UInt64} (hread : readVarint r = some (.ok v, r')) :
    ∃ b ∈ r.rest.take 10, b &&& 0x80 = 0 := by
  obtain ⟨groups, hgroups, hsplit, -, hlength, -⟩ :=
    loop_ok (show 0 + 7 * 9 = 63 from rfl) (by decide) hread
  obtain ⟨b, hb, hend⟩ := Groups.exists_end hgroups
  have hfirst : groups <+: r.rest.take 10 :=
    List.prefix_take_iff.mpr ⟨hsplit ▸ List.prefix_append groups r'.rest, hlength⟩
  exact ⟨b, hfirst.subset hb, hend⟩

theorem clean_readVarint_of_end (hend : ∃ b ∈ r.rest.take 10, b &&& 0x80 = 0) :
    Clean readVarint (Shape.varint.width r.rest) r := by
  obtain ⟨groups, tail, hrest, hgroups, hlength⟩ := groups_of_end hend
  obtain ⟨value, hvalue⟩ := accepts_groups hgroups 0 (show 0 + 7 * groups.length ≤ 70 by omega)
  obtain ⟨r', hread, -⟩ := hvalue r tail hrest
  obtain ⟨taken, htaken, hsplit, hposition, -, -⟩ :=
    loop_ok (show 0 + 7 * 9 = 63 from rfl) (by decide) hread
  refine ⟨_, r', hread, (onward_loop 0 0 r _ r' hread).1, ?_⟩
  rw [Shape.width, hsplit, takeWhile_marked htaken]
  exact hposition

theorem clean_readVarint (r : ByteReader) :
    Clean readVarint (Shape.varint.width r.rest) r ↔ r.Safe .varint := by
  constructor
  · intro hclean
    by_cases hrest : r.rest = []
    · exact .inr ⟨hrest, (clean_readVarint_nil hrest).mp hclean⟩
    · obtain ⟨result, r', hread, -, hposition⟩ := hclean
      left
      cases result with
      | error e =>
        have hgone := (onward_readVarint hrest hread).2
        exact absurd hposition (Nat.ne_of_gt hgone)
      | ok v => exact end_of_readVarint hread
  · rintro (hend | ⟨hrest, hfits⟩)
    · exact clean_readVarint_of_end hend
    · exact (clean_readVarint_nil hrest).mpr hfits

-- ---------------------------------------------------------------------------
-- Every read
-- ---------------------------------------------------------------------------

/-- A read takes the bytes of a value, or fails and takes none, just when its end is a
`usize` and a varint ends within ten bytes, or has no first one. -/
theorem failed_reads_iff (r : ByteReader) (shape : Shape) :
    Clean (read shape) (shape.width r.rest) r ↔ r.Safe shape := by
  cases shape with
  | u8 => exact (clean_map _ _ 1 r).trans (clean_readU8 r)
  | u16 => exact (clean_map _ _ 2 r).trans (clean_word _ r 2)
  | u32 => exact (clean_map _ _ 4 r).trans (clean_word _ r 4)
  | u64 => exact (clean_map _ _ 8 r).trans (clean_word _ r 8)
  | u128 => exact (clean_map _ _ 16 r).trans (clean_word _ r 16)
  | i8 => exact (clean_map _ _ 1 r).trans ((clean_map _ _ 1 r).trans (clean_readU8 r))
  | i16 => exact (clean_map _ _ 2 r).trans ((clean_map _ _ 2 r).trans (clean_word _ r 2))
  | i32 => exact (clean_map _ _ 4 r).trans ((clean_map _ _ 4 r).trans (clean_word _ r 4))
  | i64 => exact (clean_map _ _ 8 r).trans ((clean_map _ _ 8 r).trans (clean_word _ r 8))
  | i128 => exact (clean_map _ _ 16 r).trans ((clean_map _ _ 16 r).trans (clean_word _ r 16))
  | varint => exact (clean_map _ _ _ r).trans (clean_readVarint r)
  | bytes count => exact (clean_map _ _ count r).trans (clean_readBytes r count)

theorem safe_of_length {r : ByteReader} {shape : Shape} (hlength : r.data.length < 2 ^ 63)
    (hvarint : shape ≠ .varint) (hbytes : ∀ count, shape ≠ .bytes count) : r.Safe shape := by
  have hin := r.inBounds
  have hfits : ∀ n, n ≤ 16 → r.SumFits n := fun n hn => .inr (by omega)
  cases shape with
  | varint => exact absurd rfl hvarint
  | bytes count => exact absurd rfl (hbytes count)
  | _ => exact hfits _ (by simp [Shape.width])

/-- A varint that breaks off after its first byte, and a count up to the largest `usize`
behind one byte. -/
theorem failed_reads_fails :
    ¬ Clean (read .varint) (Shape.varint.width [0x80]) (new [0x80]) ∧
      ¬ Clean (read (.bytes (2 ^ 64 - 1))) (2 ^ 64 - 1) ⟨[0], 1, Nat.le_refl 1⟩ := by
  constructor
  · intro h
    have hsafe := (clean_readVarint (new [0x80])).mp ((clean_map Item.varint _ _ _).mp h)
    rcases hsafe with ⟨b, hb, hend⟩ | ⟨hrest, -⟩
    · obtain rfl : b = 0x80 := by simpa [rest, new] using hb
      exact absurd hend (by decide)
    · cases hrest
  · intro h
    have hfits := (clean_readBytes _ _).mp ((clean_map Item.bytes _ _ _).mp h)
    exact absurd hfits (by decide)

end ByteReader

end LiteVision.Core
