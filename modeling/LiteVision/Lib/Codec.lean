import Mathlib.Data.List.Forall2
import Mathlib.Data.Set.Function
import Mathlib.Tactic.Common

/-!
# Codecs

A codec writes values and reads them back off the front of what follows. What it reads is
always what it would have written, so there is one way to write a value, and no way to
write it can be the start of another. Codecs are put together field by field.
-/

namespace LiteVision.Lib

structure Codec (ω α : Type) where
  write : α → List ω
  read : List ω → Option (α × List ω)
  /-- What has a written form: a length, say, has to fit in its word. -/
  Fits : α → Prop
  read_write {a : α} (h : Fits a) (rest : List ω) : read (write a ++ rest) = some (a, rest)
  of_read {l : List ω} {a : α} {rest : List ω} (h : read l = some (a, rest)) :
    Fits a ∧ l = write a ++ rest

namespace Codec

variable {ω α β : Type} {x : Codec ω α} {a b : α}

theorem write_append_inj (ha : x.Fits a) (hb : x.Fits b) {s t : List ω}
    (h : x.write a ++ s = x.write b ++ t) : a = b ∧ s = t := by
  have hread := x.read_write ha s
  rw [h, x.read_write hb t] at hread
  cases hread
  exact ⟨rfl, rfl⟩

theorem injOn_write (x : Codec ω α) : Set.InjOn x.write {a | x.Fits a} := by
  intro a ha b hb h
  exact (write_append_inj ha hb (congrArg (· ++ []) h)).1

theorem write_eq_write_iff (ha : x.Fits a) (hb : x.Fits b) : x.write a = x.write b ↔ a = b :=
  (injOn_write x).eq_iff ha hb

/-- One value off the front; what comes after it does not matter. -/
def decode (x : Codec ω α) (l : List ω) : Option α := (x.read l).map Prod.fst

theorem decode_write (h : x.Fits a) (rest : List ω) : x.decode (x.write a ++ rest) = some a := by
  simp [decode, x.read_write h rest]

theorem decode_eq_some_iff {l : List ω} : x.decode l = some a ↔ x.Fits a ∧ x.write a <+: l := by
  constructor
  · intro h
    obtain ⟨⟨a', rest⟩, hread, rfl⟩ := Option.map_eq_some_iff.mp h
    obtain ⟨hfits, rfl⟩ := x.of_read hread
    exact ⟨hfits, List.prefix_append _ rest⟩
  · rintro ⟨hfits, rest, rfl⟩
    exact decode_write hfits rest

theorem decode_front {part : List ω} (ha : x.Fits a) (hpart : part <+: x.write a)
    (hne : part ≠ x.write a) : x.decode part = none := by
  rw [Option.eq_none_iff_forall_ne_some]
  intro b hdecode
  obtain ⟨hb, hfront⟩ := decode_eq_some_iff.mp hdecode
  obtain ⟨rest, hrest⟩ := hfront.trans hpart
  obtain ⟨rfl, -⟩ := write_append_inj hb ha (hrest.trans (List.append_nil _).symm)
  exact hne (hpart.eq_of_length_le hfront.length_le)

-- ---------------------------------------------------------------------------
-- Putting codecs together
-- ---------------------------------------------------------------------------

def item : Codec ω ω where
  write a := [a]
  read l := l.head?.map fun a => (a, l.tail)
  Fits _ := True
  read_write _ _ := rfl
  of_read {l a rest} h := by
    cases l with
    | nil => cases h
    | cons first l =>
      cases h
      exact ⟨trivial, rfl⟩

def array (n : Nat) : Codec ω { l : List ω // l.length = n } where
  write a := a.val
  read l :=
    if h : n ≤ l.length then some (⟨l.take n, List.length_take_of_le h⟩, l.drop n) else none
  Fits _ := True
  read_write {a} _ rest := by
    have hlength : n ≤ (a.val ++ rest).length := by
      rw [List.length_append, a.property]
      exact Nat.le_add_right n rest.length
    simp only [dif_pos hlength, List.take_left' a.property, List.drop_left' a.property]
  of_read {l a rest} h := by
    split at h
    · cases h
      exact ⟨trivial, (List.take_append_drop n l).symm⟩
    · cases h

def pair (x : Codec ω α) (y : Codec ω β) : Codec ω (α × β) where
  write p := x.write p.1 ++ y.write p.2
  read l := (x.read l).bind fun first =>
    (y.read first.2).map fun second => ((first.1, second.1), second.2)
  Fits p := x.Fits p.1 ∧ y.Fits p.2
  read_write {p} h rest := by
    rw [List.append_assoc, x.read_write h.1, Option.bind_some, y.read_write h.2]
    rfl
  of_read {l p rest} h := by
    obtain ⟨⟨a, middle⟩, hx, h⟩ := Option.bind_eq_some_iff.mp h
    obtain ⟨⟨b, rest'⟩, hy, h⟩ := Option.map_eq_some_iff.mp h
    cases h
    obtain ⟨ha, rfl⟩ := x.of_read hx
    obtain ⟨hb, rfl⟩ := y.of_read hy
    exact ⟨⟨ha, hb⟩, (List.append_assoc ..).symm⟩

/-- A value that is written as another; not every other one need stand for a value. -/
def via (x : Codec ω α) (code : β → α) (ofCode : α → Option β)
    (h : ∀ a b, ofCode a = some b ↔ a = code b) : Codec ω β where
  write b := x.write (code b)
  read l := (x.read l).bind fun out => (ofCode out.1).map fun b => (b, out.2)
  Fits b := x.Fits (code b)
  read_write {b} hb rest := by
    rw [x.read_write hb, Option.bind_some, (h (code b) b).mpr rfl]
    rfl
  of_read {l b rest} hread := by
    obtain ⟨⟨a, rest'⟩, hx, hread⟩ := Option.bind_eq_some_iff.mp hread
    obtain ⟨b', hcode, hread⟩ := Option.map_eq_some_iff.mp hread
    cases hread
    obtain rfl := (h a b).mp hcode
    exact x.of_read hx

def record (x : Codec ω α) (e : β ≃ α) : Codec ω β :=
  x.via e (fun a => some (e.symm a)) fun a b => by
    rw [Option.some.injEq]
    exact ⟨fun h => (e.symm_apply_eq.mp h), fun h => (e.symm_apply_eq.mpr h)⟩

@[simp] theorem fits_record {e : β ≃ α} {c : β} : (x.record e).Fits c ↔ x.Fits (e c) := Iff.rfl

@[simp] theorem write_record (e : β ≃ α) (c : β) : (x.record e).write c = x.write (e c) := rfl

@[simp] theorem fits_pair {y : Codec ω β} {p : α × β} :
    (x.pair y).Fits p ↔ x.Fits p.1 ∧ y.Fits p.2 := Iff.rfl

@[simp] theorem write_pair (y : Codec ω β) (p : α × β) :
    (x.pair y).write p = x.write p.1 ++ y.write p.2 := rfl

def empty : Codec ω Unit where
  write _ := []
  read l := some ((), l)
  Fits _ := True
  read_write _ _ := rfl
  of_read h := ⟨trivial, (Prod.mk.inj (Option.some.inj h)).2⟩

def tagged {ι : Type} {β : ι → Type} (tag : Codec ω ι) (body : (i : ι) → Codec ω (β i)) :
    Codec ω (Σ i, β i) where
  write p := tag.write p.1 ++ (body p.1).write p.2
  read l := (tag.read l).bind fun first =>
    ((body first.1).read first.2).map fun second => (⟨first.1, second.1⟩, second.2)
  Fits p := tag.Fits p.1 ∧ (body p.1).Fits p.2
  read_write {p} h rest := by
    rw [List.append_assoc, tag.read_write h.1, Option.bind_some, (body p.1).read_write h.2]
    rfl
  of_read {l p rest} h := by
    obtain ⟨first, htag, h⟩ := Option.bind_eq_some_iff.mp h
    obtain ⟨second, hbody, h⟩ := Option.map_eq_some_iff.mp h
    cases h
    obtain ⟨hi, hl⟩ := tag.of_read htag
    obtain ⟨hb, hmiddle⟩ := (body first.1).of_read hbody
    exact ⟨⟨hi, hb⟩, by rw [hl, hmiddle, List.append_assoc]⟩

def option (tag : Codec ω Bool) (x : Codec ω α) : Codec ω (Option α) where
  write
    | none => tag.write false
    | some a => tag.write true ++ x.write a
  read l := (tag.read l).bind fun first =>
    if first.1 then (x.read first.2).map fun second => (some second.1, second.2)
    else some (none, first.2)
  Fits o := tag.Fits o.isSome ∧ ∀ a ∈ o, x.Fits a
  read_write {o} h rest := by
    cases o with
    | none =>
      have htag := tag.read_write h.1 rest
      simp only [Option.isSome_none] at htag
      simp only [htag, Option.bind_some, Bool.false_eq_true, if_false]
    | some a =>
      have htag := tag.read_write h.1 (x.write a ++ rest)
      simp only [Option.isSome_some] at htag
      simp only [List.append_assoc, htag, Option.bind_some, if_true,
        x.read_write (h.2 a rfl) rest, Option.map_some]
  of_read {l o rest} h := by
    obtain ⟨⟨present, middle⟩, htag, hvalue⟩ := Option.bind_eq_some_iff.mp h
    obtain ⟨hfits, rfl⟩ := tag.of_read htag
    cases present with
    | false =>
      cases hvalue
      exact ⟨⟨hfits, by simp⟩, rfl⟩
    | true =>
      obtain ⟨⟨a, rest'⟩, hx, hsome⟩ := Option.map_eq_some_iff.mp hvalue
      cases hsome
      obtain ⟨ha, rfl⟩ := x.of_read hx
      refine ⟨⟨hfits, ?_⟩, (List.append_assoc ..).symm⟩
      intro a' ha'
      cases ha'
      exact ha

def readMany (x : Codec ω α) : Nat → List ω → Option (List α × List ω)
  | 0, l => some ([], l)
  | n + 1, l => (x.read l).bind fun first =>
    (readMany x n first.2).map fun others => (first.1 :: others.1, others.2)

theorem readMany_flatMap {as : List α} (h : ∀ a ∈ as, x.Fits a) (rest : List ω) :
    readMany x as.length (as.flatMap x.write ++ rest) = some (as, rest) := by
  induction as with
  | nil => rfl
  | cons a as ih =>
    obtain ⟨ha, has⟩ := List.forall_mem_cons.mp h
    simp only [List.length_cons, readMany, List.flatMap_cons, List.append_assoc,
      x.read_write ha, Option.bind_some, ih has, Option.map_some]

theorem of_readMany {n : Nat} {l rest : List ω} {as : List α}
    (h : readMany x n l = some (as, rest)) :
    as.length = n ∧ (∀ a ∈ as, x.Fits a) ∧ l = as.flatMap x.write ++ rest := by
  induction n generalizing l as with
  | zero =>
    cases h
    exact ⟨rfl, by simp, rfl⟩
  | succ n ih =>
    obtain ⟨⟨a, middle⟩, hx, h⟩ := Option.bind_eq_some_iff.mp h
    obtain ⟨⟨others, rest'⟩, hothers, h⟩ := Option.map_eq_some_iff.mp h
    cases h
    obtain ⟨ha, rfl⟩ := x.of_read hx
    obtain ⟨rfl, hfits, rfl⟩ := ih hothers
    refine ⟨rfl, List.forall_mem_cons.mpr ⟨ha, hfits⟩, ?_⟩
    rw [List.flatMap_cons, List.append_assoc]

def counted (count : Codec ω Nat) (x : Codec ω α) : Codec ω (List α) where
  write as := count.write as.length ++ as.flatMap x.write
  read l := (count.read l).bind fun first => readMany x first.1 first.2
  Fits as := count.Fits as.length ∧ ∀ a ∈ as, x.Fits a
  read_write {as} h rest := by
    rw [List.append_assoc, count.read_write h.1, Option.bind_some]
    exact readMany_flatMap h.2 rest
  of_read {l as rest} h := by
    obtain ⟨⟨n, middle⟩, hcount, hmany⟩ := Option.bind_eq_some_iff.mp h
    obtain ⟨hn, rfl⟩ := count.of_read hcount
    obtain ⟨rfl, hfits, rfl⟩ := of_readMany hmany
    exact ⟨⟨hn, hfits⟩, (List.append_assoc ..).symm⟩

end Codec

end LiteVision.Lib
