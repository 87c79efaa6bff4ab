import LiteVision.Bytes
import Mathlib.Data.Set.Function

/-!
# Domain-separated hashes

`types.rs`: a hash of a domain and some data, and the seeds derived in a domain. Both
hash the domain and what follows it one after the other, without their lengths, so
they are kept apart only where no end of one domain can be taken for a start of data.
-/

namespace LiteVision.Core

def domainSeparator : List UInt8 :=
  [0x4C, 0x49, 0x54, 0x45, 0x2D, 0x56, 0x49, 0x53, 0x49, 0x4F, 0x4E]

structure DomainSeparatedHash where
  domain : List UInt8
  data : List UInt8
  output : Bytes 32
  deriving DecidableEq

namespace DomainSeparatedHash

/-- What is hashed: three updates in a row. -/
def preimage (domain data : List UInt8) : List UInt8 := domainSeparator ++ domain ++ data

def new (c : Crypto) (domain data : List UInt8) : DomainSeparatedHash where
  domain := domain
  data := data
  output := c.blake3 (preimage domain data)

def seedData (prevHash : Bytes 32) (height : UInt64) : List UInt8 :=
  prevHash.val ++ (Bytes.ofU64 height).val

def deriveSeed (c : Crypto) (domain : List UInt8) (prevHash : Bytes 32) (height : UInt64) :
    Bytes 32 :=
  c.blake3 (preimage domain (seedData prevHash height))

/-- Some bytes are the end of one domain and the start of the data of the other. -/
def Overlap (domain1 data1 domain2 data2 : List UInt8) : Prop :=
  ∃ part, part ≠ [] ∧
    ((domain1 = domain2 ++ part ∧ data2 = part ++ data1) ∨
      (domain2 = domain1 ++ part ∧ data1 = part ++ data2))

variable {domain1 data1 domain2 data2 : List UInt8}

theorem length_seedData (prevHash : Bytes 32) (height : UInt64) :
    (seedData prevHash height).length = 40 := by
  rw [seedData, List.length_append, prevHash.property, (Bytes.ofU64 height).property]

theorem preimage_inj : preimage domain1 data1 = preimage domain2 data2 ↔
    domain1 ++ data1 = domain2 ++ data2 := by
  rw [preimage, preimage, List.append_assoc, List.append_assoc, List.append_cancel_left_eq]

/-- Two pairs hash the same bytes if they are one pair, or overlap. -/
theorem append_eq_iff : domain1 ++ data1 = domain2 ++ data2 ↔
    (domain1 = domain2 ∧ data1 = data2) ∨ Overlap domain1 data1 domain2 data2 := by
  rw [List.append_eq_append_iff]
  constructor
  · rintro (⟨part, rfl, rfl⟩ | ⟨part, rfl, rfl⟩)
    · by_cases hpart : part = []
      · subst hpart
        exact .inl ⟨(List.append_nil _).symm, rfl⟩
      · exact .inr ⟨part, hpart, .inr ⟨rfl, rfl⟩⟩
    · by_cases hpart : part = []
      · subst hpart
        exact .inl ⟨List.append_nil _, rfl⟩
      · exact .inr ⟨part, hpart, .inl ⟨rfl, rfl⟩⟩
  · rintro (⟨rfl, rfl⟩ | ⟨part, -, ⟨rfl, rfl⟩ | ⟨rfl, rfl⟩⟩)
    · exact .inl ⟨[], (List.append_nil _).symm, rfl⟩
    · exact .inr ⟨part, rfl, rfl⟩
    · exact .inl ⟨part, rfl, rfl⟩

theorem not_overlap_self (domain data data' : List UInt8) : ¬ Overlap domain data domain data' := by
  rintro ⟨part, hpart, ⟨hdomain, -⟩ | ⟨hdomain, -⟩⟩
  · exact hpart (List.self_eq_append_right.mp hdomain)
  · exact hpart (List.self_eq_append_right.mp hdomain)

theorem tells_apart_iff {c : Crypto} {inputs : Set (List UInt8)}
    (hblake3 : Set.InjOn c.blake3 inputs) (h1 : preimage domain1 data1 ∈ inputs)
    (h2 : preimage domain2 data2 ∈ inputs) :
    (c.blake3 (preimage domain1 data1) = c.blake3 (preimage domain2 data2) →
        domain1 = domain2 ∧ data1 = data2) ↔
      ¬ Overlap domain1 data1 domain2 data2 := by
  rw [hblake3.eq_iff h1 h2, preimage_inj, append_eq_iff]
  constructor
  · intro h hoverlap
    obtain ⟨rfl, -⟩ := h (.inr hoverlap)
    exact not_overlap_self _ _ _ hoverlap
  · rintro h (heq | hoverlap)
    · exact heq
    · exact absurd hoverlap h

/-- As long as `blake3` has no collision among the inputs: two hashes tell their domains
and data apart, and a seed is no hash of another domain, exactly if the two do not
overlap; seeds of two domains always differ. -/
theorem domain_separation_iff (c : Crypto) (inputs : Set (List UInt8))
    (hblake3 : Set.InjOn c.blake3 inputs) :
    (∀ domain1 data1 domain2 data2, preimage domain1 data1 ∈ inputs →
      preimage domain2 data2 ∈ inputs →
      (((new c domain1 data1).output = (new c domain2 data2).output →
          domain1 = domain2 ∧ data1 = data2) ↔
        ¬ Overlap domain1 data1 domain2 data2)) ∧
    (∀ domain1 prevHash1 height1 domain2 data2, domain1 ≠ domain2 →
      preimage domain1 (seedData prevHash1 height1) ∈ inputs → preimage domain2 data2 ∈ inputs →
      (deriveSeed c domain1 prevHash1 height1 ≠ (new c domain2 data2).output ↔
        ¬ Overlap domain1 (seedData prevHash1 height1) domain2 data2)) ∧
    (∀ domain1 prevHash1 height1 domain2 prevHash2 height2, domain1 ≠ domain2 →
      preimage domain1 (seedData prevHash1 height1) ∈ inputs →
      preimage domain2 (seedData prevHash2 height2) ∈ inputs →
      deriveSeed c domain1 prevHash1 height1 ≠ deriveSeed c domain2 prevHash2 height2) := by
  refine ⟨fun _ _ _ _ h1 h2 => tells_apart_iff hblake3 h1 h2, ?_, ?_⟩
  · intro domain1 prevHash1 height1 domain2 data2 hne h1 h2
    rw [← tells_apart_iff hblake3 h1 h2]
    exact ⟨fun h heq => absurd heq h, fun h heq => hne (h heq).1⟩
  · intro domain1 prevHash1 height1 domain2 prevHash2 height2 hne h1 h2 heq
    have hbytes := preimage_inj.mp (hblake3 h1 h2 heq)
    refine hne (List.append_inj_left' hbytes ?_)
    rw [length_seedData, length_seedData]

theorem domain_separation_iff_lengths :
    let c : Crypto :=
      { blake3 := fun bytes => .fill 32 (.ofNat bytes.length), ed25519Verify := fun _ _ _ => true }
    ((new c [1] [2]).output = (new c [1] [2, 3]).output →
        ([1] : List UInt8) = [1] ∧ ([2] : List UInt8) = [2, 3]) ↔
      ¬ Overlap [1] [2] [1] [2, 3] := by
  intro c
  have hinj : Set.InjOn c.blake3 {preimage [1] [2], preimage [1] [2, 3]} := by
    rw [Set.injOn_pair]
    intro heq
    exact absurd heq (by decide)
  exact (domain_separation_iff c _ hinj).1 [1] [2] [1] [2, 3] (.inl rfl) (.inr rfl)

theorem domain_separation_fails :
    ¬ ∃ c : Crypto, ∀ domain1 data1 domain2 data2,
      (new c domain1 data1).output = (new c domain2 data2).output →
        domain1 = domain2 ∧ data1 = data2 := by
  rintro ⟨c, h⟩
  exact absurd (h [1, 2] [3] [1] [2, 3] rfl).1 (by decide)

end DomainSeparatedHash

end LiteVision.Core
