import LiteVision.Bincode
import LiteVision.Truth.Chain
import LiteVision.Truth.Sync

/-!
# Hashes of blocks

The hash of a block is of all of it, transactions and signatures included, so it tells the
block from any other. Through the parent hashes in the headers the hash of the last block
of a chain tells the chain. `bincode` comes from outside, as a codec of blocks; the format
here is such a codec.
-/

namespace LiteVision.Truth

open Lib Bincode

-- ---------------------------------------------------------------------------
-- The format
-- ---------------------------------------------------------------------------

def TransactionType.codec : Codec UInt8 TransactionType :=
  enumeration
    [.jobSubmit, .jobSettle, .artifactCommit, .operatorRegister, .operatorUpdate, .reputationUpdate,
      .escrowDeposit, .escrowRelease, .escrowRefund, .governanceVote, .transfer, .contractDeploy,
      .contractCall, .intelligenceSubmit, .intelligenceSettle]
    (fun txType => by cases txType <;> decide) (by decide) (by decide)

def Transaction.codec : Codec UInt8 Transaction :=
  ((bytes 32).pair ((bytes 32).pair (TransactionType.codec.pair (blob.pair (u64.pair
    (u64.pair blob)))))).record
    { toFun := fun tx => (tx.id, tx.sender, tx.txType, tx.payload, tx.nonce, tx.fee, tx.signature)
      invFun := fun p => ⟨p.1, p.2.1, p.2.2.1, p.2.2.2.1, p.2.2.2.2.1, p.2.2.2.2.2.1, p.2.2.2.2.2.2⟩
      left_inv := fun _ => rfl
      right_inv := fun _ => rfl }

def BlockHeader.codec : Codec UInt8 BlockHeader :=
  (u64.pair (u64.pair ((bytes 32).pair ((bytes 32).pair ((bytes 32).pair (bytes 32)))))).record
    { toFun := fun h =>
        (h.height, h.timestamp, h.parentHash, h.stateRoot, h.receiptsRoot, h.validatorSetHash)
      invFun := fun p => ⟨p.1, p.2.1, p.2.2.1, p.2.2.2.1, p.2.2.2.2.1, p.2.2.2.2.2⟩
      left_inv := fun _ => rfl
      right_inv := fun _ => rfl }

def ValidatorSignature.codec : Codec UInt8 ValidatorSignature :=
  ((bytes 32).pair blob).record
    { toFun := fun s => (s.validatorId, s.signature)
      invFun := fun p => ⟨p.1, p.2⟩
      left_inv := fun _ => rfl
      right_inv := fun _ => rfl }

def Block.codec : Codec UInt8 Block :=
  (BlockHeader.codec.pair ((vec Transaction.codec).pair (vec ValidatorSignature.codec))).record
    { toFun := fun b => (b.header, b.transactions, b.signatures)
      invFun := fun p => ⟨p.1, p.2.1, p.2.2⟩
      left_inv := fun _ => rfl
      right_inv := fun _ => rfl }

-- ---------------------------------------------------------------------------
-- What a hash tells
-- ---------------------------------------------------------------------------

def Block.hash (c : Crypto) (bincode : Codec UInt8 Block) (block : Block) : Bytes 32 :=
  c.blake3 (bincode.write block)

def SyncHeader.fromBlock (c : Crypto) (bincode : Codec UInt8 Block) (block : Block) :
    SyncHeader where
  height := block.header.height
  hash := block.hash c bincode
  parentHash := block.header.parentHash
  timestamp := block.header.timestamp
  validatorSetHash := block.header.validatorSetHash

structure LightState where
  height : UInt64
  hash : Bytes 32
  stateRoot : Bytes 32
  validatorSetHash : Bytes 32
  appHash : Bytes 32
  deriving DecidableEq

namespace LightState

def new (c : Crypto) (bincode : Codec UInt8 Block) (height : UInt64) (block : Block)
    (appHash : Bytes 32) : LightState where
  height
  hash := block.hash c bincode
  stateRoot := block.header.stateRoot
  validatorSetHash := block.header.validatorSetHash
  appHash

def verify (s other : LightState) : Bool :=
  s.height = other.height ∧ s.hash = other.hash ∧ s.stateRoot = other.stateRoot

end LightState

section

variable {c : Crypto} {bincode : Codec UInt8 Block} {inputs : Set (List UInt8)}
  {block block' : Block}

theorem Block.hash_eq_iff (hblake3 : Set.InjOn c.blake3 inputs)
    (hin : bincode.write block ∈ inputs) (hin' : bincode.write block' ∈ inputs)
    (hfits : bincode.Fits block) (hfits' : bincode.Fits block') :
    block.hash c bincode = block'.hash c bincode ↔ block = block' := by
  rw [hash, hash, hblake3.eq_iff hin hin', Codec.write_eq_write_iff hfits hfits']

/-- As long as `blake3` does not collide on the two blocks, light states verify against each
other just when they are of one height and one block, whatever their applications hash to. -/
theorem LightState.verify_iff (c : Crypto) (bincode : Codec UInt8 Block)
    (inputs : Set (List UInt8)) (hblake3 : Set.InjOn c.blake3 inputs) (block block' : Block)
    (hfits : bincode.Fits block) (hfits' : bincode.Fits block')
    (hin : {bincode.write block, bincode.write block'} ⊆ inputs) (height height' : UInt64)
    (appHash appHash' : Bytes 32) :
    (new c bincode height block appHash).verify (new c bincode height' block' appHash') = true ↔
      height = height' ∧ block = block' := by
  have hhash := Block.hash_eq_iff hblake3 (hin (.inl rfl)) (hin (.inr rfl)) hfits hfits'
  rw [verify, decide_eq_true_iff]
  constructor
  · rintro ⟨hheight, hsame, -⟩
    exact ⟨hheight, hhash.mp hsame⟩
  · rintro ⟨hheight, rfl⟩
    exact ⟨hheight, rfl, rfl⟩

end

theorem Block.fits_empty (header : BlockHeader) : codec.Fits (.new header []) := by
  simp [codec, BlockHeader.codec, ValidatorSignature.codec, Block.new]

/-- Two blocks that differ in their timestamps, which are byte 8 of what is written. -/
theorem LightState.verify_iff_blocks :
    let c : Crypto :=
      { blake3 := fun bytes => .fill 32 (bytes.getD 8 0), ed25519Verify := fun _ _ _ => true }
    let zero := Bytes.fill 32 0
    let block := Block.new ⟨1, 7, zero, zero, zero, zero⟩ []
    let block' := Block.new ⟨1, 8, zero, zero, zero, zero⟩ []
    (new c Block.codec 1 block zero).verify (new c Block.codec 1 block' zero) = false ∧
      (new c Block.codec 1 block zero).verify (new c Block.codec 1 block (.fill 32 1)) = true := by
  intro c zero block block'
  have hinj : Set.InjOn c.blake3 {Block.codec.write block, Block.codec.write block'} := by
    rw [Set.injOn_pair]
    intro heq
    exact absurd heq (by decide)
  constructor
  · rw [← Bool.not_eq_true, verify_iff c Block.codec _ hinj block block' (Block.fits_empty _)
      (Block.fits_empty _) subset_rfl]
    decide
  · rw [verify_iff c Block.codec _ hinj block block (Block.fits_empty _) (Block.fits_empty _)
      (by simp)]
    decide

-- ---------------------------------------------------------------------------
-- Chains
-- ---------------------------------------------------------------------------

namespace Block

def tipHash (c : Crypto) (bincode : Codec UInt8 Block) (parent : Bytes 32)
    (blocks : List Block) : Bytes 32 :=
  blocks.getLast?.elim parent (hash c bincode)

/-- The parent of each block is the one before it. -/
def Linked (c : Crypto) (bincode : Codec UInt8 Block) : Bytes 32 → List Block → Prop
  | _, [] => True
  | parent, block :: blocks =>
    let header := SyncHeader.fromBlock c bincode block
    header.parentHash = parent ∧ Linked c bincode header.hash blocks

variable {c : Crypto} {bincode : Codec UInt8 Block} {inputs : Set (List UInt8)}
  {parent parent' : Bytes 32} {blocks blocks' : List Block}

theorem tipHash_concat (block : Block) :
    tipHash c bincode parent (blocks ++ [block]) = block.hash c bincode := by
  simp [tipHash]

theorem tipHash_cons (block : Block) : tipHash c bincode parent (block :: blocks) =
    tipHash c bincode (block.hash c bincode) blocks := by
  cases blocks with
  | nil => rfl
  | cons next blocks => simp [tipHash, List.getLast?_cons]

theorem linked_concat (block : Block) : Linked c bincode parent (blocks ++ [block]) ↔
    Linked c bincode parent blocks ∧ block.header.parentHash = tipHash c bincode parent blocks := by
  induction blocks generalizing parent with
  | nil => simp [Linked, tipHash, SyncHeader.fromBlock]
  | cons first blocks ih =>
    rw [List.cons_append, Linked, Linked, ih, tipHash_cons, and_assoc]
    rfl

theorem eq_of_tipHash (hblake3 : Set.InjOn c.blake3 inputs)
    (hblocks : ∀ block ∈ blocks, bincode.Fits block ∧ bincode.write block ∈ inputs)
    (hblocks' : ∀ block ∈ blocks', bincode.Fits block ∧ bincode.write block ∈ inputs)
    (hlinked : Linked c bincode parent blocks) (hlinked' : Linked c bincode parent' blocks')
    (hlength : blocks.length = blocks'.length)
    (htip : tipHash c bincode parent blocks = tipHash c bincode parent' blocks') :
    parent = parent' ∧ blocks = blocks' := by
  induction blocks using List.reverseRecOn generalizing blocks' with
  | nil =>
    obtain rfl := List.eq_nil_of_length_eq_zero hlength.symm
    exact ⟨htip, rfl⟩
  | append_singleton blocks block ih =>
    rcases List.eq_nil_or_concat blocks' with rfl | ⟨blocks', block', rfl⟩
    · simp at hlength
    · rw [List.concat_eq_append] at hblocks' hlinked' hlength htip ⊢
      simp only [List.forall_mem_append, List.forall_mem_singleton] at hblocks hblocks'
      obtain ⟨hfront, hparent⟩ := (linked_concat block).mp hlinked
      obtain ⟨hfront', hparent'⟩ := (linked_concat block').mp hlinked'
      -- the last blocks have one hash, so they are one block, and have one parent
      rw [tipHash_concat, tipHash_concat, hash_eq_iff hblake3 hblocks.2.2 hblocks'.2.2
        hblocks.2.1 hblocks'.2.1] at htip
      subst htip
      obtain ⟨rfl, rfl⟩ := ih hblocks.1 hblocks'.1 hfront hfront' (by simpa using hlength)
        (hparent.symm.trans hparent')
      exact ⟨rfl, rfl⟩

theorem height_getLast {first last : Block} (hheights : ConsensusEngine.Consecutive blocks)
    (hfirst : blocks.head? = some first) (hlast : blocks.getLast? = some last) :
    last.header.height.toNat + 1 = first.header.height.toNat + blocks.length := by
  induction blocks generalizing first with
  | nil => cases hfirst
  | cons block blocks ih =>
    cases hfirst
    cases blocks with
    | nil =>
      cases hlast
      rfl
    | cons next blocks =>
      obtain ⟨hnext, hrest⟩ := List.isChain_cons_cons.mp hheights
      rw [List.getLast?_cons_cons] at hlast
      have := ih hrest rfl hlast
      simp only [List.length_cons] at this ⊢
      omega

/-- As long as `blake3` does not collide on the blocks of two chains, whose heights go up one
by one from the same height, the chains end in one hash just when they are the same. -/
theorem tipHash_eq_iff (c : Crypto) (bincode : Codec UInt8 Block) (inputs : Set (List UInt8))
    (hblake3 : Set.InjOn c.blake3 inputs) (parent parent' : Bytes 32) (first first' : Block)
    (blocks blocks' : List Block)
    (hblocks : ∀ block ∈ first :: blocks, bincode.Fits block ∧ bincode.write block ∈ inputs)
    (hblocks' : ∀ block ∈ first' :: blocks', bincode.Fits block ∧ bincode.write block ∈ inputs)
    (hlinked : Linked c bincode parent (first :: blocks))
    (hlinked' : Linked c bincode parent' (first' :: blocks'))
    (hheights : ConsensusEngine.Consecutive (first :: blocks))
    (hheights' : ConsensusEngine.Consecutive (first' :: blocks'))
    (hheight : first.header.height = first'.header.height) :
    tipHash c bincode parent (first :: blocks) = tipHash c bincode parent' (first' :: blocks') ↔
      parent = parent' ∧ first :: blocks = first' :: blocks' := by
  constructor
  · intro htip
    obtain ⟨last, hlast⟩ : ∃ last, (first :: blocks).getLast? = some last :=
      ⟨_, List.getLast?_eq_some_getLast (by simp)⟩
    obtain ⟨last', hlast'⟩ : ∃ last, (first' :: blocks').getLast? = some last :=
      ⟨_, List.getLast?_eq_some_getLast (by simp)⟩
    have hmem := List.mem_of_getLast? hlast
    have hmem' := List.mem_of_getLast? hlast'
    have hsame : last.hash c bincode = last'.hash c bincode := by
      simpa only [tipHash, hlast, hlast', Option.elim_some] using htip
    rw [hash_eq_iff hblake3 (hblocks _ hmem).2 (hblocks' _ hmem').2 (hblocks _ hmem).1
      (hblocks' _ hmem').1] at hsame
    -- the last blocks stand at one height, so the chains are of one length
    have hlength := height_getLast hheights rfl hlast
    have hlength' := height_getLast hheights' rfl hlast'
    rw [hsame, hheight] at hlength
    exact eq_of_tipHash hblake3 hblocks hblocks' hlinked hlinked' (by omega) htip
  · rintro ⟨rfl, hchains⟩
    rw [hchains]

/-- A block with one of two blocks on it. -/
theorem tipHash_eq_iff_forked :
    let c : Crypto :=
      { blake3 := fun bytes => .fill 32 (bytes.getD 0 0 + bytes.getD 8 0)
        ed25519Verify := fun _ _ _ => true }
    let zero := Bytes.fill 32 0
    let first := Block.new ⟨1, 7, zero, zero, zero, zero⟩ []
    let second := Block.new ⟨2, 8, first.hash c codec, zero, zero, zero⟩ []
    let second' := Block.new ⟨2, 9, first.hash c codec, zero, zero, zero⟩ []
    tipHash c codec zero [first, second] ≠ tipHash c codec zero [first, second'] := by
  intro c zero first second second'
  have hinj : Set.InjOn c.blake3 {codec.write first, codec.write second, codec.write second'} := by
    rintro a (rfl | rfl | rfl) b (rfl | rfl | rfl) heq
    case inl.inl => rfl
    case inr.inl.inr.inl => rfl
    case inr.inr.inr.inr => rfl
    all_goals exact absurd heq (by decide)
  have hconsecutive (block : Block) (h : block.header.height = 2) :
      ConsensusEngine.Consecutive [first, block] := by
    simp [ConsensusEngine.Consecutive, h, first, Block.new]
  have htip := tipHash_eq_iff c codec _ hinj zero zero first first [second] [second']
    (by simp [fits_empty, first, second]) (by simp [fits_empty, first, second']) ⟨rfl, rfl, trivial⟩
    ⟨rfl, rfl, trivial⟩ (hconsecutive second rfl) (hconsecutive second' rfl) rfl
  rw [ne_eq, htip]
  simp [second, second', Block.new]

end Block

end LiteVision.Truth
