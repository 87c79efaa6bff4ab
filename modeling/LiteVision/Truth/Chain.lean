import LiteVision.Truth.BlockProduction
import Mathlib.Data.List.Chain

/-!
# Chains of blocks

The height and the root in a header place a block after one state. `finalize_block`
does not compare them with the state it changes, so the finalized blocks form a
chain only in runs where every block that goes through carries the right header,
as those of `propose_block` do.
-/

namespace LiteVision.Truth

open Lib State

namespace ConsensusEngine

/-- The header places the block right after the state. -/
def HeaderMatches (state : State) (block : Block) : Prop :=
  block.header.height = state.height + 1 ∧ block.header.stateRoot = state.stateRoot

instance (state : State) (block : Block) : Decidable (HeaderMatches state block) := by
  unfold HeaderMatches
  infer_instance

theorem proposeBlock_matches (c : Crypto) (e : ConsensusEngine) (state : State)
    (transactions : List Transaction) (parentHash : Bytes 32) (now : UInt64) :
    HeaderMatches state (proposeBlock c e state transactions parentHash now) :=
  ⟨rfl, rfl⟩

variable (c : Crypto)

def finalize (state : State) (block : Block) : State := (finalizeBlock c state block).2

/-- The blocks of a run for which `finalize_block` returned `Ok`. -/
def finalized (state : State) : List Block → List Block
  | [] => []
  | block :: blocks =>
    match (finalizeBlock c state block).1 with
    | .ok _ => block :: finalized (finalize c state block) blocks
    | .error _ => finalized (finalize c state block) blocks

/-- One of the block's transactions is refused, those ahead of it accepted. -/
def Refuses (state : State) (block : Block) : Prop :=
  ∃ ahead, StopsAt c state block.transactions ahead

/-- A block that goes through carries the right header, below the last height. -/
def InPlace (state : State) (block : Block) : Prop :=
  Refuses c state block ∨ (HeaderMatches state block ∧ state.height.toNat + 1 < 2 ^ 64)

/-- A call does not return `Ok` for a block out of place. -/
def ChecksHeader (state : State) (block : Block) : Prop :=
  ∀ ids, (finalizeBlock c state block).1 = .ok ids → HeaderMatches state block

variable {c}

theorem checksHeader_iff {state : State} {block : Block} :
    ChecksHeader c state block ↔ Refuses c state block ∨ HeaderMatches state block := by
  rcases finalizeBlock_cases c state block with ⟨ahead, err, hstop, heq⟩ | ⟨hno, heq⟩
  · refine ⟨fun _ => .inl ⟨ahead, hstop⟩, fun _ ids hok => ?_⟩
    rw [heq] at hok
    cases hok
  · refine ⟨fun h => .inr (h [] (by rw [heq])), fun h _ _ => h.resolve_left hno⟩

theorem finalize_height (state : State) (block : Block) :
    (∃ msg, (finalizeBlock c state block).1 = .error msg ∧ Refuses c state block ∧
      (finalize c state block).height = state.height) ∨
    ((finalizeBlock c state block).1 = .ok [] ∧ ¬ Refuses c state block ∧
      (finalize c state block).height = state.height + 1) := by
  rcases finalizeBlock_cases c state block with ⟨ahead, err, hstop, heq⟩ | ⟨hno, heq⟩
  · refine .inl ⟨err, by rw [heq], ⟨ahead, hstop⟩, ?_⟩
    rw [finalize, heq]
    exact (exec_view c state ahead).1
  · refine .inr ⟨by rw [heq], hno, ?_⟩
    rw [finalize, heq]
    exact congrArg (· + 1) (exec_view c state block.transactions).1

theorem finalized_heights {state : State} {blocks : List Block}
    (h : Trace.Always (finalize c) (InPlace c) state blocks) :
    (finalized c state blocks).map (fun block => block.header.height.toNat) =
      List.range' (state.height.toNat + 1) (finalized c state blocks).length := by
  induction blocks generalizing state with
  | nil => rfl
  | cons block blocks ih =>
    obtain ⟨hblock, hrest⟩ := h
    rcases finalize_height (c := c) state block with
      ⟨msg, herr, -, hheight⟩ | ⟨hok, hno, hheight⟩
    · have htail := ih hrest
      rw [hheight] at htail
      simpa only [finalized, herr] using htail
    · obtain ⟨⟨hnext, -⟩, hbound⟩ := hblock.resolve_left hno
      have hnat : (state.height + 1).toNat = state.height.toNat + 1 := by
        rw [UInt64.toNat_add, UInt64.toNat_one, Nat.mod_eq_of_lt hbound]
      have htail := ih hrest
      rw [hheight, hnat] at htail
      simp only [finalized, hok, List.map_cons, List.length_cons, List.range'_succ, hnext, hnat,
        htail]

def Consecutive (blocks : List Block) : Prop :=
  blocks.IsChain fun block next => next.header.height.toNat = block.header.height.toNat + 1

/-- In a run whose blocks are in place, `finalize_block` accepts only matching
headers, finalizes no block twice, and the heights go up one by one. -/
theorem block_chaining (state : State) (blocks : List Block)
    (h : Trace.Always (finalize c) (InPlace c) state blocks) :
    Trace.Always (finalize c) (ChecksHeader c) state blocks ∧
      (finalized c state blocks).Nodup ∧ Consecutive (finalized c state blocks) := by
  have hheights := finalized_heights h
  refine ⟨h.imp (I := fun _ => True) (fun _ _ _ _ => trivial)
    (fun _ _ _ hplace => checksHeader_iff.mpr (hplace.imp_right And.left)) trivial, ?_, ?_⟩
  · refine List.Nodup.of_map (fun block => block.header.height.toNat) ?_
    rw [hheights]
    exact List.nodup_range'
  · have hchain := List.isChain_range' (state.height.toNat + 1) (finalized c state blocks).length 1
    rw [← hheights, List.isChain_map] at hchain
    exact hchain

/-- Two empty blocks, each proposed for the state it is finalized in. -/
theorem block_chaining_two_blocks :
    let c := Sample.env.crypto
    let first := proposeBlock c (.new (Sample.validators 4) 3000) .new [] (.fill 32 0) 0
    let second := proposeBlock c (.new (Sample.validators 4) 3000) (finalize c .new first) []
      (.fill 32 1) 1
    Trace.Always (finalize c) (ChecksHeader c) .new [first, second] ∧
      (finalized c .new [first, second]).Nodup ∧ Consecutive (finalized c .new [first, second]) := by
  intro c first second
  refine block_chaining .new [first, second] ⟨.inr ⟨?_, ?_⟩, .inr ⟨?_, ?_⟩, trivial⟩
  · exact proposeBlock_matches ..
  · decide
  · exact proposeBlock_matches ..
  · decide

/-- The same empty block goes through twice, the second time with the height and
the root of a state that is gone. -/
theorem block_chaining_fails :
    ¬ ∀ (c : Crypto) (state : State) (blocks : List Block),
      Trace.Always (finalize c) (ChecksHeader c) state blocks ∧
        (finalized c state blocks).Nodup ∧ Consecutive (finalized c state blocks) := by
  intro h
  let c := Sample.env.crypto
  let block := proposeBlock c (.new (Sample.validators 4) 3000) .new [] (.fill 32 0) 0
  obtain ⟨-, hnodup, -⟩ := h c .new [block, block]
  have htwice : finalized c .new [block, block] = [block, block] := rfl
  rw [htwice] at hnodup
  simp at hnodup

end ConsensusEngine

end LiteVision.Truth
