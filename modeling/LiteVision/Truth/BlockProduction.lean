import LiteVision.Truth.Consensus
import LiteVision.Truth.State.Restored

/-!
# Proposing and finalizing blocks

`propose_block` fills a header from the state, `finalize_block` applies the
transactions of a block and moves the state on. The second does not look at the
header the first fills, and an error in the middle of a block leaves what the
transactions before it did.
-/

namespace LiteVision.Truth

open Lib State

namespace ConsensusEngine

/-- `now` is the system clock, in seconds. -/
def proposeBlock (c : Crypto) (e : ConsensusEngine) (state : State)
    (transactions : List Transaction) (parentHash : Bytes 32) (now : UInt64) : Block :=
  .new
    { height := state.height + 1
      timestamp := now
      parentHash
      stateRoot := state.stateRoot
      receiptsRoot := .fill 32 0
      validatorSetHash := e.getValidatorSetHash c }
    transactions

/-- The ids of the receipts, and the state after. -/
def finalizeBlock (c : Crypto) (state : State) (block : Block) :
    Except String (List (Bytes 32)) × State :=
  match applyBlockTransactions c block.transactions state with
  | (.error err, state) => (.error err.display, state)
  | (.ok receipts, state) =>
    (.ok ((receipts.filterMap id).map Receipt.id), state.incrementHeight.computeStateRoot c)

variable (c : Crypto)

/-- A block is refused at a transaction, or all of its transactions are accepted
and the state moves to the next height. No receipt is ever returned. -/
theorem finalizeBlock_cases (state : State) (block : Block) :
    (∃ ahead err, StopsAt c state block.transactions ahead ∧
      finalizeBlock c state block = (.error err, Trace.exec (transact c) state ahead)) ∨
    ((¬ ∃ ahead, StopsAt c state block.transactions ahead) ∧
      finalizeBlock c state block = (.ok [],
        (Trace.exec (transact c) state block.transactions).incrementHeight.computeStateRoot c)) := by
  rcases applyBlockTransactions_cases c block.transactions state with
    ⟨hall, heq⟩ | ⟨ahead, err, hstop, heq⟩
  · refine .inr ⟨?_, by simp [finalizeBlock, heq]⟩
    rintro ⟨ahead, hstop⟩
    exact hstop.not_always hall
  · exact .inl ⟨ahead, err.display, hstop, by simp only [finalizeBlock, heq]⟩

-- ---------------------------------------------------------------------------
-- Blocks that fail
-- ---------------------------------------------------------------------------

/-- An error leaves the state as it was before the call. -/
def BlockAtomic (state : State) (block : Block) : Prop :=
  (∀ err, (applyBlockTransactions c block.transactions state).1 = .error err →
    (applyBlockTransactions c block.transactions state).2 = state) ∧
  ∀ msg, (finalizeBlock c state block).1 = .error msg → (finalizeBlock c state block).2 = state

/-- A block fails without a trace just when each cell is restored by the accepted transactions
ahead of the refused one, and none of them registers an operator. -/
theorem block_atomic_iff (state : State) (block : Block) :
    BlockAtomic c state block ↔
      ∀ ahead, StopsAt c state block.transactions ahead → LeavesNoTrace c state ahead := by
  constructor
  · rintro ⟨hatomic, -⟩ ahead hstop
    rcases applyBlockTransactions_cases c block.transactions state with
      ⟨hall, -⟩ | ⟨ahead', err, hstop', heq⟩
    · exact absurd hall hstop.not_always
    · obtain rfl := hstop.unique hstop'
      have hsame := hatomic err (by rw [heq])
      rw [heq] at hsame
      exact (exec_eq_self_iff hstop.1).mp hsame
  · intro htrace
    constructor
    · intro err herr
      rcases applyBlockTransactions_cases c block.transactions state with
        ⟨-, heq⟩ | ⟨ahead, err', hstop, heq⟩
      · rw [heq] at herr
        cases herr
      · rw [heq]
        exact (exec_eq_self_iff hstop.1).mpr (htrace ahead hstop)
    · intro msg hmsg
      rcases finalizeBlock_cases c state block with ⟨ahead, err, hstop, heq⟩ | ⟨-, heq⟩
      · rw [heq]
        exact (exec_eq_self_iff hstop.1).mpr (htrace ahead hstop)
      · rw [heq] at hmsg
        cases hmsg

/-- A deposit is followed by the release of another job's escrow, which there is
none of: the block fails and the deposit stays. -/
theorem block_atomic_fails :
    ¬ ∀ (c : Crypto) (state : State) (block : Block), BlockAtomic c state block := by
  intro h
  let c := Sample.env.crypto
  have hsame := (h c .new (.new ⟨1, 0, .fill 32 0, .fill 32 0, .fill 32 0, .fill 32 0⟩
    [.newEscrowDeposit c (.fill 32 1) 1000, .newEscrowRelease c (.fill 32 2) (.fill 32 3)])).1
      .escrowNotFound (by decide)
  have hescrow := congrArg (fun s => (s.settlement.jobEscrows.get (.fill 32 1)).isSome) hsame
  revert hescrow
  decide

end ConsensusEngine

end LiteVision.Truth
