import LiteVision.Lib.Tasks
import LiteVision.Truth.Block.Hash
import LiteVision.Truth.Staking

/-!
# The node behind the RPC server

`NodeState` keeps its blocks, its transactions and its mempool each behind a lock of its
own, and every connection has its requests handled on a task of its own. A call takes its
locks one after another, so other calls come in between: a submitted transaction is found
before it is in the mempool, an added one the other way round.
-/

namespace LiteVision.Truth.Rpc

open Lib Tasks

/-- What is behind the locks. -/
structure NodeState where
  state : State
  blocks : Map UInt64 Block
  transactions : Map (Bytes 32) Transaction
  mempool : List Transaction
  validatorSet : Staking.ValidatorSet

def NodeState.new : NodeState where
  state := .new
  blocks := .empty
  transactions := .empty
  mempool := []
  validatorSet := .new

inductive RpcRequest where
  | submitTransaction (tx : Transaction)
  | getBlock (height : UInt64)
  | getState
  | getTransaction (txHash : Bytes 32)
  | getValidatorSet
  | subscribe (eventType : String)

inductive RpcResponse where
  | submitTransaction (txHash : Bytes 32) (accepted : Bool)
  | getBlock (block : Option Block)
  | getState (state : State)
  | getTransaction (tx : Option Transaction)
  | getValidatorSet (validators : List Staking.Validator)
  | subscribe (subscriptionId : UInt64)
  | rpcError (message : String)

def txHash (c : Crypto) (bincode : Codec UInt8 Transaction) (tx : Transaction) : Bytes 32 :=
  c.blake3 (bincode.write tx)

-- ---------------------------------------------------------------------------
-- Locks and calls
-- ---------------------------------------------------------------------------

inductive Acquisition where
  | insertBlock (block : Block)
  | index (entries : List (Bytes 32 × Transaction))
  | pushMempool (tx : Transaction)
  | read
  deriving DecidableEq

inductive Call where
  | storeBlock (block : Block)
  | addTransaction (tx : Transaction)
  | handleRequest (request : RpcRequest)

namespace NodeState

/-- No acquisition has another one follow. -/
def acquire : Acquisition → NodeState → List Acquisition × NodeState
  | .insertBlock block, node =>
    ([], { node with blocks := node.blocks.insert block.header.height block })
  | .index entries, node =>
    ([], { node with
      transactions := entries.foldl (fun txs entry => txs.insert entry.1 entry.2)
        node.transactions })
  | .pushMempool tx, node => ([], { node with mempool := node.mempool ++ [tx] })
  | .read, node => ([], node)

def getBlock (node : NodeState) (height : UInt64) : Option Block := node.blocks.get height

def getTransaction (node : NodeState) (txHash : Bytes 32) : Option Transaction :=
  node.transactions.get txHash

end NodeState

namespace Call

def entries (c : Crypto) (bincode : Codec UInt8 Transaction) :
    Call → List (Bytes 32 × Transaction)
  | storeBlock block => block.transactions.map fun tx => (tx.id, tx)
  | addTransaction tx => [(tx.id, tx)]
  | handleRequest (.submitTransaction tx) => [(txHash c bincode tx, tx)]
  | handleRequest _ => []

def pool : Call → List Transaction
  | addTransaction tx | handleRequest (.submitTransaction tx) => [tx]
  | storeBlock _ | handleRequest _ => []

def acquisitions (c : Crypto) (bincode : Codec UInt8 Transaction) (call : Call) :
    List Acquisition :=
  match call with
  | storeBlock block => [.insertBlock block, .index (call.entries c bincode)]
  | addTransaction tx => [.pushMempool tx, .index (call.entries c bincode)]
  | handleRequest (.submitTransaction tx) => [.index (call.entries c bincode), .pushMempool tx]
  | handleRequest (.subscribe _) => []
  | handleRequest (.getBlock _) | handleRequest .getState | handleRequest (.getTransaction _)
  | handleRequest .getValidatorSet => [.read]

end Call

/-- The answer to a request, with what is behind the lock when the last one is taken. -/
def RpcRequest.answer (c : Crypto) (bincode : Codec UInt8 Transaction)
    (it : Map.Iteration (Bytes 32) Staking.Validator) (node : NodeState) : RpcRequest → RpcResponse
  | submitTransaction tx => .submitTransaction (txHash c bincode tx) true
  | getBlock height => .getBlock (node.getBlock height)
  | getState => .getState node.state
  | getTransaction txHash => .getTransaction (node.getTransaction txHash)
  | getValidatorSet => .getValidatorSet ((it.entries node.validatorSet.validators).map Prod.snd)
  | subscribe _ => .subscribe 0

inductive Action where
  | call (call : Call)
  | resume (task : Nat)

def Action.event (c : Crypto) (bincode : Codec UInt8 Transaction) :
    Action → System.Event Acquisition
  | .call made => .spawn (made.acquisitions c bincode)
  | .resume task => .resume task

def Action.call? : Action → Option Call
  | .call made => some made
  | .resume _ => none

def calls (actions : List Action) : List Call := actions.filterMap Action.call?

def run (c : Crypto) (bincode : Codec UInt8 Transaction) (actions : List Action) :
    Tasks.System NodeState Acquisition :=
  System.run NodeState.acquire .new (actions.map (Action.event c bincode))

-- ---------------------------------------------------------------------------
-- The mempool
-- ---------------------------------------------------------------------------

def Acquisition.pool : Acquisition → List Transaction
  | pushMempool tx => [tx]
  | insertBlock _ | index _ | read => []

/-- What the calls under way have yet to put in the mempool. -/
def pending (sys : Tasks.System NodeState Acquisition) : List Transaction :=
  sys.tasks.flatMap fun task => task.flatMap Acquisition.pool

variable {c : Crypto} {bincode : Codec UInt8 Transaction} {actions : List Action}

theorem count_pending (sys : Tasks.System NodeState Acquisition) (tx : Transaction) :
    (pending sys).count tx = sys.remaining fun a => a.pool.count tx := by
  rw [pending, List.count_flatMap, System.remaining]
  congr 1
  refine List.map_congr_left fun task _ => ?_
  rw [Function.comp_apply, List.count_flatMap]
  rfl

theorem count_acquire (tx : Transaction) (a : Acquisition) (node : NodeState) :
    (NodeState.acquire a node).2.mempool.count tx +
        ((NodeState.acquire a node).1.map fun b => b.pool.count tx).sum =
      node.mempool.count tx + a.pool.count tx := by
  cases a <;> simp [NodeState.acquire, Acquisition.pool]

theorem pool_acquisitions (c : Crypto) (bincode : Codec UInt8 Transaction) (call : Call) :
    (call.acquisitions c bincode).flatMap Acquisition.pool = call.pool := by
  cases call with
  | handleRequest request => cases request <;> rfl
  | _ => rfl

theorem count_events (actions : List Action) (tx : Transaction) :
    ((actions.map (Action.event c bincode)).map fun event =>
      (event.task.map fun a => a.pool.count tx).sum).sum =
    ((calls actions).flatMap Call.pool).count tx := by
  induction actions with
  | nil => rfl
  | cons action actions ih =>
    cases action with
    | call call =>
      have hpool := congrArg (List.count tx) (pool_acquisitions c bincode call)
      rw [List.count_flatMap] at hpool
      simp only [List.map_cons, List.sum_cons, ih, calls, List.filterMap_cons, Action.call?,
        List.flatMap_cons, List.count_append]
      exact congrArg (· + _) hpool
    | resume task =>
      simp only [List.map_cons, List.sum_cons, ih, calls, List.filterMap_cons, Action.call?]
      exact Nat.zero_add _

theorem prefix_schedule (sys : Tasks.System NodeState Acquisition)
    (event : System.Event Acquisition) :
    sys.state.mempool <+: (sys.schedule NodeState.acquire event).state.mempool := by
  cases event with
  | spawn task => exact List.prefix_rfl
  | resume i =>
    rcases System.resume_cases NodeState.acquire sys i with hsame | ⟨a, rest, hget⟩
    · rw [System.schedule, hsame]
    · rw [System.schedule, System.resume_state hget]
      cases a with
      | pushMempool tx => exact List.prefix_append _ [tx]
      | _ => exact List.prefix_rfl

/-- What was handed in is in the mempool or about to be put there. -/
theorem mempool_perm (c : Crypto) (bincode : Codec UInt8 Transaction) (actions : List Action) :
    ((run c bincode actions).state.mempool ++ pending (run c bincode actions)).Perm
      ((calls actions).flatMap Call.pool) := by
  rw [List.perm_iff_count]
  intro tx
  have hbalance := System.balance (fun node : NodeState => node.mempool.count tx)
    (fun a => a.pool.count tx) (count_acquire tx) .new (actions.map (Action.event c bincode))
  rw [count_events] at hbalance
  rw [List.count_append, count_pending]
  exact hbalance.trans (Nat.zero_add _)

/-- However calls interleave, no transaction that was handed in is lost or there twice: it is
in the mempool or about to be put there. Once all calls are through the mempool has just
what was handed in, and no transaction ever leaves it or moves in it. -/
theorem mempool_run (c : Crypto) (bincode : Codec UInt8 Transaction)
    (actions more : List Action) :
    ((run c bincode actions).state.mempool ++ pending (run c bincode actions)).Perm
        ((calls actions).flatMap Call.pool) ∧
      ((run c bincode actions).Idle →
        (run c bincode actions).state.mempool.Perm ((calls actions).flatMap Call.pool)) ∧
      (run c bincode actions).state.mempool <+: (run c bincode (actions ++ more)).state.mempool := by
  have hperm := mempool_perm c bincode actions
  refine ⟨hperm, fun hidle => ?_, ?_⟩
  · have hnone : pending (run c bincode actions) = [] := by
      rw [pending, List.flatMap_eq_nil_iff]
      intro task htask
      rw [hidle task htask]
      rfl
    rwa [hnone, List.append_nil] at hperm
  · rw [run, run, List.map_append, System.run, System.run, Trace.exec_append]
    exact Trace.invariant (I := fun sys : Tasks.System NodeState Acquisition =>
      (Trace.exec (System.schedule NodeState.acquire) ⟨.new, []⟩
        (actions.map (Action.event c bincode))).state.mempool <+: sys.state.mempool)
      (fun sys event h => h.trans (prefix_schedule sys event)) List.prefix_rfl _

end LiteVision.Truth.Rpc
