import LiteVision.Lib.Ballot
import LiteVision.Lib.Map
import LiteVision.Lib.Trace
import LiteVision.Truth.Block
import LiteVision.Truth.Validator

/-!
# The consensus engine

The operations of `ConsensusEngine` in `consensus.rs`, as functions on the
state behind its lock. An operation returns its reply and the state it leaves.
The votes sit in a hash map, so the order of the signatures in a certificate is
the map's iteration order, which the environment chooses.

The two vote handlers check a vote before they take the write lock; the part
under the write lock is a function of its own, since another task can run in
between.
-/

namespace LiteVision.Truth

open Lib

inductive ConsensusState
  | idle
  | propose
  | preVote
  | preCommit
  | finalized
  deriving DecidableEq, Repr

inductive VoteType
  | preVote
  | preCommit
  deriving DecidableEq, Repr

theorem VoteType.eq_of_ne {t u w : VoteType} (htu : t ≠ u) (hw : w ≠ u) : w = t := by
  cases t <;> cases u <;> cases w <;> first | rfl | contradiction

structure Vote where
  validatorId : Bytes 32
  height : UInt64
  round : UInt32
  voteType : VoteType
  blockHash : Bytes 32
  signature : List UInt8
  deriving DecidableEq

structure QuorumCertificate where
  blockHash : Bytes 32
  height : UInt64
  round : UInt32
  voteType : VoteType
  signatures : List (Bytes 32 × List UInt8)
  validatorSetHash : Bytes 32
  deriving DecidableEq

namespace QuorumCertificate

def new (blockHash : Bytes 32) (height : UInt64) (round : UInt32) (voteType : VoteType)
    (validatorSetHash : Bytes 32) : QuorumCertificate where
  blockHash
  height
  round
  voteType
  signatures := []
  validatorSetHash

def addSignature (qc : QuorumCertificate) (validatorId : Bytes 32) (signature : List UInt8) :
    QuorumCertificate :=
  { qc with signatures := qc.signatures ++ [(validatorId, signature)] }

def isQuorum (qc : QuorumCertificate) (totalValidators threshold : Nat) : Bool :=
  let required := if threshold = 0 then superMajority totalValidators else threshold
  required ≤ qc.signatures.length

end QuorumCertificate

structure Consensus where
  height : UInt64
  round : UInt32
  state : ConsensusState
  proposer : Bytes 32
  lockedBlock : Option (Bytes 32)
  lockedQc : Option QuorumCertificate
  prevoteQc : Option QuorumCertificate
  precommitQc : Option QuorumCertificate
  votes : Map (Bytes 32) Vote
  lastCommitTimestamp : UInt64
  deriving DecidableEq

/-- `Consensus::default`. -/
def Consensus.initial : Consensus where
  height := 0
  round := 0
  state := .idle
  proposer := .fill 32 0
  lockedBlock := none
  lockedQc := none
  prevoteQc := none
  precommitQc := none
  votes := .empty
  lastCommitTimestamp := 0

/-- The fixed part of an engine; its `Consensus` is passed along explicitly. -/
structure ConsensusEngine where
  validators : List Validator
  threshold : Nat
  viewTimeoutMs : UInt64

/-- What an engine takes from outside. -/
structure Env where
  crypto : Crypto
  order : Map.Iteration (Bytes 32) Vote

-- ---------------------------------------------------------------------------
-- Votes in the map
-- ---------------------------------------------------------------------------

namespace Consensus

def record (s : Consensus) (vote : Vote) : Consensus :=
  { s with votes := s.votes.insert vote.validatorId vote }

/-- `votes.values().filter(|v| v.vote_type == t).count()`. -/
def countVotes (s : Consensus) (t : VoteType) : Nat :=
  s.votes.count fun v => v.voteType = t

end Consensus

-- ---------------------------------------------------------------------------
-- Operations
-- ---------------------------------------------------------------------------

namespace ConsensusEngine

def active (validators : List Validator) : List Validator :=
  validators.filter Validator.activeOrInactive

def new (validators : List Validator) (viewTimeoutMs : UInt64) : ConsensusEngine where
  validators
  threshold := superMajority (active validators).length
  viewTimeoutMs

def getValidatorSetHash (c : Crypto) (e : ConsensusEngine) : Bytes 32 :=
  c.blake3 (((e.validators.map Validator.id).mergeSort (· ≤ ·)).flatMap Subtype.val)

def getProposer (e : ConsensusEngine) (height : UInt64) (round : UInt32) : Bytes 32 :=
  let active := active e.validators
  if h : active.length = 0 then .fill 32 0
  else (active.get ⟨(height + round.toUInt64).toNat % active.length, Nat.mod_lt _ (by omega)⟩).id

def isLeader (e : ConsensusEngine) (validatorId : Bytes 32) (height : UInt64) (round : UInt32) :
    Bool :=
  e.getProposer height round = validatorId

variable (env : Env) (e : ConsensusEngine)

def startNewView (height : UInt64) (round : UInt32) (s : Consensus) : Consensus :=
  { s with
    height
    round
    state := .propose
    votes := .empty
    proposer := e.getProposer height round }

def propose (block : Block) (qc : Option QuorumCertificate) (s : Consensus) :
    Except String Block × Consensus :=
  if s.state ≠ .propose then (.error "Invalid state for proposal", s)
  else
    let s := { s with proposer := e.getProposer s.height s.round }
    let s := match qc with
      | some parentQc => { s with lockedBlock := some parentQc.blockHash, lockedQc := some parentQc }
      | none => s
    (.ok block, { s with state := .preVote })

def vote (validatorId blockHash : Bytes 32) (voteType : VoteType) (signature : List UInt8)
    (s : Consensus) : Vote where
  validatorId
  height := s.height
  round := s.round
  voteType
  blockHash
  signature

/-- The certificate a handler builds: the stored votes of its type for one block. -/
def certificate (t : VoteType) (blockHash : Bytes 32) (s : Consensus) : QuorumCertificate :=
  (env.order.entries s.votes).foldl
    (fun qc entry =>
      if entry.2.voteType = t ∧ entry.2.blockHash = blockHash then
        qc.addSignature entry.1 entry.2.signature
      else qc)
    (.new blockHash s.height s.round t (e.getValidatorSetHash env.crypto))

/-- `receive_prevote` under the write lock. -/
def recordPrevote (vote : Vote) (s : Consensus) : Option QuorumCertificate × Consensus :=
  let s := s.record vote
  if e.threshold ≤ s.countVotes .preVote then
    let qc := e.certificate env .preVote vote.blockHash s
    let s := { s with state := .preCommit, prevoteQc := some qc }
    if s.lockedBlock = none ∨ s.lockedBlock ≠ some vote.blockHash then
      (some qc, { s with lockedBlock := some vote.blockHash, lockedQc := s.prevoteQc })
    else (some qc, s)
  else (none, s)

/-- `receive_precommit` under the write lock; `now` is the system clock. -/
def recordPrecommit (vote : Vote) (now : UInt64) (s : Consensus) :
    Option QuorumCertificate × Consensus :=
  let s := s.record vote
  if e.threshold ≤ s.countVotes .preCommit then
    let qc := e.certificate env .preCommit vote.blockHash s
    (some qc, { s with state := .finalized, precommitQc := some qc, lastCommitTimestamp := now })
  else (none, s)

def receivePrevote (vote : Vote) (s : Consensus) :
    Except String (Option QuorumCertificate) × Consensus :=
  if vote.height ≠ s.height then (.error "Vote height mismatch", s)
  else if vote.round ≠ s.round then (.error "Vote round mismatch", s)
  else if vote.voteType ≠ .preVote then (.error "Invalid vote type for PreVote phase", s)
  else
    let (qc, s) := e.recordPrevote env vote s
    (.ok qc, s)

def receivePrecommit (vote : Vote) (now : UInt64) (s : Consensus) :
    Except String (Option QuorumCertificate) × Consensus :=
  if vote.height ≠ s.height then (.error "Vote height mismatch", s)
  else if vote.round ≠ s.round then (.error "Vote round mismatch", s)
  else if vote.voteType ≠ .preCommit then (.error "Invalid vote type for PreCommit phase", s)
  else
    let (qc, s) := e.recordPrecommit env vote now s
    (.ok qc, s)

def receiveVote (vote : Vote) (now : UInt64) (s : Consensus) :
    Except String (Option QuorumCertificate) × Consensus :=
  match vote.voteType with
  | .preVote => e.receivePrevote env vote s
  | .preCommit => e.receivePrecommit env vote now s

def commit (qc : QuorumCertificate) (s : Consensus) : Except String Unit × Consensus :=
  if s.state ≠ .finalized then (.error "Cannot commit: not in Finalized state", s)
  else (.ok (), { s with precommitQc := some qc, state := .idle })

def advanceToNextView (s : Consensus) : Consensus :=
  let round := s.round + 1
  { s with round, state := .propose, votes := .empty, proposer := e.getProposer s.height round }

def advanceToNextHeight (s : Consensus) : Consensus :=
  { s with
    height := s.height + 1
    round := 0
    state := .idle
    votes := .empty
    lockedBlock := none
    lockedQc := none
    prevoteQc := none
    precommitQc := none }

def hasQuorum (t : VoteType) (s : Consensus) : Bool := e.threshold ≤ s.countVotes t

end ConsensusEngine

-- ---------------------------------------------------------------------------
-- Runs
-- ---------------------------------------------------------------------------

/-- A call of the engine. `receive` is `receive_prevote` or `receive_precommit`,
by the type of vote the handler takes. -/
inductive Op
  | startNewView (height : UInt64) (round : UInt32)
  | propose (block : Block) (qc : Option QuorumCertificate)
  | receive (handler : VoteType) (vote : Vote) (now : UInt64)
  | commit (qc : QuorumCertificate)
  | advanceToNextView
  | advanceToNextHeight
  deriving DecidableEq

def delivered (ops : List Op) : List Vote :=
  ops.filterMap fun
    | .receive _ vote _ => some vote
    | _ => none

theorem mem_delivered {ops : List Op} {vote : Vote} :
    vote ∈ delivered ops ↔ ∃ t now, Op.receive t vote now ∈ ops := by
  simp only [delivered, List.mem_filterMap]
  constructor
  · rintro ⟨op, hop, heq⟩
    cases op with
    | receive t v now => simp only [Option.some.injEq] at heq; exact ⟨t, now, heq ▸ hop⟩
    | _ => simp at heq
  · rintro ⟨t, now, hop⟩; exact ⟨_, hop, rfl⟩

namespace ConsensusEngine

variable (env : Env) (e : ConsensusEngine)

def receive (handler : VoteType) (vote : Vote) (now : UInt64) (s : Consensus) :
    Except String (Option QuorumCertificate) × Consensus :=
  match handler with
  | .preVote => e.receivePrevote env vote s
  | .preCommit => e.receivePrecommit env vote now s

def step (s : Consensus) : Op → Consensus
  | .startNewView height round => e.startNewView height round s
  | .propose block qc => (e.propose block qc s).2
  | .receive handler vote now => (e.receive env handler vote now s).2
  | .commit qc => (commit qc s).2
  | .advanceToNextView => e.advanceToNextView s
  | .advanceToNextHeight => advanceToNextHeight s

end ConsensusEngine

-- ---------------------------------------------------------------------------
-- Sample inputs, after the tests of `consensus.rs`
-- ---------------------------------------------------------------------------

namespace Sample

def id (i : Nat) : Bytes 32 := ⟨UInt8.ofNat i :: List.replicate 31 0, by simp⟩

def validators (count : Nat) : List Validator :=
  (List.range count).map fun i => .new (id i) 1000 (id i)

def vote (i : Nat) (t : VoteType) (b : UInt8) : Vote where
  validatorId := id i
  height := 0
  round := 0
  voteType := t
  blockHash := .fill 32 b
  signature := List.replicate 64 (UInt8.ofNat i)

def env : Env where
  crypto := { blake3 := fun _ => .fill 32 0, ed25519Verify := fun _ _ _ => true }
  order := .ascending

end Sample

end LiteVision.Truth
