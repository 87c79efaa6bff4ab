import LiteVision.Lib.Map
import LiteVision.Lib.Trace
import LiteVision.Lib.Ballot
import LiteVision.Truth.Validator
import LiteVision.Truth.Consensus.Agreement
import LiteVision.Truth.Consensus.Interleaving
import LiteVision.Truth.Consensus.Phases
import LiteVision.Truth.Consensus.VoteOrder
import LiteVision.Truth.Settlement
import LiteVision.Truth.State
import LiteVision.Truth.State.Transactions
import LiteVision.Truth.BlockProduction
import LiteVision.Truth.Chain
import LiteVision.Truth.State.Ledger
import LiteVision.Truth.State.Restored
import LiteVision.Lib.Pairing
import LiteVision.Lib.Footprint
import LiteVision.Truth.Cryptography
import LiteVision.Truth.Cryptography.Inclusion
import LiteVision.Truth.Settlement.StakeIndex
import LiteVision.Truth.State.Operators
import LiteVision.Truth.State.Authorization
import LiteVision.Truth.State.Commitment
import LiteVision.Truth.State.Cells
import LiteVision.Truth.State.Independence
import LiteVision.Truth.State.Replay
import LiteVision.Truth.State.Encoding
import LiteVision.Truth.CrossPartition
import LiteVision.Truth.CrossPartition.Messages
import LiteVision.Truth.CrossPartition.Roots
import LiteVision.Truth.Staking
import LiteVision.Truth.Staking.Aggregates
import LiteVision.Truth.Staking.Delegations
import LiteVision.Truth.Staking.Withdrawals
import LiteVision.Truth.Staking.Exit
import LiteVision.Lib.Keyed
import LiteVision.Truth.ValidatorSet
import LiteVision.Truth.ValidatorSet.TotalStake
import LiteVision.Truth.ValidatorSet.Exit
import LiteVision.Lib.Tally
import LiteVision.Truth.Governance
import LiteVision.Truth.Governance.Votes
import LiteVision.Lib.Replication
import LiteVision.Storage.Crdt
import LiteVision.Storage.Crdt.Counters
import LiteVision.Storage.Crdt.OrSet
import LiteVision.Storage.Crdt.LastCall
import LiteVision.Storage.Crdt.Register
import LiteVision.Storage.Crdt.Graph
import LiteVision.Storage.Partitions
import LiteVision.Storage.Partitions.Quorum
import LiteVision.Storage.Partitions.Roots
import LiteVision.Storage.Partitions.Lifecycle
import LiteVision.Lib.Reading
import LiteVision.Core.Canonical
import LiteVision.Core.Canonical.RoundTrip
import LiteVision.Core.Canonical.Minimal
import LiteVision.Core.Types
import LiteVision.Intelligence.Job
import LiteVision.Intelligence.Job.Settlement
import LiteVision.Intelligence.Job.Retries
import LiteVision.Intelligence.Dispute
import LiteVision.Intelligence.Dispute.Adjudication
import LiteVision.Intelligence.Dispute.Bonds
import LiteVision.Intelligence.Dispute.Escrow
import LiteVision.Intelligence.Dispute.Lifecycle
import LiteVision.Intelligence.Routing
import LiteVision.Intelligence.Routing.Constraints
import LiteVision.Intelligence.Verification
import LiteVision.Intelligence.Verification.Finality
import LiteVision.Lib.Ranking
import LiteVision.Intelligence.Routing.Selection
import LiteVision.Observability.Replay
import LiteVision.Rpack.Container
import LiteVision.Rpack.Container.Commitment
import LiteVision.Rpack.Asset
import LiteVision.Rpack.Asset.Fetcher
import LiteVision.Lib.Acyclic
import LiteVision.Rpack.Scene
import LiteVision.Rpack.Scene.Acyclicity
import LiteVision.Observability.Redaction
import LiteVision.Observability.Redaction.NonInterference
import LiteVision.Lib.HashChain
import LiteVision.Lib.Tasks
import LiteVision.Net.P2p
import LiteVision.Net.P2p.Bans
import LiteVision.Observability.Redaction.Audit
import LiteVision.Lib.Rotation
import LiteVision.Truth.Consensus.Quorum
import LiteVision.Truth.Consensus.Rotation
import LiteVision.Truth.Settlement.Rewards
import LiteVision.Truth.Staking.Slashing
import LiteVision.Truth.State.Checked
import LiteVision.Lib.KeyList
import LiteVision.Truth.Pruning
import LiteVision.Storage.Partitions.Migration
import LiteVision.Truth.CrossPartition.GlobalRoot
import LiteVision.Truth.Cryptography.Binding
import LiteVision.Truth.Cryptography.Keys
import LiteVision.Truth.Governance.Threshold
import LiteVision.Truth.Pruning.Stats
import LiteVision.Truth.Sync
import LiteVision.Truth.ValidatorSet.Table
import LiteVision.Core.Canonical.Failure
import LiteVision.Core.Deterministic
import LiteVision.Core.Deterministic.Range
import LiteVision.Intelligence.Routing.Audit
import LiteVision.Intelligence.Routing.Kernels
import LiteVision.Intelligence.Routing.Scores
import LiteVision.Lib.Index
import LiteVision.Storage.Artifact
import LiteVision.Storage.Artifact.Index
import LiteVision.Storage.Crdt.MapMerge
import LiteVision.Storage.Crdt.Readd
import LiteVision.Storage.Crdt.Versions
import LiteVision.Intelligence.Dispute.Split
import LiteVision.Intelligence.Verification.Completion
import LiteVision.Intelligence.Verification.Redundancy
import LiteVision.Lib.Recency
import LiteVision.Net.P2p.Discovery
import LiteVision.Observability.Redaction.AppendOnly
import LiteVision.Observability.Redaction.Masking
import LiteVision.Observability.Tracing
import LiteVision.Rpack.Asset.Eviction
import LiteVision.Rpack.Asset.Order
import LiteVision.Rpack.Scene.References
import LiteVision.Bincode
import LiteVision.Lib.History
import LiteVision.Observability.Replay.Transfer
import LiteVision.Rpack.Container.Reading
import LiteVision.Truth.Block.Hash
import LiteVision.Truth.Rpc
import LiteVision.Truth.Rpc.Index
import LiteVision.Truth.Storage
import LiteVision.Truth.Storage.Persistence
import LiteVision.Truth.Storage.Crash
import LiteVision.Truth.Storage.Retention
import LiteVision.Intelligence.Metering
import LiteVision.Lib.Latch
import LiteVision.Rpack.Delta
import LiteVision.Truth.Consensus.Progress
import LiteVision.Core.Deterministic.Seeds
import LiteVision.Intelligence.Job.Executor
import LiteVision.Intelligence.Memory
import LiteVision.Intelligence.Operator
import LiteVision.Intelligence.Verification.Queue
import LiteVision.Lib.Gossip
import LiteVision.Lib.Guards
import LiteVision.Observability.Tracing.Tracer
import LiteVision.Storage.Artifact.Candidates
import LiteVision.Storage.Artifact.Integrity
import LiteVision.Storage.Crdt.AntiEntropy
import LiteVision.Truth.ValidatorSet.Commitment
