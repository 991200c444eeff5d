import Arxia.Rust.Outcome
import Arxia.Rust.Refusals
import Arxia.Rust.UInt64
import Arxia.Rust.Int64
import Arxia.Rust.Collections
import Arxia.Rust.Grouping
import Arxia.Rust.Ordered
import Arxia.Rust.Counters
import Arxia.Rust.Text
import Arxia.Rust.Json
import Arxia.Rust.Bytes
import Arxia.Lists.Assoc
import Arxia.Lists.Edits
import Arxia.Lists.Slots
import Arxia.Lists.Queues
import Arxia.Lists.Seniority
import Arxia.Lists.Overlay
import Arxia.Lists.Numbered
import Arxia.Transition.Runs
import Arxia.Concurrency.Mutex
import Arxia.Order.Tournament
import Arxia.Graph.Walks
import Arxia.Graph.DepthFirst
import Arxia.Causality.Execution
import Arxia.Causality.Views
import Arxia.Causality.VectorTime
import Arxia.Causality.Contributions
import Arxia.Replication.ObservedRemove
import Arxia.Core.Error
import Arxia.Core.Crypto
import Arxia.Lattice.Block
import Arxia.Lattice.Json
import Arxia.Lattice.VectorClock
import Arxia.Lattice.Ledger
import Arxia.Lattice.History
import Arxia.Lattice.Reference
import Arxia.Lattice.Receives
import Arxia.Lattice.Rejection
import Arxia.Lattice.Accounts
import Arxia.Lattice.Supply
import Arxia.Lattice.Agreement
import Arxia.Lattice.AccountChain
import Arxia.Lattice.Network
import Arxia.Lattice.ReferenceNetwork
import Arxia.Lattice.Opening
import Arxia.Lattice.Atomicity
import Arxia.Lattice.Circulation
import Arxia.Lattice.Totals
import Arxia.Lattice.Gathering
import Arxia.Lattice.Exchange
import Arxia.Lattice.Admission
import Arxia.Lattice.Replay
import Arxia.Lattice.Serialization
import Arxia.Lattice.RoundTrip
import Arxia.Lattice.Transmission
import Arxia.Gossip.NonceRegistry
import Arxia.Finality.Assess
import Arxia.Finality.Quorum
import Arxia.Finality.Intersection
import Arxia.Finality.Insensitivity
import Arxia.Finality.Latch
import Arxia.Consensus.Conflict
import Arxia.Consensus.Enumeration
import Arxia.Consensus.Replays
import Arxia.Consensus.Decision
import Arxia.Consensus.Quorum
import Arxia.Consensus.Delegation
import Arxia.Consensus.Acceptance
import Arxia.Consensus.Depth
import Arxia.Consensus.Revocation
import Arxia.Consensus.Reuse
import Arxia.Consensus.Stakes
import Arxia.Gossip.Node
import Arxia.Gossip.Rounds
import Arxia.Gossip.Bookkeeping
import Arxia.Gossip.Duplicates
import Arxia.Gossip.Delivery
import Arxia.Gossip.DoubleSpends
import Arxia.Gossip.Mesh
import Arxia.Gossip.SignedMessage
import Arxia.Gossip.Relaying
import Arxia.Relay.Evidence
import Arxia.Relay.Credits
import Arxia.Relay.Penalties
import Arxia.Relay.Scoring
import Arxia.Relay.Rolling
import Arxia.Relay.Targets
import Arxia.Relay.Names
import Arxia.Transport.Reassembly
import Arxia.Transport.Assembly
import Arxia.Transport.Redelivery
import Arxia.Transport.Inflight
import Arxia.Transport.SignedMessage
import Arxia.Transport.Simulated
import Arxia.Contracts.Escrow
import Arxia.Contracts.Vesting
import Arxia.Contracts.TokenLock
import Arxia.Signing.Preimages
import Arxia.Signing.Domains
import Arxia.Signing.Authenticity
import Arxia.Lattice.Honesty
import Arxia.Finality.Safety
import Arxia.Consensus.Equivocation
import Arxia.Crdt.VectorClock
import Arxia.Crdt.Pruning
import Arxia.Crdt.PNCounter
import Arxia.Crdt.Convergence
import Arxia.Crdt.Reconciliation
import Arxia.Crdt.Settlement
import Arxia.Crdt.Winners
import Arxia.Crdt.Refinement
import Arxia.Crdt.Conservation
import Arxia.Crdt.Unverified
import Arxia.Crdt.Determinism
import Arxia.Crdt.Independence
import Arxia.Crdt.Incremental
import Arxia.Crdt.Books
import Arxia.Crdt.Audit
import Arxia.Crdt.Unvoted
import Arxia.Crdt.ORSet
import Arxia.Crdt.Replica
import Arxia.Crdt.Replicas
import Arxia.Storage.Memory
import Arxia.Storage.Transaction
import Arxia.Storage.Concurrent
import Arxia.Storage.Checksum
import Arxia.Identity.Did
