import EviceChain.Foundation.Actor
import EviceChain.Foundation.Air
import EviceChain.Foundation.Borsh
import EviceChain.Foundation.Broadcast
import EviceChain.Foundation.Chain
import EviceChain.Foundation.Codec
import EviceChain.Foundation.FileSystem
import EviceChain.Foundation.Hex
import EviceChain.Foundation.LockOrder
import EviceChain.Foundation.Loop
import EviceChain.Foundation.Lru
import EviceChain.Foundation.PrefixCode
import EviceChain.Foundation.Run
import EviceChain.Foundation.RwLock
import EviceChain.Foundation.Slab
import EviceChain.Foundation.SortedMap
import EviceChain.Foundation.Transaction
import EviceChain.Foundation.Varint
import EviceChain.Engine.OrderBook
import EviceChain.Engine.PriceTime
import EviceChain.Engine.Representation
import EviceChain.Engine.Matching
import EviceChain.Engine.Termination
import EviceChain.Engine.Cancel
import EviceChain.Engine.Ledger
import EviceChain.Engine.Wal
import EviceChain.Engine.Processor
import EviceChain.Engine.Recovery
import EviceChain.Engine.Durability
import EviceChain.Engine.EventStream
import EviceChain.Engine.OrderIndex
import EviceChain.Engine.Depth
import EviceChain.Engine.OrderEntry
import EviceChain.Engine.OrderDocument
import EviceChain.Engine.Execution
import EviceChain.Engine.Interfaces
import EviceChain.Engine.Service
import EviceChain.Engine.Feed
import EviceChain.Engine.Auctions
import EviceChain.Engine.Resolution
import EviceChain.Sequencer.Types
import EviceChain.Sequencer.Genesis
import EviceChain.Sequencer.GenesisOrder
import EviceChain.Sequencer.Keystore
import EviceChain.Sequencer.KeystoreFile
import EviceChain.Sequencer.QuorumCert
import EviceChain.Sequencer.SignedBytes
import EviceChain.Common.Transaction
import EviceChain.Sequencer.State
import EviceChain.Sequencer.Engine
import EviceChain.Sequencer.Network
import EviceChain.Sequencer.Script
import EviceChain.Sequencer.Admission
import EviceChain.Sequencer.Data
import EviceChain.Sequencer.Agreement
import EviceChain.Sequencer.StoredVotes
import EviceChain.Sequencer.Ordering
import EviceChain.Sequencer.Content
import EviceChain.Sequencer.Confirmed
import EviceChain.Sequencer.NoLostQuorum
import EviceChain.Sequencer.Election
import EviceChain.Sequencer.CatchUp
import EviceChain.Sequencer.Duties
import EviceChain.Sequencer.Quiescence
import EviceChain.Sequencer.Pending
import EviceChain.Sequencer.Replay
import EviceChain.Sequencer.Payloads
import EviceChain.Sequencer.Rounds
import EviceChain.Sequencer.Justified
import EviceChain.Sequencer.Backing
import EviceChain.Sequencer.Acts
import EviceChain.Sequencer.Budget
import EviceChain.Sequencer.Duplicates
import EviceChain.Sequencer.Locks
import EviceChain.Sequencer.LockProgress
import EviceChain.Sequencer.Availability
import EviceChain.P2p.Swarm
import EviceChain.P2p.Bans
import EviceChain.P2p.Slices
import EviceChain.P2p.Scores
import EviceChain.P2p.Delivery
import EviceChain.P2p.Stability
import EviceChain.P2p.PeerExchange
import EviceChain.Settlement.Rollup
import EviceChain.Settlement.RootChain
import EviceChain.Settlement.Custody
import EviceChain.Settlement.SettlementTask
import EviceChain.Prover.IntentRollupAir
import EviceChain.ZkCore.WithdrawalProof
import EviceChain.Simulator.Bundle
