import EviceChain.Sequencer.Types

/-!
# The state of a consensus node (`consensus/state.rs`)

A node shares its state between tasks under three locks: the core state, the
pending proposals and the cache of recent message hashes. Maps keyed by batch
hash are functions; a missing list of votes is the empty one. The queue of
premature proposals is never filled and the table of stale requests never read,
so both are left out.
-/

namespace EviceChain.Sequencer

def maxConfirmedBatches : Nat := 256

structure CoreConsensusState where
  currentRound : UInt64
  currentStep : UInt64
  highestSeenQc : QuorumCertificate
  velocityVotes : Bytes → List VelocityVote
  processedOptimisticBatches : List Bytes
  optimisticallyConfirmedBatches : List PayloadBatch

namespace CoreConsensusState

def new (initialQc : QuorumCertificate) : CoreConsensusState :=
  ⟨0, 0, initialQc, fun _ => [], [], []⟩

/-- Drops the votes of processed batches and all but the last confirmed
batches. -/
def pruneStaleData (core : CoreConsensusState) : CoreConsensusState :=
  { core with
    velocityVotes := fun hash =>
      if hash ∈ core.processedOptimisticBatches then [] else core.velocityVotes hash
    optimisticallyConfirmedBatches :=
      core.optimisticallyConfirmedBatches.drop
        (core.optimisticallyConfirmedBatches.length - maxConfirmedBatches) }

/-- `velocity_votes.entry(hash).or_default().push(vote)`. -/
def pushVote (core : CoreConsensusState) (hash : Bytes) (vote : VelocityVote) :
    CoreConsensusState :=
  { core with
    velocityVotes := Function.update core.velocityVotes hash (core.velocityVotes hash ++ [vote]) }

end CoreConsensusState

/-- `LruCache::put`, with room for 1000 hashes. -/
def cachePut (C : Crypto) (cache : List Bytes) (hash : Bytes) : List Bytes :=
  C.lru.put 1000 cache hash

abbrev PeerId := Nat

inductive SyncRequest
  | getFullProposal (batchHash : Bytes)
deriving DecidableEq

/-- The commands that the consensus sends to the network layer. -/
inductive P2pCommand
  | broadcastConsensusMessage (msg : ConsensusMessage)
  | sendDirectRequest (destination : PeerId) (request : SyncRequest)
  | applyPenalty (peerId : PeerId) (penalty : Int)
deriving DecidableEq

end EviceChain.Sequencer
