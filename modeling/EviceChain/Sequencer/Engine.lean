import EviceChain.Sequencer.State

/-!
# The consensus engine (`consensus/engine.rs`)

Every message is handled by a task of its own, the proposer runs as a further
task, and the driver starts and aborts it. Tasks interleave wherever one gives
up a lock or waits. A `Task` is therefore a handler at one of these points, and
`exec` runs it up to the next: what it does in between is atomic. The address
book does not change while a node runs, so looking something up in it needs no
point of its own.

The driver reads the core state and decides (`tick`), and only then writes it
(`advance`). An aborted task goes on until it waits and is gone then; when it is
about to broadcast a certificate it has already recorded the confirmation.

Sending on a channel appends to `outbox`. `voted`, `proposed` and `history`
record the past of the node: the batches it has signed a vote for, those it has
signed as proposer and those it has confirmed. No code reads them.
-/

namespace EviceChain.Sequencer

/-- What a node is started with. -/
structure Config (C : Crypto) where
  myAddress : Address
  signingKeys : C.KeyPair
  vrfKeys : C.VrfKeys
  addressBook : AddressBook
  subCommitteeSize : Nat

/-- A handler at a point where it can be interrupted. -/
inductive Task
  /-- `handle_consensus_message`, before the first and the second look at the cache. -/
  | receive (msg : ConsensusMessage) (sourcePeer : PeerId)
  | recheck (msg : ConsensusMessage) (sourcePeer : PeerId)
  /-- `handle_batch_proposal`. -/
  | insertProposal (batch : PayloadBatch)
  | castVote (batch : PayloadBatch)
  | sendVote (vote : VelocityVote)
  /-- `process_votes_for_batch` and `prune_confirmed_proposals`. -/
  | processVotes (batchHash : Bytes)
  | collectConfirmed
  | pruneProposals (confirmedHashes : List Bytes)
  /-- `handle_velocity_vote`. -/
  | checkVote (vote : VelocityVote)
  | storeVote (vote : VelocityVote)
  /-- `handle_new_quorum_certificate`. -/
  | anchorQc (qc : QuorumCertificate) (sourcePeer : PeerId)
  | requestBatch (batchHash : Bytes) (sourcePeer : PeerId)
  /-- `handle_round_step` and `run_proposer_flow`. -/
  | roundStep (round step : UInt64)
  | readParent (round : UInt64)
  | drainMempool (round : UInt64) (parentQc : QuorumCertificate)
  | buildBatch (round : UInt64) (parentQc : QuorumCertificate) (payloads : List AppPayload)
  | insertOwn (batch : PayloadBatch)
  | announce (batch : PayloadBatch)
  | selfVote (batch : PayloadBatch)
deriving DecidableEq

/-- Who may end a task: nobody, or the driver, which so far has not or has. -/
inductive TaskKind
  | handler
  | step
  | aborted
deriving DecidableEq

structure Node where
  core : CoreConsensusState
  pendingProposals : Bytes → Option PendingBatch
  recentlyProcessedHashes : List Bytes
  mempool : List AppPayload
  tasks : List (TaskKind × Task)
  /-- The round and step that the driver is about to start. -/
  driver : Option (UInt64 × UInt64)
  outbox : List P2pCommand
  voted : List PayloadBatch
  proposed : List PayloadBatch
  history : List PayloadBatch

def Node.new (initialQc : QuorumCertificate) : Node :=
  ⟨.new initialQc, fun _ => none, [], [], [], none, [], [], [], []⟩

variable {C : Crypto}

def Node.send (node : Node) (cmd : P2pCommand) : Node :=
  { node with outbox := node.outbox ++ [cmd] }

def Node.broadcast (node : Node) (msg : ConsensusMessage) : Node :=
  node.send (.broadcastConsensusMessage msg)

/-- The messages that a node has broadcast. -/
def Node.broadcasts (node : Node) : List ConsensusMessage :=
  node.outbox.filterMap fun
    | .broadcastConsensusMessage msg => some msg
    | _ => none

/-- The certificates among them. -/
def Node.certificates (node : Node) : List QuorumCertificate :=
  node.broadcasts.filterMap fun
    | .newQuorumCertificate qc => some qc
    | _ => none

/-- `pending_proposals.insert`. -/
def Node.insertPending (C : Crypto) (node : Node) (batch : PayloadBatch) : Node :=
  { node with
    pendingProposals :=
      Function.update node.pendingProposals (batch.hash C) (some batch.toPending) }

/-- `pending_proposals.remove` for each of the hashes. -/
def Node.removePending (node : Node) (hashes : List Bytes) : Node :=
  { node with
    pendingProposals := fun hash =>
      if hash ∈ hashes then none else node.pendingProposals hash }

/-! ## Votes -/

/-- The vote a node signs for a batch, as receiver or as proposer. -/
def ownVote (cfg : Config C) (batch : PayloadBatch) : VelocityVote :=
  signVote C cfg.signingKeys cfg.myAddress batch.round (batch.hash C)

/-- Pushes the node's own vote, without a look at the votes that are there. -/
def Node.vote (cfg : Config C) (node : Node) (batch : PayloadBatch) : Node :=
  { node with
    core := node.core.pushVote (batch.hash C) (ownVote cfg batch)
    voted := node.voted ++ [batch] }

/-- The certificate of a batch that reached its quorum: all stored votes, under
the round of the pending proposal. -/
def buildQc (node : Node) (batchHash : Bytes) (batch : PendingBatch) : QuorumCertificate :=
  ⟨batchHash, batch.round,
    (node.core.velocityVotes batchHash).map fun vote => (vote.voterAddress, vote.signature)⟩

/-- The batch that `process_votes_for_batch` is about to confirm, if it is. -/
def readyBatch (cfg : Config C) (node : Node) (batchHash : Bytes) : Option PendingBatch :=
  if batchHash ∈ node.core.processedOptimisticBatches then none
  else if requiredQuorum cfg.addressBook.size ≤ (node.core.velocityVotes batchHash).length then
    node.pendingProposals batchHash
  else none

/-- The confirmation up to the broadcast of the certificate. -/
def Node.confirm (node : Node) (batchHash : Bytes) (batch : PendingBatch) : Node :=
  let qc := buildQc node batchHash batch
  { node with
    core := { node.core with
      processedOptimisticBatches := batchHash :: node.core.processedOptimisticBatches
      optimisticallyConfirmedBatches :=
        node.core.optimisticallyConfirmedBatches ++ [batch.toPayload]
      highestSeenQc :=
        if qc.viewNumber > node.core.highestSeenQc.viewNumber then qc
        else node.core.highestSeenQc }
    history := node.history ++ [batch.toPayload] }

/-- The broadcast, and what follows under the same lock. -/
def Node.certify (node : Node) (qc : QuorumCertificate) : Node :=
  let node := node.broadcast (.newQuorumCertificate qc)
  { node with core := node.core.pruneStaleData }

/-! ## The proposer -/

def maxPayloads : Nat := 100

/-- The seed of the election: the VRF output of the certified batch, if the node
has confirmed it, and its hash otherwise. -/
def electionSeed (C : Crypto) (core : CoreConsensusState) : Bytes :=
  match core.optimisticallyConfirmedBatches.reverse.find?
      (·.hash C = core.highestSeenQc.batchHash) with
  | some batch => batch.header.vrfOutput
  | none => core.highestSeenQc.batchHash

def determineSubCommittee (cfg : Config C) (round : UInt64) (seedHash : Bytes) : List Address :=
  let sorted := cfg.addressBook.addresses.insertionSort fun a b => a.1 ≤ b.1
  (C.shuffle (C.sha256 (seedHash ++ beBytes round)) sorted).take cfg.subCommitteeSize

/-- The batch that the proposer signs on top of its last confirmed one. -/
def newBatch (cfg : Config C) (core : CoreConsensusState) (round : UInt64)
    (parentQc : QuorumCertificate) (payloads : List AppPayload) (now : UInt64) : PayloadBatch :=
  let (prevIndex, prevHash) :=
    match core.optimisticallyConfirmedBatches.getLast? with
    | some latest => (latest.header.index, latest.hash C)
    | none => (0, List.replicate 32 0)
  let (vrfOutput, vrfProof) := C.vrfSign cfg.vrfKeys prevHash
  let header : BatchHeader :=
    { index := prevIndex + 1, prevHash, timestamp := now
      payloadsRoot := calculatePayloadsRoot C payloads
      authority := cfg.myAddress, vrfOutput, vrfProof, signature := [] }
  let signature := C.sign cfg.signingKeys header.canonicalBytesForSigning
  ⟨{ header with signature }, payloads, parentQc, round⟩

/-! ## Running a task to its next point -/

/-- The node after the task has run, and the point at which it stopped unless it
has ended. `now` is the clock of the proposer. -/
def exec (cfg : Config C) (now : UInt64) (node : Node) : Task → Node × Option Task
  | .receive msg sourcePeer =>
    if C.messageHash msg ∈ node.recentlyProcessedHashes then (node, none)
    else (node, some (.recheck msg sourcePeer))
  | .recheck msg sourcePeer =>
    if C.messageHash msg ∈ node.recentlyProcessedHashes then (node, none)
    else
      ({ node with
          recentlyProcessedHashes := cachePut C node.recentlyProcessedHashes (C.messageHash msg) },
        match msg with
        | .intentBatchProposal batch => some (.insertProposal batch)
        | .velocityVoteMsg vote => some (.checkVote vote)
        | .newQuorumCertificate qc => some (.anchorQc qc sourcePeer))
  | .insertProposal batch =>
    if !verifyBatchSignature C cfg.addressBook batch.header then (node, none)
    else if (node.pendingProposals (batch.hash C)).isSome then (node, none)
    else (node.insertPending C batch, some (.castVote batch))
  | .castVote batch => (node.vote cfg batch, some (.sendVote (ownVote cfg batch)))
  | .sendVote vote =>
    (node.broadcast (.velocityVoteMsg vote), some (.processVotes vote.batchHash))
  | .processVotes batchHash =>
    match readyBatch cfg node batchHash with
    | none => (node, none)
    | some batch =>
      ((node.confirm batchHash batch).certify (buildQc node batchHash batch),
        some .collectConfirmed)
  | .collectConfirmed => (node, some (.pruneProposals node.core.processedOptimisticBatches))
  | .pruneProposals confirmedHashes => (node.removePending confirmedHashes, none)
  | .checkVote vote =>
    if vote.batchHash ∈ node.core.processedOptimisticBatches then (node, none)
    else (node, some (.storeVote vote))
  | .storeVote vote =>
    if !verifyVoteSignature C cfg.addressBook vote.voterAddress vote.roundId vote.batchHash
        vote.signature then (node, none)
    else
      let known := (node.core.velocityVotes vote.batchHash).any
        (·.voterAddress = vote.voterAddress)
      (if known then node else { node with core := node.core.pushVote vote.batchHash vote },
        some (.processVotes vote.batchHash))
  | .anchorQc qc sourcePeer =>
    if !isFullyValid C cfg.addressBook qc then (node.send (.applyPenalty sourcePeer (-50)), none)
    else if qc.viewNumber > node.core.highestSeenQc.viewNumber then
      ({ node with core := { node.core with highestSeenQc := qc } },
        if (node.pendingProposals qc.batchHash).isSome then none
        else some (.requestBatch qc.batchHash sourcePeer))
    else (node, none)
  | .requestBatch batchHash sourcePeer =>
    (node.send (.sendDirectRequest sourcePeer (.getFullProposal batchHash)), none)
  | .roundStep round step =>
    if node.core.currentRound ≠ round ∨ node.core.currentStep ≠ step then (node, none)
    else
      match (determineSubCommittee cfg round (electionSeed C node.core))[step.toNat]? with
      | none => (node, none)
      | some proposer =>
        (node, if cfg.myAddress = proposer then some (.readParent round) else none)
  | .readParent round => (node, some (.drainMempool round node.core.highestSeenQc))
  | .drainMempool round parentQc =>
    ({ node with mempool := node.mempool.drop maxPayloads },
      some (.buildBatch round parentQc (node.mempool.take maxPayloads)))
  | .buildBatch round parentQc payloads =>
    let batch := newBatch cfg node.core round parentQc payloads now
    ({ node with proposed := node.proposed ++ [batch] }, some (.insertOwn batch))
  | .insertOwn batch => (node.insertPending C batch, some (.announce batch))
  | .announce batch => (node.broadcast (.intentBatchProposal batch), some (.selfVote batch))
  | .selfVote batch => (node.vote cfg batch, some (.processVotes (batch.hash C)))

/-! ## What can happen at a node -/

inductive Action
  /-- A message arrives, by gossip or by a direct request or response. -/
  | deliver (msg : ConsensusMessage) (sourcePeer : PeerId)
  /-- The application adds a payload to the mempool. -/
  | submit (payload : AppPayload)
  /-- The driver looks at the state; `timedOut` says whether the step has run out. -/
  | tick (timedOut : Bool)
  /-- The driver starts the round and step it has decided on. -/
  | advance
  /-- The `k`-th task runs to its next point. -/
  | run (k : Nat) (now : UInt64)
  /-- The `k`-th task has been aborted and ends here, or (`midway`) while it
  broadcasts a certificate. -/
  | cancel (k : Nat) (midway : Bool)
deriving DecidableEq

/-- The round and step to start next, if any. -/
def nextStep (cfg : Config C) (core : CoreConsensusState) (timedOut : Bool) :
    Option (UInt64 × UInt64) :=
  if core.highestSeenQc.viewNumber ≥ core.currentRound then
    some (core.highestSeenQc.viewNumber + 1, 0)
  else if timedOut then
    let nextStep := core.currentStep + 1
    if cfg.subCommitteeSize ≤ nextStep.toNat then some (core.currentRound + 1, 0)
    else some (core.currentRound, nextStep)
  else none

def abortTask : TaskKind × Task → TaskKind × Task
  | (.step, task) => (.aborted, task)
  | entry => entry

/-- The state after an aborted task has ended. -/
def cancelTask (cfg : Config C) (node : Node) (midway : Bool) (task : Task) : Node :=
  match midway, task with
  | true, .processVotes batchHash =>
    match readyBatch cfg node batchHash with
    | none => node
    | some batch => node.confirm batchHash batch
  | _, _ => node

/-- One step of a node; `none` if the action is not possible. -/
def act (cfg : Config C) (node : Node) : Action → Option Node
  | .deliver msg sourcePeer =>
    some { node with tasks := node.tasks ++ [(.handler, .receive msg sourcePeer)] }
  | .submit payload => some { node with mempool := node.mempool ++ [payload] }
  | .tick timedOut =>
    match node.driver, nextStep cfg node.core timedOut with
    | none, some next => some { node with driver := some next, tasks := node.tasks.map abortTask }
    | none, none => some node
    | some _, _ => none
  | .advance =>
    match node.driver with
    | none => none
    | some (round, step) =>
      some { node with
        core := { node.core with currentRound := round, currentStep := step }
        driver := none
        tasks := node.tasks ++ [(.step, .roundStep round step)] }
  | .run k now =>
    match node.tasks[k]? with
    | none => none
    | some (kind, task) =>
      let (node', next) := exec cfg now node task
      match next with
      | some task' => some { node' with tasks := node.tasks.set k (kind, task') }
      | none => some { node' with tasks := node.tasks.eraseIdx k }
  | .cancel k midway =>
    match node.tasks[k]? with
    | some (.aborted, task) =>
      some { cancelTask cfg node midway task with tasks := node.tasks.eraseIdx k }
    | _ => none

end EviceChain.Sequencer
