import EviceChain.Foundation.Run
import EviceChain.Sequencer.Engine

/-!
# Runs of several nodes

Nodes that share an address book run side by side. Any message may reach any
node at any time: what a network or a faulty validator can do is not restricted
here but by the condition `ok` that a statement puts on the steps of a run.

Results:
1. `act_effect`: what an action can do to the data of a node, case by case;
2. `act_tasks`: when a predicate of tasks holds of all tasks of a node;
3. `Reaches.invariant`: an invariant of all nodes holds in every state reached;
4. `Reaches.nodeRun`: each node of a network makes a run of its own.
-/

namespace EviceChain.Sequencer

variable {ι : Type} [DecidableEq ι] {C : Crypto}

/-- The nodes of a network and what they are started with. -/
structure Network (ι : Type) (C : Crypto) where
  addressBook : AddressBook
  subCommitteeSize : Nat
  address : ι → Address
  signingKeys : ι → C.KeyPair
  vrfKeys : ι → C.VrfKeys

namespace Network

def config (net : Network ι C) (i : ι) : Config C :=
  ⟨net.address i, net.signingKeys i, net.vrfKeys i, net.addressBook, net.subCommitteeSize⟩

def publicKey (net : Network ι C) (i : ι) : Bytes := C.publicKeyBytes (net.signingKeys i)

/-- Every node is a validator of its own, registered under its own key. -/
structure Registered (net : Network ι C) : Prop where
  key : ∀ i, net.addressBook.signingKey? (net.address i) = some (net.publicKey i)
  one : ∀ i j, net.address i = net.address j → i = j

end Network

def initialState : ι → Node := fun _ => Node.new genesisQc

/-- The states that a run of steps satisfying `ok` can lead to. -/
inductive Reaches (net : Network ι C) (ok : (ι → Node) → ι → Action → Prop) : (ι → Node) → Prop
  | init : Reaches net ok initialState
  | step {σ : ι → Node} {i : ι} {a : Action} {node : Node} :
      Reaches net ok σ → ok σ i a → act (net.config i) (σ i) a = some node →
      Reaches net ok (Function.update σ i node)

/-- The states that one node comes to by actions that satisfy `ok`, whatever it
receives. -/
abbrev NodeRun (cfg : Config C) (ok : Node → Action → Prop) (node : Node) : Node → Prop :=
  Foundation.Run (act cfg) ok node

/-- What a node gives to others: what it has broadcast and, on request, the
batches it holds (`p2p/swarm.rs`). -/
def Node.handsOut (C : Crypto) (node : Node) (msg : ConsensusMessage) : Bool :=
  msg ∈ node.broadcasts ||
    match msg with
    | .intentBatchProposal batch =>
      node.pendingProposals (batch.hash C) = some batch.toPending ||
        batch ∈ node.core.optimisticallyConfirmedBatches
    | _ => false

/-! ## What an action is about to do -/

/-- The action runs the task to its next point, at the time `now`. -/
def Runs (node : Node) (a : Action) (now : UInt64) (task : Task) : Prop :=
  match a with
  | .run k now' => now' = now ∧ ∃ kind, node.tasks[k]? = some (kind, task)
  | _ => False

/-- The message that arrives. -/
def delivers? : Action → Option ConsensusMessage
  | .deliver msg _ => some msg
  | _ => none

/-- Every message that arrives comes from a node. -/
def Relayed (C : Crypto) (σ : ι → Node) (_ : ι) (a : Action) : Prop :=
  ∀ msg ∈ delivers? a, ∃ j, (σ j).handsOut C msg

instance [Fintype ι] (σ : ι → Node) (i : ι) (a : Action) : Decidable (Relayed C σ i a) :=
  inferInstanceAs (Decidable (∀ msg ∈ delivers? a, ∃ j, (σ j).handsOut C msg))

/-- The batch that the node builds and signs as proposer. -/
def builds? (cfg : Config C) (node : Node) : Action → Option PayloadBatch
  | .run k now =>
    match node.tasks[k]? with
    | some (_, .buildBatch round parentQc payloads) =>
      some (newBatch cfg node.core round parentQc payloads now)
    | _ => none
  | _ => none

/-- The batch that the node signs a vote for, as receiver or as proposer. -/
def votes? (node : Node) : Action → Option PayloadBatch
  | .run k _ =>
    match node.tasks[k]? with
    | some (_, .castVote batch) | some (_, .selfVote batch) => some batch
    | _ => none
  | _ => none

/-- The batch that the node confirms, with its hash; whether or not the task is
ended before it has sent the certificate. -/
def confirms? (cfg : Config C) (node : Node) : Action → Option (Bytes × PendingBatch)
  | .run k _ | .cancel k true =>
    match node.tasks[k]? with
    | some (_, .processVotes batchHash) => (readyBatch cfg node batchHash).map (batchHash, ·)
    | _ => none
  | _ => none

/-! ## What an action can do -/

/-- The nodes agree on everything but the tasks, the driver, the mempool, the
message cache, the clock of rounds, the highest certificate and what is sent to
single peers. -/
structure SameData (node node' : Node) : Prop where
  votes : node'.core.velocityVotes = node.core.velocityVotes
  processed : node'.core.processedOptimisticBatches = node.core.processedOptimisticBatches
  confirmed :
    node'.core.optimisticallyConfirmedBatches = node.core.optimisticallyConfirmedBatches
  pending : node'.pendingProposals = node.pendingProposals
  broadcasts : node'.broadcasts = node.broadcasts
  voted : node'.voted = node.voted
  proposed : node'.proposed = node.proposed
  history : node'.history = node.history

theorem SameData.refl (node : Node) : SameData node node :=
  ⟨rfl, rfl, rfl, rfl, rfl, rfl, rfl, rfl⟩

/-- What `process_votes_for_batch` has found when it confirms the batch. -/
structure Ready (cfg : Config C) (node : Node) (batchHash : Bytes) (batch : PendingBatch) :
    Prop where
  fresh : batchHash ∉ node.core.processedOptimisticBatches
  quorum : requiredQuorum cfg.addressBook.size ≤ (node.core.velocityVotes batchHash).length
  pending : node.pendingProposals batchHash = some batch

/-- The changes that an action can make to the data of a node, each with what is
known when it is made. -/
inductive Effect (cfg : Config C) (node : Node) (a : Action) : Node → Prop
  | quiet : Effect cfg node a node
  | build {batch : PayloadBatch} :
      batch ∈ builds? cfg node a →
      Effect cfg node a { node with proposed := node.proposed ++ [batch] }
  | insert {now : UInt64} {batch : PayloadBatch} :
      Runs node a now (.insertProposal batch) ∨ Runs node a now (.insertOwn batch) →
      Effect cfg node a (node.insertPending C batch)
  | announce {now : UInt64} {batch : PayloadBatch} :
      Runs node a now (.announce batch) →
      Effect cfg node a (node.broadcast (.intentBatchProposal batch))
  | vote {batch : PayloadBatch} :
      batch ∈ votes? node a → Effect cfg node a (node.vote cfg batch)
  | sendVote {now : UInt64} {vote : VelocityVote} :
      Runs node a now (.sendVote vote) →
      Effect cfg node a (node.broadcast (.velocityVoteMsg vote))
  | store {now : UInt64} {vote : VelocityVote} :
      Runs node a now (.storeVote vote) →
      verifyVoteSignature C cfg.addressBook vote.voterAddress vote.roundId vote.batchHash
        vote.signature = true →
      (∀ v ∈ node.core.velocityVotes vote.batchHash, v.voterAddress ≠ vote.voterAddress) →
      Effect cfg node a { node with core := node.core.pushVote vote.batchHash vote }
  | confirm {batchHash : Bytes} {batch : PendingBatch} :
      (batchHash, batch) ∈ confirms? cfg node a →
      Effect cfg node a (node.confirm batchHash batch)
  | certify {batchHash : Bytes} {batch : PendingBatch} :
      (batchHash, batch) ∈ confirms? cfg node a →
      Effect cfg node a
        ((node.confirm batchHash batch).certify (buildQc node batchHash batch))
  | prune {now : UInt64} {confirmedHashes : List Bytes} :
      Runs node a now (.pruneProposals confirmedHashes) →
      Effect cfg node a (node.removePending confirmedHashes)

/-- What the task does before its next point touches none of this data. -/
def Task.Quiet : Task → Prop
  | .receive _ _ | .recheck _ _ | .collectConfirmed | .checkVote _ | .anchorQc _ _
  | .requestBatch _ _ | .roundStep _ _ | .readParent _ | .drainMempool _ _ => True
  | _ => False

/-- The points of a task that can follow each other, with what the task has found. -/
inductive Next (cfg : Config C) (now : UInt64) (node : Node) : Task → Task → Prop
  | recheck {msg : ConsensusMessage} {peer : PeerId} :
      Next cfg now node (.receive msg peer) (.recheck msg peer)
  | insertProposal {batch : PayloadBatch} {peer : PeerId} :
      Next cfg now node (.recheck (.intentBatchProposal batch) peer) (.insertProposal batch)
  | checkVote {vote : VelocityVote} {peer : PeerId} :
      Next cfg now node (.recheck (.velocityVoteMsg vote) peer) (.checkVote vote)
  | anchorQc {qc : QuorumCertificate} {peer : PeerId} :
      Next cfg now node (.recheck (.newQuorumCertificate qc) peer) (.anchorQc qc peer)
  | castVote {batch : PayloadBatch} :
      (exec cfg now node (.insertProposal batch)).1 = node.insertPending C batch →
      Next cfg now node (.insertProposal batch) (.castVote batch)
  | sendVote {batch : PayloadBatch} :
      Next cfg now node (.castVote batch) (.sendVote (ownVote cfg batch))
  | processVotes {vote : VelocityVote} :
      Next cfg now node (.sendVote vote) (.processVotes vote.batchHash)
  | collectConfirmed {batchHash : Bytes} :
      Next cfg now node (.processVotes batchHash) .collectConfirmed
  | pruneProposals :
      Next cfg now node .collectConfirmed (.pruneProposals node.core.processedOptimisticBatches)
  | storeVote {vote : VelocityVote} : Next cfg now node (.checkVote vote) (.storeVote vote)
  | processStored {vote : VelocityVote} :
      Next cfg now node (.storeVote vote) (.processVotes vote.batchHash)
  | requestBatch {qc : QuorumCertificate} {peer : PeerId} :
      Next cfg now node (.anchorQc qc peer) (.requestBatch qc.batchHash peer)
  | readParent {round step : UInt64} :
      Next cfg now node (.roundStep round step) (.readParent round)
  | drainMempool {round : UInt64} :
      Next cfg now node (.readParent round) (.drainMempool round node.core.highestSeenQc)
  | buildBatch {round : UInt64} {parentQc : QuorumCertificate} :
      Next cfg now node (.drainMempool round parentQc)
        (.buildBatch round parentQc (node.mempool.take maxPayloads))
  | insertOwn {round : UInt64} {parentQc : QuorumCertificate} {payloads : List AppPayload} :
      Next cfg now node (.buildBatch round parentQc payloads)
        (.insertOwn (newBatch cfg node.core round parentQc payloads now))
  | announce {batch : PayloadBatch} : Next cfg now node (.insertOwn batch) (.announce batch)
  | selfVote {batch : PayloadBatch} : Next cfg now node (.announce batch) (.selfVote batch)
  | processOwn {batch : PayloadBatch} :
      Next cfg now node (.selfVote batch) (.processVotes (batch.hash C))

namespace NetworkLemmas

variable {node : Node} {a : Action}

theorem exec_next {cfg : Config C} {now : UInt64} {task task' : Task}
    (h : (exec cfg now node task).2 = some task') : Next cfg now node task task' := by
  cases task with
  | receive | processVotes | checkVote | storeVote =>
    dsimp only [exec] at h
    split at h <;> cases h
    constructor
  | recheck msg peer =>
    dsimp only [exec] at h
    split at h
    · cases h
    · cases msg <;> cases h <;> constructor
  | insertProposal batch =>
    dsimp only [exec] at h
    split at h
    · cases h
    · next hsigned =>
      split at h <;> cases h
      next hnew => exact .castVote (by rw [exec, if_neg hsigned, if_neg hnew])
  | anchorQc qc peer =>
    dsimp only [exec] at h
    split at h
    · cases h
    · split at h
      · dsimp only at h
        split at h <;> cases h
        constructor
      · cases h
  | roundStep round step =>
    dsimp only [exec] at h
    split at h
    · cases h
    · split at h
      · cases h
      · dsimp only at h
        split at h <;> cases h
        constructor
  | castVote | sendVote | collectConfirmed | readParent | drainMempool | buildBatch | insertOwn
  | announce | selfVote =>
    cases h
    constructor
  | pruneProposals | requestBatch => cases h

theorem forall_mem_snoc {α : Type} {P : α → Prop} {l : List α} {x : α} (hl : ∀ y ∈ l, P y)
    (hx : P x) : ∀ y ∈ l ++ [x], P y :=
  List.forall_mem_append.mpr ⟨hl, List.forall_mem_singleton.mpr hx⟩

theorem getElem?_snoc {α : Type} {l : List α} {j : Nat} {x : α} (h : l[j]? = some x) (y : α) :
    (l ++ [y])[j]? = some x := by
  rw [List.getElem?_append_left (List.getElem?_eq_some_iff.mp h).1]
  exact h

/-- Where an element is after another one has been removed. -/
theorem getElem?_eraseIdx_of_ne {α : Type} (l : List α) {j k : Nat} (h : j ≠ k) :
    (l.eraseIdx j)[if j < k then k - 1 else k]? = l[k]? := by
  split
  · rw [List.getElem?_eraseIdx, if_neg (by omega), Nat.sub_add_cancel (by omega)]
  · rw [List.getElem?_eraseIdx, if_pos (by omega)]

theorem broadcasts_broadcast (node : Node) (msg : ConsensusMessage) :
    (node.broadcast msg).broadcasts = node.broadcasts ++ [msg] :=
  List.filterMap_append

theorem broadcasts_applyPenalty (node : Node) (peer : PeerId) (penalty : Int) :
    (node.send (.applyPenalty peer penalty)).broadcasts = node.broadcasts := by
  rw [Node.broadcasts, Node.send, List.filterMap_append]
  exact List.append_nil _

theorem broadcasts_sendDirectRequest (node : Node) (peer : PeerId) (request : SyncRequest) :
    (node.send (.sendDirectRequest peer request)).broadcasts = node.broadcasts := by
  rw [Node.broadcasts, Node.send, List.filterMap_append]
  exact List.append_nil _

theorem mem_cachePut {cache : List Bytes} {hash x : Bytes} (h : x ∈ cachePut C cache hash) :
    x = hash ∨ x ∈ cache := by
  rcases List.mem_cons.mp ((C.lru.put_prefix 1000 cache hash).subset h) with rfl | h
  · exact .inl rfl
  · exact .inr (List.mem_of_mem_erase h)

theorem mem_cachePut_self (C : Crypto) (cache : List Bytes) (hash : Bytes) :
    hash ∈ cachePut C cache hash := by
  rw [cachePut, C.lru.put_eq]
  exact List.mem_cons_self

/-- Only the second look at the cache changes it. -/
theorem exec_cache (cfg : Config C) (now : UInt64) (node : Node) (task : Task) :
    (exec cfg now node task).1.recentlyProcessedHashes =
      match task with
      | .recheck msg _ =>
        if C.messageHash msg ∈ node.recentlyProcessedHashes then node.recentlyProcessedHashes
        else cachePut C node.recentlyProcessedHashes (C.messageHash msg)
      | _ => node.recentlyProcessedHashes := by
  cases task with
  | receive | recheck | checkVote | processVotes =>
    dsimp only [exec]
    split <;> rfl
  | insertProposal | storeVote | anchorQc | roundStep =>
    dsimp only [exec]
    split
    · rfl
    · split <;> rfl
  | _ => rfl

/-- Only the proposer takes payloads out of the mempool. -/
theorem exec_mempool (cfg : Config C) (now : UInt64) (node : Node) {task : Task}
    (h : ∀ round parentQc, task ≠ .drainMempool round parentQc) :
    (exec cfg now node task).1.mempool = node.mempool := by
  cases task with
  | drainMempool round parentQc => exact (h round parentQc rfl).elim
  | receive | recheck | checkVote | processVotes =>
    dsimp only [exec]
    split <;> rfl
  | insertProposal | storeVote | anchorQc | roundStep =>
    dsimp only [exec]
    split
    · rfl
    · split <;> rfl
  | _ => rfl

theorem mem_tasks_of_runs {now : UInt64} {task : Task} (h : Runs node a now task) :
    ∃ kind, (kind, task) ∈ node.tasks := by
  cases a with
  | run k now' =>
    obtain ⟨-, kind, htask⟩ := h
    exact ⟨kind, List.mem_of_getElem? htask⟩
  | _ => exact h.elim

theorem runs_unique {now now' : UInt64} {task task' : Task} (h : Runs node a now task)
    (h' : Runs node a now' task') : task = task' := by
  cases a with
  | run k clock =>
    obtain ⟨-, kind, htask⟩ := h
    obtain ⟨-, kind', htask'⟩ := h'
    exact congrArg Prod.snd (Option.some.inj (htask.symm.trans htask'))
  | _ => exact h.elim

theorem ready_of_readyBatch {cfg : Config C} {batchHash : Bytes} {batch : PendingBatch}
    (h : readyBatch cfg node batchHash = some batch) : Ready cfg node batchHash batch := by
  unfold readyBatch at h
  split at h
  · cases h
  · next hfresh =>
    split at h
    · next hquorum => exact ⟨hfresh, hquorum, h⟩
    · cases h

theorem ready_of_confirms? {cfg : Config C} {batchHash : Bytes} {batch : PendingBatch}
    (h : (batchHash, batch) ∈ confirms? cfg node a) : Ready cfg node batchHash batch := by
  unfold confirms? at h
  split at h <;> try cases h
  all_goals
    split at h <;> try cases h
    obtain ⟨batch', hready, he⟩ := Option.map_eq_some_iff.mp h
    cases he
    exact ready_of_readyBatch hready

theorem runs_of_votes? {batch : PayloadBatch} (h : batch ∈ votes? node a) :
    ∃ now, Runs node a now (.castVote batch) ∨ Runs node a now (.selfVote batch) := by
  cases a with
  | run k now =>
    dsimp only [votes?] at h
    split at h
    · next htask =>
      cases h
      exact ⟨now, .inl ⟨rfl, _, htask⟩⟩
    · next htask =>
      cases h
      exact ⟨now, .inr ⟨rfl, _, htask⟩⟩
    · cases h
  | _ => cases h

theorem builds?_of_runs {cfg : Config C} {now round : UInt64} {parentQc : QuorumCertificate}
    {payloads : List AppPayload} (h : Runs node a now (.buildBatch round parentQc payloads)) :
    newBatch cfg node.core round parentQc payloads now ∈ builds? cfg node a := by
  cases a with
  | run k now' =>
    obtain ⟨rfl, kind, htask⟩ := h
    simp [builds?, htask]
  | _ => exact h.elim

theorem newBatch_of_builds? {cfg : Config C} {batch : PayloadBatch}
    (h : batch ∈ builds? cfg node a) : ∃ round parentQc payloads now,
      batch = newBatch cfg node.core round parentQc payloads now := by
  cases a with
  | run k now =>
    dsimp only [builds?] at h
    split at h <;> cases h
    exact ⟨_, _, _, now, rfl⟩
  | _ => cases h

theorem votes?_of_runs {now : UInt64} {batch : PayloadBatch}
    (h : Runs node a now (.castVote batch) ∨ Runs node a now (.selfVote batch)) :
    batch ∈ votes? node a := by
  cases a with
  | run k now' => rcases h with ⟨-, kind, htask⟩ | ⟨-, kind, htask⟩ <;> simp [votes?, htask]
  | _ => exact h.elim False.elim False.elim

theorem confirms?_of_runs {cfg : Config C} {now : UInt64} {batchHash : Bytes}
    {batch : PendingBatch} (h : Runs node a now (.processVotes batchHash))
    (hready : readyBatch cfg node batchHash = some batch) :
    (batchHash, batch) ∈ confirms? cfg node a := by
  cases a with
  | run k now' =>
    obtain ⟨-, kind, htask⟩ := h
    simp [confirms?, htask, hready]
  | _ => exact h.elim

/-- The tasks that leave the data of a node as they are. -/
theorem exec_quiet (cfg : Config C) (now : UInt64) (node : Node) {task : Task} (h : task.Quiet) :
    SameData node (exec cfg now node task).1 := by
  cases task with
  | receive msg peer | checkVote vote =>
    dsimp only [exec]
    split <;> exact .refl node
  | recheck msg peer =>
    dsimp only [exec]
    split
    · exact .refl node
    · exact ⟨rfl, rfl, rfl, rfl, rfl, rfl, rfl, rfl⟩
  | anchorQc qc peer =>
    dsimp only [exec]
    split
    · exact ⟨rfl, rfl, rfl, rfl, broadcasts_applyPenalty .., rfl, rfl, rfl⟩
    · split
      · exact ⟨rfl, rfl, rfl, rfl, rfl, rfl, rfl, rfl⟩
      · exact .refl node
  | requestBatch batchHash peer =>
    exact ⟨rfl, rfl, rfl, rfl, broadcasts_sendDirectRequest .., rfl, rfl, rfl⟩
  | roundStep round step =>
    dsimp only [exec]
    split
    · exact .refl node
    · split <;> exact .refl node
  | collectConfirmed | readParent => exact .refl node
  | drainMempool => exact ⟨rfl, rfl, rfl, rfl, rfl, rfl, rfl, rfl⟩
  | _ => exact h.elim

/-- Every task, from one point to the next. -/
theorem exec_effect (cfg : Config C) {now : UInt64} {task : Task} (h : Runs node a now task) :
    ∃ node', Effect cfg node a node' ∧ SameData node' (exec cfg now node task).1 := by
  cases task with
  | insertProposal batch =>
    dsimp only [exec]
    split
    · exact ⟨node, .quiet, .refl node⟩
    · split
      · exact ⟨node, .quiet, .refl node⟩
      · exact ⟨_, .insert (.inl h), .refl _⟩
  | castVote batch => exact ⟨_, .vote (votes?_of_runs (.inl h)), .refl _⟩
  | sendVote vote => exact ⟨_, .sendVote h, .refl _⟩
  | processVotes batchHash =>
    dsimp only [exec]
    split
    · exact ⟨node, .quiet, .refl node⟩
    · next batch hready =>
      exact ⟨_, .certify (confirms?_of_runs h hready), .refl _⟩
  | pruneProposals confirmedHashes => exact ⟨_, .prune h, .refl _⟩
  | storeVote vote =>
    dsimp only [exec]
    split
    · exact ⟨node, .quiet, .refl node⟩
    · next hverify =>
      split
      · exact ⟨node, .quiet, .refl node⟩
      · next hnew =>
        refine ⟨_, .store h ?_ fun v hv he => hnew ?_, .refl _⟩
        · simpa using hverify
        · exact List.any_eq_true.mpr ⟨v, hv, decide_eq_true he⟩
  | buildBatch round parentQc payloads => exact ⟨_, .build (builds?_of_runs h), .refl _⟩
  | insertOwn batch => exact ⟨_, .insert (.inr h), .refl _⟩
  | announce batch => exact ⟨_, .announce h, .refl _⟩
  | selfVote batch => exact ⟨_, .vote (votes?_of_runs (.inr h)), .refl _⟩
  | _ => exact ⟨node, .quiet, exec_quiet cfg now node trivial⟩

end NetworkLemmas

open NetworkLemmas

/-- The data of a node after an action is that after one of the effects. -/
theorem act_effect {cfg : Config C} {node node' : Node} {a : Action}
    (hact : act cfg node a = some node') :
    ∃ node'', Effect cfg node a node'' ∧ SameData node'' node' := by
  cases a with
  | deliver msg peer | submit payload =>
    cases hact
    exact ⟨node, .quiet, rfl, rfl, rfl, rfl, rfl, rfl, rfl, rfl⟩
  | tick timedOut =>
    dsimp only [act] at hact
    split at hact <;> cases hact <;> exact ⟨node, .quiet, rfl, rfl, rfl, rfl, rfl, rfl, rfl, rfl⟩
  | advance =>
    dsimp only [act] at hact
    split at hact <;> cases hact
    exact ⟨node, .quiet, rfl, rfl, rfl, rfl, rfl, rfl, rfl, rfl⟩
  | run k now =>
    dsimp only [act] at hact
    split at hact
    · cases hact
    · next kind task htask =>
      have hruns : Runs node (.run k now) now task := ⟨rfl, kind, htask⟩
      obtain ⟨node'', heffect, hsame⟩ := exec_effect cfg hruns
      refine ⟨node'', heffect, ?_⟩
      split at hact <;> cases hact <;> exact ⟨hsame.1, hsame.2, hsame.3, hsame.4, hsame.5,
        hsame.6, hsame.7, hsame.8⟩
  | cancel k midway =>
    dsimp only [act] at hact
    split at hact
    · next task htask =>
      cases hact
      have hend : Effect cfg node (.cancel k midway) (cancelTask cfg node midway task) := by
        unfold cancelTask
        split
        · split
          · exact .quiet
          · next hready => exact .confirm (by simp [confirms?, htask, hready])
        · exact .quiet
      exact ⟨_, hend, rfl, rfl, rfl, rfl, rfl, rfl, rfl, rfl⟩
    · cases hact

section Records

variable {cfg : Config C} {node node' : Node} {a : Action}

theorem act_voted (hact : act cfg node a = some node') :
    node'.voted = node.voted ∨ ∃ batch ∈ votes? node a, node'.voted = node.voted ++ [batch] := by
  obtain ⟨node'', heffect, hsame⟩ := act_effect hact
  rw [hsame.voted]
  cases heffect with
  | vote hvotes => exact .inr ⟨_, hvotes, rfl⟩
  | _ => exact .inl rfl

theorem act_proposed (hact : act cfg node a = some node') :
    node'.proposed = node.proposed ∨
      ∃ batch ∈ builds? cfg node a, node'.proposed = node.proposed ++ [batch] := by
  obtain ⟨node'', heffect, hsame⟩ := act_effect hact
  rw [hsame.proposed]
  cases heffect with
  | build hbuilds => exact .inr ⟨_, hbuilds, rfl⟩
  | _ => exact .inl rfl

theorem act_history (hact : act cfg node a = some node') :
    node'.history = node.history ∨
      ∃ ready ∈ confirms? cfg node a, node'.history = node.history ++ [ready.2.toPayload] := by
  obtain ⟨node'', heffect, hsame⟩ := act_effect hact
  rw [hsame.history]
  cases heffect with
  | confirm hconf => exact .inr ⟨_, hconf, rfl⟩
  | certify hconf => exact .inr ⟨_, hconf, rfl⟩
  | _ => exact .inl rfl

theorem voted_of_votes? (hact : act cfg node a = some node') {batch : PayloadBatch}
    (h : batch ∈ votes? node a) : batch ∈ node'.voted := by
  obtain ⟨now, hruns⟩ := runs_of_votes? h
  cases a with
  | run k now' =>
    rcases hruns with ⟨-, kind, htask⟩ | ⟨-, kind, htask⟩ <;>
    · simp only [act, htask, exec, Option.some.injEq] at hact
      rw [← hact]
      exact List.mem_concat_self
  | _ => cases h

theorem proposed_of_builds? (hact : act cfg node a = some node') {batch : PayloadBatch}
    (h : batch ∈ builds? cfg node a) : batch ∈ node'.proposed := by
  cases a with
  | run k now =>
    dsimp only [builds?] at h
    split at h
    · next htask =>
      cases h
      simp only [act, htask, exec, Option.some.injEq] at hact
      rw [← hact]
      exact List.mem_concat_self
    · cases h
  | _ => cases h

end Records

/-- A predicate of tasks and of who may end them holds after an action, if it holds
for what is started, and aborting a task or running it to its next point keeps it. -/
theorem act_entries {cfg : Config C} {E : TaskKind × Task → Prop} {node node' : Node} {a : Action}
    (hdeliver : ∀ msg peer, msg ∈ delivers? a → E (.handler, .receive msg peer))
    (hround : ∀ round step, a = .advance → node.driver = some (round, step) →
      E (.step, .roundStep round step))
    (habort : ∀ entry, E entry → E (abortTask entry))
    (hexec : ∀ now kind task task', Runs node a now task → E (kind, task) →
      (exec cfg now node task).2 = some task' → E (kind, task'))
    (hact : act cfg node a = some node') (hE : ∀ entry ∈ node.tasks, E entry) :
    ∀ entry ∈ node'.tasks, E entry := by
  cases a with
  | deliver msg peer =>
    cases hact
    exact forall_mem_snoc hE (hdeliver msg peer rfl)
  | submit payload =>
    cases hact
    exact hE
  | tick timedOut =>
    dsimp only [act] at hact
    split at hact
    · cases hact
      intro entry h
      obtain ⟨entry, hmem, rfl⟩ := List.mem_map.mp h
      exact habort entry (hE entry hmem)
    · cases hact
      exact hE
    · cases hact
  | advance =>
    dsimp only [act] at hact
    split at hact
    · cases hact
    · next hdriver =>
      cases hact
      exact forall_mem_snoc hE (hround _ _ rfl hdriver)
  | run k now =>
    dsimp only [act] at hact
    split at hact
    · cases hact
    · next kind task htask =>
      have hnext := fun task' => hexec now kind task task' ⟨rfl, kind, htask⟩
        (hE _ (List.mem_of_getElem? htask))
      split at hact
      · next task' htask' =>
        cases hact
        intro entry h
        rcases List.mem_or_eq_of_mem_set h with h | rfl
        · exact hE entry h
        · exact hnext task' htask'
      · cases hact
        exact fun entry h => hE entry (List.mem_of_mem_eraseIdx h)
  | cancel k midway =>
    dsimp only [act] at hact
    split at hact
    · cases hact
      exact fun entry h => hE entry (List.mem_of_mem_eraseIdx h)
    · cases hact

/-- A predicate of tasks. -/
theorem act_tasks {cfg : Config C} {T : Task → Prop} {node node' : Node} {a : Action}
    (hdeliver : ∀ msg peer, msg ∈ delivers? a → T (.receive msg peer))
    (hround : ∀ round step, a = .advance → node.driver = some (round, step) →
      T (.roundStep round step))
    (hexec : ∀ now task task', Runs node a now task → T task →
      (exec cfg now node task).2 = some task' → T task')
    (hact : act cfg node a = some node') (hT : ∀ entry ∈ node.tasks, T entry.2) :
    ∀ entry ∈ node'.tasks, T entry.2 := by
  refine act_entries (E := fun entry => T entry.2) hdeliver hround (fun entry h => ?_)
    (fun now _ => hexec now) hact hT
  obtain ⟨kind, task⟩ := entry
  cases kind <;> exact h

/-! ## Following a task -/

section Tasks

variable {cfg : Config C} {node node' : Node} {a : Action}

theorem exists_runs {k : Nat} {now : UInt64} (hact : act cfg node (.run k now) = some node') :
    ∃ task, Runs node (.run k now) now task := by
  dsimp only [act] at hact
  split at hact
  · cases hact
  · next kind task htask => exact ⟨task, rfl, kind, htask⟩

/-- Running a task does to the node what `exec` says; the tasks apart. -/
theorem act_of_runs (hact : act cfg node a = some node') {now : UInt64} {task : Task}
    (hruns : Runs node a now task) :
    node' = { (exec cfg now node task).1 with tasks := node'.tasks } := by
  cases a with
  | run k now' =>
    obtain ⟨rfl, kind, htask⟩ := hruns
    simp only [act, htask] at hact
    split at hact <;> cases hact <;> rfl
  | _ => exact hruns.elim

theorem sameData_of_runs (hact : act cfg node a = some node') {now : UInt64} {task : Task}
    (hruns : Runs node a now task) : SameData (exec cfg now node task).1 node' := by
  rw [act_of_runs hact hruns]
  exact ⟨rfl, rfl, rfl, rfl, rfl, rfl, rfl, rfl⟩

/-- The point at which a task stops is among the tasks afterwards. -/
theorem act_next (hact : act cfg node a = some node') {now : UInt64} {task task' : Task}
    (hruns : Runs node a now task) (hnext : (exec cfg now node task).2 = some task') :
    ∃ entry ∈ node'.tasks, entry.2 = task' := by
  cases a with
  | run k now' =>
    obtain ⟨rfl, kind, htask⟩ := hruns
    obtain ⟨hk, -⟩ := List.getElem?_eq_some_iff.mp htask
    simp only [act, htask, hnext] at hact
    cases hact
    exact ⟨(kind, task'), List.mem_set hk _, rfl⟩
  | _ => exact hruns.elim

/-- A task is there until it runs or is ended. -/
theorem act_hasTask {T : Task → Prop} (hact : act cfg node a = some node')
    (h : ∃ entry ∈ node.tasks, T entry.2) :
    (∃ entry ∈ node'.tasks, T entry.2) ∨ (∃ now task, Runs node a now task ∧ T task) ∨
      ∃ k midway entry, a = .cancel k midway ∧ node.tasks[k]? = some entry ∧ T entry.2 := by
  obtain ⟨entry, hmem, hT⟩ := h
  cases a with
  | deliver msg peer =>
    cases hact
    exact .inl ⟨entry, List.mem_append_left _ hmem, hT⟩
  | submit payload =>
    cases hact
    exact .inl ⟨entry, hmem, hT⟩
  | tick timedOut =>
    dsimp only [act] at hact
    split at hact
    · cases hact
      refine .inl ⟨abortTask entry, List.mem_map_of_mem hmem, ?_⟩
      obtain ⟨kind, task⟩ := entry
      cases kind <;> exact hT
    · cases hact
      exact .inl ⟨entry, hmem, hT⟩
    · cases hact
  | advance =>
    dsimp only [act] at hact
    split at hact
    · cases hact
    · cases hact
      exact .inl ⟨entry, List.mem_append_left _ hmem, hT⟩
  | run k now =>
    obtain ⟨j, hj⟩ := List.mem_iff_getElem?.mp hmem
    by_cases hjk : j = k
    · subst hjk
      exact .inr (.inl ⟨now, entry.2, ⟨rfl, entry.1, hj⟩, hT⟩)
    · refine .inl ⟨entry, ?_, hT⟩
      dsimp only [act] at hact
      split at hact
      · cases hact
      · split at hact <;> cases hact
        · exact List.mem_iff_getElem?.mpr ⟨j, by rw [List.getElem?_set_ne (Ne.symm hjk), hj]⟩
        · exact List.mem_eraseIdx_iff_getElem?.mpr ⟨j, hjk, hj⟩
  | cancel k midway =>
    obtain ⟨j, hj⟩ := List.mem_iff_getElem?.mp hmem
    by_cases hjk : j = k
    · subst hjk
      exact .inr (.inr ⟨j, midway, entry, rfl, hj, hT⟩)
    · refine .inl ⟨entry, ?_, hT⟩
      dsimp only [act] at hact
      split at hact <;> cases hact
      exact List.mem_eraseIdx_iff_getElem?.mpr ⟨j, hjk, hj⟩

/-- An action that runs no task leaves the data alone, unless a task that is ended
has just confirmed a batch. -/
theorem act_idle (hact : act cfg node a = some node')
    (hruns : ∀ now task, ¬ Runs node a now task) :
    ∃ node'', (node'' = node ∨ ∃ ready ∈ confirms? cfg node a,
      node'' = node.confirm ready.1 ready.2) ∧ SameData node'' node' := by
  cases a with
  | deliver msg peer | submit payload =>
    cases hact
    exact ⟨node, .inl rfl, rfl, rfl, rfl, rfl, rfl, rfl, rfl, rfl⟩
  | tick timedOut =>
    dsimp only [act] at hact
    split at hact <;> cases hact <;> exact ⟨node, .inl rfl, rfl, rfl, rfl, rfl, rfl, rfl, rfl, rfl⟩
  | advance =>
    dsimp only [act] at hact
    split at hact <;> cases hact
    exact ⟨node, .inl rfl, rfl, rfl, rfl, rfl, rfl, rfl, rfl, rfl⟩
  | run k now =>
    obtain ⟨task, hrun⟩ := exists_runs hact
    exact (hruns now task hrun).elim
  | cancel k midway =>
    dsimp only [act] at hact
    split at hact
    · next task htask =>
      cases hact
      refine ⟨cancelTask cfg node midway task, ?_, rfl, rfl, rfl, rfl, rfl, rfl, rfl, rfl⟩
      unfold cancelTask
      split
      · split
        · exact .inl rfl
        · next hready => exact .inr ⟨(_, _), by simp [confirms?, htask, hready], rfl⟩
      · exact .inl rfl
    · cases hact

/-- What is begun is finished: as soon as `F` holds, `G` does, or a task of the kind
`T` is there that brings it about. `F` and `G` are about the data of a node, and
`G` is never lost. -/
theorem act_promise {F G : Node → Prop} {T : Task → Prop}
    (hF : ∀ {n m}, SameData n m → F m → F n) (hG : ∀ {n m}, SameData n m → G n → G m)
    (hmono : G node → G node')
    (hexec : ∀ now task, Runs node a now task → F (exec cfg now node task).1 →
      (F node ∧ ¬ T task) ∨ G (exec cfg now node task).1 ∨
        ∃ task', (exec cfg now node task).2 = some task' ∧ T task')
    (hconfirm : ∀ ready ∈ confirms? cfg node a, F (node.confirm ready.1 ready.2) → F node)
    (huncut : ∀ k midway entry, a = .cancel k midway → node.tasks[k]? = some entry → ¬ T entry.2)
    (h : F node → G node ∨ ∃ entry ∈ node.tasks, T entry.2)
    (hact : act cfg node a = some node') :
    F node' → G node' ∨ ∃ entry ∈ node'.tasks, T entry.2 := by
  intro hnow
  -- what has become of the task that was there before, if another one runs
  have hbefore : F node → (∀ now task, Runs node a now task → ¬ T task) →
      G node' ∨ ∃ entry ∈ node'.tasks, T entry.2 := by
    intro hold hother
    rcases h hold with hdone | htask
    · exact .inl (hmono hdone)
    · rcases act_hasTask hact htask with htask | ⟨now, task, hruns, hT⟩ |
        ⟨k, midway, entry, ha, hentry, hT⟩
      · exact .inr htask
      · exact (hother now task hruns hT).elim
      · exact (huncut k midway entry ha hentry hT).elim
  by_cases hruns : ∃ now task, Runs node a now task
  · obtain ⟨now, task, hruns⟩ := hruns
    have hsame := sameData_of_runs hact hruns
    rcases hexec now task hruns (hF hsame hnow) with ⟨hold, hother⟩ | hdone | ⟨task', hnext, hT⟩
    · exact hbefore hold fun _ _ h => runs_unique hruns h ▸ hother
    · exact .inl (hG hsame hdone)
    · obtain ⟨entry, hentry, rfl⟩ := act_next hact hruns hnext
      exact .inr ⟨entry, hentry, hT⟩
  · have hidle := fun now task h => hruns ⟨now, task, h⟩
    obtain ⟨node'', hcases, hsame⟩ := act_idle hact hidle
    refine hbefore ?_ fun now task h => (hidle now task h).elim
    rcases hcases with rfl | ⟨ready, hready, rfl⟩
    · exact hF hsame hnow
    · exact hconfirm ready hready (hF hsame hnow)

theorem act_processed (hact : act cfg node a = some node') {hash : Bytes}
    (h : hash ∈ node.core.processedOptimisticBatches) :
    hash ∈ node'.core.processedOptimisticBatches := by
  obtain ⟨node'', heffect, hsame⟩ := act_effect hact
  rw [hsame.processed]
  cases heffect with
  | confirm => exact List.mem_cons_of_mem _ h
  | certify => exact List.mem_cons_of_mem _ h
  | _ => exact h

end Tasks

/-! ## Invariants of runs -/

/-- An invariant of every node of the network; that the state before the step can
be reached makes the invariants already known available. -/
theorem Reaches.invariant {net : Network ι C} {ok : (ι → Node) → ι → Action → Prop}
    {P : (ι → Node) → ι → Node → Prop} (hinit : ∀ i, P initialState i (Node.new genesisQc))
    (hmono : ∀ {σ i a node}, Reaches net ok σ → ok σ i a →
      act (net.config i) (σ i) a = some node → (∀ j, P σ j (σ j)) →
      ∀ j, j ≠ i → P (Function.update σ i node) j (σ j))
    (hstep : ∀ {σ i a node}, Reaches net ok σ → ok σ i a →
      act (net.config i) (σ i) a = some node → (∀ j, P σ j (σ j)) →
      P (Function.update σ i node) i node)
    {σ : ι → Node} (h : Reaches net ok σ) (i : ι) : P σ i (σ i) := by
  induction h generalizing i with
  | init => exact hinit i
  | @step σ k a node hprev hok hact ih =>
    by_cases hik : i = k
    · subst hik
      rw [Function.update_self]
      exact hstep hprev hok hact ih
    · rw [Function.update_of_ne hik]
      exact hmono hprev hok hact ih i hik

/-- An invariant that looks at one node only. -/
theorem Reaches.nodeInvariant {net : Network ι C} {ok : (ι → Node) → ι → Action → Prop}
    {P : ι → Node → Prop} (hinit : ∀ i, P i (Node.new genesisQc))
    (hstep : ∀ {σ i a node}, Reaches net ok σ → ok σ i a →
      act (net.config i) (σ i) a = some node → P i (σ i) → P i node)
    {σ : ι → Node} (h : Reaches net ok σ) (i : ι) : P i (σ i) :=
  h.invariant (P := fun _ => P) hinit (fun _ _ _ ih j _ => ih j)
    (fun hprev hok hact ih => hstep hprev hok hact (ih _)) i

theorem Reaches.nodeRun {net : Network ι C} {ok : (ι → Node) → ι → Action → Prop}
    {σ : ι → Node} (h : Reaches net ok σ) (i : ι) :
    NodeRun (net.config i) (fun _ _ => True) (Node.new genesisQc) (σ i) :=
  h.nodeInvariant (P := fun i => NodeRun (net.config i) (fun _ _ => True) (Node.new genesisQc))
    (fun _ => .refl) (fun _ _ hact ih => ih.tail trivial hact) i

/-! A run in which one node acts and the others do nothing. -/

theorem Reaches.alone_init (net : Network ι C) (ok : (ι → Node) → ι → Action → Prop) (i : ι) :
    Reaches net ok (Function.update initialState i (Node.new genesisQc)) := by
  have hinit : Function.update initialState i (Node.new genesisQc) = initialState :=
    Function.update_eq_self i _
  rw [hinit]
  exact .init

theorem Reaches.alone_step {net : Network ι C} {ok : (ι → Node) → ι → Action → Prop}
    {σ : ι → Node} {i : ι} {node node' : Node} {a : Action}
    (h : Reaches net ok (Function.update σ i node)) (hok : ok (Function.update σ i node) i a)
    (hact : act (net.config i) node a = some node') :
    Reaches net ok (Function.update σ i node') := by
  have hnext := h.step hok (by rwa [Function.update_self])
  rwa [Function.update_idem] at hnext

/-- What a node has proposed it has built and signed itself. -/
theorem Reaches.built {net : Network ι C} {ok : (ι → Node) → ι → Action → Prop} {σ : ι → Node}
    (h : Reaches net ok σ) (i : ι) : ∀ batch ∈ (σ i).proposed, ∃ core round parentQc payloads now,
      batch = newBatch (net.config i) core round parentQc payloads now := by
  refine h.nodeInvariant (P := fun i node => ∀ batch ∈ node.proposed,
    ∃ core round parentQc payloads now,
      batch = newBatch (net.config i) core round parentQc payloads now)
    (fun _ _ h => nomatch h) (fun _ _ hact ih => ?_) i
  rcases act_proposed hact with hsame | ⟨batch, hbuilds, hnew⟩
  · rw [hsame]
    exact ih
  · rw [hnew]
    exact forall_mem_snoc ih ⟨_, newBatch_of_builds? hbuilds⟩

end EviceChain.Sequencer
