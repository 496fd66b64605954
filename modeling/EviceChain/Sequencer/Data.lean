import EviceChain.Sequencer.Network

/-!
# What moves through a node

The batches and votes that a node holds anywhere, in its tasks, its tables or
what it has sent, are the ones that were delivered to it, the batches it has
built itself and the votes it has signed itself. `DataOk` says that all of them
satisfy given predicates; `DataOk.act` is the rule for establishing it: look at
what is delivered, what is built and what is signed (`ActionOk`).
-/

namespace EviceChain.Sequencer

variable {C : Crypto} {Pb : PayloadBatch → Prop} {Pv : VelocityVote → Prop}

/-! ## The data of messages, tasks and nodes -/

def ConsensusMessage.Ok (Pb : PayloadBatch → Prop) (Pv : VelocityVote → Prop) :
    ConsensusMessage → Prop
  | .intentBatchProposal batch => Pb batch
  | .velocityVoteMsg vote => Pv vote
  | .newQuorumCertificate _ => True

def Task.Ok (Pb : PayloadBatch → Prop) (Pv : VelocityVote → Prop) : Task → Prop
  | .receive msg _ | .recheck msg _ => msg.Ok Pb Pv
  | .insertProposal batch | .castVote batch | .insertOwn batch | .announce batch
  | .selfVote batch => Pb batch
  | .sendVote vote | .checkVote vote | .storeVote vote => Pv vote
  | _ => True

structure DataOk (C : Crypto) (Pb : PayloadBatch → Prop) (Pv : VelocityVote → Prop)
    (node : Node) : Prop where
  pending : ∀ hash batch, node.pendingProposals hash = some batch →
    Pb batch.toPayload ∧ batch.toPayload.hash C = hash
  votes : ∀ hash, ∀ vote ∈ node.core.velocityVotes hash, Pv vote ∧ vote.batchHash = hash
  confirmed : ∀ batch ∈ node.core.optimisticallyConfirmedBatches, Pb batch
  broadcasts : ∀ msg ∈ node.broadcasts, msg.Ok Pb Pv
  voted : ∀ batch ∈ node.voted, Pb batch
  proposed : ∀ batch ∈ node.proposed, Pb batch
  history : ∀ batch ∈ node.history, Pb batch
  tasks : ∀ entry ∈ node.tasks, entry.2.Ok Pb Pv

/-- What an action brings in satisfies the predicates. -/
structure ActionOk (cfg : Config C) (Pb : PayloadBatch → Prop) (Pv : VelocityVote → Prop)
    (node : Node) (a : Action) : Prop where
  deliver : ∀ msg ∈ delivers? a, msg.Ok Pb Pv
  build : ∀ batch ∈ builds? cfg node a, Pb batch
  vote : ∀ batch ∈ votes? node a, Pb batch → Pv (ownVote cfg batch)

open NetworkLemmas

namespace DataLemmas

theorem ConsensusMessage.Ok.mono {Pb' : PayloadBatch → Prop} {Pv' : VelocityVote → Prop}
    (hb : ∀ b, Pb b → Pb' b) (hv : ∀ v, Pv v → Pv' v) {msg : ConsensusMessage}
    (h : msg.Ok Pb Pv) : msg.Ok Pb' Pv' := by
  cases msg with
  | intentBatchProposal batch => exact hb _ h
  | velocityVoteMsg vote => exact hv _ h
  | newQuorumCertificate qc => trivial

theorem Task.Ok.mono {Pb' : PayloadBatch → Prop} {Pv' : VelocityVote → Prop}
    (hb : ∀ b, Pb b → Pb' b) (hv : ∀ v, Pv v → Pv' v) {task : Task} (h : task.Ok Pb Pv) :
    task.Ok Pb' Pv' := by
  cases task with
  | receive | recheck => exact ConsensusMessage.Ok.mono hb hv h
  | insertProposal | castVote | insertOwn | announce | selfVote => exact hb _ h
  | sendVote | checkVote | storeVote => exact hv _ h
  | _ => trivial

/-- A task hands on the data it has, or what it builds or signs. -/
theorem exec_next_ok {cfg : Config C} {now : UInt64} {node : Node} {a : Action}
    {task task' : Task} (ha : ActionOk cfg Pb Pv node a) (hruns : Runs node a now task)
    (h : task.Ok Pb Pv) (hnext : (exec cfg now node task).2 = some task') :
    task'.Ok Pb Pv := by
  cases exec_next hnext with
  | sendVote => exact ha.vote _ (votes?_of_runs (.inl hruns)) h
  | insertOwn => exact ha.build _ (builds?_of_runs hruns)
  | recheck | insertProposal | checkVote | castVote | storeVote | announce | selfVote => exact h
  | _ => trivial

end DataLemmas

open DataLemmas

namespace DataOk

theorem new (initialQc : QuorumCertificate) : DataOk C Pb Pv (Node.new initialQc) where
  pending _ _ h := nomatch h
  votes _ _ h := nomatch h
  confirmed _ h := nomatch h
  broadcasts _ h := nomatch h
  voted _ h := nomatch h
  proposed _ h := nomatch h
  history _ h := nomatch h
  tasks _ h := nomatch h

variable {node node' : Node}

theorem mono (h : DataOk C Pb Pv node) {Pb' : PayloadBatch → Prop} {Pv' : VelocityVote → Prop}
    (hb : ∀ b, Pb b → Pb' b) (hv : ∀ v, Pv v → Pv' v) : DataOk C Pb' Pv' node where
  pending hash batch hp := (h.pending hash batch hp).imp_left (hb _)
  votes hash vote hvote := (h.votes hash vote hvote).imp_left (hv _)
  confirmed batch hbatch := hb _ (h.confirmed batch hbatch)
  broadcasts msg hmsg := ConsensusMessage.Ok.mono hb hv (h.broadcasts msg hmsg)
  voted batch hbatch := hb _ (h.voted batch hbatch)
  proposed batch hbatch := hb _ (h.proposed batch hbatch)
  history batch hbatch := hb _ (h.history batch hbatch)
  tasks entry hentry := Task.Ok.mono hb hv (h.tasks entry hentry)

theorem of_sameData (h : DataOk C Pb Pv node) (hsame : SameData node node')
    (htasks : ∀ entry ∈ node'.tasks, entry.2.Ok Pb Pv) : DataOk C Pb Pv node' where
  pending := hsame.pending ▸ h.pending
  votes := hsame.votes ▸ h.votes
  confirmed := hsame.confirmed ▸ h.confirmed
  broadcasts := hsame.broadcasts ▸ h.broadcasts
  voted := hsame.voted ▸ h.voted
  proposed := hsame.proposed ▸ h.proposed
  history := hsame.history ▸ h.history
  tasks := htasks

theorem of_runs (h : DataOk C Pb Pv node) {a : Action} {now : UInt64} {task : Task}
    (hruns : Runs node a now task) : task.Ok Pb Pv := by
  obtain ⟨kind, hmem⟩ := mem_tasks_of_runs hruns
  exact h.tasks _ hmem

theorem of_votes? (h : DataOk C Pb Pv node) {a : Action} {batch : PayloadBatch}
    (hvotes : batch ∈ votes? node a) : Pb batch := by
  obtain ⟨now, hruns | hruns⟩ := runs_of_votes? hvotes
  · exact h.of_runs hruns
  · exact h.of_runs hruns

theorem of_handsOut (h : DataOk C Pb Pv node) {msg : ConsensusMessage}
    (hmsg : node.handsOut C msg = true) : msg.Ok Pb Pv := by
  rcases Bool.or_eq_true_iff.mp hmsg with hsent | hheld
  · exact h.broadcasts msg (of_decide_eq_true hsent)
  · cases msg with
    | intentBatchProposal batch =>
      rcases Bool.or_eq_true_iff.mp hheld with hpending | hconfirmed
      · exact (h.pending _ _ (of_decide_eq_true hpending)).1
      · exact h.confirmed batch (of_decide_eq_true hconfirmed)
    | _ => cases hheld

/-! ## The effects, one by one -/

theorem broadcast (h : DataOk C Pb Pv node) {msg : ConsensusMessage} (hmsg : msg.Ok Pb Pv) :
    DataOk C Pb Pv (node.broadcast msg) := by
  refine { h with broadcasts := ?_ }
  rw [broadcasts_broadcast]
  exact forall_mem_snoc h.broadcasts hmsg

theorem insertPending (h : DataOk C Pb Pv node) {batch : PayloadBatch} (hbatch : Pb batch) :
    DataOk C Pb Pv (node.insertPending C batch) := by
  refine { h with pending := ?_ }
  intro hash pending hp
  dsimp only [Node.insertPending] at hp
  rw [Function.update_apply] at hp
  split at hp
  · next hhash =>
    cases hp
    exact ⟨hbatch, hhash.symm⟩
  · exact h.pending hash pending hp

theorem removePending (h : DataOk C Pb Pv node) (hashes : List Bytes) :
    DataOk C Pb Pv (node.removePending hashes) := by
  refine { h with pending := ?_ }
  intro hash pending hp
  dsimp only [Node.removePending] at hp
  split at hp
  · cases hp
  · exact h.pending hash pending hp

theorem pushVote (h : DataOk C Pb Pv node) {vote : VelocityVote} (hvote : Pv vote) :
    DataOk C Pb Pv { node with core := node.core.pushVote vote.batchHash vote } := by
  refine { h with votes := ?_ }
  intro hash
  dsimp only [CoreConsensusState.pushVote]
  rw [Function.update_apply]
  split
  · next hhash =>
    subst hhash
    exact forall_mem_snoc (h.votes _) ⟨hvote, rfl⟩
  · exact h.votes hash

theorem vote (h : DataOk C Pb Pv node) {cfg : Config C} {batch : PayloadBatch} (hbatch : Pb batch)
    (hvote : Pv (ownVote cfg batch)) : DataOk C Pb Pv (node.vote cfg batch) :=
  { h.pushVote hvote with voted := forall_mem_snoc h.voted hbatch }

theorem confirm (h : DataOk C Pb Pv node) {hash : Bytes} {batch : PendingBatch}
    (hbatch : Pb batch.toPayload) : DataOk C Pb Pv (node.confirm hash batch) :=
  { h with
    confirmed := forall_mem_snoc h.confirmed hbatch
    history := forall_mem_snoc h.history hbatch }

theorem certify (h : DataOk C Pb Pv node) (qc : QuorumCertificate) :
    DataOk C Pb Pv (node.certify qc) := by
  have hsent : DataOk C Pb Pv (node.broadcast (.newQuorumCertificate qc)) := h.broadcast trivial
  refine { hsent with
    votes := ?_
    confirmed := ?_ }
  · intro hash vote hvote
    dsimp only [Node.certify, CoreConsensusState.pruneStaleData] at hvote
    split at hvote
    · cases hvote
    · exact h.votes hash vote hvote
  · intro batch hbatch
    dsimp only [Node.certify, CoreConsensusState.pruneStaleData] at hbatch
    exact h.confirmed batch (List.mem_of_mem_drop hbatch)

end DataOk

/-- An action keeps `DataOk` if what it brings in satisfies the predicates. -/
theorem DataOk.act {cfg : Config C} {node node' : Node} {a : Action} (h : DataOk C Pb Pv node)
    (ha : ActionOk cfg Pb Pv node a) (hact : act cfg node a = some node') :
    DataOk C Pb Pv node' := by
  obtain ⟨node'', heffect, hsame⟩ := act_effect hact
  have htasks : ∀ entry ∈ node'.tasks, entry.2.Ok Pb Pv :=
    act_tasks (fun msg _ => ha.deliver msg) (fun _ _ _ _ => trivial)
      (fun _ _ _ => exec_next_ok ha) hact h.tasks
  refine DataOk.of_sameData ?_ hsame htasks
  cases heffect with
  | quiet => exact h
  | build hbuilds => exact { h with proposed := forall_mem_snoc h.proposed (ha.build _ hbuilds) }
  | insert hruns => exact h.insertPending (hruns.elim h.of_runs h.of_runs)
  | announce hruns => exact h.broadcast (h.of_runs hruns)
  | vote hvotes => exact h.vote (h.of_votes? hvotes) (ha.vote _ hvotes (h.of_votes? hvotes))
  | sendVote hruns => exact h.broadcast (h.of_runs hruns)
  | store hruns => exact h.pushVote (h.of_runs hruns)
  | confirm hconf => exact h.confirm (h.pending _ _ (ready_of_confirms? hconf).pending).1
  | certify hconf =>
    exact (h.confirm (h.pending _ _ (ready_of_confirms? hconf).pending).1).certify _
  | prune hruns => exact h.removePending _

end EviceChain.Sequencer
