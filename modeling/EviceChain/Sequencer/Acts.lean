import EviceChain.Sequencer.Pending

/-!
# What an action does to a node, its tasks apart

`Acts` lists what each action of a node leads to, with what it needs. An invariant of
the data that a node keeps outside its tasks is a look at these cases
(`acts_of_act`).
-/

namespace EviceChain.Sequencer

variable {C : Crypto}

inductive Acts (cfg : Config C) (node : Node) : Action → Node → Prop
  | deliver {msg : ConsensusMessage} {sourcePeer : PeerId} :
      Acts cfg node (.deliver msg sourcePeer) node
  | submit {payload : AppPayload} :
      Acts cfg node (.submit payload) { node with mempool := node.mempool ++ [payload] }
  | wait {timedOut : Bool} : Acts cfg node (.tick timedOut) node
  | decide {timedOut : Bool} {next : UInt64 × UInt64} :
      node.driver = none → nextStep cfg node.core timedOut = some next →
      Acts cfg node (.tick timedOut) { node with driver := some next }
  | start {round step : UInt64} : node.driver = some (round, step) →
      Acts cfg node .advance
        { node with
          core := { node.core with currentRound := round, currentStep := step }
          driver := none }
  | run {k : Nat} {now : UInt64} {kind : TaskKind} {task : Task} :
      node.tasks[k]? = some (kind, task) → Acts cfg node (.run k now) (exec cfg now node task).1
  | cancel {k : Nat} {midway : Bool} {task : Task} :
      node.tasks[k]? = some (.aborted, task) →
      Acts cfg node (.cancel k midway) (cancelTask cfg node midway task)

theorem acts_of_act {cfg : Config C} {node node' : Node} {a : Action}
    (hact : act cfg node a = some node') :
    ∃ base, Acts cfg node a base ∧ node' = { base with tasks := node'.tasks } := by
  cases a with
  | deliver msg sourcePeer =>
    cases hact
    exact ⟨node, .deliver, rfl⟩
  | submit payload =>
    cases hact
    exact ⟨_, .submit, rfl⟩
  | tick timedOut =>
    dsimp only [act] at hact
    split at hact
    · next next hdriver hnext =>
      cases hact
      exact ⟨_, .decide hdriver hnext, rfl⟩
    · cases hact
      exact ⟨_, .wait, rfl⟩
    · cases hact
  | advance =>
    dsimp only [act] at hact
    split at hact
    · cases hact
    · next round step hdriver =>
      cases hact
      exact ⟨_, .start hdriver, rfl⟩
  | run k now =>
    dsimp only [act] at hact
    split at hact
    · cases hact
    · next kind task htask =>
      refine ⟨_, .run htask, ?_⟩
      split at hact <;> cases hact <;> rfl
  | cancel k midway =>
    dsimp only [act] at hact
    split at hact
    · next task htask =>
      cases hact
      exact ⟨_, .cancel htask, rfl⟩
    · cases hact

/-! ## What is sent -/

/-- What a task sends before its next point. -/
def sends (cfg : Config C) (node : Node) : Task → List P2pCommand
  | .sendVote vote => [.broadcastConsensusMessage (.velocityVoteMsg vote)]
  | .processVotes batchHash =>
    match readyBatch cfg node batchHash with
    | none => []
    | some batch =>
      [.broadcastConsensusMessage (.newQuorumCertificate (buildQc node batchHash batch))]
  | .anchorQc qc sourcePeer =>
    if !isFullyValid C cfg.addressBook qc then [.applyPenalty sourcePeer (-50)] else []
  | .requestBatch batchHash sourcePeer =>
    [.sendDirectRequest sourcePeer (.getFullProposal batchHash)]
  | .announce batch => [.broadcastConsensusMessage (.intentBatchProposal batch)]
  | _ => []

/-- What an action sends. A task that is ended while it broadcasts sends nothing. -/
def actionSends (cfg : Config C) (node : Node) : Action → List P2pCommand
  | .run k _ =>
    match node.tasks[k]? with
    | some (_, task) => sends cfg node task
    | none => []
  | _ => []

theorem outbox_exec (cfg : Config C) (now : UInt64) (node : Node) (task : Task) :
    (exec cfg now node task).1.outbox = node.outbox ++ sends cfg node task := by
  have hnone : node.outbox = node.outbox ++ [] := (List.append_nil _).symm
  cases task with
  | receive | recheck | checkVote =>
    dsimp only [exec]
    split <;> exact hnone
  | insertProposal | roundStep | storeVote =>
    dsimp only [exec]
    split
    · exact hnone
    · split <;> exact hnone
  | processVotes batchHash =>
    dsimp only [exec, sends]
    cases readyBatch cfg node batchHash with
    | none => exact hnone
    | some batch => rfl
  | anchorQc =>
    dsimp only [exec, sends]
    split
    · rfl
    · split <;> exact hnone
  | sendVote | requestBatch | announce => rfl
  | _ => exact hnone

theorem outbox_act {cfg : Config C} {node node' : Node} {a : Action}
    (hact : act cfg node a = some node') :
    node'.outbox = node.outbox ++ actionSends cfg node a := by
  obtain ⟨base, hacts, heq⟩ := acts_of_act hact
  rw [heq]
  show base.outbox = _
  cases hacts with
  | deliver | submit | wait | decide | start => exact (List.append_nil _).symm
  | run htask =>
    rw [outbox_exec]
    dsimp only [actionSends]
    rw [htask]
  | cancel htask =>
    show _ = node.outbox ++ []
    rw [List.append_nil]
    unfold cancelTask
    split
    · split <;> rfl
    · rfl

/-- A penalty goes to the peer that relayed an invalid certificate. -/
theorem penalty_of_actionSends {cfg : Config C} {node : Node} {a : Action} {peer : PeerId}
    {penalty : Int} (h : .applyPenalty peer penalty ∈ actionSends cfg node a) :
    ∃ (k : Nat) (kind : TaskKind) (qc : QuorumCertificate),
      node.tasks[k]? = some (kind, .anchorQc qc peer) ∧ penalty = -50 ∧
      isFullyValid C cfg.addressBook qc = false := by
  cases a with
  | run k now =>
    dsimp only [actionSends] at h
    split at h
    · next kind task htask =>
      cases task with
      | anchorQc qc sourcePeer =>
        dsimp only [sends] at h
        split at h
        · next hinvalid =>
          cases List.mem_singleton.mp h
          exact ⟨k, kind, qc, htask, rfl, by simpa using hinvalid⟩
        · cases h
      | processVotes batchHash =>
        dsimp only [sends] at h
        split at h
        · cases h
        · cases List.mem_singleton.mp h
      | sendVote | requestBatch | announce => cases List.mem_singleton.mp h
      | _ => cases h
    · cases h
  | _ => cases h

end EviceChain.Sequencer
