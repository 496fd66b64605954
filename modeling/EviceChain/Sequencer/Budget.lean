import EviceChain.Sequencer.Acts
import EviceChain.Sequencer.NoLostQuorum

/-!
# What a node makes of what it is given

A message that arrives is handled by one task, and a step of the driver starts one.
Each task sends and proposes a limited amount until it ends. So what a node has sent is
limited by what it was sent and by the steps it has started, and what it has proposed by
what was submitted to it, however its tasks take turns and whichever of them are ended.

`Potential` is the rule: give every task a weight that covers what it may still add to a
quantity; then the quantity and the weights together grow by what is granted to the
actions only.

Results:
1. `sends_bounded`: a proposal that arrives makes a node send two messages at most, a vote
   or a certificate one, and a step that it starts two;
2. `payloads_proposed_once`: a node makes at most one proposal for each step that it
   starts, with at most `maxPayloads` payloads, and proposes no payload more often than
   it was submitted.
-/

namespace EviceChain.Sequencer

open Foundation

variable {C : Crypto}

/-! ## The rule -/

/-- The weight of all tasks of a node. -/
def load (w : Task → Nat) (node : Node) : Nat := (node.tasks.map fun entry => w entry.2).sum

/-- The tasks pay for what they add to a quantity of the node with their weight, and what
starts tasks is granted their weight. -/
structure Potential (cfg : Config C) (quantity : Node → Nat) (w : Task → Nat)
    (grant : Action → Nat) : Prop where
  tasks : ∀ node tasks, quantity { node with tasks := tasks } = quantity node
  driver : ∀ node core driver, quantity { node with core := core, driver := driver } = quantity node
  deliver : ∀ msg sourcePeer, w (.receive msg sourcePeer) ≤ grant (.deliver msg sourcePeer)
  submit : ∀ node payload, quantity { node with mempool := node.mempool ++ [payload] }
    ≤ quantity node + grant (.submit payload)
  start : ∀ round step, w (.roundStep round step) ≤ grant .advance
  run : ∀ now node task, quantity (exec cfg now node task).1
    + (exec cfg now node task).2.elim 0 w ≤ quantity node + w task
  cancel : ∀ node midway task, quantity (cancelTask cfg node midway task)
    ≤ quantity node + w task

/-- A node, and what has happened at it. -/
def loggedStep (cfg : Config C) (s : Node × List Action) (a : Action) :
    Option (Node × List Action) :=
  (act cfg s.1 a).map fun node => (node, s.2 ++ [a])

/-- The actions lead from a new node to the node. -/
abbrev Logged (cfg : Config C) (node : Node) (log : List Action) : Prop :=
  Run (loggedStep cfg) (fun _ _ => True) (Node.new genesisQc, []) (node, log)

/-! ## What is sent -/

/-- How many messages a message that arrives may cause: for a proposal a vote and a
certificate. -/
def ConsensusMessage.cost : ConsensusMessage → Nat
  | .intentBatchProposal _ => 2
  | .velocityVoteMsg _ => 1
  | .newQuorumCertificate _ => 1

/-- How many messages a task may still send. -/
def sendWeight : Task → Nat
  | .receive msg _ | .recheck msg _ => msg.cost
  | .insertProposal _ | .castVote _ | .sendVote _ => 2
  | .processVotes _ | .checkVote _ | .storeVote _ | .anchorQc _ _ | .requestBatch _ _ => 1
  | .collectConfirmed | .pruneProposals _ => 0
  | .roundStep _ _ | .readParent _ | .drainMempool _ _ | .buildBatch _ _ _ | .insertOwn _
  | .announce _ => 2
  | .selfVote _ => 1

def sendGrant : Action → Nat
  | .deliver msg _ => msg.cost
  | .advance => 2
  | _ => 0

/-! ## What is proposed -/

/-- How many batches a task may still propose. -/
def proposalWeight : Task → Nat
  | .roundStep _ _ | .readParent _ | .drainMempool _ _ | .buildBatch _ _ _ => 1
  | _ => 0

def proposalGrant : Action → Nat
  | .advance => 1
  | _ => 0

/-- How often a task holds a payload for its proposal. -/
def payloadWeight (payload : AppPayload) : Task → Nat
  | .buildBatch _ _ payloads => payloads.count payload
  | _ => 0

def payloadGrant (payload : AppPayload) : Action → Nat
  | .submit submitted => [submitted].count payload
  | _ => 0

/-- How often a node has a payload or has proposed it. -/
def payloadCount (payload : AppPayload) (node : Node) : Nat :=
  (node.proposed.flatMap PayloadBatch.payloads).count payload + node.mempool.count payload

/-- The payloads that the actions submit. -/
def submitted (log : List Action) : List AppPayload :=
  log.filterMap fun
    | .submit payload => some payload
    | _ => none

/-- The steps that the actions start. -/
def started (log : List Action) : Nat := log.countP (· = .advance)

namespace BudgetLemmas

theorem sum_eraseIdx {α : Type} (f : α → Nat) {l : List α} {k : Nat} {x : α}
    (h : l[k]? = some x) : ((l.eraseIdx k).map f).sum + f x = (l.map f).sum := by
  obtain ⟨hk, rfl⟩ := List.getElem?_eq_some_iff.mp h
  have hsum := ((List.getElem_cons_eraseIdx_perm hk).map f).sum_eq
  rw [List.map_cons, List.sum_cons] at hsum
  omega

theorem sum_set {α : Type} (f : α → Nat) {l : List α} {k : Nat} {x : α} (h : l[k]? = some x)
    (y : α) : ((l.set k y).map f).sum + f x = (l.map f).sum + f y := by
  have hk : k < l.length := (List.getElem?_eq_some_iff.mp h).1
  have hold := sum_eraseIdx f h
  have hnew := sum_eraseIdx f (l := l.set k y) (k := k) (x := y) (by simp [hk])
  rw [List.eraseIdx_set_eq] at hnew
  omega

theorem load_abort (w : Task → Nat) (tasks : List (TaskKind × Task)) :
    ((tasks.map abortTask).map fun entry => w entry.2) = tasks.map fun entry => w entry.2 := by
  rw [List.map_map]
  refine List.map_congr_left fun entry _ => ?_
  obtain ⟨kind, task⟩ := entry
  cases kind <;> rfl

variable {cfg : Config C} {quantity : Node → Nat} {w : Task → Nat} {grant : Action → Nat}
  {node node' : Node}

theorem potential_act (h : Potential cfg quantity w grant) {a : Action}
    (hact : act cfg node a = some node') :
    quantity node' + load w node' ≤ quantity node + load w node + grant a := by
  cases a with
  | deliver msg sourcePeer =>
    cases hact
    have hgrant := h.deliver msg sourcePeer
    rw [h.tasks]
    simp only [load, List.map_append, List.sum_append, List.map_singleton, List.sum_singleton]
    omega
  | submit payload =>
    cases hact
    have hgrant := h.submit node payload
    show quantity _ + load w node ≤ _
    omega
  | tick timedOut =>
    dsimp only [act] at hact
    split at hact
    · next next _ _ =>
      cases hact
      rw [h.tasks { node with driver := some next }, h.driver node node.core (some next)]
      show _ + ((node.tasks.map abortTask).map fun entry => w entry.2).sum ≤ _
      rw [load_abort]
      exact Nat.le_add_right _ _
    · cases hact
      exact Nat.le_add_right _ _
    · cases hact
  | advance =>
    dsimp only [act] at hact
    split at hact
    · cases hact
    · next round step _ =>
      cases hact
      have hgrant := h.start round step
      rw [h.tasks { node with
          core := { node.core with currentRound := round, currentStep := step }, driver := none },
        h.driver node { node.core with currentRound := round, currentStep := step } none]
      simp only [load, List.map_append, List.sum_append, List.map_singleton, List.sum_singleton]
      omega
  | run k now =>
    dsimp only [act] at hact
    split at hact
    · cases hact
    · next kind task htask =>
      have hrun := h.run now node task
      split at hact
      · next task' hnext =>
        cases hact
        have hload := sum_set (fun entry => w entry.2) htask (kind, task')
        dsimp only at hload
        rw [hnext, Option.elim_some] at hrun
        rw [h.tasks (exec cfg now node task).1]
        simp only [load]
        omega
      · next hnext =>
        cases hact
        have hload := sum_eraseIdx (fun entry => w entry.2) htask
        dsimp only at hload
        rw [hnext, Option.elim_none] at hrun
        rw [h.tasks (exec cfg now node task).1]
        simp only [load]
        omega
  | cancel k midway =>
    dsimp only [act] at hact
    split at hact
    · next task htask =>
      cases hact
      have hcancel := h.cancel node midway task
      have hload := sum_eraseIdx (fun entry => w entry.2) htask
      dsimp only at hload
      rw [h.tasks (cancelTask cfg node midway task)]
      simp only [load]
      omega
    · cases hact

theorem potential_run (h : Potential cfg quantity w grant) {log : List Action}
    (hrun : Logged cfg node log) :
    quantity node + load w node ≤ quantity (Node.new genesisQc) + (log.map grant).sum := by
  refine hrun.invariant (I := fun s => quantity s.1 + load w s.1
    ≤ quantity (Node.new genesisQc) + (s.2.map grant).sum) (Nat.le_refl _) ?_
  intro s s' a _ _ hstep hle
  obtain ⟨node', hact, rfl⟩ := Option.map_eq_some_iff.mp hstep
  have hact := potential_act h hact
  simp only [List.map_append, List.sum_append, List.map_singleton, List.sum_singleton]
  omega

/-! ### What is sent -/

/-- What a task sends and what it may send from its next point on. -/
theorem sends_exec (cfg : Config C) (now : UInt64) (node : Node) (task : Task) :
    (sends cfg node task).length + (exec cfg now node task).2.elim 0 sendWeight
      ≤ sendWeight task := by
  cases task with
  | receive msg =>
    dsimp only [exec, sends]
    split
    · exact Nat.zero_le _
    · exact Nat.le_of_eq (Nat.zero_add _)
  | recheck msg =>
    dsimp only [exec, sends]
    split
    · exact Nat.zero_le _
    · cases msg <;> exact Nat.le_of_eq (Nat.zero_add _)
  | insertProposal | storeVote =>
    dsimp only [exec, sends]
    split
    · exact Nat.zero_le _
    · split <;> simp [sendWeight]
  | processVotes batchHash =>
    dsimp only [exec, sends]
    cases readyBatch cfg node batchHash with
    | none => exact Nat.zero_le _
    | some batch => exact Nat.le_refl _
  | checkVote =>
    dsimp only [exec, sends]
    split <;> simp [sendWeight]
  | anchorQc qc sourcePeer =>
    dsimp only [exec, sends]
    split
    · exact Nat.le_refl _
    · split
      · split <;> simp [sendWeight]
      · exact Nat.zero_le _
  | roundStep round step =>
    dsimp only [exec, sends]
    split
    · exact Nat.zero_le _
    · split
      · exact Nat.zero_le _
      · split <;> simp [sendWeight]
  | _ => simp [exec, sends, sendWeight]

/-- Ending a task sends nothing. -/
theorem cancelTask_same (cfg : Config C) (node : Node) (midway : Bool) (task : Task) :
    (cancelTask cfg node midway task).outbox = node.outbox ∧
      (cancelTask cfg node midway task).proposed = node.proposed ∧
      (cancelTask cfg node midway task).mempool = node.mempool := by
  unfold cancelTask
  split
  · split <;> exact ⟨rfl, rfl, rfl⟩
  · exact ⟨rfl, rfl, rfl⟩

theorem send_potential (cfg : Config C) :
    Potential cfg (fun node => node.outbox.length) sendWeight sendGrant where
  tasks _ _ := rfl
  driver _ _ _ := rfl
  deliver _ _ := Nat.le_refl _
  submit _ _ := Nat.le_refl _
  start _ _ := Nat.le_refl _
  run now node task := by
    rw [outbox_exec, List.length_append, Nat.add_assoc]
    exact Nat.add_le_add_left (sends_exec cfg now node task) _
  cancel node midway task := by
    rw [(cancelTask_same cfg node midway task).1]
    exact Nat.le_add_right _ _

theorem sum_sendGrant (log : List Action) :
    (log.map sendGrant).sum
      = ((log.filterMap delivers?).map ConsensusMessage.cost).sum + 2 * started log := by
  induction log with
  | nil => rfl
  | cons a log ih =>
    rw [List.map_cons, List.sum_cons, ih]
    cases a <;> simp [sendGrant, delivers?, started, List.filterMap_cons] <;> omega

/-! ### What is proposed -/

/-- The task may still propose a batch. -/
def proposes (task : Task) : Bool := proposalWeight task = 1

/-- Only the proposer signs batches, and nobody else becomes one. -/
theorem exec_not_proposes (cfg : Config C) (now : UInt64) (node : Node) {task : Task}
    (h : proposes task = false) :
    (exec cfg now node task).1.proposed = node.proposed ∧
      ∀ task' ∈ (exec cfg now node task).2, proposes task' = false := by
  cases task with
  | roundStep | readParent | drainMempool | buildBatch => cases h
  | receive | checkVote =>
    dsimp only [exec]
    split <;> simp [proposes, proposalWeight]
  | recheck msg =>
    dsimp only [exec]
    split
    · simp
    · cases msg <;> simp [proposes, proposalWeight]
  | processVotes =>
    dsimp only [exec]
    split <;> simp [proposes, proposalWeight, Node.certify, Node.confirm, Node.broadcast, Node.send]
  | insertProposal | storeVote =>
    dsimp only [exec]
    split
    · simp
    · split <;> simp [proposes, proposalWeight, Node.insertPending]
  | anchorQc =>
    dsimp only [exec]
    split
    · simp [Node.send]
    · split
      · split <;> simp [proposes, proposalWeight]
      · simp
  | _ => simp [exec, proposes, proposalWeight, Node.vote, Node.broadcast, Node.send,
      Node.removePending, Node.insertPending]

theorem elim_of_not_proposes {w : Task → Nat} (hw : ∀ task, proposes task = false → w task = 0)
    {next : Option Task} (h : ∀ task ∈ next, proposes task = false) : next.elim 0 w = 0 := by
  cases next with
  | none => rfl
  | some task => exact hw task (h task rfl)

theorem proposal_potential (cfg : Config C) :
    Potential cfg (fun node => node.proposed.length) proposalWeight proposalGrant where
  tasks _ _ := rfl
  driver _ _ _ := rfl
  deliver _ _ := Nat.le_refl _
  submit _ _ := Nat.le_refl _
  start _ _ := Nat.le_refl _
  run now node task := by
    cases hproposes : proposes task with
    | false =>
      obtain ⟨hproposed, hnext⟩ := exec_not_proposes cfg now node hproposes
      rw [hproposed, elim_of_not_proposes (fun task h => ?_) hnext]
      · exact Nat.le_add_right _ _
      · cases task <;> first | rfl | cases h
    | true =>
      cases task with
      | roundStep round step =>
        dsimp only [exec]
        split
        · simp
        · split
          · simp
          · split <;> simp [proposalWeight]
      | readParent | drainMempool => exact Nat.le_refl _
      | buildBatch => simp [exec, proposalWeight]
      | _ => cases hproposes
  cancel node midway task := by
    rw [(cancelTask_same cfg node midway task).2.1]
    exact Nat.le_add_right _ _

theorem sum_proposalGrant (log : List Action) : (log.map proposalGrant).sum = started log := by
  induction log with
  | nil => rfl
  | cons a log ih =>
    rw [List.map_cons, List.sum_cons, ih]
    cases a <;> simp [proposalGrant, started, Nat.add_comm]

theorem payload_potential (cfg : Config C) (payload : AppPayload) :
    Potential cfg (payloadCount payload) (payloadWeight payload) (payloadGrant payload) where
  tasks _ _ := rfl
  driver _ _ _ := rfl
  deliver _ _ := Nat.le_refl _
  submit node submitted := by
    simp only [payloadCount, payloadGrant, List.count_append]
    omega
  start _ _ := Nat.le_refl _
  run now node task := by
    cases hproposes : proposes task with
    | false =>
      obtain ⟨hproposed, hnext⟩ := exec_not_proposes cfg now node hproposes
      have hmempool : (exec cfg now node task).1.mempool = node.mempool := by
        refine NetworkLemmas.exec_mempool cfg now node ?_
        rintro round parentQc rfl
        cases hproposes
      rw [payloadCount, hproposed, hmempool, elim_of_not_proposes (fun task h => ?_) hnext]
      · exact Nat.le_add_right _ _
      · cases task <;> first | rfl | cases h
    | true =>
      cases task with
      | roundStep round step =>
        dsimp only [exec]
        split
        · simp
        · split
          · simp
          · split <;> simp [payloadWeight]
      | readParent => exact Nat.le_refl _
      | drainMempool round parentQc =>
        -- what leaves the mempool is in the hands of the task
        have hsplit : (node.mempool.take maxPayloads).count payload
            + (node.mempool.drop maxPayloads).count payload = node.mempool.count payload := by
          rw [← List.count_append, List.take_append_drop]
        simp only [exec, payloadCount, Option.elim_some, payloadWeight]
        omega
      | buildBatch round parentQc payloads =>
        simp [exec, payloadCount, payloadWeight, newBatch]
        omega
      | _ => cases hproposes
  cancel node midway task := by
    obtain ⟨-, hproposed, hmempool⟩ := cancelTask_same cfg node midway task
    rw [payloadCount, hproposed, hmempool]
    exact Nat.le_add_right _ _

theorem sum_payloadGrant (payload : AppPayload) (log : List Action) :
    (log.map (payloadGrant payload)).sum = (submitted log).count payload := by
  induction log with
  | nil => rfl
  | cons a log ih =>
    rw [List.map_cons, List.sum_cons, ih]
    cases a <;> simp [payloadGrant, submitted, List.count_cons, Nat.add_comm]

/-- No proposer holds, and no proposal has, more payloads than are drained at once. -/
structure SmallProposals (node : Node) : Prop where
  tasks : ∀ entry ∈ node.tasks, ∀ round parentQc payloads,
    entry.2 = .buildBatch round parentQc payloads → payloads.length ≤ maxPayloads
  proposed : ∀ batch ∈ node.proposed, batch.payloads.length ≤ maxPayloads

theorem drained_of_next {now : UInt64} {task : Task} {round : UInt64}
    {parentQc : QuorumCertificate} {payloads : List AppPayload}
    (h : (exec cfg now node task).2 = some (.buildBatch round parentQc payloads)) :
    payloads.length ≤ maxPayloads := by
  cases hproposes : proposes task with
  | false =>
    have hnext := (exec_not_proposes cfg now node hproposes).2 _ h
    cases hnext
  | true =>
    cases task with
    | drainMempool =>
      cases h
      exact List.length_take_le ..
    | roundStep =>
      dsimp only [exec] at h
      split at h
      · cases h
      · split at h
        · cases h
        · split at h <;> cases h
    | readParent | buildBatch => cases h
    | _ => cases hproposes

theorem length_of_builds? {a : Action} (h : SmallProposals node) {batch : PayloadBatch}
    (hbuilds : batch ∈ builds? cfg node a) : batch.payloads.length ≤ maxPayloads := by
  cases a with
  | run k now =>
    dsimp only [builds?] at hbuilds
    split at hbuilds
    · next htask =>
      cases hbuilds
      exact h.tasks _ (List.mem_of_getElem? htask) _ _ _ rfl
    · cases hbuilds
  | _ => cases hbuilds

theorem smallProposals_act {a : Action} (h : SmallProposals node)
    (hact : act cfg node a = some node') : SmallProposals node' := by
  refine ⟨?_, fun batch hbatch => ?_⟩
  · refine act_tasks (T := fun task => ∀ round parentQc payloads,
      task = .buildBatch round parentQc payloads → payloads.length ≤ maxPayloads)
      (fun _ _ _ _ _ _ hbuild => nomatch hbuild) (fun _ _ _ _ _ _ _ hbuild => nomatch hbuild) ?_
      hact h.tasks
    rintro now task _ - - hnext round parentQc payloads rfl
    exact drained_of_next hnext
  · rcases act_proposed hact with hsame | ⟨new, hbuilds, hnew⟩
    · exact h.proposed batch (hsame ▸ hbatch)
    · rw [hnew] at hbatch
      rcases List.mem_append.mp hbatch with hbatch | hbatch
      · exact h.proposed batch hbatch
      · rw [List.mem_singleton.mp hbatch]
        exact length_of_builds? h hbuilds

end BudgetLemmas

open BudgetLemmas

/-- A node has sent no more than what the messages it got and the steps it started allow. -/
theorem sends_bounded {cfg : Config C} {node : Node} {log : List Action}
    (h : Logged cfg node log) :
    node.outbox.length
      ≤ ((log.filterMap delivers?).map ConsensusMessage.cost).sum + 2 * started log := by
  have hle := potential_run (send_potential cfg) h
  rw [sum_sendGrant] at hle
  exact (Nat.le_add_right _ _).trans (hle.trans_eq (Nat.zero_add _))

/-- A node that is alone proposes and certifies a batch: the bound is reached. -/
theorem sends_bounded_solo :
    ∃ node log, Logged (soloNetwork.config false) node log ∧ started log = 1 ∧
      log.filterMap delivers? = [] ∧ node.outbox.length = 2 ∧ node.outbox.length ≤ 2 := by
  obtain ⟨⟨node, log⟩, hrun, hstarted, hdelivered, hsent⟩ : ∃ s : Node × List Action,
      Logged (soloNetwork.config false) s.1 s.2 ∧ started s.2 = 1 ∧
      s.2.filterMap delivers? = [] ∧ s.1.outbox.length = 2 :=
    exists_run (List.flatten [[.submit [7], .tick false, .advance], List.replicate 8 (.run 0 10)])
      (by decide +kernel)
  have hbound := sends_bounded hrun
  rw [hdelivered, hstarted] at hbound
  exact ⟨node, log, hrun, hstarted, hdelivered, hsent, hbound⟩

/-- The batches that a node has proposed are no more than the steps it started and none is
too large; their payloads together were submitted to it, each as often as it is there. -/
theorem payloads_proposed_once {cfg : Config C} {node : Node} {log : List Action}
    (h : Logged cfg node log) :
    node.proposed.length ≤ started log ∧
      (∀ batch ∈ node.proposed, batch.payloads.length ≤ maxPayloads) ∧
      (node.proposed.flatMap PayloadBatch.payloads).Subperm (submitted log) := by
  refine ⟨?_, ?_, ?_⟩
  · have hle := potential_run (proposal_potential cfg) h
    rw [sum_proposalGrant] at hle
    exact (Nat.le_add_right _ _).trans (hle.trans_eq (Nat.zero_add _))
  · have hsmall : SmallProposals node := by
      refine h.invariant (I := fun s => SmallProposals s.1) ⟨nofun, nofun⟩ ?_
      intro s s' a _ _ hstep hsmall
      obtain ⟨node', hact, rfl⟩ := Option.map_eq_some_iff.mp hstep
      exact smallProposals_act hsmall hact
    exact hsmall.proposed
  · rw [List.subperm_ext_iff]
    intro payload _
    have hle := potential_run (payload_potential cfg payload) h
    rw [sum_payloadGrant] at hle
    have hcount : (node.proposed.flatMap PayloadBatch.payloads).count payload
        ≤ payloadCount payload node := Nat.le_add_right _ _
    exact hcount.trans ((Nat.le_add_right _ _).trans (hle.trans_eq (Nat.zero_add _)))

/-- One payload is submitted twice, and both are in one batch. -/
theorem payloads_proposed_once_solo :
    ∃ node log, Logged (soloNetwork.config false) node log ∧ submitted log = [[7], [7]] ∧
      node.proposed.map PayloadBatch.payloads = [[[7], [7]]] ∧
      (node.proposed.flatMap PayloadBatch.payloads).Subperm [[7], [7]] := by
  obtain ⟨⟨node, log⟩, hrun, hsubmitted, hproposed⟩ : ∃ s : Node × List Action,
      Logged (soloNetwork.config false) s.1 s.2 ∧ submitted s.2 = [[7], [7]] ∧
      s.1.proposed.map PayloadBatch.payloads = [[[7], [7]]] :=
    exists_run (List.flatten
      [[.submit [7], .submit [7], .tick false, .advance], List.replicate 4 (.run 0 10)])
      (by decide +kernel)
  have hsub := (payloads_proposed_once hrun).2.2
  rw [hsubmitted] at hsub
  exact ⟨node, log, hrun, hsubmitted, hproposed, hsub⟩

end EviceChain.Sequencer
