import EviceChain.Sequencer.Confirmed
import EviceChain.Sequencer.StoredVotes

/-!
# Catching up with a certificate

A node that receives the certificate of a batch it has not confirmed moves its
anchor and asks for the batch. The signatures in the certificate are checked and
then forgotten: when the batch arrives, the node adds its own vote to the votes it
has stored and counts those. A node that has stored none stays without the batch
(`not_caught_up`).

What is needed is that the node meets the proposal for the first time and lacks no
vote but its own (`caught_up_iff`).
-/

namespace EviceChain.Sequencer

open NetworkLemmas

variable {ι : Type} {C : Crypto}

/-! ## Handlers that run to their end -/

/-- A task runs until it ends, with nothing in between. -/
inductive Ends (cfg : Config C) : Node → Task → Node → Prop
  | last {node node' : Node} {task : Task} (now : UInt64) :
      exec cfg now node task = (node', none) → Ends cfg node task node'
  | next {node node₁ node' : Node} {task task' : Task} (now : UInt64) :
      exec cfg now node task = (node₁, some task') → Ends cfg node₁ task' node' →
      Ends cfg node task node'

/-- Two tasks run side by side, in any order, until both have ended. -/
inductive BothEnd (cfg : Config C) : Node → Option Task → Option Task → Node → Prop
  | done {node : Node} : BothEnd cfg node none none node
  | left {node node' : Node} {task : Task} {other : Option Task} (now : UInt64) :
      BothEnd cfg (exec cfg now node task).1 (exec cfg now node task).2 other node' →
      BothEnd cfg node (some task) other node'
  | right {node node' : Node} {task : Task} {other : Option Task} (now : UInt64) :
      BothEnd cfg (exec cfg now node task).1 other (exec cfg now node task).2 node' →
      BothEnd cfg node other (some task) node'

/-- The handler that takes care of a message. -/
def firstTask (sourcePeer : PeerId) : ConsensusMessage → Task
  | .intentBatchProposal batch => .insertProposal batch
  | .velocityVoteMsg vote => .checkVote vote
  | .newQuorumCertificate qc => .anchorQc qc sourcePeer

/-- A message that is not in the cache is put there and handled. -/
theorem Ends.of_unseen {cfg : Config C} {node node' : Node} {msg : ConsensusMessage}
    {peer : PeerId} {task : Task}
    (hunseen : C.messageHash msg ∉ node.recentlyProcessedHashes)
    (htask : firstTask peer msg = task)
    (h : Ends cfg
      { node with
        recentlyProcessedHashes := cachePut C node.recentlyProcessedHashes (C.messageHash msg) }
      task node') :
    Ends cfg node (.receive msg peer) node' := by
  subst htask
  have hreceive : exec cfg 0 node (.receive msg peer) = (node, some (.recheck msg peer)) := by
    simp only [exec, hunseen, if_false]
  have hrecheck : exec cfg 0 node (.recheck msg peer) =
      ({ node with
          recentlyProcessedHashes := cachePut C node.recentlyProcessedHashes (C.messageHash msg) },
        some (firstTask peer msg)) := by
    simp only [exec, hunseen, if_false]
    cases msg <;> rfl
  exact .next 0 hreceive (.next 0 hrecheck h)

theorem BothEnd.of_left {cfg : Config C} {node node₁ node' : Node} {task : Task}
    {other : Option Task} (h : Ends cfg node task node₁)
    (hrest : BothEnd cfg node₁ none other node') : BothEnd cfg node (some task) other node' := by
  induction h with
  | last now hexec => exact .left now (by rwa [hexec])
  | next now hexec _ ih => exact .left now (by rw [hexec]; exact ih hrest)

theorem BothEnd.of_right {cfg : Config C} {node node₁ node' : Node} {task : Task}
    {other : Option Task} (h : Ends cfg node task node₁)
    (hrest : BothEnd cfg node₁ other none node') : BothEnd cfg node other (some task) node' := by
  induction h with
  | last now hexec => exact .right now (by rwa [hexec])
  | next now hexec _ ih => exact .right now (by rw [hexec]; exact ih hrest)

/-- What each of the two tasks keeps at every one of its points holds when both
have ended. -/
theorem BothEnd.invariant {cfg : Config C} {P : Node → Option Task → Option Task → Prop}
    (hleft : ∀ now node task other, P node (some task) other →
      P (exec cfg now node task).1 (exec cfg now node task).2 other)
    (hright : ∀ now node other task, P node other (some task) →
      P (exec cfg now node task).1 other (exec cfg now node task).2)
    {node node' : Node} {task other : Option Task} (h : BothEnd cfg node task other node')
    (hP : P node task other) : P node' none none := by
  induction h with
  | done => exact hP
  | left now _ ih => exact ih (hleft now _ _ _ hP)
  | right now _ ih => exact ih (hright now _ _ _ hP)

/-! ## Such runs of two handlers are runs -/

/-- No task looks at the others. -/
theorem exec_withTasks (cfg : Config C) (now : UInt64) (node : Node) (task : Task)
    (tasks : List (TaskKind × Task)) :
    exec cfg now { node with tasks } task =
      ({ (exec cfg now node task).1 with tasks }, (exec cfg now node task).2) := by
  cases task with
  | receive | recheck | checkVote =>
    dsimp only [exec]
    split <;> rfl
  | insertProposal | anchorQc | storeVote =>
    dsimp only [exec]
    split
    · rfl
    · split <;> rfl
  | roundStep =>
    dsimp only [exec]
    split
    · rfl
    · split <;> rfl
  | processVotes batchHash =>
    have hready : readyBatch cfg { node with tasks } batchHash = readyBatch cfg node batchHash :=
      rfl
    dsimp only [exec]
    rw [hready]
    split <;> rfl
  | _ => rfl

/-- The tasks of a node that run a handler. -/
def handlers (task : Option Task) : List (TaskKind × Task) := task.toList.map (.handler, ·)

/-- Running a task replaces it by the point at which it stops, if it does. -/
theorem act_run_between (cfg : Config C) (now : UInt64) (node : Node)
    (before after : List (TaskKind × Task)) (task : Task) :
    act cfg { node with tasks := before ++ handlers (some task) ++ after }
        (.run before.length now) =
      some { (exec cfg now node task).1 with
        tasks := before ++ handlers (exec cfg now node task).2 ++ after } := by
  have htask : (before ++ handlers (some task) ++ after)[before.length]? =
      some (TaskKind.handler, task) := by
    simp [handlers]
  simp only [act, htask, exec_withTasks]
  cases (exec cfg now node task).2 with
  | some task' => simp [handlers]
  | none => simp [handlers, List.eraseIdx_append_of_length_le]

theorem BothEnd.reaches_of_tasks [DecidableEq ι] {net : Network ι C} {i : ι} {node node' : Node}
    {task other : Option Task} (h : BothEnd (net.config i) node task other node')
    (old : List (TaskKind × Task)) {σ : ι → Node}
    (hrun : Reaches net (fun _ _ _ => True)
      (Function.update σ i { node with tasks := old ++ handlers task ++ handlers other })) :
    Reaches net (fun _ _ _ => True) (Function.update σ i { node' with tasks := old }) := by
  induction h with
  | done => simpa [handlers] using hrun
  | @left node node' task other now _ ih =>
    refine ih ?_
    have hact := act_run_between (net.config i) now node old (handlers other) task
    have hnext := hrun.step (i := i) (a := .run old.length now) trivial
      (by rw [Function.update_self]; exact hact)
    rwa [Function.update_idem] at hnext
  | @right node node' task other now _ ih =>
    refine ih ?_
    have hact := act_run_between (net.config i) now node (old ++ handlers other) [] task
    rw [List.append_nil, List.append_nil] at hact
    have hnext := hrun.step (i := i) (a := .run (old ++ handlers other).length now) trivial
      (by rw [Function.update_self]; exact hact)
    rwa [Function.update_idem] at hnext

/-- Two messages arrive and their handlers run to their end while the other tasks of
the node rest: this is a run. -/
theorem BothEnd.reaches [DecidableEq ι] {net : Network ι C} {σ : ι → Node}
    (hrun : Reaches net (fun _ _ _ => True) σ) {i : ι} {msg msg' : ConsensusMessage}
    {peer peer' : PeerId} {node : Node}
    (h : BothEnd (net.config i) (σ i) (some (.receive msg peer)) (some (.receive msg' peer'))
      node) :
    Reaches net (fun _ _ _ => True)
      (Function.update σ i { node with tasks := (σ i).tasks }) := by
  refine h.reaches_of_tasks (σ i).tasks ?_
  have hfirst := hrun.step (i := i) (a := .deliver msg peer) trivial rfl
  have hboth := hfirst.step (i := i) (a := .deliver msg' peer') trivial
    (by rw [Function.update_self]; rfl)
  rw [Function.update_idem] at hboth
  exact hboth

/-! ## The handler of the certificate -/

/-- The points of `handle_new_quorum_certificate`. -/
def Task.ForQc (qc : QuorumCertificate) : Task → Prop
  | .receive msg _ | .recheck msg _ => msg = .newQuorumCertificate qc
  | .anchorQc qc' _ => qc' = qc
  | .requestBatch _ _ => True
  | _ => False

namespace CatchUpLemmas

variable {cfg : Config C} {node : Node} {qc : QuorumCertificate}

/-- The handler of a certificate leaves batches and votes alone, and puts nothing
but its own message into the cache. -/
theorem exec_forQc (cfg : Config C) (now : UInt64) (node : Node) {task : Task}
    (h : task.ForQc qc) :
    SameData node (exec cfg now node task).1 ∧
      (∀ x ∈ (exec cfg now node task).1.recentlyProcessedHashes,
        x = C.messageHash (.newQuorumCertificate qc) ∨ x ∈ node.recentlyProcessedHashes) ∧
      ∀ task' ∈ (exec cfg now node task).2, task'.ForQc qc := by
  cases task with
  | receive msg peer =>
    obtain rfl : msg = _ := h
    dsimp only [exec]
    split
    · exact ⟨.refl node, fun _ => .inr, fun _ h => nomatch h⟩
    · exact ⟨.refl node, fun _ => .inr, fun _ h => by cases h; rfl⟩
  | recheck msg peer =>
    obtain rfl : msg = _ := h
    dsimp only [exec]
    split
    · exact ⟨.refl node, fun _ => .inr, fun _ h => nomatch h⟩
    · exact ⟨⟨rfl, rfl, rfl, rfl, rfl, rfl, rfl, rfl⟩, fun _ => mem_cachePut,
        fun _ h => by cases h; rfl⟩
  | anchorQc qc' peer =>
    dsimp only [exec]
    split
    · exact ⟨⟨rfl, rfl, rfl, rfl, broadcasts_applyPenalty .., rfl, rfl, rfl⟩, fun _ => .inr,
        fun _ h => nomatch h⟩
    · split
      · refine ⟨⟨rfl, rfl, rfl, rfl, rfl, rfl, rfl, rfl⟩, fun _ => .inr, fun task' h => ?_⟩
        dsimp only at h
        split at h <;> cases h
        trivial
      · exact ⟨.refl node, fun _ => .inr, fun _ h => nomatch h⟩
  | requestBatch batchHash peer =>
    exact ⟨⟨rfl, rfl, rfl, rfl, broadcasts_sendDirectRequest .., rfl, rfl, rfl⟩, fun _ => .inr,
      fun _ h => nomatch h⟩
  | _ => cases h

theorem ends_anchorQc (cfg : Config C) (node : Node) (qc : QuorumCertificate) (peer : PeerId) :
    ∃ node', Ends cfg node (.anchorQc qc peer) node' ∧ SameData node node' ∧
      node'.recentlyProcessedHashes = node.recentlyProcessedHashes := by
  by_cases hvalid : isFullyValid C cfg.addressBook qc = true
  · by_cases hview : qc.viewNumber > node.core.highestSeenQc.viewNumber
    · by_cases hpending : (node.pendingProposals qc.batchHash).isSome
      · refine ⟨{ node with core := { node.core with highestSeenQc := qc } }, .last 0 ?_,
          ⟨rfl, rfl, rfl, rfl, rfl, rfl, rfl, rfl⟩, rfl⟩
        simp only [exec, hvalid, hview, hpending, Bool.not_true, Bool.false_eq_true, if_true,
          if_false]
      · have hanchor : exec cfg 0 node (.anchorQc qc peer) =
            ({ node with core := { node.core with highestSeenQc := qc } },
              some (.requestBatch qc.batchHash peer)) := by
          simp only [exec, hvalid, hview, hpending, Bool.not_true, Bool.false_eq_true, if_true,
            if_false]
        exact ⟨_, .next 0 hanchor (.last 0 rfl),
          ⟨rfl, rfl, rfl, rfl, broadcasts_sendDirectRequest .., rfl, rfl, rfl⟩, rfl⟩
    · refine ⟨node, .last 0 ?_, .refl node, rfl⟩
      simp only [exec, hvalid, hview, Bool.not_true, Bool.false_eq_true, if_false]
  · refine ⟨node.send (.applyPenalty peer (-50)), .last 0 ?_,
      ⟨rfl, rfl, rfl, rfl, broadcasts_applyPenalty .., rfl, rfl, rfl⟩, rfl⟩
    simp only [exec, hvalid, Bool.not_false, if_true]

/-- The handler of a certificate ends, and its message is in the cache then. -/
theorem ends_receive_qc (cfg : Config C) (node : Node) (qc : QuorumCertificate) (peer : PeerId) :
    ∃ node', Ends cfg node (.receive (.newQuorumCertificate qc) peer) node' ∧
      SameData node node' ∧
      C.messageHash (.newQuorumCertificate qc) ∈ node'.recentlyProcessedHashes := by
  by_cases hseen : C.messageHash (.newQuorumCertificate qc) ∈ node.recentlyProcessedHashes
  · exact ⟨node, .last 0 (by simp only [exec, hseen, if_true]), .refl node, hseen⟩
  · obtain ⟨node', hends, hsame, hcache⟩ := ends_anchorQc cfg
      { node with
        recentlyProcessedHashes :=
          cachePut C node.recentlyProcessedHashes (C.messageHash (.newQuorumCertificate qc)) }
      qc peer
    refine ⟨node', .of_unseen hseen rfl hends, ⟨hsame.1, hsame.2, hsame.3, hsame.4, hsame.5,
      hsame.6, hsame.7, hsame.8⟩, ?_⟩
    rw [hcache]
    exact mem_cachePut_self C _ _

end CatchUpLemmas

/-! ## The handler of the proposal -/

/-- What the node has to have before the two messages arrive: the proposal is new to
it, and the only vote it lacks is its own. -/
structure FirstSight (cfg : Config C) (node : Node) (qc : QuorumCertificate)
    (batch : PayloadBatch) : Prop where
  unseen : C.messageHash (.intentBatchProposal batch) ∉ node.recentlyProcessedHashes
  apart : C.messageHash (.intentBatchProposal batch) ≠ C.messageHash (.newQuorumCertificate qc)
  absent : node.pendingProposals (batch.hash C) = none
  fresh : batch.hash C ∉ node.core.processedOptimisticBatches
  votes : requiredQuorum cfg.addressBook.size ≤
    (node.core.velocityVotes (batch.hash C)).length + 1

/-- A batch with the hash is among the confirmed ones. -/
def Has (C : Crypto) (node : Node) (hash : Bytes) : Prop :=
  ∃ batch ∈ node.core.optimisticallyConfirmedBatches, batch.hash C = hash

/-- The points of `handle_batch_proposal`. -/
def Task.ForBatch (C : Crypto) (batch : PayloadBatch) : Task → Prop
  | .receive msg _ | .recheck msg _ => msg = .intentBatchProposal batch
  | .insertProposal batch' | .castVote batch' => batch' = batch
  | .sendVote vote => vote.batchHash = batch.hash C
  | .processVotes batchHash => batchHash = batch.hash C
  | .collectConfirmed | .pruneProposals _ => True
  | _ => False

/-- How far the confirmation of the batch has got at each point of the handler, if
it was met for the first time. -/
def Stage (cfg : Config C) (batch : PayloadBatch) (node : Node) : Option Task → Prop
  | some (.receive msg _) | some (.recheck msg _) =>
    msg = .intentBatchProposal batch ∧ C.messageHash msg ∉ node.recentlyProcessedHashes ∧
      node.pendingProposals (batch.hash C) = none ∧
      batch.hash C ∉ node.core.processedOptimisticBatches ∧
      requiredQuorum cfg.addressBook.size ≤ (node.core.velocityVotes (batch.hash C)).length + 1
  | some (.insertProposal batch') =>
    batch' = batch ∧ node.pendingProposals (batch.hash C) = none ∧
      batch.hash C ∉ node.core.processedOptimisticBatches ∧
      requiredQuorum cfg.addressBook.size ≤ (node.core.velocityVotes (batch.hash C)).length + 1
  | some (.castVote batch') =>
    batch' = batch ∧ node.pendingProposals (batch.hash C) = some batch.toPending ∧
      batch.hash C ∉ node.core.processedOptimisticBatches ∧
      requiredQuorum cfg.addressBook.size ≤ (node.core.velocityVotes (batch.hash C)).length + 1
  | some (.sendVote vote) =>
    vote.batchHash = batch.hash C ∧ Ready cfg node (batch.hash C) batch.toPending
  | some (.processVotes batchHash) =>
    batchHash = batch.hash C ∧ Ready cfg node (batch.hash C) batch.toPending
  | some .collectConfirmed | some (.pruneProposals _) | none =>
    batch ∈ node.core.optimisticallyConfirmedBatches
  | _ => False

namespace CatchUpLemmas

variable {cfg : Config C} {node : Node} {batch : PayloadBatch}

theorem readyBatch_of_ready {batchHash : Bytes} {pending : PendingBatch}
    (h : Ready cfg node batchHash pending) : readyBatch cfg node batchHash = some pending := by
  rw [readyBatch, if_neg h.fresh, if_pos h.quorum, h.pending]

theorem mem_confirmed_certify (batchHash : Bytes) (pending : PendingBatch)
    (qc : QuorumCertificate) :
    pending.toPayload ∈
      ((node.confirm batchHash pending).certify qc).core.optimisticallyConfirmedBatches := by
  rw [PushedOnce.confirmed_certify]
  dsimp only [Node.confirm]
  rw [List.length_append, List.length_singleton, List.drop_append_of_le_length]
  · exact List.mem_append_right _ (List.mem_singleton_self _)
  · have : 0 < maxConfirmedBatches := by decide
    omega

/-- A step of the handler of the proposal. -/
theorem stage_exec (now : UInt64) {task : Task}
    (hsigned : verifyBatchSignature C cfg.addressBook batch.header = true)
    (h : Stage cfg batch node (some task)) :
    Stage cfg batch (exec cfg now node task).1 (exec cfg now node task).2 := by
  cases task with
  | receive msg peer =>
    obtain ⟨rfl, hunseen, hrest⟩ := h
    simp only [exec, hunseen, if_false]
    exact ⟨rfl, hunseen, hrest⟩
  | recheck msg peer =>
    obtain ⟨rfl, hunseen, hrest⟩ := h
    simp only [exec, hunseen, if_false]
    exact ⟨rfl, hrest⟩
  | insertProposal batch' =>
    obtain ⟨rfl, habsent, hfresh, hvotes⟩ := h
    simp only [exec, hsigned, Bool.not_true, Bool.false_eq_true, if_false, habsent,
      Option.isSome_none]
    exact ⟨rfl, Function.update_self _ _ _, hfresh, hvotes⟩
  | castVote batch' =>
    obtain ⟨rfl, hpending, hfresh, hvotes⟩ := h
    refine ⟨rfl, hfresh, ?_, hpending⟩
    dsimp only [exec, Node.vote, CoreConsensusState.pushVote]
    rw [Function.update_self, List.length_append, List.length_singleton]
    exact hvotes
  | sendVote vote =>
    obtain ⟨hhash, hready⟩ := h
    exact ⟨hhash, hready.fresh, hready.quorum, hready.pending⟩
  | processVotes batchHash =>
    obtain ⟨rfl, hready⟩ := h
    simp only [exec, readyBatch_of_ready hready]
    exact mem_confirmed_certify (batch.hash C) batch.toPending _
  | collectConfirmed | pruneProposals => exact h
  | _ => exact h.elim

/-- A step of the handler of the certificate. -/
theorem stage_of_forQc {qc : QuorumCertificate} {task : Task} {other : Option Task}
    (now : UInt64)
    (hapart : C.messageHash (.intentBatchProposal batch) ≠
      C.messageHash (.newQuorumCertificate qc))
    (htask : task.ForQc qc) (h : Stage cfg batch node other) :
    Stage cfg batch (exec cfg now node task).1 other := by
  obtain ⟨hsame, hcache, -⟩ := exec_forQc cfg now node htask
  have hunseen : C.messageHash (.intentBatchProposal batch) ∉ node.recentlyProcessedHashes →
      C.messageHash (.intentBatchProposal batch) ∉
        (exec cfg now node task).1.recentlyProcessedHashes :=
    fun h hmem => (hcache _ hmem).elim hapart h
  have hvotes := hsame.votes
  have hprocessed := hsame.processed
  have hconfirmed := hsame.confirmed
  have hpending := hsame.pending
  cases other with
  | none =>
    dsimp only [Stage] at h ⊢
    rwa [hconfirmed]
  | some task' =>
    cases task' with
    | receive msg peer | recheck msg peer =>
      obtain ⟨rfl, hnew, hrest⟩ := h
      dsimp only [Stage]
      rw [hpending, hprocessed, hvotes]
      exact ⟨rfl, hunseen hnew, hrest⟩
    | insertProposal batch' | castVote batch' =>
      dsimp only [Stage] at h ⊢
      rwa [hpending, hprocessed, hvotes]
    | sendVote vote | processVotes batchHash =>
      obtain ⟨hhash, hready⟩ := h
      refine ⟨hhash, ?_, ?_, ?_⟩
      · rw [hprocessed]
        exact hready.fresh
      · rw [hvotes]
        exact hready.quorum
      · rw [hpending]
        exact hready.pending
    | collectConfirmed | pruneProposals =>
      dsimp only [Stage] at h ⊢
      rwa [hconfirmed]
    | _ => exact h.elim

/-- While the batch is processed, the handler of the proposal confirms nothing. -/
theorem exec_forBatch (cfg : Config C) (now : UInt64) {task : Task}
    (h : task.ForBatch C batch)
    (hprocessed : batch.hash C ∈ node.core.processedOptimisticBatches) :
    (exec cfg now node task).1.core.optimisticallyConfirmedBatches =
        node.core.optimisticallyConfirmedBatches ∧
      (exec cfg now node task).1.core.processedOptimisticBatches =
        node.core.processedOptimisticBatches ∧
      ∀ task' ∈ (exec cfg now node task).2, task'.ForBatch C batch := by
  cases task with
  | receive msg peer =>
    obtain rfl : msg = _ := h
    dsimp only [exec]
    split
    · exact ⟨rfl, rfl, fun _ h => by cases h⟩
    · exact ⟨rfl, rfl, fun _ h => by cases h; rfl⟩
  | recheck msg peer =>
    obtain rfl : msg = _ := h
    dsimp only [exec]
    split
    · exact ⟨rfl, rfl, fun _ h => by cases h⟩
    · exact ⟨rfl, rfl, fun _ h => by cases h; rfl⟩
  | insertProposal batch' =>
    obtain rfl : batch' = _ := h
    dsimp only [exec]
    split
    · exact ⟨rfl, rfl, fun _ h => by cases h⟩
    · split
      · exact ⟨rfl, rfl, fun _ h => by cases h⟩
      · exact ⟨rfl, rfl, fun _ h => by cases h; rfl⟩
  | castVote batch' =>
    obtain rfl : batch' = _ := h
    exact ⟨rfl, rfl, fun _ h => by cases h; rfl⟩
  | sendVote vote => exact ⟨rfl, rfl, fun _ h' => by cases h'; exact h⟩
  | processVotes batchHash =>
    obtain rfl : batchHash = _ := h
    have hnone : readyBatch cfg node (batch.hash C) = none := if_pos hprocessed
    rw [exec, hnone]
    exact ⟨rfl, rfl, fun _ h => by cases h⟩
  | collectConfirmed => exact ⟨rfl, rfl, fun _ h => by cases h; trivial⟩
  | pruneProposals => exact ⟨rfl, rfl, fun _ h => by cases h⟩
  | _ => exact h.elim

theorem ends_insertProposal (cfg : Config C) (node : Node) (batch : PayloadBatch)
    (hmissing : node.pendingProposals (batch.hash C) ≠ none ∨
      batch.hash C ∈ node.core.processedOptimisticBatches ∨
      (node.core.velocityVotes (batch.hash C)).length + 1 <
        requiredQuorum cfg.addressBook.size) :
    ∃ node', Ends cfg node (.insertProposal batch) node' ∧
      node'.core.optimisticallyConfirmedBatches = node.core.optimisticallyConfirmedBatches := by
  by_cases hsigned : verifyBatchSignature C cfg.addressBook batch.header = true
  · by_cases hpending : (node.pendingProposals (batch.hash C)).isSome
    · refine ⟨node, .last 0 ?_, rfl⟩
      simp only [exec, hsigned, hpending, Bool.not_true, Bool.false_eq_true, if_true, if_false]
    · have hnone : readyBatch cfg (((node.insertPending C batch).vote cfg batch).broadcast
          (.velocityVoteMsg (ownVote cfg batch))) (batch.hash C) = none := by
        rcases hmissing with hpending' | hprocessed | hvotes
        · exact absurd (Option.isSome_iff_ne_none.mpr hpending') hpending
        · exact if_pos hprocessed
        · unfold readyBatch
          split
          · rfl
          · refine if_neg ?_
            dsimp only [Node.broadcast, Node.send, Node.vote, Node.insertPending,
              CoreConsensusState.pushVote]
            rw [Function.update_self, List.length_append, List.length_singleton]
            exact Nat.not_le.mpr hvotes
      have hinsert : exec cfg 0 node (.insertProposal batch) =
          (node.insertPending C batch, some (.castVote batch)) := by
        simp only [exec, hsigned, hpending, Bool.not_true, Bool.false_eq_true, if_false]
      have hprocess : exec cfg 0 (((node.insertPending C batch).vote cfg batch).broadcast
          (.velocityVoteMsg (ownVote cfg batch))) (.processVotes (batch.hash C)) =
            (((node.insertPending C batch).vote cfg batch).broadcast
              (.velocityVoteMsg (ownVote cfg batch)), none) := by
        simp only [exec, hnone]
      exact ⟨_, .next 0 hinsert (.next 0 rfl (.next 0 rfl (.last 0 hprocess))), rfl⟩
  · refine ⟨node, .last 0 ?_, rfl⟩
    simp only [exec, hsigned, Bool.not_false, if_true]

/-- Where more than its own vote is missing, the handler of the proposal ends
without a confirmation. -/
theorem ends_receive_batch (cfg : Config C) (node : Node) (batch : PayloadBatch) (peer : PeerId)
    (hmissing : C.messageHash (.intentBatchProposal batch) ∈ node.recentlyProcessedHashes ∨
      node.pendingProposals (batch.hash C) ≠ none ∨
      batch.hash C ∈ node.core.processedOptimisticBatches ∨
      (node.core.velocityVotes (batch.hash C)).length + 1 <
        requiredQuorum cfg.addressBook.size) :
    ∃ node', Ends cfg node (.receive (.intentBatchProposal batch) peer) node' ∧
      node'.core.optimisticallyConfirmedBatches = node.core.optimisticallyConfirmedBatches := by
  by_cases hseen : C.messageHash (.intentBatchProposal batch) ∈ node.recentlyProcessedHashes
  · exact ⟨node, .last 0 (by simp only [exec, hseen, if_true]), rfl⟩
  · replace hmissing := hmissing.resolve_left hseen
    obtain ⟨node', hends, hsame⟩ := ends_insertProposal cfg
      { node with
        recentlyProcessedHashes :=
          cachePut C node.recentlyProcessedHashes (C.messageHash (.intentBatchProposal batch)) }
      batch hmissing
    exact ⟨node', .of_unseen hseen rfl hends, hsame⟩

theorem missing_of_not_firstSight {qc : QuorumCertificate}
    (hapart : C.messageHash (.intentBatchProposal batch) ≠
      C.messageHash (.newQuorumCertificate qc))
    (h : ¬ FirstSight cfg node qc batch) :
    C.messageHash (.intentBatchProposal batch) ∈ node.recentlyProcessedHashes ∨
      node.pendingProposals (batch.hash C) ≠ none ∨
      batch.hash C ∈ node.core.processedOptimisticBatches ∨
      (node.core.velocityVotes (batch.hash C)).length + 1 <
        requiredQuorum cfg.addressBook.size := by
  by_contra hnot
  push Not at hnot
  obtain ⟨hunseen, habsent, hfresh, hvotes⟩ := hnot
  exact h ⟨hunseen, hapart, habsent, hfresh, hvotes⟩

/-- In one of the two orders, a proposal that is not met for the first time is not
confirmed. -/
theorem exists_bothEnd_unconfirmed (cfg : Config C) (node : Node) {qc : QuorumCertificate}
    (h : ¬ FirstSight cfg node qc batch) (peer peer' : PeerId) :
    ∃ node', BothEnd cfg node (some (.receive (.newQuorumCertificate qc) peer))
        (some (.receive (.intentBatchProposal batch) peer')) node' ∧
      node'.core.optimisticallyConfirmedBatches = node.core.optimisticallyConfirmedBatches := by
  by_cases hcollide : C.messageHash (.intentBatchProposal batch) =
      C.messageHash (.newQuorumCertificate qc)
  -- the certificate first: the cache then takes the proposal for its message
  · obtain ⟨node₁, hends₁, hsame₁, hseen⟩ := ends_receive_qc cfg node qc peer
    obtain ⟨node₂, hends₂, hsame₂⟩ :=
      ends_receive_batch cfg node₁ batch peer' (.inl (hcollide ▸ hseen))
    exact ⟨node₂, .of_left hends₁ (.of_right hends₂ .done), hsame₂.trans hsame₁.confirmed⟩
  -- the proposal first
  · obtain ⟨node₁, hends₁, hsame₁⟩ :=
      ends_receive_batch cfg node batch peer' (missing_of_not_firstSight hcollide h)
    obtain ⟨node₂, hends₂, hsame₂, -⟩ := ends_receive_qc cfg node₁ qc peer
    exact ⟨node₂, .of_right hends₁ (.of_left hends₂ .done), hsame₂.confirmed.trans hsame₁⟩

/-- Nothing is confirmed where the batch has been processed before. -/
theorem confirmed_of_bothEnd {qc : QuorumCertificate} {peer peer' : PeerId} {node' : Node}
    (hprocessed : batch.hash C ∈ node.core.processedOptimisticBatches)
    (hends : BothEnd cfg node (some (.receive (.newQuorumCertificate qc) peer))
      (some (.receive (.intentBatchProposal batch) peer')) node') :
    node'.core.optimisticallyConfirmedBatches = node.core.optimisticallyConfirmedBatches := by
  refine (hends.invariant (P := fun m task other =>
    m.core.optimisticallyConfirmedBatches = node.core.optimisticallyConfirmedBatches ∧
      batch.hash C ∈ m.core.processedOptimisticBatches ∧
      (∀ task' ∈ task, task'.ForQc qc) ∧ ∀ task' ∈ other, task'.ForBatch C batch)
    (fun now m task other h => ?_) (fun now m other task h => ?_)
    ⟨rfl, hprocessed, fun _ h => by cases h; rfl, fun _ h => by cases h; rfl⟩).1
  · obtain ⟨hconfirmed, hprocessed, htask, hother⟩ := h
    obtain ⟨hsame, -, hnext⟩ := exec_forQc cfg now m (htask task rfl)
    exact ⟨hsame.confirmed.trans hconfirmed, hsame.processed ▸ hprocessed, hnext, hother⟩
  · obtain ⟨hconfirmed, hprocessed, hother, htask⟩ := h
    obtain ⟨hsame, hsame', hnext⟩ := exec_forBatch cfg now (htask task rfl) hprocessed
    exact ⟨hsame.trans hconfirmed, hsame' ▸ hprocessed, hother, hnext⟩

/-- A signed proposal that is met for the first time is confirmed, whatever the
handler of the certificate does in between. -/
theorem mem_confirmed_of_bothEnd {qc : QuorumCertificate} {peer peer' : PeerId} {node' : Node}
    (hsigned : verifyBatchSignature C cfg.addressBook batch.header = true)
    (hfirst : FirstSight cfg node qc batch)
    (hends : BothEnd cfg node (some (.receive (.newQuorumCertificate qc) peer))
      (some (.receive (.intentBatchProposal batch) peer')) node') :
    batch ∈ node'.core.optimisticallyConfirmedBatches := by
  refine (hends.invariant (P := fun m task other =>
    (∀ task' ∈ task, task'.ForQc qc) ∧ Stage cfg batch m other)
    (fun now m task other h => ?_) (fun now m other task h => ?_)
    ⟨fun _ h => by cases h; rfl, rfl, hfirst.unseen, hfirst.absent, hfirst.fresh,
      hfirst.votes⟩).2
  · have htask := h.1 task rfl
    exact ⟨(exec_forQc cfg now m htask).2.2, stage_of_forQc now hfirst.apart htask h.2⟩
  · exact ⟨h.1, stage_exec now hsigned h.2⟩

end CatchUpLemmas

open CatchUpLemmas

variable [DecidableEq ι]

/-- Whatever the certificate: however the handlers of the certificate and of the
signed proposal interleave, the node has the batch when both have ended, exactly
if it had it before, or meets the proposal for the first time and has all votes it
needs but its own. -/
theorem caught_up_iff {net : Network ι C} {ok : (ι → Node) → ι → Action → Prop} {σ : ι → Node}
    (hrun : Reaches net ok σ) (i : ι) (qc : QuorumCertificate) (batch : PayloadBatch)
    (hsigned : verifyBatchSignature C net.addressBook batch.header = true)
    (peer peer' : PeerId) :
    (∀ node, BothEnd (net.config i) (σ i) (some (.receive (.newQuorumCertificate qc) peer))
        (some (.receive (.intentBatchProposal batch) peer')) node → Has C node (batch.hash C)) ↔
      Has C (σ i) (batch.hash C) ∨ FirstSight (net.config i) (σ i) qc batch := by
  constructor
  · intro hall
    by_cases hfirst : FirstSight (net.config i) (σ i) qc batch
    · exact .inr hfirst
    · obtain ⟨node, hends, hsame⟩ :=
        exists_bothEnd_unconfirmed (net.config i) (σ i) hfirst peer peer'
      have hhas := hall node hends
      rw [Has, hsame] at hhas
      exact .inl hhas
  · rintro (⟨earlier, hmem, hhash⟩ | hfirst) node hends
    · have honce := pushedOnce_of_run (hrun.nodeRun i)
      have hprocessed : batch.hash C ∈ (σ i).core.processedOptimisticBatches :=
        hhash ▸ honce.processed earlier (honce.suffix.subset hmem)
      exact ⟨earlier, confirmed_of_bothEnd hprocessed hends ▸ hmem, hhash⟩
    · exact ⟨batch, mem_confirmed_of_bothEnd hsigned hfirst hends, rfl⟩

/-! ## A node that has stored votes, and one that has not -/

/-- The vote of a validator for the first batch of the first node. -/
def voteOf (key : UInt8) (σ : Bool → Node) : ConsensusMessage :=
  .velocityVoteMsg (signVote toyCrypto key (toyAddress key) 1
    (((σ false).proposed.head?.map (·.hash toyCrypto)).getD []))

/-- The first node certifies its batch with the votes of the third and the fourth
validator. -/
def certifiedAlone : List (Cue Bool) :=
  [.act false (.tick false), .act false .advance, .settle false 10,
    .inject false (voteOf 3), .settle false 20, .inject false (voteOf 4), .settle false 30]

/-- The second node has stored the votes of the two and meets the batch for the
first time. -/
theorem caught_up_iff_storedVotes :
    ∃ σ, Reaches faultyNetwork (VerifiedVotes faultyNetwork) σ ∧
      ∃ qc ∈ (σ false).certificates, ∃ batch ∈ (σ false).proposed,
        ∀ node, BothEnd (faultyNetwork.config true) (σ true)
          (some (.receive (.newQuorumCertificate qc) 0))
          (some (.receive (.intentBatchProposal batch) 0)) node →
            Has toyCrypto node (batch.hash toyCrypto) := by
  have hplay : ∃ σ, Reaches faultyNetwork (VerifiedVotes faultyNetwork) σ ∧
      ∃ qc ∈ (σ false).certificates, ∃ batch ∈ (σ false).proposed,
        verifyBatchSignature toyCrypto faultyNetwork.addressBook batch.header = true ∧
        toyCrypto.messageHash (.intentBatchProposal batch) ∉ (σ true).recentlyProcessedHashes ∧
        toyCrypto.messageHash (.intentBatchProposal batch) ≠
          toyCrypto.messageHash (.newQuorumCertificate qc) ∧
        (σ true).pendingProposals (batch.hash toyCrypto) = none ∧
        batch.hash toyCrypto ∉ (σ true).core.processedOptimisticBatches ∧
        requiredQuorum faultyNetwork.addressBook.size ≤
          ((σ true).core.velocityVotes (batch.hash toyCrypto)).length + 1 :=
    exists_reaches (certifiedAlone ++ [.inject true (voteOf 3), .settle true 40,
      .inject true (voteOf 4), .settle true 50]) (by decide +kernel)
  obtain ⟨σ, hrun, qc, hqc, batch, hbatch, hsigned, hunseen, hapart, habsent, hfresh, hvotes⟩ :=
    hplay
  exact ⟨σ, hrun, qc, hqc, batch, hbatch, (caught_up_iff hrun true qc batch hsigned 0 0).mpr
    (.inr ⟨hunseen, hapart, habsent, hfresh, hvotes⟩)⟩

/-- Runs a task to its end. -/
def runToEnd (cfg : Config C) (now : UInt64) : Nat → Node → Task → Option Node
  | 0, _, _ => none
  | fuel + 1, node, task =>
    match exec cfg now node task with
    | (node', none) => some node'
    | (node', some task') => runToEnd cfg now fuel node' task'

theorem ends_of_runToEnd {cfg : Config C} {now : UInt64} {fuel : Nat} {node node' : Node}
    {task : Task} (h : runToEnd cfg now fuel node task = some node') :
    Ends cfg node task node' := by
  induction fuel generalizing node task with
  | zero => cases h
  | succ fuel ih =>
    rw [runToEnd] at h
    split at h
    · next hexec =>
      cases h
      exact .last now hexec
    · next hexec => exact .next now hexec (ih h)

/-- The second node has no votes yet. It receives a valid certificate of the batch,
higher than what it has seen, and then the batch, and confirms nothing. -/
theorem not_caught_up :
    ∃ σ, Reaches faultyNetwork (VerifiedVotes faultyNetwork) σ ∧
      ∃ qc ∈ (σ false).certificates, ∃ batch ∈ (σ false).proposed,
        isFullyValid toyCrypto faultyNetwork.addressBook qc = true ∧
        qc.batchHash = batch.hash toyCrypto ∧
        qc.viewNumber > (σ true).core.highestSeenQc.viewNumber ∧
        verifyBatchSignature toyCrypto faultyNetwork.addressBook batch.header = true ∧
        ∃ node, BothEnd (faultyNetwork.config true) (σ true)
          (some (.receive (.newQuorumCertificate qc) 0))
          (some (.receive (.intentBatchProposal batch) 0)) node ∧
            node.core.optimisticallyConfirmedBatches = [] := by
  have hplay : ∃ σ, Reaches faultyNetwork (VerifiedVotes faultyNetwork) σ ∧
      ∃ qc ∈ (σ false).certificates, ∃ batch ∈ (σ false).proposed,
        isFullyValid toyCrypto faultyNetwork.addressBook qc = true ∧
        qc.batchHash = batch.hash toyCrypto ∧
        qc.viewNumber > (σ true).core.highestSeenQc.viewNumber ∧
        verifyBatchSignature toyCrypto faultyNetwork.addressBook batch.header = true ∧
        (((runToEnd (faultyNetwork.config true) 0 20 (σ true)
          (.receive (.newQuorumCertificate qc) 0)).bind fun node =>
            runToEnd (faultyNetwork.config true) 0 20 node
              (.receive (.intentBatchProposal batch) 0)).any
                fun node => node.core.optimisticallyConfirmedBatches = []) = true :=
    exists_reaches certifiedAlone (by decide +kernel)
  obtain ⟨σ, hrun, qc, hqc, batch, hbatch, hvalid, hhash, hview, hsigned, hplayed⟩ := hplay
  obtain ⟨node, hnode, hnone⟩ := (Option.any_eq_true _ _).mp hplayed
  obtain ⟨node₁, hends₁, hends₂⟩ := Option.bind_eq_some_iff.mp hnode
  exact ⟨σ, hrun, qc, hqc, batch, hbatch, hvalid, hhash, hview, hsigned, node,
    .of_left (ends_of_runToEnd hends₁) (.of_right (ends_of_runToEnd hends₂) .done),
    of_decide_eq_true hnone⟩

end EviceChain.Sequencer
