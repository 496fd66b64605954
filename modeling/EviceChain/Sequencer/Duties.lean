import EviceChain.Sequencer.NoLostQuorum
import EviceChain.Sequencer.StoredVotes

/-!
# What a node goes on to do

A node that inserts a batch goes on to vote for it, and one that has voted for the
batch of another goes on to send the vote. Nothing in between can be lost: what is
done stays done, and the task that is to do the next step is there until it has
done it (`Reaches.duties`). The proposer's own vote is not sent, and the driver
can end the proposer's task before it has voted (`Reaches.announced`).
-/

namespace EviceChain.Sequencer

open NetworkLemmas NoLostQuorumLemmas

variable {ι : Type} {C : Crypto}

/-- The points of the task that the driver starts and may end. -/
def Task.Endable : Task → Prop
  | .roundStep _ _ | .readParent _ | .drainMempool _ _ | .buildBatch _ _ _ | .insertOwn _
  | .announce _ | .selfVote _ | .processVotes _ | .collectConfirmed | .pruneProposals _ => True
  | _ => False

/-- The node has the batch pending, or has processed it. -/
def Held (node : Node) (hash : Bytes) : Prop :=
  (node.pendingProposals hash).isSome ∨ hash ∈ node.core.processedOptimisticBatches

/-- A vote of the validator for the batch is stored, as long as it is not processed. -/
def Counted (node : Node) (hash : Bytes) (voter : Address) : Prop :=
  (∃ vote ∈ node.core.velocityVotes hash, vote.voterAddress = voter) ∨
    hash ∈ node.core.processedOptimisticBatches

def HasProposed (C : Crypto) (node : Node) (hash : Bytes) : Prop :=
  ∃ batch ∈ node.proposed, batch.hash C = hash

def VotedFor (C : Crypto) (node : Node) (hash : Bytes) : Prop :=
  ∃ batch ∈ node.voted, batch.hash C = hash

def SentVote (cfg : Config C) (node : Node) (hash : Bytes) : Prop :=
  ∃ batch, batch.hash C = hash ∧ .velocityVoteMsg (ownVote cfg batch) ∈ node.broadcasts

/-- The node has sent a proposal with the hash. -/
def Announced (C : Crypto) (node : Node) (hash : Bytes) : Prop :=
  ∃ batch, batch.hash C = hash ∧ .intentBatchProposal batch ∈ node.broadcasts

/-- What is known at a point of a task. -/
def Task.Backed (C : Crypto) (node : Node) : Task → Prop
  | .castVote batch => Held node (batch.hash C)
  | .insertOwn batch => batch ∈ node.proposed
  | .announce batch | .selfVote batch => batch ∈ node.proposed ∧ Held node (batch.hash C)
  | .pruneProposals hashes => ∀ hash ∈ hashes, hash ∈ node.core.processedOptimisticBatches
  | _ => True

/-- The task is about to add the node's vote for the hash. -/
def Task.Casts (C : Crypto) (hash : Bytes) : Task → Prop
  | .castVote batch => batch.hash C = hash
  | _ => False

/-- The task is about to send the node's vote for the hash. -/
def Task.Sends (cfg : Config C) (hash : Bytes) : Task → Prop
  | .sendVote vote => ∃ batch, batch.hash C = hash ∧ vote = ownVote cfg batch
  | _ => False

/-- The task is about to add the proposer's own vote for the hash. -/
def Task.SelfVotes (C : Crypto) (hash : Bytes) : Task → Prop
  | .selfVote batch => batch.hash C = hash
  | _ => False

structure Duties (cfg : Config C) (node : Node) : Prop where
  kinds : ∀ entry ∈ node.tasks, entry.1 = .handler ∨ entry.2.Endable
  backed : ∀ entry ∈ node.tasks, entry.2.Backed C node
  held : ∀ batch ∈ node.voted, Held node (batch.hash C)
  counted : ∀ batch ∈ node.voted, Counted node (batch.hash C) cfg.myAddress
  casts : ∀ hash, Held node hash → (HasProposed C node hash ∨ VotedFor C node hash) ∨
    ∃ entry ∈ node.tasks, entry.2.Casts C hash
  sends : ∀ hash, VotedFor C node hash → (HasProposed C node hash ∨ SentVote cfg node hash) ∨
    ∃ entry ∈ node.tasks, entry.2.Sends cfg hash

namespace DutiesLemmas

variable {cfg : Config C} {node node' : Node} {a : Action} {hash : Bytes}

/-! ## What is done stays done -/

theorem hasProposed_act (hact : act cfg node a = some node') (h : HasProposed C node hash) :
    HasProposed C node' hash := by
  obtain ⟨batch, hmem, hhash⟩ := h
  refine ⟨batch, ?_, hhash⟩
  rcases act_proposed hact with hsame | ⟨new, -, hnew⟩
  · rwa [hsame]
  · rw [hnew]
    exact List.mem_append_left _ hmem

theorem votedFor_act (hact : act cfg node a = some node') (h : VotedFor C node hash) :
    VotedFor C node' hash := by
  obtain ⟨batch, hmem, hhash⟩ := h
  refine ⟨batch, ?_, hhash⟩
  rcases act_voted hact with hsame | ⟨new, -, hnew⟩
  · rwa [hsame]
  · rw [hnew]
    exact List.mem_append_left _ hmem

theorem broadcasts_act (hact : act cfg node a = some node') {msg : ConsensusMessage}
    (h : msg ∈ node.broadcasts) : msg ∈ node'.broadcasts := by
  obtain ⟨node'', heffect, hsame⟩ := act_effect hact
  rw [hsame.broadcasts]
  cases heffect with
  | announce =>
    rw [broadcasts_broadcast]
    exact List.mem_append_left _ h
  | sendVote =>
    rw [broadcasts_broadcast]
    exact List.mem_append_left _ h
  | certify =>
    change msg ∈ (Node.broadcast _ _).broadcasts
    rw [broadcasts_broadcast]
    exact List.mem_append_left _ h
  | _ => exact h

/-- Only what is processed is pruned. -/
theorem held_act (hact : act cfg node a = some node')
    (hbacked : ∀ entry ∈ node.tasks, entry.2.Backed C node) (h : Held node hash) :
    Held node' hash := by
  rcases h with hpending | hprocessed
  · obtain ⟨node'', heffect, hsame⟩ := act_effect hact
    suffices Held node'' hash by
      unfold Held at this ⊢
      rwa [hsame.pending, hsame.processed]
    cases heffect with
    | @insert now batch hruns =>
      refine .inl ?_
      dsimp only [Node.insertPending]
      rw [Function.update_apply]
      split
      · rfl
      · exact hpending
    | @prune now hashes hruns =>
      obtain ⟨kind, hmem⟩ := mem_tasks_of_runs hruns
      unfold Held
      dsimp only [Node.removePending]
      split
      · next hhash => exact .inr (hbacked _ hmem hash hhash)
      · exact .inl hpending
    | _ => exact .inl hpending
  · exact .inr (act_processed hact hprocessed)

/-- A voter stays among the voters of a batch until it is processed. -/
theorem counted_act (hact : act cfg node a = some node') {voter : Address}
    (h : Counted node hash voter) : Counted node' hash voter := by
  rcases h with ⟨vote, hmem, hvoter⟩ | hprocessed
  · obtain ⟨node'', heffect, hsame⟩ := act_effect hact
    unfold Counted
    rw [hsame.votes, hsame.processed]
    have hpush : ∀ batchHash new,
        vote ∈ (node.core.pushVote batchHash new).velocityVotes hash := by
      intro batchHash new
      dsimp only [CoreConsensusState.pushVote]
      rw [Function.update_apply]
      split
      · next he =>
        subst he
        exact List.mem_append_left _ hmem
      · exact hmem
    cases heffect with
    | vote => exact .inl ⟨vote, hpush _ _, hvoter⟩
    | store => exact .inl ⟨vote, hpush _ _, hvoter⟩
    | @certify batchHash batch hconf =>
      by_cases hnew : hash ∈ batchHash :: node.core.processedOptimisticBatches
      · exact .inr hnew
      · refine .inl ⟨vote, ?_, hvoter⟩
        dsimp only [Node.certify, CoreConsensusState.pruneStaleData, Node.confirm, Node.broadcast,
          Node.send]
        rwa [if_neg hnew]
    | _ => exact .inl ⟨vote, hmem, hvoter⟩
  · exact .inr (act_processed hact hprocessed)

theorem held_of_sameData (h : Held node hash) (hsame : SameData node node') : Held node' hash := by
  unfold Held
  rwa [hsame.pending, hsame.processed]

theorem held_of_sameData' (h : Held node' hash) (hsame : SameData node node') :
    Held node hash := by
  unfold Held at h
  rwa [hsame.pending, hsame.processed] at h

theorem announced_of_sameData (h : Announced C node' hash) (hsame : SameData node node') :
    Announced C node hash := by
  unfold Announced at h
  rwa [hsame.broadcasts] at h

theorem backed_mono (hact : act cfg node a = some node')
    (hbacked : ∀ entry ∈ node.tasks, entry.2.Backed C node) {task : Task}
    (h : task.Backed C node) : task.Backed C node' := by
  have hproposed : ∀ {batch}, batch ∈ node.proposed → batch ∈ node'.proposed := by
    intro batch hmem
    rcases act_proposed hact with hsame | ⟨new, -, hnew⟩
    · rwa [hsame]
    · rw [hnew]
      exact List.mem_append_left _ hmem
  cases task with
  | castVote batch => exact held_act hact hbacked h
  | insertOwn batch => exact hproposed h
  | announce batch | selfVote batch => exact ⟨hproposed h.1, held_act hact hbacked h.2⟩
  | pruneProposals hashes => exact fun x hx => act_processed hact (h x hx)
  | _ => trivial

/-! ## What the tasks know -/

/-- A task of the driver stays one. -/
theorem endable_next {now : UInt64} {task task' : Task} (h : task.Endable)
    (hnext : (exec cfg now node task).2 = some task') : task'.Endable := by
  cases exec_next hnext with
  | recheck | insertProposal | checkVote | anchorQc | castVote | sendVote | storeVote
  | requestBatch => exact h.elim
  | _ => trivial

theorem kinds_act (h : ∀ entry ∈ node.tasks, entry.1 = .handler ∨ entry.2.Endable)
    (hact : act cfg node a = some node') :
    ∀ entry ∈ node'.tasks, entry.1 = .handler ∨ entry.2.Endable := by
  refine act_entries (fun _ _ _ => .inl rfl) (fun _ _ _ _ => .inr trivial) ?_ ?_ hact h
  · rintro ⟨kind, task⟩ hentry
    cases kind with
    | step => exact .inr (hentry.resolve_left fun h => by cases h)
    | _ => exact hentry
  · intro now kind task task' _ hentry hnext
    exact hentry.imp_right fun hendable => endable_next hendable hnext

/-- The driver ends only its own tasks. -/
theorem endable_of_cancel (h : ∀ entry ∈ node.tasks, entry.1 = .handler ∨ entry.2.Endable)
    {k : Nat} {midway : Bool} (hact : act cfg node (.cancel k midway) = some node')
    {entry : TaskKind × Task} (hentry : node.tasks[k]? = some entry) : entry.2.Endable := by
  rcases h entry (List.mem_of_getElem? hentry) with hkind | hendable
  · obtain ⟨kind, task⟩ := entry
    obtain rfl : kind = .handler := hkind
    simp only [act, hentry] at hact
    cases hact
  · exact hendable

theorem not_endable_of_casts {task : Task} (h : task.Casts C hash) : ¬ task.Endable := by
  cases task with
  | castVote => exact id
  | _ => exact h.elim

theorem not_endable_of_sends {task : Task} (h : task.Sends cfg hash) : ¬ task.Endable := by
  cases task with
  | sendVote => exact id
  | _ => exact h.elim

theorem checks_of_selfVotes {task : Task} (h : task.SelfVotes C hash) : task.Checks C hash := by
  cases task with
  | selfVote => exact h
  | _ => exact h.elim

/-- What a task has done by its next point is known there. -/
theorem backed_next (hact : act cfg node a = some node') {now : UInt64} {task task' : Task}
    (hruns : Runs node a now task) (h : task.Backed C node')
    (hnext : (exec cfg now node task).2 = some task') : task'.Backed C node' := by
  have hsame := sameData_of_runs hact hruns
  have hinsert : ∀ batch, (exec cfg now node task).1 = node.insertPending C batch →
      Held node' (batch.hash C) := by
    intro batch hexec
    rw [hexec] at hsame
    refine held_of_sameData (.inl ?_) hsame
    dsimp only [Node.insertPending]
    rw [Function.update_self]
    rfl
  cases exec_next hnext with
  | castVote hexec => exact hinsert _ hexec
  | pruneProposals => exact fun x hx => act_processed hact hx
  | insertOwn =>
    change _ ∈ node'.proposed
    rw [hsame.proposed]
    exact List.mem_concat_self
  | announce => exact ⟨h, hinsert _ rfl⟩
  | selfVote => exact h
  | _ => trivial

theorem backed_act (h : ∀ entry ∈ node.tasks, entry.2.Backed C node)
    (hact : act cfg node a = some node') : ∀ entry ∈ node'.tasks, entry.2.Backed C node' :=
  act_tasks (fun _ _ _ => trivial) (fun _ _ _ _ => trivial)
    (fun _ _ _ hruns hbacked hnext => backed_next hact hruns hbacked hnext) hact
    fun entry hentry => backed_mono hact h (h entry hentry)

/-! ## Voting and sending -/

theorem backed_of_runs (h : ∀ entry ∈ node.tasks, entry.2.Backed C node) {now : UInt64}
    {task : Task} (hruns : Runs node a now task) : task.Backed C node := by
  obtain ⟨kind, hmem⟩ := mem_tasks_of_runs hruns
  exact h _ hmem

theorem held_of_votes? (h : ∀ entry ∈ node.tasks, entry.2.Backed C node) {batch : PayloadBatch}
    (hvotes : batch ∈ votes? node a) : Held node (batch.hash C) := by
  obtain ⟨now, hruns | hruns⟩ := runs_of_votes? hvotes
  · exact backed_of_runs h hruns
  · exact (backed_of_runs h hruns).2

theorem counted_of_votes? (hact : act cfg node a = some node') {batch : PayloadBatch}
    (hvotes : batch ∈ votes? node a) : Counted node' (batch.hash C) cfg.myAddress := by
  obtain ⟨now, hruns⟩ := runs_of_votes? hvotes
  refine .inl ⟨ownVote cfg batch, ?_, rfl⟩
  have hexec : ownVote cfg batch ∈ (node.vote cfg batch).core.velocityVotes (batch.hash C) := by
    dsimp only [Node.vote, CoreConsensusState.pushVote]
    rw [Function.update_self]
    exact List.mem_concat_self
  rcases hruns with hruns | hruns
  · rw [(sameData_of_runs hact hruns).votes]
    exact hexec
  · rw [(sameData_of_runs hact hruns).votes]
    exact hexec

/-- Whoever inserts a batch is its proposer or goes on to vote for it. -/
theorem exec_held (hbacked : ∀ entry ∈ node.tasks, entry.2.Backed C node) {now : UInt64}
    {task : Task} (hruns : Runs node a now task) (h : Held (exec cfg now node task).1 hash) :
    (Held node hash ∧ ¬ task.Casts C hash) ∨
      (HasProposed C (exec cfg now node task).1 hash ∨
        VotedFor C (exec cfg now node task).1 hash) ∨
      ∃ task', (exec cfg now node task).2 = some task' ∧ task'.Casts C hash := by
  cases task with
  | insertProposal batch =>
    dsimp only [exec] at h ⊢
    split at h
    · exact .inl ⟨h, id⟩
    · next hsigned =>
      rw [if_neg hsigned]
      split at h
      · exact .inl ⟨h, id⟩
      · next hnew =>
        rw [if_neg hnew]
        by_cases hhash : batch.hash C = hash
        · exact .inr (.inr ⟨_, rfl, hhash⟩)
        · refine .inl ⟨h.imp_left fun hpending => ?_, id⟩
          rwa [pending_insertPending hhash] at hpending
  | castVote batch =>
    by_cases hhash : batch.hash C = hash
    · exact .inr (.inl (.inr ⟨batch, List.mem_concat_self, hhash⟩))
    · exact .inl ⟨h, hhash⟩
  | processVotes batchHash =>
    refine .inl ⟨?_, id⟩
    dsimp only [exec] at h
    split at h
    · exact h
    · next batch hready =>
      rcases h with hpending | hprocessed
      · exact .inl hpending
      · rcases List.mem_cons.mp hprocessed with rfl | hprocessed
        · exact .inl (Option.isSome_iff_exists.mpr ⟨_, (ready_of_readyBatch hready).pending⟩)
        · exact .inr hprocessed
  | pruneProposals hashes => exact .inl ⟨h.imp_left pending_of_removePending, id⟩
  | storeVote vote =>
    refine .inl ⟨?_, id⟩
    dsimp only [exec] at h
    split at h
    · exact h
    · split at h <;> exact h
  | insertOwn batch =>
    by_cases hhash : batch.hash C = hash
    · exact .inr (.inl (.inl ⟨batch, backed_of_runs hbacked hruns, hhash⟩))
    · refine .inl ⟨h.imp_left fun hpending => ?_, id⟩
      rwa [exec, pending_insertPending hhash] at hpending
  | sendVote | buildBatch | announce | selfVote => exact .inl ⟨h, id⟩
  | _ => exact .inl ⟨held_of_sameData' h (exec_quiet cfg now node trivial), id⟩

/-- A vote is cast at two points only. -/
theorem exec_voted {now : UInt64} {task : Task} (hruns : Runs node a now task)
    (hcast : ∀ batch, task ≠ .castVote batch) (hself : ∀ batch, task ≠ .selfVote batch) :
    (exec cfg now node task).1.voted = node.voted := by
  obtain ⟨node', heffect, hsame⟩ := exec_effect cfg hruns
  rw [hsame.voted]
  cases heffect with
  | vote hvotes =>
    obtain ⟨now', hruns' | hruns'⟩ := runs_of_votes? hvotes
    · exact (hcast _ (runs_unique hruns hruns')).elim
    · exact (hself _ (runs_unique hruns hruns')).elim
  | _ => rfl

/-- Whoever votes for a batch is its proposer or goes on to send the vote. -/
theorem exec_votedFor (hbacked : ∀ entry ∈ node.tasks, entry.2.Backed C node) {now : UInt64}
    {task : Task} (hruns : Runs node a now task)
    (h : VotedFor C (exec cfg now node task).1 hash) :
    (VotedFor C node hash ∧ ¬ task.Sends cfg hash) ∨
      (HasProposed C (exec cfg now node task).1 hash ∨
        SentVote cfg (exec cfg now node task).1 hash) ∨
      ∃ task', (exec cfg now node task).2 = some task' ∧ task'.Sends cfg hash := by
  cases task with
  | castVote batch =>
    obtain ⟨batch', hmem, hhash⟩ := h
    rcases List.mem_append.mp hmem with hmem | hmem
    · exact .inl ⟨⟨batch', hmem, hhash⟩, id⟩
    · rw [List.mem_singleton.mp hmem] at hhash
      exact .inr (.inr ⟨_, rfl, batch, hhash, rfl⟩)
  | selfVote batch =>
    obtain ⟨batch', hmem, hhash⟩ := h
    rcases List.mem_append.mp hmem with hmem | hmem
    · exact .inl ⟨⟨batch', hmem, hhash⟩, id⟩
    · rw [List.mem_singleton.mp hmem] at hhash
      exact .inr (.inl (.inl ⟨batch, (backed_of_runs hbacked hruns).1, hhash⟩))
  | sendVote vote =>
    by_cases hsends : (Task.sendVote vote).Sends cfg hash
    · obtain ⟨batch, hhash, rfl⟩ := hsends
      refine .inr (.inl (.inr ⟨batch, hhash, ?_⟩))
      rw [exec, broadcasts_broadcast]
      exact List.mem_concat_self
    · exact .inl ⟨h, hsends⟩
  | _ =>
    unfold VotedFor at h
    rw [exec_voted hruns (fun _ h => by cases h) (fun _ h => by cases h)] at h
    exact .inl ⟨h, id⟩

/-- Only a proposal is one. -/
theorem announced_of_broadcast {msg : ConsensusMessage}
    (hmsg : ∀ batch, msg ≠ .intentBatchProposal batch) (h : Announced C (node.broadcast msg) hash) :
    Announced C node hash := by
  obtain ⟨batch, hhash, hmem⟩ := h
  rw [broadcasts_broadcast] at hmem
  rcases List.mem_append.mp hmem with hmem | hmem
  · exact ⟨batch, hhash, hmem⟩
  · exact (hmsg batch (List.mem_singleton.mp hmem).symm).elim

/-- A proposal is sent at one point only. -/
theorem announced_of_exec {now : UInt64} {task : Task} (hruns : Runs node a now task)
    (hannounce : ∀ batch, task ≠ .announce batch)
    (h : Announced C (exec cfg now node task).1 hash) : Announced C node hash := by
  obtain ⟨node', heffect, hsame⟩ := exec_effect cfg hruns
  have hsent := announced_of_sameData h hsame
  cases heffect with
  | announce hruns' => exact (hannounce _ (runs_unique hruns hruns')).elim
  | sendVote => exact announced_of_broadcast (fun _ h => by cases h) hsent
  | @certify batchHash batch hconf =>
    have hconfirmed : Announced C (node.confirm batchHash batch) hash :=
      announced_of_broadcast (fun _ h => by cases h) hsent
    exact hconfirmed
  | _ => exact hsent

/-- Whoever has sent its proposal goes on to vote for it. -/
theorem exec_announced {now : UInt64} {task : Task} (hruns : Runs node a now task)
    (h : Announced C (exec cfg now node task).1 hash) :
    (Announced C node hash ∧ ¬ task.SelfVotes C hash) ∨
      VotedFor C (exec cfg now node task).1 hash ∨
      ∃ task', (exec cfg now node task).2 = some task' ∧ task'.SelfVotes C hash := by
  cases task with
  | announce batch =>
    obtain ⟨batch', hhash, hmem⟩ := h
    rw [exec, broadcasts_broadcast] at hmem
    rcases List.mem_append.mp hmem with hmem | hmem
    · exact .inl ⟨⟨batch', hhash, hmem⟩, id⟩
    · obtain rfl := ConsensusMessage.intentBatchProposal.inj (List.mem_singleton.mp hmem)
      exact .inr (.inr ⟨_, rfl, hhash⟩)
  | selfVote batch =>
    by_cases hhash : batch.hash C = hash
    · exact .inr (.inl ⟨batch, List.mem_concat_self, hhash⟩)
    · exact .inl ⟨h, hhash⟩
  | _ => exact .inl ⟨announced_of_exec hruns (fun _ h => by cases h) h, id⟩

end DutiesLemmas

open DutiesLemmas

/-- One step. -/
theorem Duties.act {cfg : Config C} {node node' : Node} {a : Action} (h : Duties cfg node)
    (hact : act cfg node a = some node') : Duties cfg node' where
  kinds := kinds_act h.kinds hact
  backed := backed_act h.backed hact
  held batch hmem := by
    rcases act_voted hact with hsame | ⟨new, hvotes, hnew⟩
    · exact held_act hact h.backed (h.held batch (hsame ▸ hmem))
    · rw [hnew] at hmem
      rcases List.mem_append.mp hmem with hmem | hmem
      · exact held_act hact h.backed (h.held batch hmem)
      · rw [List.mem_singleton.mp hmem]
        exact held_act hact h.backed (held_of_votes? h.backed hvotes)
  counted batch hmem := by
    rcases act_voted hact with hsame | ⟨new, hvotes, hnew⟩
    · exact counted_act hact (h.counted batch (hsame ▸ hmem))
    · rw [hnew] at hmem
      rcases List.mem_append.mp hmem with hmem | hmem
      · exact counted_act hact (h.counted batch hmem)
      · rw [List.mem_singleton.mp hmem]
        exact counted_of_votes? hact hvotes
  casts hash := by
    refine act_promise (F := (Held · hash))
      (G := fun node => HasProposed C node hash ∨ VotedFor C node hash)
      (fun hsame hheld => held_of_sameData' hheld hsame) ?_
      (fun hdone => hdone.imp (hasProposed_act hact) (votedFor_act hact))
      (fun _ _ hruns => exec_held h.backed hruns) ?_ ?_ (h.casts hash) hact
    · intro n m hsame hdone
      unfold HasProposed VotedFor
      rwa [hsame.proposed, hsame.voted]
    · rintro ready hready (hpending | hprocessed)
      · exact .inl hpending
      · rcases List.mem_cons.mp hprocessed with rfl | hprocessed
        · exact .inl (Option.isSome_iff_exists.mpr ⟨_, (ready_of_confirms? hready).pending⟩)
        · exact .inr hprocessed
    · rintro k midway entry rfl hentry hcasts
      exact not_endable_of_casts hcasts (endable_of_cancel h.kinds hact hentry)
  sends hash := by
    refine act_promise (F := (VotedFor C · hash))
      (G := fun node => HasProposed C node hash ∨ SentVote cfg node hash) ?_ ?_
      (fun hdone => hdone.imp (hasProposed_act hact) ?_)
      (fun _ _ hruns => exec_votedFor h.backed hruns) (fun _ _ hvoted => hvoted) ?_
      (h.sends hash) hact
    · rintro n m hsame ⟨batch, hmem, hhash⟩
      exact ⟨batch, hsame.voted ▸ hmem, hhash⟩
    · intro n m hsame hdone
      unfold HasProposed SentVote
      rwa [hsame.proposed, hsame.broadcasts]
    · rintro ⟨batch, hhash, hmem⟩
      exact ⟨batch, hhash, broadcasts_act hact hmem⟩
    · rintro k midway entry rfl hentry hsends
      exact not_endable_of_sends hsends (endable_of_cancel h.kinds hact hentry)

theorem Duties.new (cfg : Config C) (initialQc : QuorumCertificate) :
    Duties cfg (Node.new initialQc) := by
  refine ⟨(fun _ h => nomatch h), (fun _ h => nomatch h), (fun _ h => nomatch h),
    (fun _ h => nomatch h), fun hash h => ?_, fun hash h => ?_⟩
  · rcases h with hpending | hprocessed
    · cases hpending
    · cases hprocessed
  · obtain ⟨batch, hmem, -⟩ := h
    cases hmem

variable [DecidableEq ι] {net : Network ι C} {ok : (ι → Node) → ι → Action → Prop} {σ : ι → Node}

theorem Reaches.duties (hrun : Reaches net ok σ) (i : ι) : Duties (net.config i) (σ i) :=
  hrun.nodeInvariant (P := fun i node => Duties (net.config i) node) (fun _ => .new _ _)
    (fun _ _ hact ih => ih.act hact) i

/-- A proposer whose task is not ended in between votes for the batch it has sent. -/
theorem Reaches.announced {hash : Bytes} (hok : ∀ {σ i a}, ok σ i a → Uncut C hash (σ i) a)
    (hrun : Reaches net ok σ) (i : ι) : Announced C (σ i) hash →
      VotedFor C (σ i) hash ∨ ∃ entry ∈ (σ i).tasks, entry.2.SelfVotes C hash := by
  refine hrun.nodeInvariant (P := fun _ node => Announced C node hash →
    VotedFor C node hash ∨ ∃ entry ∈ node.tasks, entry.2.SelfVotes C hash) (fun _ h => ?_)
    (fun _ hstep hact ih => ?_) i
  · obtain ⟨batch, -, hmem⟩ := h
    cases hmem
  · refine act_promise (F := (Announced C · hash)) (G := (VotedFor C · hash))
      (fun hsame hsent => announced_of_sameData hsent hsame) ?_ (votedFor_act hact)
      (fun _ _ => exec_announced) (fun _ _ hsent => hsent) ?_ ih hact
    · rintro n m hsame ⟨batch, hmem, hhash⟩
      exact ⟨batch, hsame.voted ▸ hmem, hhash⟩
    · intro k midway entry ha hentry hself
      exact hok hstep k midway entry ha hentry (checks_of_selfVotes hself)

end EviceChain.Sequencer
