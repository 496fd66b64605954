import EviceChain.Sequencer.Confirmed

/-!
# What becomes of a pending proposal

A proposal is pending under its hash until `prune_confirmed_proposals` removes it,
which works on a copy of the processed hashes that was taken earlier. The mark of a
processed hash stays, so only confirmed proposals are removed, however the pruning
interleaves with the rest (`act_pending`). A received proposal is not put in the place
of another one; the node's own is, if the hash is the same.

Results:
1. `act_pending`: what one action does to a pending proposal;
2. `stored_or_processed`: from the moment it is pending, a hash is pending or
   processed.
-/

namespace EviceChain.Sequencer

open Foundation NetworkLemmas

variable {C : Crypto}

/-- The batch of its own that a node is about to store. -/
def storesOwn? (node : Node) : Action → Option PayloadBatch
  | .run k _ =>
    match node.tasks[k]? with
    | some (_, .insertOwn batch) => some batch
    | _ => none
  | _ => none

/-- Whatever is about to be pruned has been processed. -/
def PrunesProcessed (node : Node) : Prop :=
  ∀ entry ∈ node.tasks, ∀ hashes, entry.2 = .pruneProposals hashes →
    hashes ⊆ node.core.processedOptimisticBatches

/-- The action removes nothing from the pending proposals but what is processed. -/
inductive Retained (C : Crypto) (node : Node) (a : Action) (node' : Node) (hash : Bytes)
    (batch : PendingBatch) : Prop
  | kept : node'.pendingProposals hash = some batch → Retained C node a node' hash batch
  | replaced {own : PayloadBatch} : own ∈ storesOwn? node a → own.hash C = hash →
      node'.pendingProposals hash = some own.toPending → Retained C node a node' hash batch
  | pruned : hash ∈ node.core.processedOptimisticBatches → Retained C node a node' hash batch

namespace PendingLemmas

variable {cfg : Config C} {node node' : Node} {a : Action}

theorem storesOwn?_of_runs {now : UInt64} {batch : PayloadBatch}
    (h : Runs node a now (.insertOwn batch)) : batch ∈ storesOwn? node a := by
  cases a with
  | run k now' =>
    obtain ⟨-, kind, htask⟩ := h
    simp [storesOwn?, htask]
  | _ => exact h.elim

/-- Only three kinds of tasks write the pending proposals. -/
theorem exec_pending_eq (cfg : Config C) (now : UInt64) (node : Node) {task : Task}
    (hinsert : ∀ batch, task ≠ .insertProposal batch) (hown : ∀ batch, task ≠ .insertOwn batch)
    (hprune : ∀ hashes, task ≠ .pruneProposals hashes) :
    (exec cfg now node task).1.pendingProposals = node.pendingProposals := by
  cases task with
  | insertProposal batch => exact (hinsert batch rfl).elim
  | insertOwn batch => exact (hown batch rfl).elim
  | pruneProposals hashes => exact (hprune hashes rfl).elim
  | receive | recheck | checkVote | processVotes =>
    dsimp only [exec]
    split <;> rfl
  | storeVote | anchorQc | roundStep =>
    dsimp only [exec]
    split
    · rfl
    · split <;> rfl
  | _ => rfl

/-- A received proposal does not take the place of another. -/
theorem exec_insertProposal_pending (cfg : Config C) (now : UInt64) {received : PayloadBatch}
    {hash : Bytes} {batch : PendingBatch} (h : node.pendingProposals hash = some batch) :
    (exec cfg now node (.insertProposal received)).1.pendingProposals hash = some batch := by
  dsimp only [exec]
  split
  · exact h
  · split
    · exact h
    · next hnew =>
      have hother : hash ≠ received.hash C := by
        rintro rfl
        rw [h] at hnew
        exact hnew rfl
      exact (Function.update_of_ne hother _ _).trans h

theorem run_pending (hprunes : PrunesProcessed node) (hact : act cfg node a = some node')
    {now : UInt64} {task : Task} (hruns : Runs node a now task) {hash : Bytes}
    {batch : PendingBatch} (h : node.pendingProposals hash = some batch) :
    Retained C node a node' hash batch := by
  have hsame := (sameData_of_runs hact hruns).pending
  cases task with
  | insertProposal received =>
    refine .kept ?_
    rw [hsame]
    exact exec_insertProposal_pending cfg now h
  | insertOwn own =>
    by_cases hhash : own.hash C = hash
    · refine .replaced (storesOwn?_of_runs hruns) hhash ?_
      rw [hsame, ← hhash]
      exact Function.update_self _ _ _
    · refine .kept ?_
      rw [hsame]
      exact (Function.update_of_ne (Ne.symm hhash) _ _).trans h
  | pruneProposals hashes =>
    by_cases hmem : hash ∈ hashes
    · obtain ⟨kind, htask⟩ := mem_tasks_of_runs hruns
      exact .pruned (hprunes _ htask hashes rfl hmem)
    · refine .kept ?_
      rw [hsame]
      exact (if_neg hmem).trans h
  | _ =>
    refine .kept ?_
    rw [hsame, exec_pending_eq cfg now node (by simp) (by simp) (by simp)]
    exact h

end PendingLemmas

open PendingLemmas

section

variable {cfg : Config C} {node node' : Node} {a : Action}

/-- A proposal that is pending stays, is replaced by one of the node's own under the
same hash, or has been processed. -/
theorem act_pending (hprunes : PrunesProcessed node) (hact : act cfg node a = some node')
    {hash : Bytes} {batch : PendingBatch} (h : node.pendingProposals hash = some batch) :
    Retained C node a node' hash batch := by
  by_cases hruns : ∃ now task, Runs node a now task
  · obtain ⟨now, task, hruns⟩ := hruns
    exact run_pending hprunes hact hruns h
  · obtain ⟨node'', hcases, hsame⟩ := act_idle hact fun now task h => hruns ⟨now, task, h⟩
    refine .kept ?_
    rw [hsame.pending]
    rcases hcases with rfl | ⟨ready, -, rfl⟩ <;> exact h

/-- The copy of the processed hashes that a task prunes by is never ahead of them. -/
theorem PrunesProcessed.act (h : PrunesProcessed node) (hact : act cfg node a = some node') :
    PrunesProcessed node' := by
  have htasks : ∀ entry ∈ node'.tasks, ∀ hashes, entry.2 = .pruneProposals hashes →
      hashes ⊆ node.core.processedOptimisticBatches := by
    refine act_tasks (T := fun task => ∀ hashes, task = .pruneProposals hashes →
      hashes ⊆ node.core.processedOptimisticBatches) (fun _ _ _ _ h => by cases h)
      (fun _ _ _ _ _ h => by cases h) (fun now task task' _ _ hnext hashes htask' => ?_) hact h
    subst htask'
    cases exec_next hnext
    exact List.Subset.refl _
  intro entry hentry hashes hprune hash hmem
  exact act_processed hact (htasks entry hentry hashes hprune hmem)

theorem PrunesProcessed.new (initialQc : QuorumCertificate) :
    PrunesProcessed (Node.new initialQc) := by
  intro _ h
  cases h

end

section

variable {cfg : Config C} {ok : Node → Action → Prop} {node node' : Node}

theorem prunesProcessed_of_run (h : NodeRun cfg ok (Node.new genesisQc) node) :
    PrunesProcessed node :=
  h.invariant (.new _) fun _ _ hact ih => PrunesProcessed.act ih hact

/-- From the moment it is pending, a hash is pending or processed. -/
theorem stored_or_processed (hreach : NodeRun cfg ok (Node.new genesisQc) node)
    (hrun : NodeRun cfg ok node node') {hash : Bytes}
    (hstored : (node.pendingProposals hash).isSome) :
    (node'.pendingProposals hash).isSome ∨ hash ∈ node'.core.processedOptimisticBatches := by
  refine hrun.invariant (I := fun node => (node.pendingProposals hash).isSome ∨
    hash ∈ node.core.processedOptimisticBatches) (.inl hstored)
    fun {mid _ _} hmid _ hact ih => ?_
  rcases ih with hpending | hprocessed
  · obtain ⟨batch, hbatch⟩ := Option.isSome_iff_exists.mp hpending
    cases act_pending (prunesProcessed_of_run (hreach.trans hmid)) hact hbatch with
    | kept hkept =>
      rw [hkept]
      exact .inl rfl
    | replaced _ _ hreplaced =>
      rw [hreplaced]
      exact .inl rfl
    | pruned hprocessed => exact .inr (act_processed hact hprocessed)
  · exact .inr (act_processed hact hprocessed)

end

end EviceChain.Sequencer
