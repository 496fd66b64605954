import EviceChain.Sequencer.NoLostQuorum
import EviceChain.Sequencer.Pending

/-!
# No payload is lost, unless its proposer is aborted

`run_proposer_flow` drains the mempool first and stores its batch last. In between it
waits for the core state and for the pending proposals, and holds the payloads alone.
The driver aborts it whenever a step ends, at whatever point it has come to, and
nobody puts the payloads back (`payload_lost`).

Where no abort ends a proposer that holds drained payloads, and no batch takes the
place of one with other payloads under the same hash, every payload stays in the
mempool, in the hands of its proposer, pending, or confirmed (`payloads_kept`).
-/

namespace EviceChain.Sequencer

open Foundation NetworkLemmas PendingLemmas

variable {C : Crypto}

/-- The payloads that a proposer holds. -/
def Task.payloads : Task → List AppPayload
  | .buildBatch _ _ payloads => payloads
  | .insertOwn batch | .announce batch | .selfVote batch => batch.payloads
  | _ => []

/-- Those that it has not stored yet. -/
def Task.unstored : Task → List AppPayload
  | .buildBatch _ _ payloads => payloads
  | .insertOwn batch => batch.payloads
  | _ => []

/-- Where a payload can be. -/
inductive Accounted (node : Node) (payload : AppPayload) : Prop
  | mempool : payload ∈ node.mempool → Accounted node payload
  | task {entry : TaskKind × Task} : entry ∈ node.tasks → payload ∈ entry.2.payloads →
      Accounted node payload
  | pending {hash : Bytes} {batch : PendingBatch} : node.pendingProposals hash = some batch →
      payload ∈ batch.payloads → Accounted node payload
  | confirmed {batch : PayloadBatch} : batch ∈ node.history → payload ∈ batch.payloads →
      Accounted node payload

/-- The action ends a proposer that holds payloads which it has not stored. -/
def dropsPayloads (node : Node) : Action → Bool
  | .cancel k _ =>
    match node.tasks[k]? with
    | some (_, task) => !task.unstored.isEmpty
    | none => false
  | _ => false

/-- No proposer is ended before it has stored its payloads, and where the node has
a batch under the hash of the one it stores, it has the same payloads. -/
def KeepsPayloads (C : Crypto) (node : Node) (a : Action) : Prop :=
  dropsPayloads node a = false ∧ ∀ own ∈ storesOwn? node a,
    (∀ batch ∈ node.pendingProposals (own.hash C), batch.payloads = own.payloads) ∧
      ∀ batch ∈ node.history, batch.hash C = own.hash C → batch.payloads = own.payloads

instance (node : Node) (a : Action) : Decidable (KeepsPayloads C node a) :=
  inferInstanceAs (Decidable (dropsPayloads node a = false ∧ ∀ own ∈ storesOwn? node a,
    (∀ batch ∈ node.pendingProposals (own.hash C), batch.payloads = own.payloads) ∧
      ∀ batch ∈ node.history, batch.hash C = own.hash C → batch.payloads = own.payloads))

/-- Where a payload is safe: pruning removes processed proposals only. -/
inductive Safe (node : Node) (payload : AppPayload) : Prop
  | mempool : payload ∈ node.mempool → Safe node payload
  | task {entry : TaskKind × Task} : entry ∈ node.tasks → payload ∈ entry.2.unstored →
      Safe node payload
  | pending {hash : Bytes} {batch : PendingBatch} : node.pendingProposals hash = some batch →
      hash ∉ node.core.processedOptimisticBatches → payload ∈ batch.payloads → Safe node payload
  | confirmed {batch : PayloadBatch} : batch ∈ node.history → payload ∈ batch.payloads →
      Safe node payload

theorem Safe.accounted {node : Node} {payload : AppPayload} (h : Safe node payload) :
    Accounted node payload := by
  cases h with
  | mempool h => exact .mempool h
  | @task entry hentry h =>
    refine .task hentry ?_
    obtain ⟨kind, task⟩ := entry
    cases task with
    | buildBatch | insertOwn => exact h
    | _ => cases h
  | pending hpending _ h => exact .pending hpending h
  | confirmed hbatch h => exact .confirmed hbatch h

namespace PayloadsLemmas

variable {cfg : Config C} {node node' : Node} {a : Action} {payload : AppPayload}

theorem safe_of_run_mempool (hact : act cfg node a = some node') {now : UInt64} {task : Task}
    (hruns : Runs node a now task) (h : payload ∈ node.mempool) : Safe node' payload := by
  have hafter := congrArg Node.mempool (act_of_runs hact hruns)
  cases task with
  | drainMempool round parentQc =>
    rw [← List.take_append_drop maxPayloads node.mempool] at h
    rcases List.mem_append.mp h with hdrained | hleft
    · obtain ⟨entry, hentry, htask⟩ := act_next hact hruns rfl
      exact .task hentry (htask ▸ hdrained)
    · exact .mempool (hafter ▸ hleft)
  | _ =>
    refine .mempool ?_
    rw [hafter]
    dsimp only
    rw [exec_mempool cfg now node (by simp)]
    exact h

/-- A payload in the mempool stays there or goes over to a proposer. -/
theorem safe_of_mempool (hact : act cfg node a = some node') (h : payload ∈ node.mempool) :
    Safe node' payload := by
  cases a with
  | deliver =>
    cases hact
    exact .mempool h
  | submit =>
    cases hact
    exact .mempool (List.mem_append_left _ h)
  | tick | advance =>
    dsimp only [act] at hact
    split at hact <;> cases hact <;> exact .mempool h
  | run k now =>
    obtain ⟨task, hruns⟩ := exists_runs hact
    exact safe_of_run_mempool hact hruns h
  | cancel k midway =>
    dsimp only [act] at hact
    split at hact
    · cases hact
      refine .mempool ?_
      dsimp only [cancelTask]
      split
      · split <;> exact h
      · exact h
    · cases hact

/-- A hash that becomes processed is that of a pending batch, which is confirmed. -/
theorem confirmed_of_processed (hact : act cfg node a = some node') {hash : Bytes}
    {batch : PendingBatch} (hpending : node.pendingProposals hash = some batch)
    (hbefore : hash ∉ node.core.processedOptimisticBatches)
    (hafter : hash ∈ node'.core.processedOptimisticBatches) :
    batch.toPayload ∈ node'.history := by
  obtain ⟨node'', heffect, hsame⟩ := act_effect hact
  rw [hsame.processed] at hafter
  rw [hsame.history]
  have hconfirmed {batchHash : Bytes} {ready : PendingBatch}
      (hconf : (batchHash, ready) ∈ confirms? cfg node a)
      (hmem : hash ∈ batchHash :: node.core.processedOptimisticBatches) :
      batch.toPayload ∈ node.history ++ [ready.toPayload] := by
    have hnew : hash = batchHash := (List.mem_cons.mp hmem).resolve_right hbefore
    have hready := (ready_of_confirms? hconf).pending
    rw [← hnew, hpending] at hready
    cases hready
    exact List.mem_concat_self
  cases heffect with
  | confirm hconf => exact hconfirmed hconf hafter
  | certify hconf => exact hconfirmed hconf hafter
  | _ => exact (hbefore hafter).elim

theorem mem_history (hact : act cfg node a = some node') {batch : PayloadBatch}
    (h : batch ∈ node.history) : batch ∈ node'.history := by
  rcases act_history hact with hsame | ⟨ready, -, hnew⟩
  · rwa [hsame]
  · rw [hnew]
    exact List.mem_append_left _ h

/-- A proposer keeps its payloads until it has stored them. -/
theorem safe_of_task (honce : PushedOnce C node) (hok : KeepsPayloads C node a)
    (hact : act cfg node a = some node') (h : ∃ entry ∈ node.tasks, payload ∈ entry.2.unstored) :
    Safe node' payload := by
  rcases act_hasTask (T := fun task => payload ∈ task.unstored) hact h with
    ⟨entry, hentry, hmem⟩ | ⟨now, task, hruns, hmem⟩ | ⟨k, midway, entry, rfl, hentry, hmem⟩
  · exact .task hentry hmem
  · cases task with
    | buildBatch round parentQc payloads =>
      obtain ⟨entry, hentry, htask⟩ := act_next hact hruns rfl
      exact .task hentry (htask ▸ hmem)
    | insertOwn own =>
      have hsame := sameData_of_runs hact hruns
      have hstored : node'.pendingProposals (own.hash C) = some own.toPending := by
        rw [hsame.pending]
        exact Function.update_self _ _ _
      by_cases hprocessed : own.hash C ∈ node'.core.processedOptimisticBatches
      · -- a batch of this hash has been confirmed already
        rw [hsame.processed] at hprocessed
        obtain ⟨earlier, hearlier, hhash⟩ := honce.pushed _ hprocessed
        refine .confirmed (mem_history hact hearlier) ?_
        rw [(hok.2 own (storesOwn?_of_runs hruns)).2 earlier hearlier hhash]
        exact hmem
      · exact .pending hstored hprocessed hmem
    | _ => cases hmem
  · have hdrops := hok.1
    simp only [dropsPayloads, hentry, Bool.not_eq_false', List.isEmpty_iff] at hdrops
    rw [hdrops] at hmem
    cases hmem

/-- A pending batch keeps its payloads until it is confirmed. -/
theorem safe_of_pending (hprunes : PrunesProcessed node) (hok : KeepsPayloads C node a)
    (hact : act cfg node a = some node') {hash : Bytes} {batch : PendingBatch}
    (hpending : node.pendingProposals hash = some batch)
    (hfresh : hash ∉ node.core.processedOptimisticBatches) (hmem : payload ∈ batch.payloads) :
    Safe node' payload := by
  by_cases hprocessed : hash ∈ node'.core.processedOptimisticBatches
  · exact .confirmed (confirmed_of_processed hact hpending hfresh hprocessed) hmem
  · cases act_pending hprunes hact hpending with
    | kept hkept => exact .pending hkept hprocessed hmem
    | @replaced own hown hhash hreplaced =>
      refine .pending hreplaced hprocessed ?_
      subst hhash
      show payload ∈ own.payloads
      rwa [← (hok.2 own hown).1 batch hpending]
    | pruned hearlier => exact (hfresh hearlier).elim

end PayloadsLemmas

open PayloadsLemmas

/-- One action. -/
theorem Safe.act {cfg : Config C} {node node' : Node} {a : Action} {payload : AppPayload}
    (h : Safe node payload) (hprunes : PrunesProcessed node) (honce : PushedOnce C node)
    (hok : KeepsPayloads C node a) (hact : act cfg node a = some node') : Safe node' payload := by
  cases h with
  | mempool hmem => exact safe_of_mempool hact hmem
  | task hentry hmem => exact safe_of_task honce hok hact ⟨_, hentry, hmem⟩
  | pending hpending hfresh hmem => exact safe_of_pending hprunes hok hact hpending hfresh hmem
  | confirmed hbatch hmem => exact .confirmed (mem_history hact hbatch) hmem

end EviceChain.Sequencer
