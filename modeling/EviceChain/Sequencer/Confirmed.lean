import EviceChain.Sequencer.Data
import EviceChain.Sequencer.Script

/-!
# Confirmation happens once

`process_votes_for_batch` tests under one lock whether a batch is processed, and
marks it as processed when it pushes it. Pruning never removes the mark. So no
batch is pushed twice, whatever is replayed and whichever task is aborted, and
the list of confirmed batches is the end of all that was ever pushed
(`confirmed_once`). A batch stays in it until 256 others have been confirmed after it
(`PushedOnce.kept_of_processed`).
-/

namespace EviceChain.Sequencer

open NetworkLemmas

variable {ι : Type} {C : Crypto}

/-- What the confirmed batches of a node have to do with those it ever pushed. -/
structure PushedOnce (C : Crypto) (node : Node) : Prop where
  distinct : (node.history.map (·.hash C)).Nodup
  processed : ∀ batch ∈ node.history, batch.hash C ∈ node.core.processedOptimisticBatches
  pushed : ∀ hash ∈ node.core.processedOptimisticBatches, ∃ batch ∈ node.history,
    batch.hash C = hash
  suffix : node.core.optimisticallyConfirmedBatches <:+ node.history
  retained : min maxConfirmedBatches node.history.length ≤
    node.core.optimisticallyConfirmedBatches.length

namespace PushedOnce

variable {node : Node}

theorem new (initialQc : QuorumCertificate) : PushedOnce C (Node.new initialQc) :=
  ⟨List.nodup_nil, (fun _ h => nomatch h), (fun _ h => nomatch h), List.suffix_refl _,
    Nat.min_le_right _ _⟩

theorem confirm (h : PushedOnce C node) {batchHash : Bytes} {batch : PendingBatch}
    (hfresh : batchHash ∉ node.core.processedOptimisticBatches)
    (hhash : batch.toPayload.hash C = batchHash) : PushedOnce C (node.confirm batchHash batch) where
  distinct := by
    dsimp only [Node.confirm]
    rw [List.map_append, List.map_singleton, List.nodup_append_comm, List.singleton_append,
      List.nodup_cons, hhash]
    refine ⟨fun hmem => ?_, h.distinct⟩
    obtain ⟨earlier, hearlier, he⟩ := List.mem_map.mp hmem
    exact hfresh (he ▸ h.processed earlier hearlier)
  processed := forall_mem_snoc (fun earlier hearlier =>
    List.mem_cons_of_mem _ (h.processed earlier hearlier)) (hhash ▸ List.mem_cons_self)
  pushed hash hmem := by
    rcases List.mem_cons.mp hmem with rfl | hmem
    · exact ⟨batch.toPayload, List.mem_concat_self, hhash⟩
    · obtain ⟨earlier, hearlier, he⟩ := h.pushed hash hmem
      exact ⟨earlier, List.mem_append_left _ hearlier, he⟩
  suffix := by
    obtain ⟨dropped, hdropped⟩ := h.suffix
    refine ⟨dropped, ?_⟩
    dsimp only [Node.confirm]
    rw [← List.append_assoc, hdropped]
  retained := by
    have := h.retained
    dsimp only [Node.confirm]
    rw [List.length_append, List.length_append, List.length_singleton]
    omega

theorem confirmed_certify (node : Node) (qc : QuorumCertificate) :
    (node.certify qc).core.optimisticallyConfirmedBatches =
      node.core.optimisticallyConfirmedBatches.drop
        (node.core.optimisticallyConfirmedBatches.length - maxConfirmedBatches) := by
  unfold Node.certify CoreConsensusState.pruneStaleData
  dsimp only [Node.broadcast, Node.send]

theorem certify (h : PushedOnce C node) (qc : QuorumCertificate) :
    PushedOnce C (node.certify qc) where
  distinct := h.distinct
  processed := h.processed
  pushed := h.pushed
  suffix := by
    rw [confirmed_certify]
    exact (List.drop_suffix _ _).trans h.suffix
  retained := by
    have hretained := h.retained
    have hhistory : (node.certify qc).history = node.history := rfl
    rw [confirmed_certify, List.length_drop, hhistory]
    omega

/-- What an action does to the history and the confirmed batches is to confirm a
batch, if anything. -/
theorem act (h : PushedOnce C node)
    (hpending : ∀ hash batch, node.pendingProposals hash = some batch →
      batch.toPayload.hash C = hash)
    {cfg : Config C} {node' : Node} {a : Action} (hact : act cfg node a = some node') :
    PushedOnce C node' := by
  obtain ⟨node'', heffect, hsame⟩ := act_effect hact
  have hafter : PushedOnce C node'' := by
    cases heffect with
    | confirm hconf =>
      have hready := ready_of_confirms? hconf
      exact h.confirm hready.fresh (hpending _ _ hready.pending)
    | certify hconf =>
      have hready := ready_of_confirms? hconf
      exact (h.confirm hready.fresh (hpending _ _ hready.pending)).certify _
    | _ => exact ⟨h.distinct, h.processed, h.pushed, h.suffix, h.retained⟩
  refine ⟨?_, ?_, ?_, ?_, ?_⟩
  · rw [hsame.history]
    exact hafter.distinct
  · rw [hsame.history, hsame.processed]
    exact hafter.processed
  · rw [hsame.history, hsame.processed]
    exact hafter.pushed
  · rw [hsame.history, hsame.confirmed]
    exact hafter.suffix
  · rw [hsame.history, hsame.confirmed]
    exact hafter.retained

end PushedOnce

section

variable {cfg : Config C} {ok : Node → Action → Prop} {node : Node}

/-- A batch is stored under its own hash. -/
theorem dataOk_of_run (h : NodeRun cfg ok (Node.new genesisQc) node) :
    DataOk C (fun _ => True) (fun _ => True) node :=
  h.invariant (.new _) fun _ _ hact ih => DataOk.act ih
    ⟨fun msg _ => by cases msg <;> trivial, fun _ _ => trivial, fun _ _ _ => trivial⟩ hact

theorem pushedOnce_of_run (h : NodeRun cfg ok (Node.new genesisQc) node) : PushedOnce C node :=
  h.invariant (.new _) fun hrun _ hact ih => PushedOnce.act ih
    (fun hash batch hpending => ((dataOk_of_run hrun).pending hash batch hpending).2) hact

end

/-- The batches that were confirmed after the one with this hash. -/
def confirmedAfter (C : Crypto) (node : Node) (batchHash : Bytes) : List PayloadBatch :=
  (node.history.dropWhile (·.hash C ≠ batchHash)).tail

/-- A confirmed batch is among those kept until 256 others have been confirmed after it. -/
theorem PushedOnce.kept_of_processed {node : Node} (h : PushedOnce C node) {batchHash : Bytes}
    (hprocessed : batchHash ∈ node.core.processedOptimisticBatches)
    (hwindow : (confirmedAfter C node batchHash).length < 256) :
    ∃ batch ∈ node.core.optimisticallyConfirmedBatches, batch.hash C = batchHash := by
  obtain ⟨batch, hmem, hhash⟩ := h.pushed batchHash hprocessed
  obtain ⟨dropped, hhistory⟩ := h.suffix
  rw [← hhistory] at hmem
  rcases List.mem_append.mp hmem with hgone | hkept
  · -- all that is kept was confirmed later, and that is too much
    exfalso
    have hretained := h.retained
    have hsome : dropped.dropWhile (·.hash C ≠ batchHash) ≠ [] := by
      intro hnil
      exact of_decide_eq_true (List.dropWhile_eq_nil_iff.mp hnil batch hgone) hhash
    have hlater : node.core.optimisticallyConfirmedBatches.length ≤
        (confirmedAfter C node batchHash).length := by
      unfold confirmedAfter
      rw [← hhistory, List.dropWhile_append, if_neg (by simpa using hsome), List.length_tail,
        List.length_append]
      have hpos := List.length_pos_iff.mpr hsome
      omega
    have hlength := congrArg List.length hhistory
    rw [List.length_append] at hlength
    have hgone := List.length_pos_of_mem hgone
    unfold maxConfirmedBatches at hretained
    omega
  · exact ⟨batch, hkept, hhash⟩

variable [DecidableEq ι] {net : Network ι C} {ok : (ι → Node) → ι → Action → Prop} {σ : ι → Node}

/-- In every run, no batch is pushed twice to the confirmed ones. What is left of
them is the end of all that was pushed, and has at least the last 256. A batch
that is pushed was pending under its own hash, with a quorum of stored votes. -/
theorem confirmed_once (hrun : Reaches net ok σ) (i : ι) :
    ((σ i).history.map (·.hash C)).Nodup ∧
      (σ i).core.optimisticallyConfirmedBatches <:+ (σ i).history ∧
      min 256 (σ i).history.length ≤ (σ i).core.optimisticallyConfirmedBatches.length ∧
      ∀ a node, act (net.config i) (σ i) a = some node →
        node.history = (σ i).history ∨
          ∃ batch, node.history = (σ i).history ++ [batch] ∧
            (σ i).pendingProposals (batch.hash C) = some batch.toPending ∧
            requiredQuorum net.addressBook.size ≤
              ((σ i).core.velocityVotes (batch.hash C)).length := by
  have honce := pushedOnce_of_run (hrun.nodeRun i)
  refine ⟨honce.distinct, honce.suffix, honce.retained, fun a node hact => ?_⟩
  rcases act_history hact with hsame | ⟨⟨batchHash, batch⟩, hconf, hnew⟩
  · exact .inl hsame
  · have hready := ready_of_confirms? hconf
    have hhash : batch.toPayload.hash C = batchHash :=
      ((dataOk_of_run (hrun.nodeRun i)).pending _ _ hready.pending).2
    refine .inr ⟨batch.toPayload, hnew, ?_, ?_⟩
    · rw [hhash]
      exact hready.pending
    · rw [hhash]
      exact hready.quorum

theorem confirmed_once_oneLeader :
    ∃ σ, Reaches toyNetwork (fun _ _ _ => True) σ ∧ (σ false).history.length = 1 ∧
      ((σ false).history.map (·.hash toyCrypto)).Nodup ∧
      (σ false).core.optimisticallyConfirmedBatches <:+ (σ false).history := by
  have hplay : ∃ σ, Reaches toyNetwork (fun _ _ _ => True) σ ∧ (σ false).history.length = 1 :=
    exists_reaches oneLeader (by decide +kernel)
  obtain ⟨σ, hrun, hone⟩ := hplay
  obtain ⟨hdistinct, hsuffix, -⟩ := confirmed_once hrun false
  exact ⟨σ, hrun, hone, hdistinct, hsuffix⟩

end EviceChain.Sequencer
