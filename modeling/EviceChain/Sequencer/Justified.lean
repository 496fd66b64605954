import EviceChain.Sequencer.NoLostQuorum
import EviceChain.Sequencer.Rounds

/-!
# What a proposal extends and what justifies it

`run_proposer_flow` takes the certificate that justifies its batch from
`highest_seen_qc`, drains the mempool, and takes the parent of the batch from the last
confirmed batch. The two need not go together: a certificate that is received moves
the first and not the second, a batch confirmed for a lower round moves the second
and not the first, and a confirmation between the two reads is seen by one of them
only. A node that has received a certificate for a batch it does not have proposes
on another parent than it justifies (`parent_unjustified`).

Where the two move together and no proposer is between its reads, every batch
extends the one that it justifies (`proposals_extend`).
-/

namespace EviceChain.Sequencer

open Foundation NetworkLemmas RoundsLemmas

variable {C : Crypto}

/-- The parent of the next proposal: the last confirmed batch. -/
def lastConfirmedHash (C : Crypto) (core : CoreConsensusState) : Bytes :=
  match core.optimisticallyConfirmedBatches.getLast? with
  | some latest => latest.hash C
  | none => List.replicate 32 0

/-- The certificate that a proposer has read and not yet built its batch with. -/
def Task.parentQc? : Task → Option QuorumCertificate
  | .drainMempool _ parentQc | .buildBatch _ parentQc _ => some parentQc
  | _ => none

/-- The certificate that the node is about to take for its highest. -/
def anchors? (cfg : Config C) (node : Node) : Action → Option QuorumCertificate
  | .run k _ =>
    match node.tasks[k]? with
    | some (_, .anchorQc qc _) =>
      if isFullyValid C cfg.addressBook qc = true ∧
          qc.viewNumber > node.core.highestSeenQc.viewNumber then
        some qc
      else none
    | _ => none
  | _ => none

/-- A certificate that is taken is for the last confirmed batch, and a batch that is
confirmed has a higher round than the highest certificate, and is confirmed while no
proposer is between its reads. -/
def InStep (cfg : Config C) (node : Node) (a : Action) : Prop :=
  (∀ qc ∈ anchors? cfg node a, qc.batchHash = lastConfirmedHash C node.core) ∧
    ∀ ready ∈ confirms? cfg node a, ready.2.round > node.core.highestSeenQc.viewNumber ∧
      ∀ entry ∈ node.tasks, entry.2.parentQc? = none

instance (cfg : Config C) (node : Node) (a : Action) : Decidable (InStep cfg node a) :=
  inferInstanceAs (Decidable
    ((∀ qc ∈ anchors? cfg node a, qc.batchHash = lastConfirmedHash C node.core) ∧
      ∀ ready ∈ confirms? cfg node a, ready.2.round > node.core.highestSeenQc.viewNumber ∧
        ∀ entry ∈ node.tasks, entry.2.parentQc? = none))

/-- The highest certificate is for the last confirmed batch, also the one that a
proposer has read. -/
structure Anchored (C : Crypto) (node : Node) : Prop where
  anchor : node.core.highestSeenQc.batchHash = lastConfirmedHash C node.core
  tasks : ∀ entry ∈ node.tasks, ∀ qc ∈ entry.2.parentQc?,
    qc.batchHash = lastConfirmedHash C node.core
  proposed : ∀ batch ∈ node.proposed, batch.header.prevHash = batch.justify.batchHash

namespace JustifiedLemmas

variable {cfg : Config C} {node node' : Node} {a : Action}

theorem prevHash_newBatch (cfg : Config C) (core : CoreConsensusState) (round : UInt64)
    (parentQc : QuorumCertificate) (payloads : List AppPayload) (now : UInt64) :
    (newBatch cfg core round parentQc payloads now).header.prevHash =
      lastConfirmedHash C core := by
  unfold newBatch lastConfirmedHash
  cases core.optimisticallyConfirmedBatches.getLast? <;> rfl

theorem lastConfirmedHash_congr {core core' : CoreConsensusState}
    (h : core'.optimisticallyConfirmedBatches = core.optimisticallyConfirmedBatches) :
    lastConfirmedHash C core' = lastConfirmedHash C core := by
  unfold lastConfirmedHash
  rw [h]

theorem anchors?_of_runs {now : UInt64} {qc : QuorumCertificate} {peer : PeerId}
    (hruns : Runs node a now (.anchorQc qc peer))
    (hvalid : isFullyValid C cfg.addressBook qc = true)
    (hview : qc.viewNumber > node.core.highestSeenQc.viewNumber) : qc ∈ anchors? cfg node a := by
  cases a with
  | run k now' =>
    obtain ⟨-, kind, htask⟩ := hruns
    simp [anchors?, htask, hvalid, hview]
  | _ => exact hruns.elim

/-- The highest certificate and the last confirmed batch move together. -/
theorem anchor_act (h : Anchored C node) (hok : InStep cfg node a)
    (hpending : ∀ hash batch, node.pendingProposals hash = some batch →
      batch.toPayload.hash C = hash)
    (hact : act cfg node a = some node') :
    node'.core.highestSeenQc.batchHash = lastConfirmedHash C node'.core := by
  cases act_anchor hact with
  | same hqc hconfirmed =>
    rw [hqc, lastConfirmedHash_congr hconfirmed]
    exact h.anchor
  | received hruns hvalid hview hqc hconfirmed =>
    rw [hqc, lastConfirmedHash_congr hconfirmed]
    exact hok.1 _ (anchors?_of_runs hruns hvalid hview)
  | @confirmed batchHash batch hconf hqc hlast =>
    have hround : (buildQc node batchHash batch).viewNumber >
        node.core.highestSeenQc.viewNumber :=
      (hok.2 _ hconf).1
    have hhash := hpending _ _ (ready_of_confirms? hconf).pending
    rw [hqc, lastConfirmedHash, hlast]
    dsimp only [Node.confirm]
    rw [if_pos hround, hhash]
    rfl

/-- What a proposer has read is still for the last confirmed batch. -/
theorem tasks_act (h : Anchored C node) (hok : InStep cfg node a)
    (hact : act cfg node a = some node') :
    ∀ entry ∈ node'.tasks, ∀ qc ∈ entry.2.parentQc?,
      qc.batchHash = lastConfirmedHash C node'.core := by
  refine act_tasks (T := fun task => ∀ qc ∈ task.parentQc?,
    qc.batchHash = lastConfirmedHash C node'.core) (fun _ _ _ _ hqc => by cases hqc)
    (fun _ _ _ _ _ hqc => by cases hqc) (fun now task task' hruns htask hnext => ?_) hact ?_
  · cases exec_next hnext with
    | drainMempool =>
      intro qc hqc
      cases Option.mem_some_iff.mp hqc
      have hsame := (sameData_of_runs hact hruns).confirmed
      rw [lastConfirmedHash_congr hsame]
      exact h.anchor
    | buildBatch => exact htask
    | _ => exact fun _ hqc => by cases hqc
  · intro entry hentry qc hqc
    cases act_anchor hact with
    | same _ hconfirmed | received _ _ _ _ hconfirmed =>
      rw [lastConfirmedHash_congr hconfirmed]
      exact h.tasks entry hentry qc hqc
    | confirmed hconf =>
      rw [(hok.2 _ hconf).2 entry hentry] at hqc
      cases hqc

/-- A batch is built with the parent and the certificate of the moment. -/
theorem extends_of_builds? (h : Anchored C node) {batch : PayloadBatch}
    (hbuilds : batch ∈ builds? cfg node a) : batch.header.prevHash = batch.justify.batchHash := by
  cases a with
  | run k now =>
    dsimp only [builds?] at hbuilds
    split at hbuilds
    · next parentQc payloads htask =>
      cases hbuilds
      rw [prevHash_newBatch]
      exact (h.tasks _ (List.mem_of_getElem? htask) parentQc rfl).symm
    · cases hbuilds
  | _ => cases hbuilds

end JustifiedLemmas

open JustifiedLemmas

theorem Anchored.act {cfg : Config C} {node node' : Node} {a : Action} (h : Anchored C node)
    (hok : InStep cfg node a)
    (hpending : ∀ hash batch, node.pendingProposals hash = some batch →
      batch.toPayload.hash C = hash)
    (hact : act cfg node a = some node') : Anchored C node' := by
  refine ⟨anchor_act h hok hpending hact, tasks_act h hok hact, ?_⟩
  rcases act_proposed hact with hsame | ⟨batch, hbuilds, hnew⟩
  · rw [hsame]
    exact h.proposed
  · rw [hnew]
    exact forall_mem_snoc h.proposed (extends_of_builds? h hbuilds)

/-- In every run of a node, whatever it receives: as long as the highest certificate and
the last confirmed batch move together, every batch that it proposes extends the one
that it justifies. -/
theorem proposals_extend {cfg : Config C} {node : Node}
    (hrun : NodeRun cfg (InStep cfg) (Node.new genesisQc) node) :
    ∀ batch ∈ node.proposed, batch.header.prevHash = batch.justify.batchHash := by
  have hanchored : Anchored C node := by
    refine hrun.invariant ⟨rfl, (fun _ h => by cases h), (fun _ h => by cases h)⟩ ?_
    intro t u a hbefore hok hact ih
    exact ih.act hok (fun hash batch h => ((dataOk_of_run hbefore).pending hash batch h).2) hact
  exact hanchored.proposed

/-- The node is alone, and proposes and confirms two batches. -/
theorem proposals_extend_two :
    ∃ node, NodeRun (soloNetwork.config false) (InStep (soloNetwork.config false))
        (Node.new genesisQc) node ∧ node.proposed.length = 2 ∧
      ∀ batch ∈ node.proposed, batch.header.prevHash = batch.justify.batchHash := by
  have hplay : ∃ node, NodeRun (soloNetwork.config false) (InStep (soloNetwork.config false))
      (Node.new genesisQc) node ∧ node.proposed.length = 2 :=
    exists_run (List.flatten [[.tick false, .advance], List.replicate 10 (.run 0 10),
      [.tick false, .advance], List.replicate 10 (.run 0 20)]) (by decide +kernel)
  obtain ⟨node, hrun, htwo⟩ := hplay
  exact ⟨node, hrun, htwo, proposals_extend hrun⟩

/-- A certificate for a batch of the second validator, signed by both. -/
def foreignQc : QuorumCertificate :=
  let batch := batchFor 1
  ⟨batch.hash toyCrypto, batch.round, [false, true].map fun i =>
    let vote := ownVote (toyNetwork.config i) batch
    (vote.voterAddress, vote.signature)⟩

/-- The first node receives the certificate, but not the batch, and proposes on no
batch at all. -/
theorem parent_unjustified :
    ∃ node, NodeRun (toyNetwork.config false) (fun _ _ => True) (Node.new genesisQc) node ∧
      ∃ batch ∈ node.proposed, batch.header.prevHash ≠ batch.justify.batchHash :=
  exists_run (List.flatten [[.tick false, .advance, .deliver (.newQuorumCertificate foreignQc) 0],
    List.replicate 3 (.run 1 10), List.replicate 4 (.run 0 20)]) (by decide +kernel)

end EviceChain.Sequencer
