import EviceChain.Sequencer.Quiescence
import EviceChain.Sequencer.Justified

/-!
# What stands behind a confirmed batch

A node confirms a batch on the number of votes it has stored, and it checks a
header and a vote only when they arrive. Over whole runs, in which anything may
be delivered and some validators may send whatever they like, this file proves:

1. `confirmed_backed`: the header of every confirmed batch is signed by the
   validator it names, and more nodes than there can be faulty validators have
   voted for the batch, each of them for a header that it has checked as well;
2. `confirmations_intersect`: any two confirmed batches, of one node or of two,
   have a node that has voted for both;
3. `anchor_justified`: the highest certificate of a node never goes back, is not
   below the round of a confirmed batch, and is the initial one, one that has
   passed the check, or that of a batch the node has confirmed itself.

The first two rest on what the code does not see to: that no node counts its own
vote twice (`VotesOnce`) and that nobody signs for another (`VotesUnforged`).
-/

namespace EviceChain.Sequencer

open Foundation NetworkLemmas

variable {ι : Type} {C : Crypto}

/-! ## Headers -/

/-- The task carries no batch that is neither checked nor the node's own. -/
def Task.HeaderSigned (cfg : Config C) : Task → Prop
  | .castVote batch | .insertOwn batch | .announce batch | .selfVote batch =>
    verifyBatchSignature C cfg.addressBook batch.header = true
  | _ => True

/-- The header of every batch that the node has stored, voted for or confirmed is
signed by the validator it names. -/
structure HeadersSigned (cfg : Config C) (node : Node) : Prop where
  tasks : ∀ entry ∈ node.tasks, entry.2.HeaderSigned cfg
  pending : ∀ hash batch, node.pendingProposals hash = some batch →
    verifyBatchSignature C cfg.addressBook batch.toPayload.header = true
  voted : ∀ batch ∈ node.voted, verifyBatchSignature C cfg.addressBook batch.header = true
  history : ∀ batch ∈ node.history, verifyBatchSignature C cfg.addressBook batch.header = true

/-- The node signs headers that pass the check. -/
def Config.SignsHeaders (cfg : Config C) : Prop :=
  ∀ core round parentQc payloads now, verifyBatchSignature C cfg.addressBook
    (newBatch cfg core round parentQc payloads now).header = true

namespace HeadersSigned

variable {cfg : Config C} {node node' : Node} {a : Action}

theorem new (cfg : Config C) (initialQc : QuorumCertificate) :
    HeadersSigned cfg (Node.new initialQc) :=
  ⟨(fun _ h => nomatch h), (fun _ _ h => nomatch h), (fun _ h => nomatch h),
    (fun _ h => nomatch h)⟩

theorem next (hsigns : cfg.SignsHeaders) {now : UInt64} {task task' : Task}
    (h : task.HeaderSigned cfg) (hnext : (exec cfg now node task).2 = some task') :
    task'.HeaderSigned cfg := by
  cases exec_next hnext with
  | castVote =>
    -- the vote follows the check of the header
    dsimp only [exec] at hnext
    split at hnext
    · cases hnext
    · next hsigned => simpa [Task.HeaderSigned] using hsigned
  | insertOwn => exact hsigns ..
  | announce | selfVote => exact h
  | _ => trivial

theorem of_runs (h : HeadersSigned cfg node) {now : UInt64} {task : Task}
    (hruns : Runs node a now task) : task.HeaderSigned cfg := by
  obtain ⟨kind, hmem⟩ := mem_tasks_of_runs hruns
  exact h.tasks _ hmem

theorem insertPending (h : HeadersSigned cfg node) {batch : PayloadBatch}
    (hsigned : verifyBatchSignature C cfg.addressBook batch.header = true) {hash : Bytes}
    {stored : PendingBatch}
    (hstored : (node.insertPending C batch).pendingProposals hash = some stored) :
    verifyBatchSignature C cfg.addressBook stored.toPayload.header = true := by
  dsimp only [Node.insertPending] at hstored
  rw [Function.update_apply] at hstored
  split at hstored
  · cases hstored
    exact hsigned
  · exact h.pending hash stored hstored

/-- A received batch is stored after its header has been checked. -/
theorem pending_insertProposal (h : HeadersSigned cfg node) (now : UInt64)
    (batch : PayloadBatch) {hash : Bytes} {stored : PendingBatch}
    (hstored : (exec cfg now node (.insertProposal batch)).1.pendingProposals hash =
      some stored) :
    verifyBatchSignature C cfg.addressBook stored.toPayload.header = true := by
  dsimp only [exec] at hstored
  split at hstored
  · exact h.pending hash stored hstored
  · next hsigned =>
    split at hstored
    · exact h.pending hash stored hstored
    · exact h.insertPending (by simpa using hsigned) hstored

theorem pending_act (h : HeadersSigned cfg node) (hact : act cfg node a = some node')
    {hash : Bytes} {stored : PendingBatch} (hstored : node'.pendingProposals hash = some stored) :
    verifyBatchSignature C cfg.addressBook stored.toPayload.header = true := by
  obtain ⟨node'', heffect, hsame⟩ := act_effect hact
  cases heffect with
  | insert hruns =>
    rcases hruns with hruns | hruns
    · rw [(sameData_of_runs hact hruns).pending] at hstored
      exact h.pending_insertProposal _ _ hstored
    · rw [hsame.pending] at hstored
      exact h.insertPending (h.of_runs hruns) hstored
  | prune =>
    rw [hsame.pending] at hstored
    dsimp only [Node.removePending] at hstored
    split at hstored
    · cases hstored
    · exact h.pending hash stored hstored
  | _ => exact h.pending hash stored (hsame.pending ▸ hstored)

theorem act (h : HeadersSigned cfg node) (hsigns : cfg.SignsHeaders)
    (hact : act cfg node a = some node') : HeadersSigned cfg node' where
  tasks := act_tasks (fun _ _ _ => trivial) (fun _ _ _ _ => trivial)
    (fun _ _ _ _ htask => next hsigns htask) hact h.tasks
  pending _ _ := h.pending_act hact
  voted := by
    rcases act_voted hact with hsame | ⟨batch, hvotes, hnew⟩
    · rw [hsame]
      exact h.voted
    · rw [hnew]
      obtain ⟨now, hruns | hruns⟩ := runs_of_votes? hvotes
      · exact forall_mem_snoc h.voted (h.of_runs hruns)
      · exact forall_mem_snoc h.voted (h.of_runs hruns)
  history := by
    rcases act_history hact with hsame | ⟨ready, hconf, hnew⟩
    · rw [hsame]
      exact h.history
    · rw [hnew]
      exact forall_mem_snoc h.history (h.pending _ _ (ready_of_confirms? hconf).pending)

end HeadersSigned

/-! ## Votes of nodes -/

/-- A vote that arrives and is valid under the key of a node has been signed by the
node. -/
def VotesUnforged (net : Network ι C) (σ : ι → Node) (a : Action) : Prop :=
  ∀ msg ∈ delivers? a, ∀ j,
    match msg with
    | .velocityVoteMsg vote => vote.voterAddress = net.address j →
      C.verify (net.publicKey j) (voteBytes vote.roundId vote.batchHash (net.publicKey j))
        vote.signature →
      voteBytes vote.roundId vote.batchHash (net.publicKey j) ∈ signedMessages net j (σ j)
    | _ => True

/-- What the steps satisfy: nobody signs for a node, and no node adds its vote to
those for an unconfirmed batch where it has one. -/
structure Guarded (net : Network ι C) (σ : ι → Node) (i : ι) (a : Action) : Prop where
  once : VotesOnce net σ i a
  unforged : VotesUnforged net σ a

instance [Fintype ι] (net : Network ι C) (σ : ι → Node) (i : ι) (a : Action) :
    Decidable (Guarded net σ i a) :=
  have : Decidable (VotesUnforged net σ a) :=
    match a with
    | .deliver (.velocityVoteMsg vote) _ =>
      decidable_of_iff (∀ j, vote.voterAddress = net.address j →
        C.verify (net.publicKey j) (voteBytes vote.roundId vote.batchHash (net.publicKey j))
          vote.signature →
        voteBytes vote.roundId vote.batchHash (net.publicKey j) ∈ signedMessages net j (σ j))
        (by simp [VotesUnforged, delivers?])
    | .deliver (.intentBatchProposal _) _ | .deliver (.newQuorumCertificate _) _
    | .submit _ | .tick _ | .advance | .run _ _ | .cancel _ _ =>
      .isTrue (by simp [VotesUnforged, delivers?])
  decidable_of_iff (VotesOnce net σ i a ∧ VotesUnforged net σ a)
    ⟨fun h => ⟨h.1, h.2⟩, fun h => ⟨h.once, h.unforged⟩⟩

/-- If the vote is valid under the key of a node, the node has voted for the batch. -/
def Cast (net : Network ι C) (σ : ι → Node) (vote : VelocityVote) : Prop :=
  ∀ j, vote.voterAddress = net.address j →
    C.verify (net.publicKey j) (voteBytes vote.roundId vote.batchHash (net.publicKey j))
      vote.signature →
    ∃ batch ∈ (σ j).voted, batch.hash C = vote.batchHash

/-- A quorum of validators stands behind the hash: those of them that run a node have
voted for it. -/
def Backed (net : Network ι C) (σ : ι → Node) (hash : Bytes) : Prop :=
  QuorumOf net.addressBook fun address =>
    ∀ j, net.address j = address → ∃ batch ∈ (σ j).voted, batch.hash C = hash

namespace BackingLemmas

open QuorumCertLemmas StoredVotesLemmas AgreementLemmas OrderingLemmas

variable {net : Network ι C} {σ : ι → Node}

theorem backed_of_ballot (hreg : net.Registered) {hash : Bytes} {votes : List VelocityVote}
    (hballot : Ballot C net.addressBook hash votes)
    (hquorum : requiredQuorum net.addressBook.size ≤ votes.length)
    (hcast : ∀ vote ∈ votes, Cast net σ vote) : Backed net σ hash := by
  refine (hballot.quorumOf hquorum).mono ?_
  rintro _ ⟨vote, hvote, rfl⟩ j haddress
  obtain ⟨hhash, hverify⟩ := hballot.valid vote hvote
  rw [← haddress, verifyVoteSignature, hreg.key j, ← hhash] at hverify
  rw [← hhash]
  exact hcast vote hvote j haddress.symm hverify

variable (byzantine : Finset Address)
  (hbyzantine : byzantine.card ≤ (net.addressBook.size - 1) / 3)
  (hothers : ∀ a ∈ net.addressBook.addresses, a ∈ byzantine ∨ ∃ i, net.address i = a)

include hbyzantine hothers

/-- The nodes among a quorum outnumber the validators that may be faulty. -/
theorem nodes_of_backed (hreg : net.Registered) {hash : Bytes} (h : Backed net σ hash) :
    ∃ voters : Finset ι, (net.addressBook.size - 1) / 3 < voters.card ∧
      ∀ j ∈ voters, ∃ batch ∈ (σ j).voted, batch.hash C = hash := by
  classical
  have hn := h.size_pos
  obtain ⟨voters, hsub, hquorum, hvoted⟩ := h
  have hinj : Set.InjOn net.address (Set.preimage net.address ↑voters) :=
    fun j _ k _ => hreg.one j k
  refine ⟨voters.preimage net.address hinj, ?_,
    fun j hj => hvoted _ (Finset.mem_preimage.mp hj) j rfl⟩
  have hnodes : voters \ byzantine ⊆ {a ∈ voters | a ∈ Set.range net.address} := by
    intro address h
    obtain ⟨hmem, hhonest⟩ := Finset.mem_sdiff.mp h
    have hbook := List.mem_toFinset.mp (hsub hmem)
    exact Finset.mem_filter.mpr ⟨hmem, (hothers address hbook).resolve_left hhonest⟩
  have hcard := Finset.card_le_card hnodes
  have hleft := Finset.le_card_sdiff byzantine voters
  rw [requiredQuorum, if_neg (Nat.ne_of_gt hn)] at hquorum
  rw [Finset.card_preimage]
  omega

/-- Two quorums have a node in common. -/
theorem node_of_backed_both {hash hash' : Bytes} (h : Backed net σ hash)
    (h' : Backed net σ hash') :
    ∃ j, (∃ batch ∈ (σ j).voted, batch.hash C = hash) ∧
      ∃ batch ∈ (σ j).voted, batch.hash C = hash' := by
  obtain ⟨address, hbook, hhonest, hvoted, hvoted'⟩ := h.both h' hbyzantine
  obtain ⟨j, hj⟩ := (hothers address hbook).resolve_left hhonest
  exact ⟨j, hvoted j hj, hvoted' j hj⟩

omit hbyzantine hothers

variable [DecidableEq ι] {i : ι} {a : Action} {node : Node}

theorem cast_mono (hact : act (net.config i) (σ i) a = some node) {vote : VelocityVote}
    (h : Cast net σ vote) : Cast net (Function.update σ i node) vote := by
  intro j haddress hverify
  obtain ⟨batch, hvoted, hhash⟩ := h j haddress hverify
  exact ⟨batch, voted_subset hact j hvoted, hhash⟩

theorem backed_mono (hact : act (net.config i) (σ i) a = some node) {hash : Bytes}
    (h : Backed net σ hash) : Backed net (Function.update σ i node) hash := by
  refine h.mono fun address hvoted j hj => ?_
  obtain ⟨batch, hbatch, hhash⟩ := hvoted j hj
  exact ⟨batch, voted_subset hact j hbatch, hhash⟩

end BackingLemmas

open BackingLemmas AgreementLemmas QuiescenceLemmas

variable [DecidableEq ι] {net : Network ι C} {σ : ι → Node}

theorem Reaches.headersSigned {ok : (ι → Node) → ι → Action → Prop} (hreg : net.Registered)
    (hvrf : net.VrfRegistered) (hrun : Reaches net ok σ) (i : ι) :
    HeadersSigned (net.config i) (σ i) :=
  hrun.nodeInvariant (P := fun i node => HeadersSigned (net.config i) node)
    (fun _ => .new _ _) (fun _ _ hact ih => ih.act (verify_newBatch hreg hvrf _) hact) i

/-- The votes of nodes that a node holds anywhere have been cast. -/
theorem Reaches.cast (hreg : net.Registered) (hrun : Reaches net (Guarded net) σ) (i : ι) :
    DataOk C (fun _ => True) (Cast net σ) (σ i) := by
  refine hrun.invariant (P := fun σ _ node => DataOk C (fun _ => True) (Cast net σ) node)
    (fun _ => .new _) (fun _ _ hact ih j _ => (ih j).mono (fun _ h => h) fun _ => cast_mono hact)
    (fun {σ i a node} hprev hstep hact ih => ?_) i
  refine ((ih i).mono (fun _ h => h) fun _ => cast_mono hact).act ⟨?_, fun _ _ => trivial, ?_⟩ hact
  · intro msg hmsg
    cases msg with
    | velocityVoteMsg vote =>
      refine cast_mono hact fun j haddress hverify => ?_
      obtain ⟨batch, hvoted, -, hhash⟩ :=
        voted_of_signed hprev (hstep.unforged _ hmsg j haddress hverify)
      exact ⟨batch, hvoted, hhash⟩
    | _ => trivial
  · intro batch hvotes _ j haddress _
    obtain rfl := hreg.one i j haddress
    refine ⟨batch, ?_, rfl⟩
    rw [Function.update_self]
    exact voted_of_votes? hact hvotes

theorem Reaches.history_backed (hreg : net.Registered) (hrun : Reaches net (Guarded net) σ)
    (i : ι) : ∀ batch ∈ (σ i).history, Backed net σ (batch.hash C) := by
  refine hrun.invariant (P := fun σ _ node => ∀ batch ∈ node.history,
    Backed net σ (batch.hash C)) (fun _ _ h => nomatch h)
    (fun _ _ hact ih j _ batch h => backed_mono hact (ih j batch h))
    (fun {σ i a node} hprev _ hact ih => ?_) i
  have hbefore := fun batch h => backed_mono hact (ih i batch h)
  rcases act_history hact with hsame | ⟨⟨hash, batch⟩, hconf, hnew⟩
  · rw [hsame]
    exact hbefore
  · rw [hnew]
    refine forall_mem_snoc hbefore (backed_mono hact ?_)
    have hready := ready_of_confirms? hconf
    have hdata := hprev.cast hreg i
    rw [(hdata.pending _ _ hready.pending).2]
    exact backed_of_ballot hreg (hprev.ballots hreg.key Guarded.once i hash hready.fresh)
      hready.quorum fun vote hvote => (hdata.votes hash vote hvote).1

/-! ## Confirmed batches -/

/-- With at most a third of the validators faulty and whatever is delivered, the
header of a confirmed batch is signed by the validator it names, and more nodes than
there are faulty validators have voted for the batch, all of them for a header that
is signed. -/
theorem confirmed_backed (hreg : net.Registered) (hvrf : net.VrfRegistered)
    (byzantine : Finset Address)
    (hbyzantine : byzantine.card ≤ (net.addressBook.size - 1) / 3)
    (hothers : ∀ a ∈ net.addressBook.addresses, a ∈ byzantine ∨ ∃ i, net.address i = a)
    (hrun : Reaches net (Guarded net) σ) (i : ι) {batch : PayloadBatch}
    (hbatch : batch ∈ (σ i).history) :
    verifyBatchSignature C net.addressBook batch.header = true ∧
      ∃ voters : Finset ι, (net.addressBook.size - 1) / 3 < voters.card ∧
        ∀ j ∈ voters, ∃ voted ∈ (σ j).voted, voted.hash C = batch.hash C ∧
          verifyBatchSignature C net.addressBook voted.header = true := by
  refine ⟨(hrun.headersSigned hreg hvrf i).history batch hbatch, ?_⟩
  obtain ⟨voters, hcard, hvoters⟩ := nodes_of_backed byzantine hbyzantine hothers hreg
    (hrun.history_backed hreg i batch hbatch)
  refine ⟨voters, hcard, fun j hj => ?_⟩
  obtain ⟨voted, hvoted, hhash⟩ := hvoters j hj
  exact ⟨voted, hvoted, hhash, (hrun.headersSigned hreg hvrf j).voted voted hvoted⟩

/-- The fourth validator votes for the batch of the first node. -/
def faultyVote (σ : Fin 3 → Node) : ConsensusMessage :=
  .velocityVoteMsg (signVote toyCrypto (4 : UInt8) (toyAddress 4) 1
    (((σ 0).proposed.head?.map (·.hash toyCrypto)).getD []))

/-- The first node confirms its batch with the vote of the second node and that of
the validator that runs none. -/
def faultyConfirmation : List (Cue (Fin 3)) :=
  [.act 0 (.tick false), .act 0 .advance, .settle 0 10, .relay 1 0 0, .settle 1 20,
    .inject 0 faultyVote, .settle 0 30, .relay 0 1 0, .settle 0 40]

theorem three_others : ∀ a ∈ (running 3).addressBook.addresses,
    a ∈ ({toyAddress 4} : Finset Address) ∨ ∃ i, (running 3).address i = a := by
  decide +kernel

theorem confirmed_backed_faulty :
    ∃ σ, Reaches (running 3) (Guarded (running 3)) σ ∧ ∃ batch ∈ (σ 0).history,
      verifyBatchSignature toyCrypto fourValidators batch.header = true ∧
      ∃ voters : Finset (Fin 3), 1 < voters.card ∧
        ∀ j ∈ voters, ∃ voted ∈ (σ j).voted, voted.hash toyCrypto = batch.hash toyCrypto ∧
          verifyBatchSignature toyCrypto fourValidators voted.header = true := by
  have hplay : ∃ σ, Reaches (running 3) (Guarded (running 3)) σ ∧ (σ 0).history ≠ [] :=
    exists_reaches faultyConfirmation (by decide +kernel)
  obtain ⟨σ, hrun, hsome⟩ := hplay
  obtain ⟨batch, hbatch⟩ := List.exists_mem_of_ne_nil _ hsome
  exact ⟨σ, hrun, batch, hbatch, confirmed_backed (running_registered (by decide))
    (running_vrfRegistered (by decide)) {toyAddress 4} (by decide) three_others hrun 0 hbatch⟩

/-- Any two confirmed batches, wherever they have been confirmed, have a node that
has voted for both. -/
theorem confirmations_intersect (hreg : net.Registered) (byzantine : Finset Address)
    (hbyzantine : byzantine.card ≤ (net.addressBook.size - 1) / 3)
    (hothers : ∀ a ∈ net.addressBook.addresses, a ∈ byzantine ∨ ∃ i, net.address i = a)
    (hrun : Reaches net (Guarded net) σ) {i j : ι} {batch batch' : PayloadBatch}
    (hbatch : batch ∈ (σ i).history) (hbatch' : batch' ∈ (σ j).history) :
    ∃ k, (∃ voted ∈ (σ k).voted, voted.hash C = batch.hash C) ∧
      ∃ voted ∈ (σ k).voted, voted.hash C = batch'.hash C :=
  node_of_backed_both byzantine hbyzantine hothers (hrun.history_backed hreg i batch hbatch)
    (hrun.history_backed hreg j batch' hbatch')

/-- The first node leads the first step of round 1 and the second node, whose step has
run out, the second step. Each confirms its own batch with the votes of the others. -/
def twoConfirmations : List (Cue (Fin 3)) :=
  [[.act 0 (.tick false), .act 0 .advance, .settle 0 10],
    [.act 1 (.tick false), .act 1 .advance, .settle 1 10],
    [.act 1 (.tick true), .act 1 .advance, .settle 1 20],
    [.relay 1 0 0, .settle 1 30, .relay 2 0 0, .settle 2 30],
    [.relay 0 1 0, .settle 0 40, .relay 2 1 0, .settle 2 40],
    [.relay 0 1 1, .settle 0 50, .relay 0 2 0, .settle 0 50],
    [.relay 1 0 1, .settle 1 60, .relay 1 2 1, .settle 1 60]].flatten

/-- Two batches of one round. -/
theorem confirmations_intersect_two :
    ∃ σ, Reaches (running 3) (Guarded (running 3)) σ ∧ ∃ batch ∈ (σ 0).history,
      ∃ batch' ∈ (σ 1).history, batch.hash toyCrypto ≠ batch'.hash toyCrypto ∧
      ∃ k, (∃ voted ∈ (σ k).voted, voted.hash toyCrypto = batch.hash toyCrypto) ∧
        ∃ voted ∈ (σ k).voted, voted.hash toyCrypto = batch'.hash toyCrypto := by
  have hplay : ∃ σ, Reaches (running 3) (Guarded (running 3)) σ ∧ ∃ batch ∈ (σ 0).history,
      ∃ batch' ∈ (σ 1).history, batch.hash toyCrypto ≠ batch'.hash toyCrypto :=
    exists_reaches twoConfirmations (by decide +kernel)
  obtain ⟨σ, hrun, batch, hbatch, batch', hbatch', hne⟩ := hplay
  exact ⟨σ, hrun, batch, hbatch, batch', hbatch', hne,
    confirmations_intersect (running_registered (by decide)) {toyAddress 4} (by decide)
      three_others hrun hbatch hbatch'⟩

/-! ## The highest certificate -/

/-- The certificate is the initial one, one that passes the check, or that of a batch
the node has confirmed. -/
def Warranted (cfg : Config C) (node : Node) (qc : QuorumCertificate) : Prop :=
  qc = genesisQc ∨ isFullyValid C cfg.addressBook qc = true ∨
    ∃ batch ∈ node.history, batch.hash C = qc.batchHash ∧ batch.round = qc.viewNumber

/-- The highest certificate is warranted, and no confirmed batch is of a higher round. -/
structure WellAnchored (cfg : Config C) (node : Node) : Prop where
  warranted : Warranted cfg node node.core.highestSeenQc
  bounds : ∀ batch ∈ node.history, batch.round ≤ node.core.highestSeenQc.viewNumber

namespace WellAnchored

variable {cfg : Config C} {node node' : Node} {a : Action}

theorem new (cfg : Config C) : WellAnchored cfg (Node.new genesisQc) :=
  ⟨.inl rfl, fun _ h => nomatch h⟩

theorem warranted_mono {qc : QuorumCertificate} (h : Warranted cfg node qc)
    (hsub : node.history ⊆ node'.history) : Warranted cfg node' qc := by
  rcases h with hinitial | hvalid | ⟨batch, hbatch, hqc⟩
  · exact .inl hinitial
  · exact .inr (.inl hvalid)
  · exact .inr (.inr ⟨batch, hsub hbatch, hqc⟩)

/-- A confirmation pushes the batch and takes its certificate if it is higher, whether
or not the task is ended before it has sent it. -/
theorem act_of_confirms? (hact : Sequencer.act cfg node a = some node') {batchHash : Bytes}
    {batch : PendingBatch} (hconf : (batchHash, batch) ∈ confirms? cfg node a) :
    node'.history = node.history ++ [batch.toPayload] ∧
      node'.core.highestSeenQc = (node.confirm batchHash batch).core.highestSeenQc := by
  unfold confirms? at hconf
  split at hconf
  · split at hconf
    · next htask =>
      obtain ⟨batch, hready, heq⟩ := Option.map_eq_some_iff.mp hconf
      cases heq
      simp only [Sequencer.act, htask, exec, hready] at hact
      cases hact
      exact ⟨rfl, rfl⟩
    · cases hconf
  · split at hconf
    · next htask =>
      obtain ⟨batch, hready, heq⟩ := Option.map_eq_some_iff.mp hconf
      cases heq
      dsimp only [Sequencer.act] at hact
      split at hact
      · next haborted =>
        rw [haborted] at htask
        cases htask
        simp only [cancelTask, hready] at hact
        cases hact
        exact ⟨rfl, rfl⟩
      · cases hact
    · cases hconf
  · cases hconf

theorem view_le_confirm (node : Node) (batchHash : Bytes) (batch : PendingBatch) :
    node.core.highestSeenQc.viewNumber ≤
        (node.confirm batchHash batch).core.highestSeenQc.viewNumber ∧
      batch.round ≤ (node.confirm batchHash batch).core.highestSeenQc.viewNumber := by
  dsimp only [Node.confirm]
  split
  · next hhigher => exact ⟨UInt64.le_of_lt hhigher, UInt64.le_refl _⟩
  · next hlower => exact ⟨UInt64.le_refl _, UInt64.not_lt.mp hlower⟩

theorem view_le (hact : Sequencer.act cfg node a = some node') :
    node.core.highestSeenQc.viewNumber ≤ node'.core.highestSeenQc.viewNumber := by
  cases act_anchor hact with
  | same hqc =>
    rw [hqc]
    exact UInt64.le_refl _
  | received _ _ hview hqc =>
    rw [hqc]
    exact UInt64.le_of_lt hview
  | confirmed _ hqc =>
    rw [hqc]
    exact (view_le_confirm node _ _).1

theorem warranted_confirm (h : Warranted cfg node node.core.highestSeenQc) {batchHash : Bytes}
    {batch : PendingBatch} (hhash : batch.toPayload.hash C = batchHash) :
    Warranted cfg (node.confirm batchHash batch)
      (node.confirm batchHash batch).core.highestSeenQc := by
  have hkept : Warranted cfg (node.confirm batchHash batch) node.core.highestSeenQc :=
    warranted_mono h (List.subset_append_left _ _)
  dsimp only [Node.confirm] at hkept ⊢
  split
  · exact .inr (.inr ⟨batch.toPayload, List.mem_concat_self, hhash, rfl⟩)
  · exact hkept

theorem confirm (h : WellAnchored cfg node) {batchHash : Bytes} {batch : PendingBatch}
    (hhash : batch.toPayload.hash C = batchHash) :
    WellAnchored cfg (node.confirm batchHash batch) where
  warranted := warranted_confirm h.warranted hhash
  bounds := by
    obtain ⟨hview, hround⟩ := view_le_confirm node batchHash batch
    exact forall_mem_snoc (fun earlier hearlier =>
      UInt64.le_trans (h.bounds earlier hearlier) hview) hround

theorem congr (h : WellAnchored cfg node) (hhistory : node'.history = node.history)
    (hqc : node'.core.highestSeenQc = node.core.highestSeenQc) : WellAnchored cfg node' where
  warranted := by
    rw [hqc]
    exact warranted_mono h.warranted (hhistory ▸ List.Subset.refl _)
  bounds := by
    rw [hqc, hhistory]
    exact h.bounds

theorem act (h : WellAnchored cfg node)
    (hpending : ∀ hash batch, node.pendingProposals hash = some batch →
      batch.toPayload.hash C = hash)
    (hact : act cfg node a = some node') : WellAnchored cfg node' := by
  rcases act_history hact with hsame | ⟨⟨batchHash, batch⟩, hconf, -⟩
  · cases act_anchor hact with
    | same hqc => exact h.congr hsame hqc
    | received _ hvalid hview hqc =>
      refine ⟨hqc ▸ .inr (.inl hvalid), ?_⟩
      rw [hsame, hqc]
      exact fun batch hbatch => UInt64.le_trans (h.bounds batch hbatch) (UInt64.le_of_lt hview)
    | confirmed hconf =>
      obtain ⟨hhistory, hqc⟩ := act_of_confirms? hact hconf
      exact (h.confirm (hpending _ _ (ready_of_confirms? hconf).pending)).congr hhistory hqc
  · obtain ⟨hhistory, hqc⟩ := act_of_confirms? hact hconf
    exact (h.confirm (hpending _ _ (ready_of_confirms? hconf).pending)).congr hhistory hqc

end WellAnchored

/-- In every run of a node, whatever it receives: the highest certificate does not go
back and bounds the rounds of the confirmed batches, and it is the initial one, one
that passes the check, or that of a confirmed batch. -/
theorem anchor_justified {cfg : Config C} {ok : Node → Action → Prop} {node node' : Node}
    (hreach : NodeRun cfg ok (Node.new genesisQc) node) (hrun : NodeRun cfg ok node node') :
    node.core.highestSeenQc.viewNumber ≤ node'.core.highestSeenQc.viewNumber ∧
      (∀ batch ∈ node'.history, batch.round ≤ node'.core.highestSeenQc.viewNumber) ∧
      Warranted cfg node' node'.core.highestSeenQc := by
  have hview : node.core.highestSeenQc.viewNumber ≤ node'.core.highestSeenQc.viewNumber :=
    hrun.invariant (I := fun later => node.core.highestSeenQc.viewNumber ≤
      later.core.highestSeenQc.viewNumber) (UInt64.le_refl _)
      fun _ _ hact ih => UInt64.le_trans ih (WellAnchored.view_le hact)
  have hanchored : WellAnchored cfg node' := by
    refine (hreach.trans hrun).invariant (.new cfg) fun hbefore _ hact ih => ?_
    exact ih.act (fun hash batch h => ((dataOk_of_run hbefore).pending hash batch h).2) hact
  exact ⟨hview, hanchored.bounds, hanchored.warranted⟩

/-- The node is alone and confirms two batches. -/
theorem anchor_justified_two :
    ∃ node, NodeRun (soloNetwork.config false) (fun _ _ => True) (Node.new genesisQc) node ∧
      node.history.length = 2 ∧ 0 ≤ node.core.highestSeenQc.viewNumber ∧
      (∀ batch ∈ node.history, batch.round ≤ node.core.highestSeenQc.viewNumber) ∧
      Warranted (soloNetwork.config false) node node.core.highestSeenQc := by
  have hplay : ∃ node, NodeRun (soloNetwork.config false) (fun _ _ => True)
      (Node.new genesisQc) node ∧ node.history.length = 2 :=
    exists_run (List.flatten [[.tick false, .advance], List.replicate 10 (.run 0 10),
      [.tick false, .advance], List.replicate 10 (.run 0 20)]) (by decide +kernel)
  obtain ⟨node, hrun, htwo⟩ := hplay
  exact ⟨node, hrun, htwo, anchor_justified .refl hrun⟩

end EviceChain.Sequencer
