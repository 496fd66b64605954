import EviceChain.Sequencer.Script

/-!
# No quorum is lost

A proposal is inserted, votes are stored and the quorum is tested in different
lock sections of different tasks. Whoever makes a batch complete, by inserting it
or by adding a vote, goes on to `process_votes_for_batch` for it: a batch that is
pending with a quorum of votes is processed, or some task is still on the way to
test it (`Watched`). When no task is left, it is processed
(`quorum_processed`).
-/

namespace EviceChain.Sequencer

open NetworkLemmas

variable {ι : Type} {C : Crypto}

/-- The task goes on to `process_votes_for_batch` for the hash, whatever it finds. -/
def Task.Checks (C : Crypto) (hash : Bytes) : Task → Prop
  | .castVote batch | .insertOwn batch | .announce batch | .selfVote batch => batch.hash C = hash
  | .sendVote vote => vote.batchHash = hash
  | .processVotes batchHash => batchHash = hash
  | _ => False

/-- The batch is pending and has the votes it needs. -/
structure Complete (cfg : Config C) (node : Node) (hash : Bytes) : Prop where
  pending : (node.pendingProposals hash).isSome
  quorum : requiredQuorum cfg.addressBook.size ≤ (node.core.velocityVotes hash).length

theorem Complete.of_sameData {cfg : Config C} {node node' : Node} {hash : Bytes}
    (h : Complete cfg node' hash) (hsame : SameData node node') : Complete cfg node hash :=
  ⟨hsame.pending ▸ h.pending, hsame.votes ▸ h.quorum⟩

/-- If the batch is complete, it is processed or about to be tested. -/
def Watched (cfg : Config C) (node : Node) (hash : Bytes) : Prop :=
  Complete cfg node hash →
    hash ∈ node.core.processedOptimisticBatches ∨ ∃ entry ∈ node.tasks, entry.2.Checks C hash

/-- No task is ended that is on the way to test the votes for the hash. -/
def Uncut (C : Crypto) (hash : Bytes) (node : Node) (a : Action) : Prop :=
  ∀ k midway entry, a = .cancel k midway → node.tasks[k]? = some entry →
    ¬ entry.2.Checks C hash

/-- No task is ended before it is done. Handlers of proposals and votes never are. -/
def Unaborted (_ : ι → Node) (_ : ι) (a : Action) : Prop := ∀ k midway, a ≠ .cancel k midway

theorem unaborted_iff {σ : ι → Node} {i : ι} {a : Action} :
    Unaborted σ i a ↔ ¬ (a matches .cancel _ _) := by
  unfold Unaborted
  cases a <;> simp

instance (σ : ι → Node) (i : ι) (a : Action) : Decidable (Unaborted σ i a) :=
  decidable_of_iff' _ unaborted_iff

namespace NoLostQuorumLemmas

variable {cfg : Config C} {node : Node} {hash : Bytes}

theorem pending_insertPending {batch : PayloadBatch} (h : batch.hash C ≠ hash) :
    (node.insertPending C batch).pendingProposals hash = node.pendingProposals hash :=
  Function.update_of_ne (Ne.symm h) _ _

theorem pending_of_removePending {hashes : List Bytes}
    (h : ((node.removePending hashes).pendingProposals hash).isSome) :
    (node.pendingProposals hash).isSome := by
  dsimp only [Node.removePending] at h
  split at h
  · cases h
  · exact h

theorem velocityVotes_pushVote {core : CoreConsensusState} {batchHash : Bytes}
    {vote : VelocityVote} (h : batchHash ≠ hash) :
    (core.pushVote batchHash vote).velocityVotes hash = core.velocityVotes hash :=
  Function.update_of_ne (Ne.symm h) _ _

theorem readyBatch_of_complete (h : Complete cfg node hash)
    (hfresh : hash ∉ node.core.processedOptimisticBatches) :
    ∃ batch, readyBatch cfg node hash = some batch := by
  rw [readyBatch, if_neg hfresh, if_pos h.quorum]
  exact Option.isSome_iff_exists.mp h.pending

/-- What the two tests of `process_votes_for_batch` leave when it stops early. -/
theorem exec_processVotes_complete (cfg : Config C) (now : UInt64) (node : Node)
    (batchHash : Bytes) {hash : Bytes}
    (h : Complete cfg (exec cfg now node (.processVotes batchHash)).1 hash) :
    (Complete cfg node hash ∧ batchHash ≠ hash) ∨
      hash ∈ (exec cfg now node (.processVotes batchHash)).1.core.processedOptimisticBatches := by
  by_cases hfresh :
      hash ∈ (exec cfg now node (.processVotes batchHash)).1.core.processedOptimisticBatches
  · exact .inr hfresh
  refine .inl ?_
  dsimp only [exec] at h hfresh
  split at h
  · next hnone =>
    rw [hnone] at hfresh
    refine ⟨h, ?_⟩
    rintro rfl
    obtain ⟨batch, hready⟩ := readyBatch_of_complete h hfresh
    rw [hnone] at hready
    cases hready
  · next batch hsome =>
    rw [hsome] at hfresh
    have hne : hash ∉ batchHash :: node.core.processedOptimisticBatches := hfresh
    refine ⟨⟨h.pending, ?_⟩, fun he => hne (he ▸ List.mem_cons_self)⟩
    have hquorum := h.quorum
    dsimp only [Node.certify, CoreConsensusState.pruneStaleData, Node.confirm, Node.broadcast,
      Node.send] at hquorum
    rwa [if_neg hne] at hquorum

/-- A task that makes a batch complete goes on to test it, and a task that tests a
complete batch processes it. -/
theorem exec_complete (cfg : Config C) (now : UInt64) (node : Node) (task : Task) {hash : Bytes}
    (h : Complete cfg (exec cfg now node task).1 hash) :
    (Complete cfg node hash ∧ ¬ task.Checks C hash) ∨
      hash ∈ (exec cfg now node task).1.core.processedOptimisticBatches ∨
      ∃ task', (exec cfg now node task).2 = some task' ∧ task'.Checks C hash := by
  cases task with
  | insertProposal batch =>
    dsimp only [exec] at h ⊢
    split at h
    · exact .inl ⟨h, id⟩
    · split at h
      · exact .inl ⟨h, id⟩
      · by_cases hhash : batch.hash C = hash
        · next hverify hnone =>
          rw [if_neg hverify, if_neg hnone]
          exact .inr (.inr ⟨_, rfl, hhash⟩)
        · exact .inl ⟨⟨pending_insertPending hhash ▸ h.pending, h.quorum⟩, id⟩
  | castVote batch =>
    by_cases hhash : batch.hash C = hash
    · exact .inr (.inr ⟨_, rfl, hhash⟩)
    · exact .inl ⟨⟨h.pending, velocityVotes_pushVote hhash ▸ h.quorum⟩, hhash⟩
  | sendVote vote =>
    by_cases hhash : vote.batchHash = hash
    · exact .inr (.inr ⟨_, rfl, hhash⟩)
    · exact .inl ⟨⟨h.pending, h.quorum⟩, hhash⟩
  | processVotes batchHash =>
    rcases exec_processVotes_complete cfg now node batchHash h with hbefore | hprocessed
    · exact .inl hbefore
    · exact .inr (.inl hprocessed)
  | pruneProposals confirmedHashes =>
    exact .inl ⟨⟨pending_of_removePending h.pending, h.quorum⟩, id⟩
  | storeVote vote =>
    dsimp only [exec] at h ⊢
    split at h
    · exact .inl ⟨h, id⟩
    · next hverify =>
      rw [if_neg hverify]
      by_cases hhash : vote.batchHash = hash
      · exact .inr (.inr ⟨_, rfl, hhash⟩)
      · refine .inl ⟨?_, id⟩
        split at h
        · exact h
        · exact ⟨h.pending, velocityVotes_pushVote hhash ▸ h.quorum⟩
  | insertOwn batch =>
    by_cases hhash : batch.hash C = hash
    · exact .inr (.inr ⟨_, rfl, hhash⟩)
    · exact .inl ⟨⟨pending_insertPending hhash ▸ h.pending, h.quorum⟩, hhash⟩
  | announce batch =>
    by_cases hhash : batch.hash C = hash
    · exact .inr (.inr ⟨_, rfl, hhash⟩)
    · exact .inl ⟨⟨h.pending, h.quorum⟩, hhash⟩
  | selfVote batch =>
    by_cases hhash : batch.hash C = hash
    · exact .inr (.inr ⟨_, rfl, hhash⟩)
    · exact .inl ⟨⟨h.pending, velocityVotes_pushVote hhash ▸ h.quorum⟩, hhash⟩
  | buildBatch => exact .inl ⟨⟨h.pending, h.quorum⟩, id⟩
  | _ => exact .inl ⟨h.of_sameData (exec_quiet cfg now node trivial), id⟩

end NoLostQuorumLemmas

open NoLostQuorumLemmas

/-- One step. -/
theorem Watched.act {cfg : Config C} {node node' : Node} {a : Action} {hash : Bytes}
    (h : Watched cfg node hash) (huncut : Uncut C hash node a)
    (hact : act cfg node a = some node') : Watched cfg node' hash := by
  refine act_promise (F := fun node => Complete cfg node hash)
    (G := fun node => hash ∈ node.core.processedOptimisticBatches) (T := Task.Checks C hash)
    (fun hsame hcomplete => hcomplete.of_sameData hsame) ?_ (act_processed hact)
    (fun now task _ => exec_complete cfg now node task) ?_ huncut h hact
  · intro n m hsame hprocessed
    exact hsame.processed ▸ hprocessed
  · intro ready _ hcomplete
    exact ⟨hcomplete.pending, hcomplete.quorum⟩

variable [DecidableEq ι] {net : Network ι C} {ok : (ι → Node) → ι → Action → Prop} {σ : ι → Node}

theorem Reaches.watched {hash : Bytes} (hok : ∀ {σ i a}, ok σ i a → Uncut C hash (σ i) a)
    (hrun : Reaches net ok σ) (i : ι) : Watched (net.config i) (σ i) hash :=
  hrun.nodeInvariant (P := fun i node => Watched (net.config i) node hash)
    (fun _ h => absurd h.pending Bool.false_ne_true)
    (fun _ hstep hact ih => ih.act (hok hstep) hact) i

/-- However the handlers of proposals and votes interleave: when a node has no task
left, every batch that is pending with a quorum of votes has been processed. -/
theorem quorum_processed (hrun : Reaches net Unaborted σ) (i : ι) (hidle : (σ i).tasks = [])
    (hash : Bytes) (hpending : ((σ i).pendingProposals hash).isSome)
    (hquorum : requiredQuorum net.addressBook.size ≤ ((σ i).core.velocityVotes hash).length) :
    hash ∈ (σ i).core.processedOptimisticBatches := by
  have hwatched : Watched (net.config i) (σ i) hash :=
    hrun.watched (fun hstep k midway _ ha _ _ => hstep k midway ha) i
  rcases hwatched ⟨hpending, hquorum⟩ with hprocessed | ⟨entry, hentry, -⟩
  · exact hprocessed
  · rw [hidle] at hentry
    cases hentry

/-- The first validator alone. -/
def soloNetwork : Network Bool toyCrypto :=
  { toyNetwork with addressBook := toyBook [1] (by decide) }

/-- It confirms its batch on its own vote, and then meets the batch again and votes
for it once more. -/
def metAgain : List (Cue Bool) :=
  [.act false (.tick false), .act false .advance, .settle false 10,
    .relay false false 0, .settle false 20]

theorem quorum_processed_metAgain :
    ∃ σ, Reaches soloNetwork Unaborted σ ∧ (σ false).tasks = [] ∧
      ∃ batch ∈ (σ false).proposed,
        ((σ false).pendingProposals (batch.hash toyCrypto)).isSome ∧
        requiredQuorum soloNetwork.addressBook.size ≤
          ((σ false).core.velocityVotes (batch.hash toyCrypto)).length ∧
        batch.hash toyCrypto ∈ (σ false).core.processedOptimisticBatches := by
  have hplay : ∃ σ, Reaches soloNetwork Unaborted σ ∧ (σ false).tasks = [] ∧
      ∃ batch ∈ (σ false).proposed,
        ((σ false).pendingProposals (batch.hash toyCrypto)).isSome ∧
        requiredQuorum soloNetwork.addressBook.size ≤
          ((σ false).core.velocityVotes (batch.hash toyCrypto)).length :=
    exists_reaches metAgain (by decide +kernel)
  obtain ⟨σ, hrun, hidle, batch, hmem, hpending, hquorum⟩ := hplay
  exact ⟨σ, hrun, hidle, batch, hmem, hpending, hquorum,
    quorum_processed hrun false hidle _ hpending hquorum⟩

end EviceChain.Sequencer
