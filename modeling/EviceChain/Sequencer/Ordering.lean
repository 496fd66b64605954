import EviceChain.Foundation.Chain
import EviceChain.Sequencer.Agreement
import EviceChain.Sequencer.Data
import EviceChain.Sequencer.StoredVotes

/-!
# The order of confirmed batches

A node confirms a batch when its own count of votes is complete. It looks
neither at the parent of the batch nor at what it has confirmed before, and a
vote of the leader for its own batch reaches nobody. Two honest nodes can end up
with different batches first (`histories_diverge`).

If nodes vote once on each parent, confirm only on top of what they have
confirmed, and no two batches share a hash, what a node has confirmed is a chain
of batches that quorums have voted for, and the histories of any two nodes are
comparable (`histories_comparable`).
-/

namespace EviceChain.Sequencer

open Foundation

variable {ι : Type} {C : Crypto}

/-- The hash that a node builds on at the start. -/
def rootHash : Bytes := List.replicate 32 0

/-- A batch that is confirmed names the last confirmed one as its parent. -/
def ExtendsTip (net : Network ι C) (σ : ι → Node) (i : ι) (a : Action) : Prop :=
  ∀ ready ∈ confirms? (net.config i) (σ i) a,
    ready.2.header.prevHash = tip (PayloadBatch.hash C) rootHash (σ i).history

/-- A batch that is built has the hash of no other one. -/
def FreshHash (net : Network ι C) (σ : ι → Node) (i : ι) (a : Action) : Prop :=
  ∀ batch ∈ builds? (net.config i) (σ i) a, ∀ j, ∀ earlier ∈ (σ j).proposed,
    earlier.hash C = batch.hash C → earlier = batch

/-- What the steps of an orderly run satisfy. -/
structure Orderly (net : Network ι C) (σ : ι → Node) (i : ι) (a : Action) : Prop where
  relayed : Relayed C σ i a
  onePerParent : OneVotePer C (·.header.prevHash) σ i a
  once : VotesOnce net σ i a
  extendsTip : ExtendsTip net σ i a
  freshHash : FreshHash net σ i a

instance [Fintype ι] (net : Network ι C) (σ : ι → Node) (i : ι) (a : Action) :
    Decidable (Orderly net σ i a) :=
  have : Decidable (ExtendsTip net σ i a) := inferInstanceAs (Decidable
    (∀ ready ∈ confirms? (net.config i) (σ i) a,
      ready.2.header.prevHash = tip (PayloadBatch.hash C) rootHash (σ i).history))
  have : Decidable (FreshHash net σ i a) := inferInstanceAs (Decidable
    (∀ batch ∈ builds? (net.config i) (σ i) a, ∀ j, ∀ earlier ∈ (σ j).proposed,
      earlier.hash C = batch.hash C → earlier = batch))
  decidable_of_iff (Relayed C σ i a ∧ OneVotePer C (·.header.prevHash) σ i a ∧
      VotesOnce net σ i a ∧ ExtendsTip net σ i a ∧ FreshHash net σ i a)
    ⟨fun h => ⟨h.1, h.2.1, h.2.2.1, h.2.2.2.1, h.2.2.2.2⟩,
      fun h => ⟨h.relayed, h.onePerParent, h.once, h.extendsTip, h.freshHash⟩⟩

/-! ## Where batches and votes come from -/

def Proposed (σ : ι → Node) (batch : PayloadBatch) : Prop := ∃ j, batch ∈ (σ j).proposed

/-- The validator runs a node that has voted for the hash. -/
def HasVoted (net : Network ι C) (σ : ι → Node) (address : Address) (hash : Bytes) : Prop :=
  ∃ j, net.address j = address ∧ ∃ batch ∈ (σ j).voted, batch.hash C = hash

/-- A quorum of validators has voted for the hash. -/
def QuorumVoted (net : Network ι C) (σ : ι → Node) (hash : Bytes) : Prop :=
  QuorumOf net.addressBook fun address => HasVoted net σ address hash

namespace OrderingLemmas

open NetworkLemmas

variable {net : Network ι C} {σ : ι → Node}

/-- Two quorums have a node in common. -/
theorem exists_voted_both (hreg : net.Registered) {hash hash' : Bytes}
    (h : QuorumVoted net σ hash) (h' : QuorumVoted net σ hash') :
    ∃ j, (∃ batch ∈ (σ j).voted, batch.hash C = hash) ∧
      ∃ batch ∈ (σ j).voted, batch.hash C = hash' := by
  obtain ⟨address, -, -, ⟨j, hj, hbatch⟩, j', hj', hbatch'⟩ :=
    h.both h' (Finset.card_empty.trans_le (Nat.zero_le _))
  obtain rfl := hreg.one j j' (hj.trans hj'.symm)
  exact ⟨j, hbatch, hbatch'⟩

variable [DecidableEq ι] {i : ι} {a : Action} {node : Node}

theorem subset_update {α : Type} {f : Node → List α}
    (h : f node = f (σ i) ∨ ∃ x, f node = f (σ i) ++ [x]) (j : ι) :
    f (σ j) ⊆ f (Function.update σ i node j) := by
  rw [Function.update_apply]
  split
  · next he =>
    subst he
    rcases h with hsame | ⟨x, hnew⟩
    · rw [hsame]
      exact List.Subset.refl _
    · rw [hnew]
      exact List.subset_append_left _ _
  · exact List.Subset.refl _

theorem voted_subset (hact : act (net.config i) (σ i) a = some node) (j : ι) :
    (σ j).voted ⊆ (Function.update σ i node j).voted :=
  subset_update ((act_voted hact).imp_right fun ⟨batch, _, hnew⟩ => ⟨batch, hnew⟩) j

theorem proposed_subset (hact : act (net.config i) (σ i) a = some node) (j : ι) :
    (σ j).proposed ⊆ (Function.update σ i node j).proposed :=
  subset_update ((act_proposed hact).imp_right fun ⟨batch, _, hnew⟩ => ⟨batch, hnew⟩) j

theorem proposed_mono (hact : act (net.config i) (σ i) a = some node) {batch : PayloadBatch}
    (h : Proposed σ batch) : Proposed (Function.update σ i node) batch := by
  obtain ⟨j, hj⟩ := h
  exact ⟨j, proposed_subset hact j hj⟩

theorem hasVoted_mono (hact : act (net.config i) (σ i) a = some node) {address : Address}
    {hash : Bytes} (h : HasVoted net σ address hash) :
    HasVoted net (Function.update σ i node) address hash := by
  obtain ⟨j, haddress, batch, hvoted, hhash⟩ := h
  exact ⟨j, haddress, batch, voted_subset hact j hvoted, hhash⟩

theorem quorumVoted_mono (hact : act (net.config i) (σ i) a = some node) {hash : Bytes}
    (h : QuorumVoted net σ hash) : QuorumVoted net (Function.update σ i node) hash :=
  h.mono fun _ => hasVoted_mono hact

/-- The batch of a step is new, all others were there before. -/
theorem proposed_cases (hact : act (net.config i) (σ i) a = some node) {batch : PayloadBatch}
    (h : Proposed (Function.update σ i node) batch) :
    Proposed σ batch ∨ batch ∈ builds? (net.config i) (σ i) a := by
  obtain ⟨j, hj⟩ := h
  rw [Function.update_apply] at hj
  split at hj
  · rcases act_proposed hact with hsame | ⟨new, hbuilds, hnew⟩
    · exact .inl ⟨i, hsame ▸ hj⟩
    · rw [hnew] at hj
      rcases List.mem_append.mp hj with hj | hj
      · exact .inl ⟨i, hj⟩
      · exact .inr (List.mem_singleton.mp hj ▸ hbuilds)
  · exact .inl ⟨j, hj⟩

end OrderingLemmas

open OrderingLemmas NetworkLemmas

variable [DecidableEq ι] {net : Network ι C} {σ : ι → Node}

/-- Where every message comes from a node, every batch that a node holds was
proposed by a node, and every vote it holds was cast by the voter. -/
theorem Reaches.provenance {ok : (ι → Node) → ι → Action → Prop}
    (hok : ∀ {σ i a}, ok σ i a → Relayed C σ i a) (hrun : Reaches net ok σ) (i : ι) :
    DataOk C (Proposed σ) (fun vote => HasVoted net σ vote.voterAddress vote.batchHash) (σ i) := by
  refine hrun.invariant (P := fun σ _ node => DataOk C (Proposed σ)
    (fun vote => HasVoted net σ vote.voterAddress vote.batchHash) node)
    (fun _ => .new _) (fun _ _ hact ih j _ => ?_) (fun {σ i a node} _ hstep hact ih => ?_) i
  · exact (ih j).mono (fun _ => proposed_mono hact) (fun _ => hasVoted_mono hact)
  · have hbefore : ∀ j, DataOk C (Proposed (Function.update σ i node)) (fun vote =>
        HasVoted net (Function.update σ i node) vote.voterAddress vote.batchHash) (σ j) :=
      fun j => (ih j).mono (fun _ => proposed_mono hact) (fun _ => hasVoted_mono hact)
    refine (hbefore i).act ⟨?_, ?_, ?_⟩
      hact
    · intro msg hmsg
      obtain ⟨j, hj⟩ := hok hstep msg hmsg
      exact (hbefore j).of_handsOut hj
    · intro batch hbuilds
      refine ⟨i, ?_⟩
      rw [Function.update_self]
      exact proposed_of_builds? hact hbuilds
    · intro batch hvotes _
      refine ⟨i, rfl, batch, ?_, rfl⟩
      rw [Function.update_self]
      exact voted_of_votes? hact hvotes

theorem Reaches.proposed_unique (hrun : Reaches net (Orderly net) σ) {batch batch' : PayloadBatch}
    (h : Proposed σ batch) (h' : Proposed σ batch') (hhash : batch.hash C = batch'.hash C) :
    batch = batch' := by
  induction hrun with
  | init =>
    obtain ⟨j, hj⟩ := h
    cases hj
  | step hprev hstep hact ih =>
    rcases proposed_cases hact h with hold | hnew <;>
      rcases proposed_cases hact h' with hold' | hnew'
    · exact ih hold hold'
    · obtain ⟨j, hj⟩ := hold
      exact hstep.freshHash batch' hnew' j batch hj hhash
    · obtain ⟨j, hj⟩ := hold'
      exact (hstep.freshHash batch hnew j batch' hj hhash.symm).symm
    · exact Option.mem_unique hnew hnew'

/-- Every confirmed batch has the votes of a quorum. -/
theorem Reaches.history_quorum (hreg : net.Registered) (hrun : Reaches net (Orderly net) σ)
    (i : ι) : ∀ batch ∈ (σ i).history, QuorumVoted net σ (batch.hash C) := by
  refine hrun.invariant (P := fun σ _ node => ∀ batch ∈ node.history,
    QuorumVoted net σ (batch.hash C)) (fun _ _ h => nomatch h)
    (fun _ _ hact ih j _ batch h => quorumVoted_mono hact (ih j batch h))
    (fun {σ i a node} hprev _ hact ih => ?_) i
  have hbefore := fun batch h => quorumVoted_mono hact (ih i batch h)
  rcases act_history hact with hsame | ⟨⟨hash, batch⟩, hconf, hnew⟩
  · rw [hsame]
    exact hbefore
  · rw [hnew]
    refine forall_mem_snoc hbefore ?_
    have hready := ready_of_confirms? hconf
    have hdata := hprev.provenance Orderly.relayed i
    rw [(hdata.pending _ _ hready.pending).2]
    have hballot := hprev.ballots hreg.key Orderly.once i hash hready.fresh
    refine quorumVoted_mono hact ((hballot.quorumOf hready.quorum).mono ?_)
    rintro _ ⟨vote, hvote, rfl⟩
    obtain ⟨hvoted, hhash⟩ := hdata.votes hash vote hvote
    exact hhash ▸ hvoted

theorem Reaches.history_chained (hrun : Reaches net (Orderly net) σ) (i : ι) :
    Chained (fun batch : PayloadBatch => batch.header.prevHash) (PayloadBatch.hash C) rootHash
      (σ i).history := by
  refine hrun.nodeInvariant (P := fun _ node => Chained
    (fun batch : PayloadBatch => batch.header.prevHash) (PayloadBatch.hash C) rootHash
    node.history) (fun _ => trivial) (fun _ hstep hact ih => ?_) i
  rcases act_history hact with hsame | ⟨ready, hconf, hnew⟩
  · rw [hsame]
    exact ih
  · rw [hnew]
    exact ih.snoc (hstep.extendsTip ready hconf)

/-- The histories of two nodes in an orderly run: one continues the other. -/
theorem histories_comparable (hreg : net.Registered) (hrun : Reaches net (Orderly net) σ)
    (i j : ι) : (σ i).history <+: (σ j).history ∨ (σ j).history <+: (σ i).history := by
  have hcertified : ∀ k, ∀ batch ∈ (σ k).history,
      Proposed σ batch ∧ QuorumVoted net σ (batch.hash C) := fun k batch h =>
    ⟨(hrun.provenance Orderly.relayed k).history batch h, hrun.history_quorum hreg k batch h⟩
  refine (hrun.history_chained i).comparable ?_ (hrun.history_chained j) (hcertified i)
    (hcertified j)
  rintro batch batch' ⟨hproposed, hquorum⟩ ⟨hproposed', hquorum'⟩ hparent
  -- the node that has voted for both hashes has voted for these very batches
  obtain ⟨k, ⟨vote, hvote, hhash⟩, vote', hvote', hhash'⟩ :=
    exists_voted_both hreg hquorum hquorum'
  have hvoted := (hrun.provenance Orderly.relayed k).voted
  obtain rfl := hrun.proposed_unique (hvoted vote hvote) hproposed hhash
  obtain rfl := hrun.proposed_unique (hvoted vote' hvote') hproposed' hhash'
  exact hrun.proposed_unique hproposed hproposed'
    (hrun.voted_eq Orderly.onePerParent k _ hvote _ hvote' hparent)

/-- Both nodes confirm the first batch, and the first node one more on top. -/
def twoRounds : List (Cue Bool) :=
  oneLeader ++ [.act false (.tick false), .act false .advance, .settle false 60,
    .relay true false 3, .settle true 70, .relay false true 2, .settle false 80]

theorem histories_comparable_twoRounds :
    ∃ σ, Reaches toyNetwork (Orderly toyNetwork) σ ∧
      (σ true).history.length = 1 ∧ (σ false).history.length = 2 ∧
      ((σ true).history <+: (σ false).history ∨ (σ false).history <+: (σ true).history) := by
  have hplay : ∃ σ, Reaches toyNetwork (Orderly toyNetwork) σ ∧
      (σ true).history.length = 1 ∧ (σ false).history.length = 2 :=
    exists_reaches twoRounds (by decide +kernel)
  obtain ⟨σ, hrun, hone, htwo⟩ := hplay
  exact ⟨σ, hrun, hone, htwo, histories_comparable toyNetwork_registered hrun true false⟩

/-! ## Two firsts -/

/-- The first node leads round 1 and confirms its batch. The second node votes for
that batch and learns that it is certified, but has only its own vote. It leads
the second step of round 2, builds on nothing, and confirms its own batch. -/
def leaderConfirmsAlone : List (Cue Bool) :=
  firstBatch ++ [.relay true false 1, .settle true 40,
    .act true (.tick false), .act true .advance, .settle true 50,
    .act true (.tick true), .act true .advance, .settle true 60,
    .relay false true 1, .settle false 70, .relay true false 2, .settle true 80]

/-- Without a fault, two nodes begin their histories with different batches. -/
theorem histories_diverge :
    ∃ σ, Reaches toyNetwork (Relayed toyCrypto) σ ∧
      ¬ ((σ false).history <+: (σ true).history ∨ (σ true).history <+: (σ false).history) :=
  exists_reaches leaderConfirmsAlone (by decide +kernel)

end EviceChain.Sequencer
