import EviceChain.Sequencer.QuorumCert
import EviceChain.Sequencer.Script

/-!
# From stored votes to accepted certificates

A vote is stored if its signature is valid for the round it names itself. The
certificate that `process_votes_for_batch` makes of the stored votes names the
round of the pending proposal, and its receivers check every signature for that
round. A validator that signs a vote for another round is counted by the maker
of the certificate and not by its receivers (`certificate_rejected`).

If the stored votes name the round of the proposal when it is confirmed, and a
node that has not confirmed a batch adds its own vote only where it has none,
every certificate is accepted (`certificates_accepted`). The second condition
alone keeps the stored voters distinct (`stored_voters_distinct`); a node that
restarts can break it (`stored_voter_repeated`).
-/

namespace EviceChain.Sequencer

open TypesLemmas QuorumCertLemmas NetworkLemmas

variable {ι : Type} {C : Crypto}

/-- A node that votes for a batch it has not confirmed has no vote of its own for
it stored. -/
def VotesOnce (net : Network ι C) (σ : ι → Node) (i : ι) (a : Action) : Prop :=
  ∀ batch ∈ votes? (σ i) a, batch.hash C ∉ (σ i).core.processedOptimisticBatches →
    ∀ vote ∈ (σ i).core.velocityVotes (batch.hash C), vote.voterAddress ≠ net.address i

/-- When a batch is confirmed, the stored votes for it name its round. -/
def RoundsMatch (net : Network ι C) (σ : ι → Node) (i : ι) (a : Action) : Prop :=
  ∀ ready ∈ confirms? (net.config i) (σ i) a, ∀ vote ∈ (σ i).core.velocityVotes ready.1,
    vote.roundId = ready.2.round

instance (net : Network ι C) (σ : ι → Node) (i : ι) (a : Action) :
    Decidable (VotesOnce net σ i a) :=
  inferInstanceAs (Decidable (∀ batch ∈ votes? (σ i) a,
    batch.hash C ∉ (σ i).core.processedOptimisticBatches →
    ∀ vote ∈ (σ i).core.velocityVotes (batch.hash C), vote.voterAddress ≠ net.address i))

instance (net : Network ι C) (σ : ι → Node) (i : ι) (a : Action) :
    Decidable (RoundsMatch net σ i a) :=
  inferInstanceAs (Decidable (∀ ready ∈ confirms? (net.config i) (σ i) a,
    ∀ vote ∈ (σ i).core.velocityVotes ready.1, vote.roundId = ready.2.round))

/-! ## The stored votes -/

/-- The votes are for the hash, of distinct voters, and each is valid for the
round it names. -/
structure Ballot (C : Crypto) (book : AddressBook) (hash : Bytes) (votes : List VelocityVote) :
    Prop where
  distinct : (votes.map (·.voterAddress)).Nodup
  valid : ∀ vote ∈ votes, vote.batchHash = hash ∧
    verifyVoteSignature C book vote.voterAddress vote.roundId hash vote.signature = true

/-- The stored votes for batches that are not confirmed. -/
def Ballots (C : Crypto) (book : AddressBook) (core : CoreConsensusState) : Prop :=
  ∀ hash, hash ∉ core.processedOptimisticBatches → Ballot C book hash (core.velocityVotes hash)

namespace StoredVotesLemmas

/-- A vote of a new voter keeps the voters distinct. -/
theorem nodup_voters_snoc {votes : List VelocityVote} {vote : VelocityVote}
    (h : (votes.map (·.voterAddress)).Nodup)
    (hnew : ∀ v ∈ votes, v.voterAddress ≠ vote.voterAddress) :
    ((votes ++ [vote]).map (·.voterAddress)).Nodup := by
  rw [List.map_append, List.map_singleton, List.nodup_append_comm, List.singleton_append,
    List.nodup_cons]
  refine ⟨?_, h⟩
  intro hmem
  obtain ⟨v, hv, he⟩ := List.mem_map.mp hmem
  exact hnew v hv he

end StoredVotesLemmas

open StoredVotesLemmas

namespace Ballot

variable {book : AddressBook} {hash : Bytes} {votes : List VelocityVote}

theorem nil : Ballot C book hash [] := ⟨List.nodup_nil, fun _ h => nomatch h⟩

theorem snoc (h : Ballot C book hash votes) {vote : VelocityVote} (hhash : vote.batchHash = hash)
    (hverify : verifyVoteSignature C book vote.voterAddress vote.roundId hash vote.signature = true)
    (hnew : ∀ v ∈ votes, v.voterAddress ≠ vote.voterAddress) :
    Ballot C book hash (votes ++ [vote]) :=
  ⟨nodup_voters_snoc h.distinct hnew, forall_mem_snoc h.valid ⟨hhash, hverify⟩⟩

/-- The certificate of the votes is accepted if they name its round. -/
theorem accepted (h : Ballot C book hash votes) {round : UInt64}
    (hround : ∀ vote ∈ votes, vote.roundId = round)
    (hquorum : requiredQuorum book.size ≤ votes.length) :
    isFullyValid C book
      ⟨hash, round, votes.map fun vote => (vote.voterAddress, vote.signature)⟩ = true := by
  refine isFullyValid_of_distinct ?_ (?_) ?_
  · rw [List.map_map]
    exact h.distinct
  · intro entry hentry
    obtain ⟨vote, hvote, rfl⟩ := List.mem_map.mp hentry
    rw [← hround vote hvote]
    exact (h.valid vote hvote).2
  · rw [List.length_map]
    exact hquorum

/-- The voters of a ballot that is complete. -/
theorem quorumOf (h : Ballot C book hash votes)
    (hquorum : requiredQuorum book.size ≤ votes.length) :
    QuorumOf book fun address => ∃ vote ∈ votes, vote.voterAddress = address := by
  refine ⟨(votes.map (·.voterAddress)).toFinset, ?_, ?_, ?_⟩
  · intro address hmem
    obtain ⟨vote, hvote, rfl⟩ := List.mem_map.mp (List.mem_toFinset.mp hmem)
    exact List.mem_toFinset.mpr (mem_addresses_of_verify (h.valid vote hvote).2)
  · rw [List.toFinset_card_of_nodup h.distinct, List.length_map]
    exact hquorum
  · intro address hmem
    exact List.mem_map.mp (List.mem_toFinset.mp hmem)

end Ballot

namespace StoredVotesLemmas

variable {book : AddressBook}

/-- Only the votes of the batch that is voted for change. -/
theorem of_pushVote {P : Bytes → List VelocityVote → Prop} {core : CoreConsensusState}
    {hash batchHash : Bytes} {vote : VelocityVote} (h : P hash (core.velocityVotes hash))
    (hvote : hash = batchHash → P batchHash (core.velocityVotes batchHash ++ [vote])) :
    P hash ((core.pushVote batchHash vote).velocityVotes hash) := by
  dsimp only [CoreConsensusState.pushVote]
  rw [Function.update_apply]
  split
  · next he =>
    subst he
    exact hvote rfl
  · exact h

theorem verify_ownVote (cfg : Config C)
    (hkey : cfg.addressBook.signingKey? cfg.myAddress = some (C.publicKeyBytes cfg.signingKeys))
    (batch : PayloadBatch) :
    verifyVoteSignature C cfg.addressBook (ownVote cfg batch).voterAddress
      (ownVote cfg batch).roundId (batch.hash C) (ownVote cfg batch).signature = true := by
  dsimp only [ownVote, signVote]
  rw [verifyVoteSignature, hkey]
  exact C.verify_sign _ _

/-- What holds of no votes, and still holds when a vote of a new voter is added as
the node adds its own or as it stores a received one, holds of the stored votes
for every batch that is not confirmed. -/
theorem stored_effect {P : Bytes → List VelocityVote → Prop} {net : Network ι C} {σ : ι → Node}
    {i : ι} {a : Action} {node : Node} (hnil : ∀ hash, P hash [])
    (hown : ∀ batch votes, P (batch.hash C) votes →
      (∀ v ∈ votes, v.voterAddress ≠ net.address i) →
      P (batch.hash C) (votes ++ [ownVote (net.config i) batch]))
    (hstore : ∀ (vote : VelocityVote) votes, P vote.batchHash votes →
      verifyVoteSignature C net.addressBook vote.voterAddress vote.roundId vote.batchHash
        vote.signature = true →
      (∀ v ∈ votes, v.voterAddress ≠ vote.voterAddress) → P vote.batchHash (votes ++ [vote]))
    (honce : VotesOnce net σ i a) (heffect : Effect (net.config i) (σ i) a node)
    (h : ∀ hash, hash ∉ (σ i).core.processedOptimisticBatches →
      P hash ((σ i).core.velocityVotes hash)) :
    ∀ hash, hash ∉ node.core.processedOptimisticBatches →
      P hash (node.core.velocityVotes hash) := by
  intro hash hfresh
  cases heffect with
  | @vote batch hvotes =>
    refine of_pushVote (h hash hfresh) ?_
    rintro rfl
    exact hown batch _ (h _ hfresh) (honce batch hvotes hfresh)
  | store _ hverify hnew =>
    refine of_pushVote (h hash hfresh) ?_
    rintro rfl
    exact hstore _ _ (h _ hfresh) hverify hnew
  | confirm => exact h hash (List.not_mem_of_not_mem_cons hfresh)
  | certify =>
    have hsame := h hash (List.not_mem_of_not_mem_cons hfresh)
    dsimp only [Node.certify, CoreConsensusState.pruneStaleData]
    split
    · exact hnil hash
    · exact hsame
  | _ => exact h hash hfresh

/-- A broadcast adds the certificate it carries, if any. -/
theorem certificates_broadcast (node : Node) (msg : ConsensusMessage) :
    (node.broadcast msg).certificates = node.certificates ++
      match msg with
      | .newQuorumCertificate qc => [qc]
      | _ => [] := by
  rw [Node.certificates, broadcasts_broadcast, List.filterMap_append]
  cases msg <;> rfl

/-- Every certificate that is broadcast is made of the stored votes. -/
theorem certificates_effect {cfg : Config C} {node node' : Node} {a : Action}
    (heffect : Effect cfg node a node') :
    ∀ qc ∈ node'.certificates, qc ∈ node.certificates ∨
      ∃ ready ∈ confirms? cfg node a, qc = buildQc node ready.1 ready.2 := by
  intro qc hqc
  cases heffect with
  | announce | sendVote =>
    rw [certificates_broadcast, List.append_nil] at hqc
    exact .inl hqc
  | certify hconf =>
    change qc ∈ (Node.broadcast _ (.newQuorumCertificate _)).certificates at hqc
    rw [certificates_broadcast] at hqc
    rcases List.mem_append.mp hqc with hqc | hqc
    · exact .inl hqc
    · exact .inr ⟨_, hconf, List.mem_singleton.mp hqc⟩
  | _ => exact .inl hqc

end StoredVotesLemmas

open StoredVotesLemmas

variable [DecidableEq ι]

/-- The rule for what holds of the stored votes in runs in which no node votes
twice for a batch it has not confirmed. -/
theorem Reaches.stored {P : Bytes → List VelocityVote → Prop} {net : Network ι C}
    (hnil : ∀ hash, P hash [])
    (hown : ∀ i batch votes, P (batch.hash C) votes →
      (∀ v ∈ votes, v.voterAddress ≠ net.address i) →
      P (batch.hash C) (votes ++ [ownVote (net.config i) batch]))
    (hstore : ∀ (vote : VelocityVote) votes, P vote.batchHash votes →
      verifyVoteSignature C net.addressBook vote.voterAddress vote.roundId vote.batchHash
        vote.signature = true →
      (∀ v ∈ votes, v.voterAddress ≠ vote.voterAddress) → P vote.batchHash (votes ++ [vote]))
    {ok : (ι → Node) → ι → Action → Prop} (hok : ∀ {σ i a}, ok σ i a → VotesOnce net σ i a)
    {σ : ι → Node} (hrun : Reaches net ok σ) (i : ι) (hash : Bytes)
    (hfresh : hash ∉ (σ i).core.processedOptimisticBatches) :
    P hash ((σ i).core.velocityVotes hash) := by
  refine hrun.nodeInvariant (P := fun _ node => ∀ hash,
    hash ∉ node.core.processedOptimisticBatches → P hash (node.core.velocityVotes hash))
    (fun _ hash _ => hnil hash) (fun _ hstep hact ih => ?_) i hash hfresh
  obtain ⟨node', heffect, hsame⟩ := act_effect hact
  rw [hsame.votes, hsame.processed]
  exact stored_effect hnil (hown _) hstore (hok hstep) heffect ih

/-! ## Distinct voters -/

/-- If a node adds its own vote to those for an unconfirmed batch only where it
has none, the votes it has stored for such a batch are of distinct voters: their
number, which is compared with the quorum, is the number of the voters. -/
theorem stored_voters_distinct {net : Network ι C} {σ : ι → Node}
    (hrun : Reaches net (VotesOnce net) σ) (i : ι) (hash : Bytes)
    (hfresh : hash ∉ (σ i).core.processedOptimisticBatches) :
    (((σ i).core.velocityVotes hash).map (·.voterAddress)).Nodup ∧
      (((σ i).core.velocityVotes hash).map (·.voterAddress)).toFinset.card =
        ((σ i).core.velocityVotes hash).length := by
  have hdistinct : (((σ i).core.velocityVotes hash).map (·.voterAddress)).Nodup :=
    hrun.stored (P := fun _ votes => (votes.map (·.voterAddress)).Nodup) (fun _ => List.nodup_nil)
      (fun _ _ _ h hnew => nodup_voters_snoc h hnew) (fun _ _ h _ hnew => nodup_voters_snoc h hnew)
      id i hash hfresh
  refine ⟨hdistinct, ?_⟩
  rw [List.toFinset_card_of_nodup hdistinct, List.length_map]

theorem stored_voters_distinct_oneVote :
    ∃ σ, Reaches toyNetwork (VotesOnce toyNetwork) σ ∧
      ∃ batch ∈ (σ false).proposed,
        ((σ true).core.velocityVotes (batch.hash toyCrypto)).length = 1 ∧
        batch.hash toyCrypto ∉ (σ true).core.processedOptimisticBatches ∧
        (((σ true).core.velocityVotes (batch.hash toyCrypto)).map (·.voterAddress)).Nodup := by
  have hplay : ∃ σ, Reaches toyNetwork (VotesOnce toyNetwork) σ ∧
      ∃ batch ∈ (σ false).proposed,
        ((σ true).core.velocityVotes (batch.hash toyCrypto)).length = 1 ∧
        batch.hash toyCrypto ∉ (σ true).core.processedOptimisticBatches :=
    exists_reaches firstBatch (by decide +kernel)
  obtain ⟨σ, hrun, batch, hmem, hone, hfresh⟩ := hplay
  exact ⟨σ, hrun, batch, hmem, hone, hfresh,
    (stored_voters_distinct hrun true (batch.hash toyCrypto) hfresh).1⟩

/-- The two nodes among four validators, of which the third is faulty. -/
def faultyNetwork : Network Bool toyCrypto := { toyNetwork with addressBook := fourValidators }

/-- Every vote that arrives has a valid signature, and every other message has
been broadcast by a node. -/
def VerifiedVotes (net : Network ι C) (σ : ι → Node) (_ : ι) (a : Action) : Prop :=
  ∀ msg ∈ delivers? a,
    match msg with
    | .velocityVoteMsg vote =>
      verifyVoteSignature C net.addressBook vote.voterAddress vote.roundId vote.batchHash
        vote.signature = true
    | msg => ∃ j, msg ∈ (σ j).broadcasts

instance [Fintype ι] (net : Network ι C) (σ : ι → Node) (i : ι) (a : Action) :
    Decidable (VerifiedVotes net σ i a) :=
  match a with
  | .deliver (.velocityVoteMsg vote) _ =>
    decidable_of_iff (verifyVoteSignature C net.addressBook vote.voterAddress vote.roundId
      vote.batchHash vote.signature = true) (by simp [VerifiedVotes, delivers?])
  | .deliver (.intentBatchProposal batch) _ =>
    decidable_of_iff (∃ j, .intentBatchProposal batch ∈ (σ j).broadcasts)
      (by simp [VerifiedVotes, delivers?])
  | .deliver (.newQuorumCertificate qc) _ =>
    decidable_of_iff (∃ j, .newQuorumCertificate qc ∈ (σ j).broadcasts)
      (by simp [VerifiedVotes, delivers?])
  | .submit _ | .tick _ | .advance | .run _ _ | .cancel _ _ =>
    .isTrue (by simp [VerifiedVotes, delivers?])

/-- The vote of the second node for the first batch, which it signed before it was
restarted. -/
def voteBeforeRestart (σ : Bool → Node) : ConsensusMessage :=
  .velocityVoteMsg (signVote toyCrypto (2 : UInt8) (toyAddress 2) 1
    (((σ false).proposed.head?.map (·.hash toyCrypto)).getD []))

/-- The second node receives its earlier vote for the batch of the first, and then
the batch. -/
def restarted : List (Cue Bool) :=
  [.act false (.tick false), .act false .advance, .settle false 10,
    .inject true voteBeforeRestart, .settle true 20, .relay true false 0, .settle true 30]

/-- The second node counts its own vote twice: the two stored votes for the batch,
which is not confirmed, are both its own. -/
theorem stored_voter_repeated :
    ∃ σ, Reaches faultyNetwork (VerifiedVotes faultyNetwork) σ ∧
      ∃ batch ∈ (σ false).proposed,
        batch.hash toyCrypto ∉ (σ true).core.processedOptimisticBatches ∧
        ((σ true).core.velocityVotes (batch.hash toyCrypto)).map (·.voterAddress) =
          [toyAddress 2, toyAddress 2] :=
  exists_reaches restarted (by decide +kernel)

/-! ## Accepted certificates -/

theorem Reaches.ballots {net : Network ι C}
    (hkey : ∀ i, net.addressBook.signingKey? (net.address i) = some (net.publicKey i))
    {ok : (ι → Node) → ι → Action → Prop} (hok : ∀ {σ i a}, ok σ i a → VotesOnce net σ i a)
    {σ : ι → Node} (hrun : Reaches net ok σ) (i : ι) : Ballots C net.addressBook (σ i).core :=
  hrun.stored (fun _ => .nil)
    (fun i batch _ h hnew => h.snoc rfl (verify_ownVote (net.config i) (hkey i) batch) hnew)
    (fun _ _ h hverify hnew => h.snoc rfl hverify hnew) hok i

/-- If the stored votes of a batch name its round when it is confirmed, and a
node adds its own vote to those for an unconfirmed batch only where it has none,
every certificate that a node broadcasts passes the check of its receivers, and
nobody is penalised for it. -/
theorem certificates_accepted {net : Network ι C}
    (hkey : ∀ i, net.addressBook.signingKey? (net.address i) = some (net.publicKey i))
    {σ : ι → Node}
    (hrun : Reaches net (fun σ i a => VotesOnce net σ i a ∧ RoundsMatch net σ i a) σ) (i : ι) :
    ∀ qc ∈ (σ i).certificates, isFullyValid C net.addressBook qc = true ∧
      ∀ j now receiver peer,
        (exec (net.config j) now receiver (.anchorQc qc peer)).1.outbox = receiver.outbox := by
  have hvalid : ∀ qc ∈ (σ i).certificates, isFullyValid C net.addressBook qc = true := by
    refine hrun.nodeInvariant (P := fun _ node => ∀ qc ∈ node.certificates,
      isFullyValid C net.addressBook qc = true) (fun _ _ h => nomatch h)
      (fun hprev hstep hact ih qc hqc => ?_) i
    obtain ⟨node', heffect, hsame⟩ := act_effect hact
    rw [Node.certificates, hsame.broadcasts] at hqc
    rcases certificates_effect heffect qc hqc with hqc | ⟨ready, hconf, rfl⟩
    · exact ih qc hqc
    · have hready := ready_of_confirms? hconf
      exact (hprev.ballots hkey And.left _ ready.1 hready.fresh).accepted
        (hstep.2 ready hconf) hready.quorum
  refine fun qc hqc => ⟨hvalid qc hqc, fun j now receiver peer => ?_⟩
  have haccepted : isFullyValid C (net.config j).addressBook qc = true := hvalid qc hqc
  simp only [exec, haccepted, Bool.not_true, Bool.false_eq_true, if_false]
  split <;> rfl

theorem certificates_accepted_oneLeader :
    ∃ σ, Reaches toyNetwork
        (fun σ i a => VotesOnce toyNetwork σ i a ∧ RoundsMatch toyNetwork σ i a) σ ∧
      (σ false).certificates.length = 1 ∧
      ∀ qc ∈ (σ false).certificates,
        isFullyValid toyCrypto toyNetwork.addressBook qc = true := by
  have hplay : ∃ σ, Reaches toyNetwork
      (fun σ i a => VotesOnce toyNetwork σ i a ∧ RoundsMatch toyNetwork σ i a) σ ∧
        (σ false).certificates.length = 1 :=
    exists_reaches oneLeader (by decide +kernel)
  obtain ⟨σ, hrun, hone⟩ := hplay
  exact ⟨σ, hrun, hone, fun qc hqc =>
    (certificates_accepted toyNetwork_registered.key hrun false qc hqc).1⟩

/-! ## A vote for another round -/

/-- A vote that the faulty validator has signed, for whatever round. -/
def isFaultyVote : ConsensusMessage → Bool
  | .velocityVoteMsg vote =>
    vote = signVote toyCrypto (3 : UInt8) (toyAddress 3) vote.roundId vote.batchHash
  | _ => false

/-- Every message that arrives has been broadcast by a node or is such a vote. -/
def FaultyVotes (σ : Bool → Node) (_ : Bool) (a : Action) : Prop :=
  ∀ msg ∈ delivers? a, (∃ j, msg ∈ (σ j).broadcasts) ∨ isFaultyVote msg = true

instance (σ : Bool → Node) (i : Bool) (a : Action) : Decidable (FaultyVotes σ i a) :=
  inferInstanceAs (Decidable
    (∀ msg ∈ delivers? a, (∃ j, msg ∈ (σ j).broadcasts) ∨ isFaultyVote msg = true))

/-- The vote of the faulty validator for the first batch of the first node, but
for round 7. -/
def voteForOtherRound (σ : Bool → Node) : ConsensusMessage :=
  .velocityVoteMsg (signVote toyCrypto (3 : UInt8) (toyAddress 3) 7
    (((σ false).proposed.head?.map (·.hash toyCrypto)).getD []))

/-- The batch of the first node gets the votes of both nodes and then that of the
faulty validator. -/
def otherRound : List (Cue Bool) :=
  firstBatch ++ [.inject false voteForOtherRound, .settle false 40]

/-- The certificate does not pass the check, and the other node penalises the peer
it comes from. -/
theorem certificate_rejected :
    ∃ σ, Reaches faultyNetwork FaultyVotes σ ∧
      ∃ qc ∈ (σ false).certificates,
        isFullyValid toyCrypto faultyNetwork.addressBook qc = false ∧
          (exec (faultyNetwork.config true) 50 (σ true) (.anchorQc qc 0)).1.outbox =
            (σ true).outbox ++ [.applyPenalty 0 (-50)] :=
  exists_reaches otherRound (by decide +kernel)

end EviceChain.Sequencer
