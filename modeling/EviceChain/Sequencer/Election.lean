import EviceChain.Sequencer.Confirmed

/-!
# The election of the proposer

The seed of the election is the VRF output of the batch that the highest
certificate is for, if the node still has that batch among its confirmed ones, and
the hash of the batch otherwise. A node that counted the quorum itself has the
batch; a node that only received the certificate has not, and elects with another
seed. So nodes with the same certificate at the same round and step can each take
themselves for the leader (`leaders_differ`).

Two nodes agree exactly if both have the batch or neither has it
(`leaders_agree_iff`).
-/

namespace EviceChain.Sequencer

variable {C : Crypto}

/-- The proposer of the current round and step, as `handle_round_step` determines
it. -/
def electedProposer (cfg : Config C) (core : CoreConsensusState) : Option Address :=
  (determineSubCommittee cfg core.currentRound (electionSeed C core))[core.currentStep.toNat]?

/-- The batch is the one that the highest certificate is for, and the node has it
among its confirmed ones. -/
structure Certified (C : Crypto) (core : CoreConsensusState) (batch : PayloadBatch) : Prop where
  mem : batch ∈ core.optimisticallyConfirmedBatches
  hash : batch.hash C = core.highestSeenQc.batchHash

/-- Both nodes have the certified batch, with one VRF output, or neither has it.
That only one has it does no harm if the VRF output happens to be the hash. -/
structure SameAnchor (C : Crypto) (core core' : CoreConsensusState) : Prop where
  both : ∀ batch batch', Certified C core batch → Certified C core' batch' →
    batch.header.vrfOutput = batch'.header.vrfOutput
  onlyLeft : (∀ batch', ¬ Certified C core' batch') → ∀ batch, Certified C core batch →
    batch.header.vrfOutput = core.highestSeenQc.batchHash
  onlyRight : (∀ batch, ¬ Certified C core batch) → ∀ batch', Certified C core' batch' →
    batch'.header.vrfOutput = core'.highestSeenQc.batchHash

namespace ElectionLemmas

open TypesLemmas

theorem electionSeed_of_not_certified {core : CoreConsensusState}
    (h : ∀ batch, ¬ Certified C core batch) :
    electionSeed C core = core.highestSeenQc.batchHash := by
  have hnone : core.optimisticallyConfirmedBatches.reverse.find?
      (·.hash C = core.highestSeenQc.batchHash) = none := by
    refine List.find?_eq_none.mpr fun batch hmem hhash => ?_
    exact h batch ⟨List.mem_reverse.mp hmem, of_decide_eq_true hhash⟩
  rw [electionSeed, hnone]

/-- A node has at most one batch of a hash, so it does not matter where the search
begins. -/
theorem electionSeed_of_certified {node : Node} (honce : PushedOnce C node) {batch : PayloadBatch}
    (h : Certified C node.core batch) : electionSeed C node.core = batch.header.vrfOutput := by
  have hdistinct : (node.core.optimisticallyConfirmedBatches.reverse.map (·.hash C)).Nodup := by
    rw [List.map_reverse, List.nodup_reverse]
    exact honce.distinct.sublist (honce.suffix.sublist.map _)
  rw [electionSeed, ← h.hash, find?_of_nodup_map hdistinct (List.mem_reverse.mpr h.mem)]

theorem electionSeed_eq_iff {node node' : Node} (honce : PushedOnce C node)
    (honce' : PushedOnce C node')
    (hqc : node.core.highestSeenQc.batchHash = node'.core.highestSeenQc.batchHash) :
    electionSeed C node.core = electionSeed C node'.core ↔ SameAnchor C node.core node'.core := by
  constructor
  · intro hseed
    refine ⟨fun batch batch' h h' => ?_, fun hnone batch h => ?_, fun hnone batch' h' => ?_⟩
    · rw [← electionSeed_of_certified honce h, hseed, electionSeed_of_certified honce' h']
    · rw [← electionSeed_of_certified honce h, hseed, electionSeed_of_not_certified hnone, hqc]
    · rw [← electionSeed_of_certified honce' h', ← hseed, electionSeed_of_not_certified hnone, hqc]
  · intro hanchor
    by_cases h : ∃ batch, Certified C node.core batch <;>
      by_cases h' : ∃ batch', Certified C node'.core batch'
    · obtain ⟨batch, h⟩ := h
      obtain ⟨batch', h'⟩ := h'
      rw [electionSeed_of_certified honce h, electionSeed_of_certified honce' h']
      exact hanchor.both batch batch' h h'
    · obtain ⟨batch, h⟩ := h
      have hnone := not_exists.mp h'
      rw [electionSeed_of_certified honce h, electionSeed_of_not_certified hnone, ← hqc]
      exact hanchor.onlyLeft hnone batch h
    · obtain ⟨batch', h'⟩ := h'
      have hnone := not_exists.mp h
      rw [electionSeed_of_not_certified hnone, electionSeed_of_certified honce' h', hqc]
      exact (hanchor.onlyRight hnone batch' h').symm
    · rw [electionSeed_of_not_certified (not_exists.mp h),
        electionSeed_of_not_certified (not_exists.mp h'), hqc]

end ElectionLemmas

/-- `toyCrypto` with a shuffle that looks at the seed. -/
def turningCrypto : Crypto :=
  { toyCrypto with
    shuffle := fun seed addresses => if seed.headD 0 < 128 then addresses else addresses.reverse
    shuffle_perm := fun seed addresses => by
      split
      · exact .refl _
      · exact addresses.reverse_perm }

def turningNetwork : Network Bool turningCrypto where
  addressBook := toyNetwork.addressBook
  subCommitteeSize := 2
  address b := if b then toyAddress 2 else toyAddress 1
  signingKeys b := if b then (2 : UInt8) else (1 : UInt8)
  vrfKeys b := if b then (2 : UInt8) else (1 : UInt8)

open ElectionLemmas

variable {ι κ : Type} [DecidableEq ι] [DecidableEq κ]

/-- Two nodes in any two runs, with the same address book, committee size, highest
certificate, round and step, have the same seed, and with it the same
sub-committee and proposer, exactly if they have the same anchor. -/
theorem leaders_agree_iff {net : Network ι C} {net' : Network κ C}
    (hbook : net.addressBook = net'.addressBook)
    (hsize : net.subCommitteeSize = net'.subCommitteeSize)
    {ok : (ι → Node) → ι → Action → Prop} {ok' : (κ → Node) → κ → Action → Prop}
    {σ : ι → Node} {τ : κ → Node} (hrun : Reaches net ok σ) (hrun' : Reaches net' ok' τ)
    (i : ι) (j : κ) (hqc : (σ i).core.highestSeenQc = (τ j).core.highestSeenQc)
    (hround : (σ i).core.currentRound = (τ j).core.currentRound)
    (hstep : (σ i).core.currentStep = (τ j).core.currentStep) :
    (electionSeed C (σ i).core = electionSeed C (τ j).core ∧
      determineSubCommittee (net.config i) (σ i).core.currentRound (electionSeed C (σ i).core) =
        determineSubCommittee (net'.config j) (τ j).core.currentRound
          (electionSeed C (τ j).core) ∧
      electedProposer (net.config i) (σ i).core = electedProposer (net'.config j) (τ j).core) ↔
      SameAnchor C (σ i).core (τ j).core := by
  rw [← electionSeed_eq_iff (pushedOnce_of_run (hrun.nodeRun i))
    (pushedOnce_of_run (hrun'.nodeRun j)) (congrArg QuorumCertificate.batchHash hqc)]
  refine ⟨And.left, fun hseed => ?_⟩
  have hcommittee : determineSubCommittee (net.config i) (σ i).core.currentRound
      (electionSeed C (σ i).core) =
        determineSubCommittee (net'.config j) (τ j).core.currentRound
          (electionSeed C (τ j).core) := by
    rw [hseed, hround]
    simp only [determineSubCommittee, Network.config, hbook, hsize]
  exact ⟨hseed, hcommittee, by rw [electedProposer, electedProposer, hcommittee, hstep]⟩

/-- The other node has the certificate of the leader and then the votes as well, as the
leader meets its own batch again and votes for it once more. Both go on to round 2. -/
def bothConfirm : List (Cue Bool) :=
  firstBatch ++ [.relay true false 1, .settle true 40, .relay false false 0, .settle false 50,
    .relay true false 2, .settle true 60,
    .act false (.tick false), .act false .advance, .act true (.tick false), .act true .advance]

/-- Both nodes are in round 2 and have confirmed the batch of the certificate. -/
theorem leaders_agree_iff_confirmed :
    ∃ σ, Reaches turningNetwork (Relayed turningCrypto) σ ∧
      (σ false).core.currentRound = 2 ∧
      (∃ batch, Certified turningCrypto (σ false).core batch ∧
        Certified turningCrypto (σ true).core batch) ∧
      electedProposer (turningNetwork.config false) (σ false).core =
        electedProposer (turningNetwork.config true) (σ true).core := by
  have hplay : ∃ σ, Reaches turningNetwork (Relayed turningCrypto) σ ∧
      (σ false).core.currentRound = 2 ∧
      (σ false).core.highestSeenQc = (σ true).core.highestSeenQc ∧
      (σ false).core.currentRound = (σ true).core.currentRound ∧
      (σ false).core.currentStep = (σ true).core.currentStep ∧
      ∃ batch ∈ (σ false).proposed,
        batch.hash turningCrypto = (σ false).core.highestSeenQc.batchHash ∧
        (σ false).core.optimisticallyConfirmedBatches = [batch] ∧
        (σ true).core.optimisticallyConfirmedBatches = [batch] :=
    exists_reaches bothConfirm (by decide +kernel)
  obtain ⟨σ, hrun, htwo, hqc, hround, hstep, batch, -, hhash, hleft, hright⟩ := hplay
  have hcertified : Certified turningCrypto (σ false).core batch :=
    ⟨hleft ▸ List.mem_singleton_self _, hhash⟩
  have hcertified' : Certified turningCrypto (σ true).core batch :=
    ⟨hright ▸ List.mem_singleton_self _, hqc ▸ hhash⟩
  have hanchor : SameAnchor turningCrypto (σ false).core (σ true).core := by
    refine ⟨fun one other h h' => ?_, fun hnone => (hnone batch hcertified').elim,
      fun hnone => (hnone batch hcertified).elim⟩
    have hone := h.mem
    have hother := h'.mem
    rw [hleft, List.mem_singleton] at hone
    rw [hright, List.mem_singleton] at hother
    rw [hone, hother]
  exact ⟨σ, hrun, htwo, ⟨batch, hcertified, hcertified'⟩,
    ((leaders_agree_iff rfl rfl hrun hrun false true hqc hround hstep).mpr hanchor).2.2⟩

/-! ## Two leaders of one step -/

/-- The first node confirms its batch, the other one receives the certificate, and
both go on to round 2. -/
def certificateOnly : List (Cue Bool) :=
  firstBatch ++ [.relay true false 1, .settle true 40,
    .act false (.tick false), .act false .advance, .act true (.tick false), .act true .advance]

/-- Every message has been broadcast by one of the two nodes. They have the same
certificate, round and step, and each of them is the proposer in its own eyes. -/
theorem leaders_differ :
    ∃ σ, Reaches turningNetwork (Relayed turningCrypto) σ ∧
      (σ false).core.highestSeenQc = (σ true).core.highestSeenQc ∧
      (σ false).core.currentRound = (σ true).core.currentRound ∧
      (σ false).core.currentStep = (σ true).core.currentStep ∧
      electionSeed turningCrypto (σ false).core ≠ electionSeed turningCrypto (σ true).core ∧
      electedProposer (turningNetwork.config false) (σ false).core =
        some (turningNetwork.address false) ∧
      electedProposer (turningNetwork.config true) (σ true).core =
        some (turningNetwork.address true) :=
  exists_reaches certificateOnly (by decide +kernel)

end EviceChain.Sequencer
