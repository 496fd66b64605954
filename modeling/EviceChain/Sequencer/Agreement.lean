import EviceChain.Sequencer.QuorumCert
import EviceChain.Sequencer.Script

/-!
# Agreement per view

Two accepted certificates for one view share an honest voter. Whether they agree
on the batch depends on what that voter remembers: `handle_batch_proposal` votes
for every proposal with a valid signature, whatever the node has voted for
before. A round has several leaders, one per step, so two batches of one round
can both be certified without any fault (`views_disagree`).

If the nodes never vote for two batches of one round, accepted certificates of
one view are for one batch (`views_agree`).
-/

namespace EviceChain.Sequencer

open TypesLemmas QuorumCertLemmas NetworkLemmas

variable {ι : Type} [DecidableEq ι] {C : Crypto}

/-! ## What a node signs -/

/-- Everything that a node has signed: its votes and its headers. -/
def signedMessages (net : Network ι C) (i : ι) (node : Node) : List Bytes :=
  node.voted.map (fun batch => voteBytes batch.round (batch.hash C) (net.publicKey i)) ++
    node.proposed.map (·.header.canonicalBytesForSigning)

/-- No signature of the certificate is forged: where one verifies under the key
of a node, the node has signed. -/
def Unforged (net : Network ι C) (σ : ι → Node) (qc : QuorumCertificate) : Prop :=
  ∀ i, ∀ entry ∈ qc.signatures, entry.1 = net.address i →
    C.verify (net.publicKey i) (voteBytes qc.viewNumber qc.batchHash (net.publicKey i)) entry.2 →
    voteBytes qc.viewNumber qc.batchHash (net.publicKey i) ∈ signedMessages net i (σ i)

instance [Fintype ι] (net : Network ι C) (σ : ι → Node) (qc : QuorumCertificate) :
    Decidable (Unforged net σ qc) :=
  inferInstanceAs (Decidable (∀ i, ∀ entry ∈ qc.signatures, entry.1 = net.address i →
    C.verify (net.publicKey i) (voteBytes qc.viewNumber qc.batchHash (net.publicKey i)) entry.2 →
    voteBytes qc.viewNumber qc.batchHash (net.publicKey i) ∈ signedMessages net i (σ i)))

/-- A node that votes has voted for no other batch with the same `key`. -/
def OneVotePer {κ : Type} (C : Crypto) (key : PayloadBatch → κ) (σ : ι → Node) (i : ι)
    (a : Action) : Prop :=
  ∀ batch ∈ votes? (σ i) a, ∀ earlier ∈ (σ i).voted,
    key earlier = key batch → earlier.hash C = batch.hash C

instance {κ : Type} [DecidableEq κ] (key : PayloadBatch → κ) (σ : ι → Node) (i : ι) (a : Action) :
    Decidable (OneVotePer C key σ i a) :=
  inferInstanceAs (Decidable (∀ batch ∈ votes? (σ i) a, ∀ earlier ∈ (σ i).voted,
    key earlier = key batch → earlier.hash C = batch.hash C))

namespace AgreementLemmas

theorem length_voteBytes (roundId : UInt64) (hash key : Bytes) :
    (voteBytes roundId hash key).length = 8 + hash.length + key.length := by
  simp only [voteBytes, List.length_append, length_beBytes]

theorem length_header_newBatch (cfg : Config C) (core : CoreConsensusState) (round : UInt64)
    (parentQc : QuorumCertificate) (payloads : List AppPayload) (now : UInt64) :
    (newBatch cfg core round parentQc payloads
      now).header.canonicalBytesForSigning.length = 196 := by
  have hprev : ∀ batch : PayloadBatch, (batch.hash C).length = 32 := fun _ => C.sha256_length _
  have hroot : (calculatePayloadsRoot C payloads).length = 32 := C.sha256_length _
  simp only [newBatch, BatchHeader.canonicalBytesForSigning, List.length_append, length_beBytes,
    hroot, (C.vrfSign_length _ _).1, (C.vrfSign_length _ _).2, cfg.myAddress.2]
  split <;> simp [hprev]

theorem length_header_of_proposed {net : Network ι C} {ok : (ι → Node) → ι → Action → Prop}
    {σ : ι → Node} (hrun : Reaches net ok σ) (i : ι) :
    ∀ batch ∈ (σ i).proposed, batch.header.canonicalBytesForSigning.length = 196 := by
  intro batch hmem
  obtain ⟨core, round, parentQc, payloads, now, rfl⟩ := hrun.built i batch hmem
  exact length_header_newBatch ..

/-- A signature over the bytes of a vote was made as one: headers are too short. -/
theorem voted_of_signed {net : Network ι C} {ok : (ι → Node) → ι → Action → Prop}
    {σ : ι → Node} (hrun : Reaches net ok σ) {i : ι} {roundId : UInt64} {hash : Bytes}
    (h : voteBytes roundId hash (net.publicKey i) ∈ signedMessages net i (σ i)) :
    ∃ batch ∈ (σ i).voted, batch.round = roundId ∧ batch.hash C = hash := by
  rcases List.mem_append.mp h with h | h
  · obtain ⟨batch, hmem, hbytes⟩ := List.mem_map.mp h
    exact ⟨batch, hmem, voteBytes_inj hbytes⟩
  · obtain ⟨batch, hmem, hbytes⟩ := List.mem_map.mp h
    have hlen := length_header_of_proposed hrun i batch hmem
    rw [hbytes, length_voteBytes, Network.publicKey, C.publicKeyBytes_length, publicKeySize] at hlen
    omega

theorem voted_of_signedBy {net : Network ι C} (hreg : net.Registered)
    {ok : (ι → Node) → ι → Action → Prop} {σ : ι → Node} (hrun : Reaches net ok σ)
    {qc : QuorumCertificate} (hqc : Unforged net σ qc) {i : ι}
    (h : signedBy C net.addressBook qc (net.address i) = true) :
    ∃ batch ∈ (σ i).voted, batch.round = qc.viewNumber ∧ batch.hash C = qc.batchHash := by
  obtain ⟨entry, hmem, hvalid⟩ := List.any_eq_true.mp h
  obtain ⟨haddress, hverify⟩ := Bool.and_eq_true_iff.mp hvalid
  unfold verifyVoteSignature at hverify
  rw [hreg.key] at hverify
  exact voted_of_signed hrun (hqc i entry hmem (of_decide_eq_true haddress) hverify)

end AgreementLemmas

open AgreementLemmas

theorem Reaches.voted_eq {κ : Type} {key : PayloadBatch → κ} {net : Network ι C}
    {ok : (ι → Node) → ι → Action → Prop} (hok : ∀ {σ i a}, ok σ i a → OneVotePer C key σ i a)
    {σ : ι → Node} (hrun : Reaches net ok σ) (i : ι) :
    ∀ batch ∈ (σ i).voted, ∀ batch' ∈ (σ i).voted, key batch = key batch' →
      batch.hash C = batch'.hash C := by
  refine hrun.nodeInvariant (P := fun _ node => ∀ batch ∈ node.voted, ∀ batch' ∈ node.voted,
    key batch = key batch' → batch.hash C = batch'.hash C)
    (fun i batch h => nomatch h) (fun _ hstep hact ih => ?_) i
  rcases act_voted hact with hsame | ⟨new, hvotes, hnew⟩
  · rw [hsame]
    exact ih
  · have hone := hok hstep new hvotes
    rw [hnew]
    intro batch hbatch batch' hbatch' hkey
    -- at most one of the two is the new vote
    rcases List.mem_append.mp hbatch with hbatch | hbatch <;>
      rcases List.mem_append.mp hbatch' with hbatch' | hbatch'
    · exact ih batch hbatch batch' hbatch' hkey
    · rw [List.mem_singleton.mp hbatch'] at hkey ⊢
      exact hone batch hbatch hkey
    · rw [List.mem_singleton.mp hbatch] at hkey ⊢
      exact (hone batch' hbatch' hkey.symm).symm
    · rw [List.mem_singleton.mp hbatch, List.mem_singleton.mp hbatch']

/-- If no node votes for two batches of one round, and at most a third of the
validators does not run a node, accepted certificates of one view are for one
batch, whatever messages are delivered. -/
theorem views_agree {net : Network ι C} (hreg : net.Registered) (byzantine : Finset Address)
    (hbyzantine : byzantine.card ≤ (net.addressBook.size - 1) / 3)
    (hothers : ∀ a ∈ net.addressBook.addresses, a ∈ byzantine ∨ ∃ i, net.address i = a)
    {σ : ι → Node} (hrun : Reaches net (OneVotePer C PayloadBatch.round) σ)
    {qc qc' : QuorumCertificate} (hqc : Unforged net σ qc) (hqc' : Unforged net σ qc')
    (hvalid : isFullyValid C net.addressBook qc = true)
    (hvalid' : isFullyValid C net.addressBook qc' = true)
    (hview : qc.viewNumber = qc'.viewNumber) : qc.batchHash = qc'.batchHash := by
  obtain ⟨a, hbook, hhonest, hsigned, hsigned'⟩ :=
    (quorumOf_signedBy hvalid).both (quorumOf_signedBy hvalid') hbyzantine
  obtain ⟨i, rfl⟩ := (hothers a hbook).resolve_left hhonest
  obtain ⟨batch, hvoted, hround, hhash⟩ := voted_of_signedBy hreg hrun hqc hsigned
  obtain ⟨batch', hvoted', hround', hhash'⟩ := voted_of_signedBy hreg hrun hqc' hsigned'
  rw [← hhash, ← hhash']
  exact hrun.voted_eq id i batch hvoted batch' hvoted' (by rw [hround, hround', hview])

theorem views_agree_oneLeader :
    ∃ σ, Reaches toyNetwork (OneVotePer toyCrypto PayloadBatch.round) σ ∧
      ∃ qc ∈ (σ false).certificates, ∃ qc' ∈ (σ true).certificates,
        qc ≠ qc' ∧ qc.viewNumber = qc'.viewNumber ∧ qc.batchHash = qc'.batchHash := by
  have hplay : ∃ σ, Reaches toyNetwork (OneVotePer toyCrypto PayloadBatch.round) σ ∧
      ∃ qc ∈ (σ false).certificates, ∃ qc' ∈ (σ true).certificates,
        qc ≠ qc' ∧ qc.viewNumber = qc'.viewNumber ∧
          (Unforged toyNetwork σ qc ∧ Unforged toyNetwork σ qc') ∧
          isFullyValid toyCrypto toyNetwork.addressBook qc = true ∧
          isFullyValid toyCrypto toyNetwork.addressBook qc' = true :=
    exists_reaches oneLeader (by decide +kernel)
  obtain ⟨σ, hrun, qc, hqc, qc', hqc', hne, hview, ⟨hunforged, hunforged'⟩, hvalid, hvalid'⟩ :=
    hplay
  exact ⟨σ, hrun, qc, hqc, qc', hqc', hne, hview,
    views_agree toyNetwork_registered ∅ (by decide)
      (fun a ha => .inr (toyNetwork_honest a ha)) hrun hunforged hunforged' hvalid hvalid' hview⟩

/-! ## Two leaders of one round -/

/-- The first node leads step 0 of round 1. The second does not see its batch in
time and leads step 1. Then each receives and votes for the batch of the other. -/
def twoLeaders : List (Cue Bool) :=
  [.act false (.tick false), .act false .advance, .settle false 10,
    .act true (.tick false), .act true .advance, .settle true 20,
    .act true (.tick true), .act true .advance, .settle true 30,
    .relay true false 0, .settle true 40, .relay false true 1, .settle false 50,
    .relay false true 0, .settle false 60, .relay true false 2, .settle true 70]

/-- Without a fault, two batches of one round are certified. -/
theorem views_disagree :
    ∃ σ, Reaches toyNetwork (Relayed toyCrypto) σ ∧
      ∃ qc ∈ (σ false).certificates, ∃ qc' ∈ (σ true).certificates,
        Unforged toyNetwork σ qc ∧ Unforged toyNetwork σ qc' ∧
          isFullyValid toyCrypto toyNetwork.addressBook qc = true ∧
          isFullyValid toyCrypto toyNetwork.addressBook qc' = true ∧
          qc.viewNumber = qc'.viewNumber ∧ qc.batchHash ≠ qc'.batchHash :=
  exists_reaches twoLeaders (by decide +kernel)

end EviceChain.Sequencer
