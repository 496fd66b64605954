import EviceChain.Sequencer.Data
import EviceChain.Sequencer.Script

/-!
# The content of confirmed batches

A batch is stored, voted for and confirmed under the hash of its header. The
header names the root of the payloads, which no handler compares with them, and
neither the round nor the justifying certificate is part of it. So anyone who has
seen a header can send it around other payloads, and nodes that receive different
copies confirm different batches under one hash (`contents_differ`).

If all copies that arrive under one hash have one content, and their payloads are
those of the header, confirmed batches of one hash have one content
(`contents_agree`).
-/

namespace EviceChain.Sequencer

variable {ι : Type} {C : Crypto}

/-- What a batch has besides its header. -/
structure Content where
  payloads : List AppPayload
  justify : QuorumCertificate
  round : UInt64
deriving DecidableEq

def PayloadBatch.content (batch : PayloadBatch) : Content :=
  ⟨batch.payloads, batch.justify, batch.round⟩

/-- The payloads are those that the header names. -/
def PayloadBatch.RootMatches (C : Crypto) (batch : PayloadBatch) : Prop :=
  calculatePayloadsRoot C batch.payloads = batch.header.payloadsRoot

/-- The batch has the content of its hash, and the payloads of its header. -/
def PayloadBatch.Genuine (C : Crypto) (content : Bytes → Content) (batch : PayloadBatch) : Prop :=
  batch.content = content (batch.hash C) ∧ batch.RootMatches C

/-- The proposal that arrives. -/
def receives? : Action → Option PayloadBatch
  | .deliver (.intentBatchProposal batch) _ => some batch
  | _ => none

/-- Every proposal that arrives is genuine, and `content` is right about the
batches that are built. -/
structure Authentic (content : Bytes → Content) (net : Network ι C) (σ : ι → Node) (i : ι)
    (a : Action) : Prop where
  received : ∀ batch ∈ receives? a, batch.Genuine C content
  built : ∀ batch ∈ builds? (net.config i) (σ i) a, batch.content = content (batch.hash C)

instance (content : Bytes → Content) (batch : PayloadBatch) :
    Decidable (batch.Genuine C content) :=
  inferInstanceAs (Decidable (batch.content = content (batch.hash C) ∧
    calculatePayloadsRoot C batch.payloads = batch.header.payloadsRoot))

instance (content : Bytes → Content) (net : Network ι C) (σ : ι → Node) (i : ι) (a : Action) :
    Decidable (Authentic content net σ i a) :=
  decidable_of_iff ((∀ batch ∈ receives? a, batch.Genuine C content) ∧
      ∀ batch ∈ builds? (net.config i) (σ i) a, batch.content = content (batch.hash C))
    ⟨fun h => ⟨h.1, h.2⟩, fun h => ⟨h.received, h.built⟩⟩

namespace ContentLemmas

theorem rootMatches_of_builds? {cfg : Config C} {node : Node} {a : Action}
    {batch : PayloadBatch} (h : batch ∈ builds? cfg node a) : batch.RootMatches C := by
  obtain ⟨round, parentQc, payloads, now, rfl⟩ := NetworkLemmas.newBatch_of_builds? h
  rfl

theorem receives?_of_delivers? {a : Action} {batch : PayloadBatch}
    (h : .intentBatchProposal batch ∈ delivers? a) : batch ∈ receives? a := by
  cases a with
  | deliver msg peer =>
    cases h
    rfl
  | _ => cases h

theorem actionOk_of_authentic {content : Bytes → Content} {net : Network ι C} {σ : ι → Node}
    {i : ι} {a : Action} (h : Authentic content net σ i a) :
    ActionOk (net.config i) (·.Genuine C content) (fun _ => True) (σ i) a where
  deliver msg hmsg := by
    cases msg with
    | intentBatchProposal batch => exact h.received batch (receives?_of_delivers? hmsg)
    | _ => trivial
  build batch hbuilds := ⟨h.built batch hbuilds, rootMatches_of_builds? hbuilds⟩
  vote _ _ _ := trivial

end ContentLemmas

open ContentLemmas

variable [DecidableEq ι]

theorem Reaches.genuine {content : Bytes → Content} {net : Network ι C} {σ : ι → Node}
    (hrun : Reaches net (Authentic content net) σ) (i : ι) :
    DataOk C (·.Genuine C content) (fun _ => True) (σ i) :=
  hrun.nodeInvariant (P := fun _ node => DataOk C (·.Genuine C content) (fun _ => True) node)
    (fun _ => .new _) (fun _ hstep hact ih => ih.act (actionOk_of_authentic hstep) hact) i

/-- Confirmed batches with one hash, at whatever nodes, have one content, and the
payloads that the header names. -/
theorem contents_agree {content : Bytes → Content} {net : Network ι C} {σ : ι → Node}
    (hrun : Reaches net (Authentic content net) σ) {i j : ι} {batch batch' : PayloadBatch}
    (hi : batch ∈ (σ i).history) (hj : batch' ∈ (σ j).history)
    (hhash : batch.hash C = batch'.hash C) :
    batch.payloads = batch'.payloads ∧ batch.round = batch'.round ∧
      batch.justify = batch'.justify ∧ batch.RootMatches C ∧ batch'.RootMatches C := by
  obtain ⟨hcontent, hroot⟩ := (hrun.genuine i).history batch hi
  obtain ⟨hcontent', hroot'⟩ := (hrun.genuine j).history batch' hj
  have heq : batch.content = batch'.content := by rw [hcontent, hcontent', hhash]
  exact ⟨congrArg Content.payloads heq, congrArg Content.round heq,
    congrArg Content.justify heq, hroot, hroot'⟩

theorem contents_agree_oneLeader :
    ∃ σ, Reaches toyNetwork (Authentic (fun _ => ⟨[[5]], genesisQc, 1⟩) toyNetwork) σ ∧
      ∃ batch ∈ (σ false).history, ∃ batch' ∈ (σ true).history,
        batch.hash toyCrypto = batch'.hash toyCrypto ∧ batch.payloads = batch'.payloads ∧
          batch.round = batch'.round ∧ batch.justify = batch'.justify ∧
          batch.RootMatches toyCrypto := by
  have hplay : ∃ σ, Reaches toyNetwork (Authentic (fun _ => ⟨[[5]], genesisQc, 1⟩) toyNetwork) σ ∧
      ∃ batch ∈ (σ false).history, ∃ batch' ∈ (σ true).history,
        batch.hash toyCrypto = batch'.hash toyCrypto :=
    exists_reaches (.act false (.submit [5]) :: oneLeader) (by decide +kernel)
  obtain ⟨σ, hrun, batch, hi, batch', hj, hhash⟩ := hplay
  obtain ⟨hpayloads, hround, hjustify, hroot, -⟩ := contents_agree hrun hi hj hhash
  exact ⟨σ, hrun, batch, hi, batch', hj, hhash, hpayloads, hround, hjustify, hroot⟩

/-! ## A header around other payloads -/

/-- Every message that arrives comes from a node, or is a proposal with a header
that a node has broadcast. -/
def Repacked (σ : Bool → Node) (_ : Bool) (a : Action) : Prop :=
  ∀ msg ∈ delivers? a, ∃ j, (σ j).handsOut toyCrypto msg = true ∨
    ∃ batch ∈ receives? a, ∃ original ∈ (σ j).proposed,
      .intentBatchProposal original ∈ (σ j).broadcasts ∧ batch.header = original.header

instance (σ : Bool → Node) (i : Bool) (a : Action) : Decidable (Repacked σ i a) :=
  inferInstanceAs (Decidable (∀ msg ∈ delivers? a, ∃ j, (σ j).handsOut toyCrypto msg = true ∨
    ∃ batch ∈ receives? a, ∃ original ∈ (σ j).proposed,
      .intentBatchProposal original ∈ (σ j).broadcasts ∧ batch.header = original.header))

/-- The first batch of the first node with another content. -/
def repack (σ : Bool → Node) : ConsensusMessage :=
  match (σ false).proposed.head? with
  | some batch =>
    .intentBatchProposal ⟨batch.header, [[7]], { genesisQc with viewNumber := 3 }, 5⟩
  | none => .newQuorumCertificate genesisQc

/-- The second node gets the repacked batch first. The votes of both are for the
hash. -/
def repackedFirst : List (Cue Bool) :=
  [.act false (.submit [5]), .act false (.tick false), .act false .advance, .settle false 10,
    .inject true repack, .settle true 20, .relay false true 0, .settle false 30,
    .relay false false 0, .settle false 40, .relay true false 2, .settle true 50]

/-- Two honest nodes confirm different batches under one hash, one of them with
payloads that the header does not name. -/
theorem contents_differ :
    ∃ σ, Reaches toyNetwork Repacked σ ∧
      ∃ batch ∈ (σ false).history, ∃ batch' ∈ (σ true).history,
        batch.hash toyCrypto = batch'.hash toyCrypto ∧ batch.payloads ≠ batch'.payloads ∧
          batch.round ≠ batch'.round ∧ batch.justify ≠ batch'.justify ∧
          calculatePayloadsRoot toyCrypto batch'.payloads ≠ batch'.header.payloadsRoot :=
  exists_reaches repackedFirst (by decide +kernel)

end EviceChain.Sequencer
