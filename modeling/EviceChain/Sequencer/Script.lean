import EviceChain.Foundation.Loop
import EviceChain.Sequencer.Network

/-!
# Scripted runs

A run given by cues: let a node act, hand it a message, let its tasks run to
their end. `perform` plays a script and gives up at a step that does not satisfy
`ok`, so what it plays is a run of such steps (`perform_reaches`).
-/

namespace EviceChain.Sequencer

variable {ι : Type} [DecidableEq ι] {C : Crypto}

inductive Cue (ι : Type)
  /-- A node acts. -/
  | act (i : ι) (a : Action)
  /-- Node `i` receives the `k`-th message that node `j` has broadcast. -/
  | relay (i j : ι) (k : Nat)
  /-- Node `i` receives a message made up from the state of the network. -/
  | inject (i : ι) (msg : (ι → Node) → ConsensusMessage)
  /-- The tasks of a node run to their end, one after the other. -/
  | settle (i : ι) (now : UInt64)

section Perform

variable (net : Network ι C) (ok : (ι → Node) → ι → Action → Prop)
  [∀ σ i a, Decidable (ok σ i a)]

def attempt (σ : ι → Node) (i : ι) (a : Action) : Option (ι → Node) :=
  if ok σ i a then (act (net.config i) (σ i) a).map (Function.update σ i) else none

/-- Runs the first task of a node until there is none left. -/
def settle (i : ι) (now : UInt64) : Nat → (ι → Node) → Option (ι → Node)
  | 0, _ => none
  | fuel + 1, σ =>
    if (σ i).tasks.isEmpty then some σ
    else (attempt net ok σ i (.run 0 now)).bind (settle i now fuel)

def performCue (σ : ι → Node) : Cue ι → Option (ι → Node)
  | .act i a => attempt net ok σ i a
  | .relay i j k => (σ j).broadcasts[k]?.bind fun msg => attempt net ok σ i (.deliver msg 0)
  | .inject i msg => attempt net ok σ i (.deliver (msg σ) 0)
  | .settle i now => settle net ok i now 100 σ

def perform (σ : ι → Node) (cues : List (Cue ι)) : Option (ι → Node) :=
  cues.foldlM (performCue net ok) σ

end Perform

namespace ScriptLemmas

variable {net : Network ι C} {ok : (ι → Node) → ι → Action → Prop}
  [∀ σ i a, Decidable (ok σ i a)] {σ σ' : ι → Node}

theorem reaches_attempt (h : Reaches net ok σ) {i : ι} {a : Action}
    (hact : attempt net ok σ i a = some σ') : Reaches net ok σ' := by
  unfold attempt at hact
  split at hact
  · next hok =>
    obtain ⟨node, hnode, rfl⟩ := Option.map_eq_some_iff.mp hact
    exact h.step hok hnode
  · cases hact

theorem reaches_settle {i : ι} {now : UInt64} {fuel : Nat} (h : Reaches net ok σ)
    (hsettle : settle net ok i now fuel σ = some σ') : Reaches net ok σ' := by
  induction fuel generalizing σ with
  | zero => cases hsettle
  | succ fuel ih =>
    rw [settle] at hsettle
    split at hsettle
    · cases hsettle
      exact h
    · obtain ⟨τ, hact, hrest⟩ := Option.bind_eq_some_iff.mp hsettle
      exact ih (reaches_attempt h hact) hrest

theorem reaches_performCue {cue : Cue ι} (h : Reaches net ok σ)
    (hcue : performCue net ok σ cue = some σ') : Reaches net ok σ' := by
  cases cue with
  | act i a => exact reaches_attempt h hcue
  | relay i j k =>
    obtain ⟨msg, -, hact⟩ := Option.bind_eq_some_iff.mp hcue
    exact reaches_attempt h hact
  | inject i msg => exact reaches_attempt h hcue
  | settle i now => exact reaches_settle h hcue

end ScriptLemmas

open Foundation ScriptLemmas

/-- What a script plays is a run. -/
theorem perform_reaches {net : Network ι C} {ok : (ι → Node) → ι → Action → Prop}
    [∀ σ i a, Decidable (ok σ i a)] {σ σ' : ι → Node} {cues : List (Cue ι)}
    (h : Reaches net ok σ) (hperform : perform net ok σ cues = some σ') : Reaches net ok σ' :=
  foldlM_keeps (fun _ _ _ hbefore hcue => reaches_performCue hbefore hcue) h hperform

/-- A script that can be played to a state with the property `P`. -/
theorem exists_reaches {net : Network ι C} {ok : (ι → Node) → ι → Action → Prop}
    [∀ σ i a, Decidable (ok σ i a)] {P : (ι → Node) → Prop} [DecidablePred P]
    (cues : List (Cue ι))
    (h : (perform net ok initialState cues).any (fun σ => decide (P σ)) = true) :
    ∃ σ, Reaches net ok σ ∧ P σ := by
  obtain ⟨σ, hperform, hP⟩ := (Option.any_eq_true _ _).mp h
  exact ⟨σ, perform_reaches .init hperform, of_decide_eq_true hP⟩

/-! ## A network that computes -/

/-- Two validators with the keys 1 and 2, both of them running a node. -/
def toyNetwork : Network Bool toyCrypto where
  addressBook := toyBook [1, 2] (by decide)
  subCommitteeSize := 2
  address b := if b then toyAddress 2 else toyAddress 1
  signingKeys b := if b then (2 : UInt8) else (1 : UInt8)
  vrfKeys b := if b then (2 : UInt8) else (1 : UInt8)

theorem toyNetwork_registered : toyNetwork.Registered where
  key := by decide +kernel
  one := by decide

theorem toyNetwork_honest :
    ∀ a ∈ toyNetwork.addressBook.addresses, ∃ i, toyNetwork.address i = a := by
  decide

/-- The first node leads round 1. The other one receives its batch and votes for
it, and the leader receives the vote. -/
def firstBatch : List (Cue Bool) :=
  [.act false (.tick false), .act false .advance, .settle false 10,
    .relay true false 0, .settle true 20, .relay false true 0, .settle false 30]

/-- Both nodes certify the first batch: the leader when it has the vote of the
other, and the other when the leader has met its own batch again and voted for it
once more. -/
def oneLeader : List (Cue Bool) :=
  firstBatch ++ [.relay false false 0, .settle false 40, .relay true false 2, .settle true 50]

end EviceChain.Sequencer
