import EviceChain.Foundation.Hex
import EviceChain.Engine.OrderBook
import EviceChain.Settlement.Rollup

/-!
# The settlement task (`zkapp/node/src/main.rs`, `zkapp/node/src/settlement.rs`)

The node listens to the events of the matching engine. For every intent that is
resolved it submits a batch of its own to the rollup contract and waits for the
receipt before it takes the next event. State root and proof of the batch are
constants.

`EviceVerifier` wants the root to change. The first batch sets it to zero, and
zero is what every later batch sends: `settlement_resolves_iff` says that all
intents are resolved on the contract only if there is at most one, and
`secondIntent_stays_locked` shows the second of two staying locked.
-/

namespace EviceChain.Settlement

open Foundation Engine RollupLemmas

structure SettlementBatch where
  newStateRoot : Bytes32
  proof : List UInt8
  resolvedIntentIds : List Bytes32

/-- The call that `submit_zk_batch` sends. -/
def submitZkBatch (batch : SettlementBatch) : Call :=
  .updateStateWithIntents batch.newStateRoot batch.proof batch.resolvedIntentIds

section Task

-- `FixedBytes::<32>::from_str`, and what the contracts on the chain answer
variable (fromStr : String → Option Bytes32)
  (verifyProof : Address → Bytes32 → Bytes32 → List UInt8 → Option Bool)

/-- What the task makes of an event. An id that does not parse becomes zero. -/
def settlementBatch? : EngineEvent → Option SettlementBatch
  | .intentResolved intentId _ _ =>
    some {
      newStateRoot := 0
      proof := [1, 2, 3, 4, 5]
      resolvedIntentIds := [(fromStr intentId).getD 0] }
  | _ => none

/-- The transactions that the node sends for the events, one after the other. -/
def settlementTask (node : Address) (events : List EngineEvent) : List (Msg × Call) :=
  (events.filterMap (settlementBatch? fromStr)).map fun batch =>
    (⟨node, 0, verifyProof⟩, submitZkBatch batch)

/-- The events resolve these intents, in this order. -/
def Resolves : List EngineEvent → List Bytes32 → Prop :=
  List.Forall₂ fun event id => ∃ intentId solver amount,
    event = .intentResolved intentId solver amount ∧ fromStr intentId = some id

end Task

namespace SettlementTaskLemmas

variable {fromStr : String → Option Bytes32}
  {verifyProof : Address → Bytes32 → Bytes32 → List UInt8 → Option Bool} {c : EviceRollup}

/-- The transaction for one intent. -/
def settles (verifyProof : Address → Bytes32 → Bytes32 → List UInt8 → Option Bool)
    (node : Address) (id : Bytes32) : Msg × Call :=
  (⟨node, 0, verifyProof⟩, .updateStateWithIntents 0 [1, 2, 3, 4, 5] [id])

theorem settlementTask_eq {node : Address} {events : List EngineEvent} {ids : List Bytes32}
    (h : Resolves fromStr events ids) :
    settlementTask fromStr verifyProof node events = ids.map (settles verifyProof node) := by
  induction h with
  | nil => rfl
  | @cons event id events ids hevent _ ih =>
    obtain ⟨intentId, solver, amount, rfl, hid⟩ := hevent
    rw [List.map_cons, ← ih]
    simp only [settlementTask, settlementBatch?, hid, List.filterMap_cons, List.map_cons,
      Option.getD_some, submitZkBatch, settles]

/-- The verifier wants the root to change. -/
theorem call_settles_error (hverifier : verifyProof c.verifier = EviceVerifier.verifyProof)
    (hroot : c.currentStateRoot = 0) (node : Address) (id : Bytes32) :
    ∃ e, call c (settles verifyProof node id) = .error e := by
  cases hcall : call c (settles verifyProof node id) with
  | error e => exact ⟨e, rfl⟩
  | ok result =>
    obtain ⟨c', emitted⟩ := result
    cases call_effect hcall with
    | update _ _ hverified =>
      dsimp only at hverified
      rw [hverifier, hroot] at hverified
      cases hverified
    | admin hcmd _ => cases hcmd

/-- The first batch goes through, unless the root is zero already. -/
theorem call_settles (hverifier : verifyProof c.verifier = EviceVerifier.verifyProof)
    (hpaused : c.paused = false) (hroot : c.currentStateRoot ≠ 0) (id : Bytes32) :
    ∃ c' emitted, call c (settles verifyProof c.sequencer id) = .ok (c', emitted) ∧
      c'.intentRegistry = (settleIntents c.sequencer c.intentRegistry [id]).1 ∧
      c'.currentStateRoot = 0 ∧ c'.verifier = c.verifier := by
  have hverified : verifyProof c.verifier c.currentStateRoot 0 [1, 2, 3, 4, 5] = some true := by
    rw [hverifier]
    exact if_pos ⟨by decide, hroot⟩
  exact ⟨_, _, call_update rfl rfl hpaused hverified [id], rfl, rfl, rfl⟩

/-- What the contract makes of the batches: it takes the first one, if its root is not
zero, and none after it. -/
theorem registry_settles (hverifier : verifyProof c.verifier = EviceVerifier.verifyProof)
    (hpaused : c.paused = false) (ids : List Bytes32) :
    (history c (ids.map (settles verifyProof c.sequencer))).1.intentRegistry =
      if c.currentStateRoot = 0 then c.intentRegistry
      else (settleIntents c.sequencer c.intentRegistry (ids.take 1)).1 := by
  have herrors : ∀ c' : EviceRollup, verifyProof c'.verifier = EviceVerifier.verifyProof →
      c'.currentStateRoot = 0 → ∀ (ids : List Bytes32) log,
      (ids.map (settles verifyProof c.sequencer)).foldl (transact call) (c', log) = (c', log) := by
    intro c' hverifier' hroot' ids log
    refine transact_of_errors fun tx htx => ?_
    obtain ⟨id, -, rfl⟩ := List.mem_map.mp htx
    exact call_settles_error hverifier' hroot' _ id
  split
  · next hroot => rw [history, ledger, herrors c hverifier hroot]
  · next hroot =>
    cases ids with
    | nil => rfl
    | cons id ids =>
      obtain ⟨c', emitted, hcall, hregistry, hzero, hsame⟩ :=
        call_settles hverifier hpaused hroot id
      rw [history, ledger, List.map_cons, List.foldl_cons, transact, hcall]
      dsimp only
      rw [herrors c' (hsame ▸ hverifier) hzero]
      exact hregistry

end SettlementTaskLemmas

open SettlementTaskLemmas

/-- The node submits a batch for each of the resolved intents, all of which are locked
in a contract that is not paused and has the node as its sequencer and `EviceVerifier`
as its verifier. They are resolved there afterwards if and only if there is at most
one of them, and the root was not zero if there is one. -/
theorem settlement_resolves_iff (fromStr : String → Option Bytes32)
    (verifyProof : Address → Bytes32 → Bytes32 → List UInt8 → Option Bool) {c : EviceRollup}
    (hverifier : verifyProof c.verifier = EviceVerifier.verifyProof) (hpaused : c.paused = false)
    {events : List EngineEvent} {ids : List Bytes32} (hevents : Resolves fromStr events ids)
    (hdistinct : ids.Nodup) (hlocked : ∀ id ∈ ids, c.intentRegistry id = .locked) :
    (∀ id ∈ ids, (history c
        (settlementTask fromStr verifyProof c.sequencer events)).1.intentRegistry id = .resolved) ↔
      events.length ≤ 1 ∧ (events ≠ [] → c.currentStateRoot ≠ 0) := by
  rw [settlementTask_eq hevents, registry_settles hverifier hpaused]
  have hafter : ∀ id ∈ ids, (settleIntents c.sequencer c.intentRegistry (ids.take 1)).1 id =
      if id ∈ ids.take 1 then .resolved else .locked := by
    intro id hid
    rw [(settleIntents_spec c.sequencer c.intentRegistry (ids.take 1) id).1, hlocked id hid]
    simp
  constructor
  · intro hresolved
    have hchanges : ids ≠ [] → c.currentStateRoot ≠ 0 := by
      intro hsome hroot
      obtain ⟨id, hid⟩ := List.exists_mem_of_ne_nil ids hsome
      have hstill := hresolved id hid
      rw [if_pos hroot, hlocked id hid] at hstill
      cases hstill
    cases hevents with
    | nil => exact ⟨Nat.zero_le _, fun h => (h rfl).elim⟩
    | @cons _ id _ ids _ hrest =>
      have hroot := hchanges (List.cons_ne_nil _ _)
      refine ⟨?_, fun _ => hroot⟩
      cases hrest with
      | nil => exact le_rfl
      | @cons _ id' _ ids _ _ =>
        -- the second intent is not in the batch that went through
        have hsecond : id' ∈ id :: id' :: ids := List.mem_cons_of_mem _ List.mem_cons_self
        have hother : id' ∉ (id :: id' :: ids).take 1 := by
          rw [List.take_succ_cons, List.take_zero, List.mem_singleton]
          rintro rfl
          exact (List.nodup_cons.mp hdistinct).1 List.mem_cons_self
        have hstill := hresolved id' hsecond
        rw [if_neg hroot, hafter id' hsecond, if_neg hother] at hstill
        cases hstill
  · rintro ⟨hone, hchanges⟩ id hid
    have hlength := hevents.length_eq
    have hroot : c.currentStateRoot ≠ 0 := by
      refine hchanges fun hnone => ?_
      rw [hnone] at hlength
      exact List.ne_nil_of_mem hid (List.length_eq_zero_iff.mp hlength.symm)
    rw [if_neg hroot, hafter id hid, if_pos]
    rwa [List.take_of_length_le (hlength ▸ hone)]

/-- The digits of 32 bytes. -/
def parseHex (text : String) : Option Bytes32 :=
  match hexDecode text.toList with
  | some bytes =>
    if bytes.length = 32 then
      some (BitVec.ofNat 256 (bytes.foldl (fun n byte => 256 * n + byte.toNat) 0))
    else none
  | none => none

/-- An event for the intent with this number, whose id has 64 digits. -/
def resolvedIntent (n : UInt8) : EngineEvent :=
  .intentResolved (String.ofList (hexEncode (List.replicate 31 0 ++ [n]))) "solver" 10

theorem resolves_resolvedIntent (ns : List UInt8) :
    Resolves parseHex (ns.map resolvedIntent) (ns.map fun n => BitVec.ofNat 256 n.toNat) := by
  induction ns with
  | nil => exact .nil
  | cons n ns ih =>
    refine .cons ⟨_, _, _, rfl, ?_⟩ ih
    rw [parseHex, String.toList_ofList, hexDecode_hexEncode]
    simp [List.replicate]

/-- A contract with the root 5, in which the intents 1 and 2 are locked. -/
def twoLocked : EviceRollup :=
  { sequencer := 1
    owner := 2
    paused := false
    currentStateRoot := 5
    verifier := 9
    currentBatchId := 0
    intentRegistry := fun id => if id = 1 ∨ id = 2 then .locked else .none }

theorem settlement_resolves_one :
    (history twoLocked (settlementTask parseHex (fun _ => EviceVerifier.verifyProof) 1
      [resolvedIntent 1])).1.intentRegistry 1 = .resolved := by
  have hone := settlement_resolves_iff parseHex (fun _ => EviceVerifier.verifyProof)
    (c := twoLocked) rfl rfl (resolves_resolvedIntent [1]) (List.nodup_singleton _)
    (by simp [twoLocked])
  exact hone.mpr ⟨le_rfl, fun _ => by decide⟩ 1 List.mem_cons_self

/-- The second of two batches sends the root that the first one has set. -/
theorem secondIntent_stays_locked :
    Resolves parseHex [resolvedIntent 1, resolvedIntent 2] [1, 2] ∧
      twoLocked.intentRegistry 1 = .locked ∧ twoLocked.intentRegistry 2 = .locked ∧
      (history twoLocked (settlementTask parseHex (fun _ => EviceVerifier.verifyProof) 1
        [resolvedIntent 1, resolvedIntent 2])).1.intentRegistry 1 = .resolved ∧
      (history twoLocked (settlementTask parseHex (fun _ => EviceVerifier.verifyProof) 1
        [resolvedIntent 1, resolvedIntent 2])).1.intentRegistry 2 = .locked := by
  have hevents : Resolves parseHex [resolvedIntent 1, resolvedIntent 2] [1, 2] :=
    resolves_resolvedIntent [1, 2]
  refine ⟨hevents, rfl, rfl, ?_⟩
  rw [settlementTask_eq hevents]
  exact ⟨rfl, rfl⟩

end EviceChain.Settlement
