import EviceChain.Foundation.Chain
import EviceChain.Settlement.Rollup

/-!
# The chain of state roots

`updateStateWithIntents` emits `StateUpdated` with the number of the batch, the root
it found and the root it stored. `rootChain` says what these events are over any
sequence of calls by anybody: a numbered chain of roots that starts from the root
of the constructor and ends in what is stored. Each link was sent by the sequencer
while the contract was not paused, and accepted by the verifier set at that time.
-/

namespace EviceChain.Settlement

open Foundation RollupLemmas

/-- The data of a `StateUpdated` event. -/
structure StateUpdate where
  batchId : UInt256
  oldStateRoot : Bytes32
  newStateRoot : Bytes32
deriving DecidableEq, Repr

def Event.stateUpdate? : Event → Option StateUpdate
  | .stateUpdated batchId oldStateRoot newStateRoot =>
    some ⟨batchId, oldStateRoot, newStateRoot⟩
  | _ => none

/-- The `StateUpdated` events of a log, in their order. -/
def stateUpdates (log : List Event) : List StateUpdate := log.filterMap Event.stateUpdate?

/-- Among the calls `txs` is one of the sequencer that made the `k`-th update. The
contract was not paused, and its verifier accepted the proof. -/
def AcceptedAs (c : EviceRollup) (sequencer : Address) (txs : List (Msg × Call)) (k : Nat)
    (update : StateUpdate) : Prop :=
  ∃ before msg proof ids,
    before ++ [(msg, .updateStateWithIntents update.newStateRoot proof ids)] <+: txs ∧
    (stateUpdates (history c before).2).length = k ∧
    stateUpdates
        (history c (before ++ [(msg, .updateStateWithIntents update.newStateRoot proof ids)])).2 =
      stateUpdates (history c before).2 ++ [update] ∧
    msg.sender = sequencer ∧ (history c before).1.paused = false ∧
    msg.verifyProof (history c before).1.verifier update.oldStateRoot update.newStateRoot proof =
      some true

/-- What the updates of a run are, if the contract was deployed with this sequencer
and this root. -/
structure RootChain (c : EviceRollup) (sequencer : Address) (root : Bytes32)
    (txs : List (Msg × Call)) : Prop where
  numbered : ∀ k update, (stateUpdates (history c txs).2)[k]? = some update →
    update.batchId = BitVec.ofNat 256 (k + 1)
  linked : Chained StateUpdate.oldStateRoot StateUpdate.newStateRoot root
    (stateUpdates (history c txs).2)
  accepted : ∀ k update, (stateUpdates (history c txs).2)[k]? = some update →
    AcceptedAs c sequencer txs k update
  storedRoot : (history c txs).1.currentStateRoot =
    tip StateUpdate.newStateRoot root (stateUpdates (history c txs).2)
  storedId : (history c txs).1.currentBatchId =
    tip StateUpdate.batchId 0 (stateUpdates (history c txs).2)

/-! ## What a call does to the chain -/

/-- What a call that emits `events` does to the chain of roots. -/
inductive Link (c : EviceRollup) (msg : Msg) (cmd : Call) (c' : EviceRollup) :
    List StateUpdate → Prop
  | none (root : c'.currentStateRoot = c.currentStateRoot)
      (id : c'.currentBatchId = c.currentBatchId) : Link c msg cmd c' []
  | update {newStateRoot : Bytes32} {proof : List UInt8} {ids : List Bytes32}
      (call : cmd = .updateStateWithIntents newStateRoot proof ids)
      (sender : msg.sender = c.sequencer) (unpaused : c.paused = false)
      (verified : msg.verifyProof c.verifier c.currentStateRoot newStateRoot proof = some true)
      (root : c'.currentStateRoot = newStateRoot)
      (id : c'.currentBatchId = c.currentBatchId + 1) :
      Link c msg cmd c' [⟨c.currentBatchId + 1, c.currentStateRoot, newStateRoot⟩]

namespace RootChainLemmas

theorem stateUpdates_settleIntents (sequencer : Address) (registry : Bytes32 → IntentStatus)
    (ids : List Bytes32) : stateUpdates (settleIntents sequencer registry ids).2 = [] := by
  induction ids using List.reverseRecOn with
  | nil => rfl
  | append_singleton ids id ih =>
    rw [settleIntents, List.foldl_append, List.foldl_cons, List.foldl_nil, ← settleIntents,
      settleIntent]
    split
    · show stateUpdates
        ((settleIntents sequencer registry ids).2 ++ [.intentSettled id sequencer]) = []
      rw [stateUpdates, List.filterMap_append, ← stateUpdates, ih]
      rfl
    · exact ih

theorem call_link {c c' : EviceRollup} {msg : Msg} {cmd : Call} {events : List Event}
    (h : call c (msg, cmd) = .ok (c', events)) :
    Link c msg cmd c' (stateUpdates events) ∧ c'.sequencer = c.sequencer := by
  cases call_effect h with
  | deposit => exact ⟨.none rfl rfl, rfl⟩
  | @update newStateRoot proof ids hsender hpaused hverified =>
    refine ⟨?_, rfl⟩
    rw [stateUpdates, List.filterMap_append, ← stateUpdates, stateUpdates_settleIntents]
    exact .update rfl hsender hpaused hverified rfl rfl
  | @admin _ _ _ _ event _ hevent =>
    refine ⟨?_, rfl⟩
    have hnone : stateUpdates [event] = [] := by
      cases event <;> first | rfl | cases hevent
    rw [hnone]
    exact .none rfl rfl

/-- `SEQUENCER` is immutable. -/
theorem history_sequencer (c : EviceRollup) (txs : List (Msg × Call)) :
    (history c txs).1.sequencer = c.sequencer := by
  induction txs using List.reverseRecOn with
  | nil => rfl
  | append_singleton txs tx ih =>
    rcases history_step c txs tx with ⟨e, -, hstep⟩ | ⟨c', events, hcall, hstep⟩
    · rw [hstep, ih]
    · rw [hstep, ← ih]
      exact (call_link hcall).2

/-- One more call, whether or not it succeeds. -/
theorem history_link (c : EviceRollup) (txs : List (Msg × Call)) (msg : Msg) (cmd : Call) :
    ∃ news, stateUpdates (history c (txs ++ [(msg, cmd)])).2 =
        stateUpdates (history c txs).2 ++ news ∧
      Link (history c txs).1 msg cmd (history c (txs ++ [(msg, cmd)])).1 news := by
  rcases history_step c txs (msg, cmd) with ⟨e, -, hstep⟩ | ⟨c', events, hcall, hstep⟩
  · rw [hstep]
    exact ⟨[], (List.append_nil _).symm, .none rfl rfl⟩
  · rw [hstep]
    exact ⟨stateUpdates events, List.filterMap_append, (call_link hcall).1⟩

theorem acceptedAs_mono {c : EviceRollup} {sequencer : Address} {txs txs' : List (Msg × Call)}
    (hle : txs <+: txs') {k : Nat} {update : StateUpdate}
    (h : AcceptedAs c sequencer txs k update) : AcceptedAs c sequencer txs' k update := by
  obtain ⟨before, msg, proof, ids, hbefore, hrest⟩ := h
  exact ⟨before, msg, proof, ids, hbefore.trans hle, hrest⟩

/-- A property of the elements of a list and their positions, for one more element. -/
theorem forall_getElem?_snoc {P : Nat → StateUpdate → Prop} {l : List StateUpdate}
    {update : StateUpdate} (hl : ∀ k u, l[k]? = some u → P k u) (hlast : P l.length update) :
    ∀ k u, (l ++ [update])[k]? = some u → P k u := by
  intro k u hk
  rcases Nat.lt_trichotomy k l.length with hlt | rfl | hgt
  · rw [List.getElem?_append_left hlt] at hk
    exact hl k u hk
  · rw [List.getElem?_concat_length] at hk
    exact Option.some.inj hk ▸ hlast
  · have hout : (l ++ [update]).length ≤ k := by
      rw [List.length_append]
      exact hgt
    rw [List.getElem?_eq_none hout] at hk
    cases hk

/-- The stored batch id counts the updates. -/
theorem currentBatchId_eq {c : EviceRollup} (hid : c.currentBatchId = 0)
    (txs : List (Msg × Call)) : (history c txs).1.currentBatchId =
      BitVec.ofNat 256 (stateUpdates (history c txs).2).length := by
  induction txs using List.reverseRecOn with
  | nil => exact hid
  | append_singleton txs tx ih =>
    obtain ⟨news, hnews, hlink⟩ := history_link c txs tx.1 tx.2
    rw [hnews]
    cases hlink with
    | none _ hsame => rw [hsame, ih, List.append_nil]
    | update _ _ _ _ _ hnext =>
      rw [hnext, ih, List.length_append, BitVec.ofNat_add]
      rfl

end RootChainLemmas

open RootChainLemmas

/-- Over every sequence of calls to a deployed contract, the updates are a numbered
chain from the root of the constructor to the root that is stored. -/
theorem rootChain {sequencer owner : Address} {root : Bytes32} {c : EviceRollup}
    (hdeploy : deploy sequencer root owner = .ok c) (txs : List (Msg × Call)) :
    RootChain c sequencer root txs := by
  obtain ⟨hsequencer, hroot, hid⟩ :
      c.sequencer = sequencer ∧ c.currentStateRoot = root ∧ c.currentBatchId = 0 := by
    unfold deploy at hdeploy
    split at hdeploy <;> cases hdeploy
    exact ⟨rfl, rfl, rfl⟩
  induction txs using List.reverseRecOn with
  | nil => exact ⟨(fun _ _ h => by cases h), trivial, (fun _ _ h => by cases h), hroot, hid⟩
  | append_singleton txs tx ih =>
    obtain ⟨msg, cmd⟩ := tx
    have hearlier : txs <+: txs ++ [(msg, cmd)] := List.prefix_append _ _
    obtain ⟨news, hnews, hlink⟩ := history_link c txs msg cmd
    cases hlink with
    | none hsameRoot hsameId =>
      rw [List.append_nil] at hnews
      refine ⟨?_, ?_, ?_, ?_, ?_⟩ <;> rw [hnews]
      · exact ih.numbered
      · exact ih.linked
      · exact fun k update hk => acceptedAs_mono hearlier (ih.accepted k update hk)
      · exact hsameRoot.trans ih.storedRoot
      · exact hsameId.trans ih.storedId
    | @update newStateRoot proof ids hcmd hsender hpaused hverified hnewRoot hnewId =>
      subst hcmd
      refine ⟨?_, ?_, ?_, ?_, ?_⟩
      · rw [hnews]
        refine forall_getElem?_snoc ih.numbered ?_
        rw [currentBatchId_eq hid, BitVec.ofNat_add]
        rfl
      · rw [hnews]
        exact ih.linked.snoc ih.storedRoot
      · rw [hnews]
        refine forall_getElem?_snoc
          (fun k update hk => acceptedAs_mono hearlier (ih.accepted k update hk)) ?_
        rw [history_sequencer, hsequencer] at hsender
        exact ⟨txs, msg, proof, ids, List.prefix_rfl, rfl, hnews, hsender, hpaused, hverified⟩
      · rw [hnews, hnewRoot, tip, List.foldl_append]
        rfl
      · rw [hnews, hnewId, tip, List.foldl_append]
        rfl

/-- Two batches, and a call of somebody else between them. -/
def twoBatches : List (Msg × Call) :=
  [send 1 0 (.setVerifier 9), send 1 0 (.updateStateWithIntents 5 [0] []),
    send 3 0 (.updateStateWithIntents 6 [0] []), send 1 0 (.updateStateWithIntents 7 [0] [])]

theorem rootChain_twoBatches : ∃ c, deploy 1 4 2 = .ok c ∧ RootChain c 1 4 twoBatches ∧
    stateUpdates (history c twoBatches).2 = [⟨1, 4, 5⟩, ⟨2, 5, 7⟩] :=
  ⟨_, rfl, rootChain (rfl : deploy 1 4 2 = .ok _) twoBatches, rfl⟩

end EviceChain.Settlement
