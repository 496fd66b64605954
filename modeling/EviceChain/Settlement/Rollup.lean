import EviceChain.Foundation.Transaction

/-!
# The settlement contract (`contracts/src/EviceRollup.sol`)

The contract keeps a state root, which the sequencer advances with proofs, and a
registry of intents, which users lock with a deposit and batches resolve.

A call is made with a sender, a value and what a call of `verifyProof` would
return at that moment. `Pausable` and `Ownable` are modelled as documented. The
reentrancy guard is left out: the one external call is to a `view` function and
therefore static, so no call that writes can come in while another is running.
A function that is not payable refuses a value.

Results:
1. `settleIntents_spec`: what a batch does to an intent depends only on its status
   and on whether it is in the list;
2. `call_turn`: what a call does to the life cycle of one intent;
3. `lifeCycle_iff`: every intent of a run is locked once, is settled once and moves
   only forward if and only if no deposit is made for an intent that was locked
   before. `depositIntent` does not look at the status: `relocked` is an intent
   that is resolved, locked again and resolved again;
4. `settlement_of_set`: a batch that is accepted resolves the locked intents of its
   list, each once, and only the set of the ids matters.
-/

namespace EviceChain.Settlement

open Foundation

abbrev Bytes32 := BitVec 256

abbrev Address := BitVec 160

abbrev UInt256 := BitVec 256

/-! ## Storage, events and errors -/

inductive IntentStatus
  | none
  | locked
  | resolved
deriving DecidableEq, Repr

structure EviceRollup where
  sequencer : Address
  owner : Address
  paused : Bool
  currentStateRoot : Bytes32
  verifier : Address
  currentBatchId : UInt256
  intentRegistry : Bytes32 → IntentStatus

inductive Event
  | intentLocked (intentId : Bytes32) (user : Address) (amount : UInt256)
  | intentSettled (intentId : Bytes32) (solver : Address)
  | stateUpdated (batchId : UInt256) (oldStateRoot newStateRoot : Bytes32)
  | verifierUpdated (newVerifier : Address)
  | paused (account : Address)
  | unpaused (account : Address)
  | ownershipTransferred (previousOwner newOwner : Address)
deriving DecidableEq, Repr

inductive Revert
  | unauthorizedSequencer
  | invalidProof
  | invalidAmount
  | enforcedPause
  | expectedPause
  | ownableUnauthorizedAccount (account : Address)
  | ownableInvalidOwner (owner : Address)
  /-- A value sent to a function that is not payable. -/
  | notPayable
  /-- `verifyProof` reverts, or there is no contract to call. -/
  | verifierReverted
deriving DecidableEq, Repr

/-! ## Calls -/

inductive Call
  | pauseSystem
  | unpauseSystem
  | depositIntent (intentId : Bytes32)
  | setVerifier (verifierAddress : Address)
  | updateStateWithIntents (newStateRoot : Bytes32) (proof : List UInt8)
      (resolvedIntentIds : List Bytes32)
  | transferOwnership (newOwner : Address)
  | renounceOwnership
deriving DecidableEq, Repr

/-- What a call finds. `verifyProof` is what the contract at an address answers. -/
structure Msg where
  sender : Address
  value : UInt256
  verifyProof : Address → Bytes32 → Bytes32 → List UInt8 → Option Bool

/-- The constructor. -/
def deploy (initialSequencer : Address) (initialStateRoot : Bytes32) (initialOwner : Address) :
    Except Revert EviceRollup :=
  if initialOwner = 0 then .error (.ownableInvalidOwner 0)
  else .ok {
    sequencer := initialSequencer
    owner := initialOwner
    paused := false
    currentStateRoot := initialStateRoot
    verifier := 0
    currentBatchId := 0
    intentRegistry := fun _ => .none }

def require (condition : Bool) (e : Revert) : Except Revert Unit :=
  if condition then .ok () else .error e

def onlySequencer (c : EviceRollup) (msg : Msg) : Except Revert Unit :=
  require (msg.sender = c.sequencer) .unauthorizedSequencer

def onlyOwner (c : EviceRollup) (msg : Msg) : Except Revert Unit :=
  require (msg.sender = c.owner) (.ownableUnauthorizedAccount msg.sender)

def whenNotPaused (c : EviceRollup) : Except Revert Unit :=
  require (!c.paused) .enforcedPause

def nonPayable (msg : Msg) : Except Revert Unit := require (msg.value = 0) .notPayable

/-- One round of the loop over the resolved ids. -/
def settleIntent (sequencer : Address) (s : (Bytes32 → IntentStatus) × List Event)
    (id : Bytes32) : (Bytes32 → IntentStatus) × List Event :=
  if s.1 id = .locked then
    (Function.update s.1 id .resolved, s.2 ++ [.intentSettled id sequencer])
  else s

def settleIntents (sequencer : Address) (registry : Bytes32 → IntentStatus)
    (ids : List Bytes32) : (Bytes32 → IntentStatus) × List Event :=
  ids.foldl (settleIntent sequencer) (registry, [])

def depositIntent (c : EviceRollup) (msg : Msg) (intentId : Bytes32) :
    Except Revert (EviceRollup × List Event) := do
  whenNotPaused c
  require (msg.value ≠ 0) .invalidAmount
  return ({ c with intentRegistry := Function.update c.intentRegistry intentId .locked },
    [.intentLocked intentId msg.sender msg.value])

def updateStateWithIntents (c : EviceRollup) (msg : Msg) (newStateRoot : Bytes32)
    (proof : List UInt8) (resolvedIntentIds : List Bytes32) :
    Except Revert (EviceRollup × List Event) := do
  nonPayable msg
  onlySequencer c msg
  whenNotPaused c
  let oldRoot := c.currentStateRoot
  match msg.verifyProof c.verifier oldRoot newStateRoot proof with
  | none => throw .verifierReverted
  | some valid => require valid .invalidProof
  let (registry, settled) := settleIntents c.sequencer c.intentRegistry resolvedIntentIds
  -- unchecked: the batch id wraps
  let batchId := c.currentBatchId + 1
  return ({ c with
      intentRegistry := registry, currentStateRoot := newStateRoot, currentBatchId := batchId },
    settled ++ [.stateUpdated batchId oldRoot newStateRoot])

def call (c : EviceRollup) : Msg × Call → Except Revert (EviceRollup × List Event)
  | (msg, .pauseSystem) => do
    nonPayable msg
    onlyOwner c msg
    whenNotPaused c
    return ({ c with paused := true }, [.paused msg.sender])
  | (msg, .unpauseSystem) => do
    nonPayable msg
    onlyOwner c msg
    require c.paused .expectedPause
    return ({ c with paused := false }, [.unpaused msg.sender])
  | (msg, .depositIntent intentId) => depositIntent c msg intentId
  | (msg, .setVerifier verifierAddress) => do
    nonPayable msg
    onlySequencer c msg
    return ({ c with verifier := verifierAddress }, [.verifierUpdated verifierAddress])
  | (msg, .updateStateWithIntents newStateRoot proof resolvedIntentIds) =>
    updateStateWithIntents c msg newStateRoot proof resolvedIntentIds
  | (msg, .transferOwnership newOwner) => do
    nonPayable msg
    onlyOwner c msg
    require (newOwner ≠ 0) (.ownableInvalidOwner 0)
    return ({ c with owner := newOwner }, [.ownershipTransferred c.owner newOwner])
  | (msg, .renounceOwnership) => do
    nonPayable msg
    onlyOwner c msg
    return ({ c with owner := 0 }, [.ownershipTransferred c.owner 0])

/-- The contract and the events after a sequence of calls, of which those that revert
leave no trace. -/
def history (c : EviceRollup) (txs : List (Msg × Call)) : EviceRollup × List Event :=
  ledger call c txs

/-! ## The verifier (`contracts/src/EviceVerifier.sol`) -/

/-- `EviceVerifier.verifyProof`: two requirements, and then any proof will do. -/
def EviceVerifier.verifyProof (oldStateRoot newStateRoot : Bytes32) (proof : List UInt8) :
    Option Bool :=
  if proof.length > 0 ∧ oldStateRoot ≠ newStateRoot then some true else none

/-! ## What a call can do -/

def Call.administrative : Call → Bool
  | .depositIntent .. | .updateStateWithIntents .. => false
  | .pauseSystem | .unpauseSystem | .setVerifier .. | .transferOwnership .. | .renounceOwnership =>
    true

def Event.administrative : Event → Bool
  | .intentLocked .. | .intentSettled .. | .stateUpdated .. => false
  | .verifierUpdated .. | .paused .. | .unpaused .. | .ownershipTransferred .. => true

/-- The effect of a call that succeeds. -/
inductive Effect (c : EviceRollup) (msg : Msg) : Call → EviceRollup → List Event → Prop
  | deposit {id : Bytes32} (unpaused : c.paused = false) (value : msg.value ≠ 0) :
      Effect c msg (.depositIntent id)
        { c with intentRegistry := Function.update c.intentRegistry id .locked }
        [.intentLocked id msg.sender msg.value]
  | update {newStateRoot : Bytes32} {proof : List UInt8} {ids : List Bytes32}
      (sender : msg.sender = c.sequencer) (unpaused : c.paused = false)
      (verified : msg.verifyProof c.verifier c.currentStateRoot newStateRoot proof = some true) :
      Effect c msg (.updateStateWithIntents newStateRoot proof ids)
        { c with
          intentRegistry := (settleIntents c.sequencer c.intentRegistry ids).1
          currentStateRoot := newStateRoot
          currentBatchId := c.currentBatchId + 1 }
        ((settleIntents c.sequencer c.intentRegistry ids).2 ++
          [.stateUpdated (c.currentBatchId + 1) c.currentStateRoot newStateRoot])
  | admin {cmd : Call} {owner verifier : Address} {paused : Bool} {event : Event}
      (call : cmd.administrative = true) (emits : event.administrative = true) :
      Effect c msg cmd { c with owner, verifier, paused } [event]

theorem require_bind {α : Type} {condition : Bool} {e : Revert} {f : Unit → Except Revert α}
    {a : α} : require condition e >>= f = .ok a ↔ condition = true ∧ f () = .ok a := by
  unfold require
  split
  · next htrue => exact ⟨fun h => ⟨htrue, h⟩, fun h => h.2⟩
  · next hfalse => exact ⟨fun h => (by cases h), fun h => (hfalse h.1).elim⟩

theorem call_effect {c c' : EviceRollup} {msg : Msg} {cmd : Call} {events : List Event}
    (h : call c (msg, cmd) = .ok (c', events)) : Effect c msg cmd c' events := by
  cases cmd with
  | depositIntent id =>
    obtain ⟨hpaused, h⟩ := require_bind.mp h
    obtain ⟨hvalue, h⟩ := require_bind.mp h
    cases h
    exact .deposit ((Bool.not_eq_true' _).mp hpaused) (of_decide_eq_true hvalue)
  | updateStateWithIntents newStateRoot proof ids =>
    obtain ⟨-, h⟩ := require_bind.mp h
    obtain ⟨hsender, h⟩ := require_bind.mp h
    obtain ⟨hpaused, h⟩ := require_bind.mp h
    dsimp only at h
    split at h
    · cases h
    · next valid hverify =>
      obtain ⟨rfl, h⟩ := require_bind.mp h
      cases h
      exact .update (of_decide_eq_true hsender) ((Bool.not_eq_true' _).mp hpaused) hverify
  | setVerifier verifierAddress =>
    obtain ⟨-, h⟩ := require_bind.mp h
    obtain ⟨-, h⟩ := require_bind.mp h
    cases h
    exact .admin rfl rfl
  | renounceOwnership =>
    obtain ⟨-, h⟩ := require_bind.mp h
    obtain ⟨-, h⟩ := require_bind.mp h
    cases h
    exact .admin rfl rfl
  | pauseSystem =>
    obtain ⟨-, h⟩ := require_bind.mp h
    obtain ⟨-, h⟩ := require_bind.mp h
    obtain ⟨-, h⟩ := require_bind.mp h
    cases h
    exact .admin rfl rfl
  | unpauseSystem =>
    obtain ⟨-, h⟩ := require_bind.mp h
    obtain ⟨-, h⟩ := require_bind.mp h
    obtain ⟨-, h⟩ := require_bind.mp h
    cases h
    exact .admin rfl rfl
  | transferOwnership newOwner =>
    obtain ⟨-, h⟩ := require_bind.mp h
    obtain ⟨-, h⟩ := require_bind.mp h
    obtain ⟨-, h⟩ := require_bind.mp h
    cases h
    exact .admin rfl rfl

/-- A deposit succeeds if the contract is not paused and a value is sent. -/
theorem call_deposit {c : EviceRollup} {msg : Msg} (hpaused : c.paused = false)
    (hvalue : msg.value ≠ 0) (id : Bytes32) :
    call c (msg, .depositIntent id) =
      .ok ({ c with intentRegistry := Function.update c.intentRegistry id .locked },
        [.intentLocked id msg.sender msg.value]) := by
  refine require_bind.mpr ⟨(Bool.not_eq_true' _).mpr hpaused, ?_⟩
  exact require_bind.mpr ⟨decide_eq_true hvalue, rfl⟩

/-- A batch of the sequencer succeeds if the contract is not paused and the verifier
accepts. -/
theorem call_update {c : EviceRollup} {msg : Msg} (hvalue : msg.value = 0)
    (hsender : msg.sender = c.sequencer) (hpaused : c.paused = false) {newStateRoot : Bytes32}
    {proof : List UInt8}
    (hverified : msg.verifyProof c.verifier c.currentStateRoot newStateRoot proof = some true)
    (ids : List Bytes32) :
    call c (msg, .updateStateWithIntents newStateRoot proof ids) =
      .ok ({ c with
          intentRegistry := (settleIntents c.sequencer c.intentRegistry ids).1
          currentStateRoot := newStateRoot
          currentBatchId := c.currentBatchId + 1 },
        (settleIntents c.sequencer c.intentRegistry ids).2 ++
          [.stateUpdated (c.currentBatchId + 1) c.currentStateRoot newStateRoot]) := by
  refine require_bind.mpr ⟨decide_eq_true hvalue, ?_⟩
  refine require_bind.mpr ⟨decide_eq_true hsender, ?_⟩
  refine require_bind.mpr ⟨(Bool.not_eq_true' _).mpr hpaused, ?_⟩
  dsimp only
  rw [hverified]
  rfl

/-- Whether a batch succeeds does not depend on the ids it lists. -/
theorem update_any {c : EviceRollup} {msg : Msg} {newStateRoot : Bytes32} {proof : List UInt8}
    {ids : List Bytes32} {r : EviceRollup × List Event}
    (h : updateStateWithIntents c msg newStateRoot proof ids = .ok r) (ids' : List Bytes32) :
    updateStateWithIntents c msg newStateRoot proof ids' =
      .ok ({ c with
          intentRegistry := (settleIntents c.sequencer c.intentRegistry ids').1
          currentStateRoot := newStateRoot
          currentBatchId := c.currentBatchId + 1 },
        (settleIntents c.sequencer c.intentRegistry ids').2 ++
          [.stateUpdated (c.currentBatchId + 1) c.currentStateRoot newStateRoot]) := by
  obtain ⟨c', events⟩ := r
  have heffect : Effect c msg (.updateStateWithIntents newStateRoot proof ids) c' events :=
    call_effect h
  obtain ⟨hvalue, -⟩ := require_bind.mp h
  cases heffect with
  | update hsender hpaused hverified =>
    exact call_update (of_decide_eq_true hvalue) hsender hpaused hverified ids'
  | admin hcmd _ => cases hcmd

/-! ## The life cycle of an intent -/

def Event.locks (id : Bytes32) : Event → Bool
  | .intentLocked intentId _ _ => intentId = id
  | _ => false

def Event.settles (id : Bytes32) : Event → Bool
  | .intentSettled intentId _ => intentId = id
  | _ => false

/-- The moves of the life cycle, and no move. -/
inductive IntentStatus.Moves : IntentStatus → IntentStatus → Prop
  | stay (status : IntentStatus) : Moves status status
  | lock : Moves .none .locked
  | resolve : Moves .locked .resolved

/-- In the calls `txs` every intent is locked once, is settled once and moves forward. -/
structure LifeCycle (c : EviceRollup) (txs : List (Msg × Call)) : Prop where
  lockedOnce : ∀ id, (history c txs).2.countP (Event.locks id) ≤ 1
  settledOnce : ∀ id, (history c txs).2.countP (Event.settles id) ≤ 1
  moves : ∀ before tx, before ++ [tx] <+: txs → ∀ id,
    ((history c before).1.intentRegistry id).Moves
      ((history c (before ++ [tx])).1.intentRegistry id)

/-- What a call that emits `events` does to one intent. -/
inductive Turn (id : Bytes32) (cmd : Call) (status : IntentStatus) (events : List Event) :
    IntentStatus → Prop
  | lock (deposit : cmd = .depositIntent id) (locks : events.countP (Event.locks id) = 1)
      (settles : events.countP (Event.settles id) = 0) : Turn id cmd status events .locked
  | settle (locked : status = .locked) (locks : events.countP (Event.locks id) = 0)
      (settles : events.countP (Event.settles id) = 1) : Turn id cmd status events .resolved
  | stay (locks : events.countP (Event.locks id) = 0)
      (settles : events.countP (Event.settles id) = 0) : Turn id cmd status events status

theorem settleIntents_spec (sequencer : Address) (registry : Bytes32 → IntentStatus)
    (ids : List Bytes32) (id : Bytes32) :
    (settleIntents sequencer registry ids).1 id =
        (if registry id = .locked ∧ id ∈ ids then .resolved else registry id) ∧
      (settleIntents sequencer registry ids).2.countP (Event.settles id) =
        (if registry id = .locked ∧ id ∈ ids then 1 else 0) ∧
      (settleIntents sequencer registry ids).2.countP (Event.locks id) = 0 := by
  induction ids using List.reverseRecOn with
  | nil => simp [settleIntents]
  | append_singleton ids x ih =>
    obtain ⟨hstatus, hsettles, hlocks⟩ := ih
    rw [settleIntents, List.foldl_append, List.foldl_cons, List.foldl_nil, ← settleIntents,
      settleIntent]
    split
    · next hlocked =>
      rcases eq_or_ne id x with rfl | hne
      · -- settled now: it was locked and not in the list so far
        rw [hstatus] at hlocked
        have hnow : registry id = .locked ∧ id ∉ ids := by
          split at hlocked
          · cases hlocked
          · next hbefore => exact ⟨hlocked, fun hmem => hbefore ⟨hlocked, hmem⟩⟩
        simp [List.countP_append, hsettles, hlocks, hnow.1, hnow.2, Event.settles, Event.locks]
      · simp [List.countP_append, hstatus, hsettles, hlocks, hne,
          hne.symm, Event.settles, Event.locks]
    · next hlocked =>
      have hsame : (registry id = .locked ∧ id ∈ ids ++ [x]) ↔
          registry id = .locked ∧ id ∈ ids := by
        refine ⟨fun ⟨hid, hmem⟩ => ⟨hid, ?_⟩, fun ⟨hid, hmem⟩ => ⟨hid, List.mem_append_left _ hmem⟩⟩
        refine (List.mem_append.mp hmem).elim (fun hmem => hmem) fun hx => ?_
        obtain rfl := List.mem_singleton.mp hx
        by_contra hnew
        rw [hstatus, if_neg fun h => hnew h.2] at hlocked
        exact hlocked hid
      simp only [hsame]
      exact ⟨hstatus, hsettles, hlocks⟩

/-- What a call that succeeds does to the life cycle of an intent. -/
theorem call_turn {c c' : EviceRollup} {msg : Msg} {cmd : Call} {events : List Event}
    (h : call c (msg, cmd) = .ok (c', events)) (id : Bytes32) :
    Turn id cmd (c.intentRegistry id) events (c'.intentRegistry id) := by
  cases call_effect h with
  | @deposit intentId _ _ =>
    show Turn _ _ _ _ (Function.update c.intentRegistry intentId .locked id)
    rcases eq_or_ne id intentId with rfl | hne
    · rw [Function.update_self]
      exact .lock rfl (by simp [Event.locks]) (by simp [Event.settles])
    · rw [Function.update_of_ne hne]
      exact .stay (by simp [Event.locks, hne.symm]) (by simp [Event.settles])
  | @update _ _ ids _ _ _ =>
    obtain ⟨hstatus, hsettles, hlocks⟩ :=
      settleIntents_spec c.sequencer c.intentRegistry ids id
    show Turn _ _ _ _ ((settleIntents c.sequencer c.intentRegistry ids).1 id)
    rw [hstatus]
    split at hsettles
    · next hnow =>
      rw [if_pos hnow]
      exact .settle hnow.1 (by simp [List.countP_append, hlocks, Event.locks])
        (by simp [List.countP_append, hsettles, Event.settles])
    · next hnow =>
      rw [if_neg hnow]
      exact .stay (by simp [List.countP_append, hlocks, Event.locks])
        (by simp [List.countP_append, hsettles, Event.settles])
  | @admin _ _ _ _ event _ hevent =>
    refine .stay ?_ ?_
    all_goals cases event <;> first | rfl | cases hevent

namespace RollupLemmas

/-- The counts that belong to a status. -/
def Counted (id : Bytes32) (status : IntentStatus) (log : List Event) : Prop :=
  match status with
  | .none => log.countP (Event.locks id) = 0 ∧ log.countP (Event.settles id) = 0
  | .locked => log.countP (Event.locks id) = 1 ∧ log.countP (Event.settles id) = 0
  | .resolved => log.countP (Event.locks id) = 1 ∧ log.countP (Event.settles id) = 1

theorem Counted.le_one {id : Bytes32} {status : IntentStatus} {log : List Event}
    (h : Counted id status log) :
    log.countP (Event.locks id) ≤ 1 ∧ log.countP (Event.settles id) ≤ 1 := by
  cases status with
  | none => exact ⟨h.1.trans_le zero_le_one, h.2.trans_le zero_le_one⟩
  | locked => exact ⟨h.1.le, h.2.trans_le zero_le_one⟩
  | resolved => exact ⟨h.1.le, h.2.le⟩

/-- A turn keeps the counts and moves forward, unless it locks what is not fresh. -/
theorem Counted.turn {id : Bytes32} {cmd : Call} {status status' : IntentStatus}
    {log events : List Event} (h : Counted id status log)
    (hturn : Turn id cmd status events status')
    (hfresh : cmd = .depositIntent id → status = .none) :
    Counted id status' (log ++ events) ∧ status.Moves status' := by
  cases hturn with
  | lock hdeposit hlocks hsettles =>
    obtain rfl := hfresh hdeposit
    exact ⟨⟨by rw [List.countP_append, h.1, hlocks], by rw [List.countP_append, h.2, hsettles]⟩,
      .lock⟩
  | settle hlocked hlocks hsettles =>
    subst hlocked
    exact ⟨⟨by rw [List.countP_append, h.1, hlocks], by rw [List.countP_append, h.2, hsettles]⟩,
      .resolve⟩
  | stay hlocks hsettles =>
    refine ⟨?_, .stay status⟩
    unfold Counted at h ⊢
    rw [List.countP_append, List.countP_append, hlocks, hsettles, Nat.add_zero, Nat.add_zero]
    exact h

variable {c : EviceRollup}

theorem history_step (c : EviceRollup) (txs : List (Msg × Call)) (tx : Msg × Call) :
    (∃ e, call (history c txs).1 tx = .error e ∧ history c (txs ++ [tx]) = history c txs) ∨
    ∃ c' events, call (history c txs).1 tx = .ok (c', events) ∧
      history c (txs ++ [tx]) = (c', (history c txs).2 ++ events) :=
  ledger_step c txs tx

/-- An intent that was touched was locked. -/
theorem locks_of_status (hempty : ∀ id, c.intentRegistry id = .none) (txs : List (Msg × Call))
    {id : Bytes32} (h : (history c txs).1.intentRegistry id ≠ .none) :
    1 ≤ (history c txs).2.countP (Event.locks id) := by
  induction txs using List.reverseRecOn with
  | nil => exact (h (hempty id)).elim
  | append_singleton txs tx ih =>
    obtain ⟨msg, cmd⟩ := tx
    rcases history_step c txs (msg, cmd) with ⟨e, -, hstep⟩ | ⟨c', events, hcall, hstep⟩
    · rw [hstep] at h ⊢
      exact ih h
    · rw [hstep] at h ⊢
      rw [List.countP_append]
      have hturn := call_turn hcall id
      generalize c'.intentRegistry id = status' at h hturn
      cases hturn with
      | lock _ hlocks _ => exact hlocks ▸ Nat.le_add_left _ _
      | settle hlocked _ _ =>
        have hne : (history c txs).1.intentRegistry id ≠ .none := by
          rw [hlocked]
          exact IntentStatus.noConfusion
        exact (ih hne).trans (Nat.le_add_right _ _)
      | stay _ _ => exact (ih h).trans (Nat.le_add_right _ _)

/-- With fresh deposits only, the counts belong to the statuses in the whole run. -/
theorem counted_history (hempty : ∀ id, c.intentRegistry id = .none) {txs : List (Msg × Call)}
    (hfresh : ∀ before msg id, before ++ [(msg, .depositIntent id)] <+: txs →
      (history c before).1.paused = false → msg.value ≠ 0 →
      (history c before).1.intentRegistry id = .none) (id : Bytes32) :
    Counted id ((history c txs).1.intentRegistry id) (history c txs).2 ∧
      ∀ before tx, before ++ [tx] <+: txs →
        ((history c before).1.intentRegistry id).Moves
          ((history c (before ++ [tx])).1.intentRegistry id) := by
  induction txs using List.reverseRecOn with
  | nil =>
    refine ⟨?_, fun before tx hbefore => ?_⟩
    · show Counted id (c.intentRegistry id) []
      rw [hempty]
      exact ⟨rfl, rfl⟩
    · exact (List.append_ne_nil_of_right_ne_nil _ (List.cons_ne_nil _ _)
        (List.prefix_nil.mp hbefore)).elim
  | append_singleton txs tx ih =>
    obtain ⟨msg, cmd⟩ := tx
    obtain ⟨hcounted, hmoves⟩ := ih fun before msg id hbefore =>
      hfresh before msg id (hbefore.trans (List.prefix_append _ _))
    have hstep : Counted id ((history c (txs ++ [(msg, cmd)])).1.intentRegistry id)
        (history c (txs ++ [(msg, cmd)])).2 ∧
        ((history c txs).1.intentRegistry id).Moves
          ((history c (txs ++ [(msg, cmd)])).1.intentRegistry id) := by
      rcases history_step c txs (msg, cmd) with ⟨e, -, hstep⟩ | ⟨c', events, hcall, hstep⟩
      · rw [hstep]
        exact ⟨hcounted, .stay _⟩
      · rw [hstep]
        refine hcounted.turn (call_turn hcall id) ?_
        rintro rfl
        cases call_effect hcall with
        | deposit hpaused hvalue => exact hfresh txs msg id List.prefix_rfl hpaused hvalue
        | admin hcmd _ => cases hcmd
    refine ⟨hstep.1, fun before tx hbefore => ?_⟩
    rcases List.prefix_concat_iff.mp hbefore with heq | hbefore
    · obtain ⟨rfl, rfl⟩ := List.append_singleton_inj.mp heq
      exact hstep.2
    · exact hmoves before tx hbefore

end RollupLemmas

open RollupLemmas

/-- The intents of a run have the intended life cycle if and only if each deposit that is
accepted is for an intent whose status is still `none`. -/
theorem lifeCycle_iff {sequencer owner : Address} {root : Bytes32} {c : EviceRollup}
    (hdeploy : deploy sequencer root owner = .ok c) (txs : List (Msg × Call)) :
    LifeCycle c txs ↔
      ∀ before msg id, before ++ [(msg, .depositIntent id)] <+: txs →
        (history c before).1.paused = false → msg.value ≠ 0 →
        (history c before).1.intentRegistry id = .none := by
  have hempty : ∀ id, c.intentRegistry id = .none := by
    unfold deploy at hdeploy
    split at hdeploy
    · cases hdeploy
    · cases hdeploy
      exact fun _ => rfl
  constructor
  · intro hcycle before msg id hbefore hpaused hvalue
    by_contra hstatus
    -- the deposit is a second lock
    have hfirst := locks_of_status hempty before hstatus
    have hlog : (history c (before ++ [(msg, .depositIntent id)])).2 <+: (history c txs).2 :=
      log_prefix hbefore
    have honce := (hlog.sublist.countP_le (p := Event.locks id)).trans (hcycle.lockedOnce id)
    rcases history_step c before (msg, .depositIntent id) with
      ⟨e, herror, -⟩ | ⟨c', events, hok, hstep⟩
    · rw [call_deposit hpaused hvalue] at herror
      cases herror
    · rw [hstep, List.countP_append] at honce
      rw [call_deposit hpaused hvalue] at hok
      cases hok
      have hlock : [Event.intentLocked id msg.sender msg.value].countP (Event.locks id) = 1 := by
        simp [Event.locks]
      omega
  · intro hfresh
    exact ⟨fun id => (counted_history hempty hfresh id).1.le_one.1,
      fun id => (counted_history hempty hfresh id).1.le_one.2,
      fun before tx hbefore id => (counted_history hempty hfresh id).2 before tx hbefore⟩

/-- A call while `EviceVerifier` is the verifier. -/
def send (sender : Address) (value : UInt256) (cmd : Call) : Msg × Call :=
  (⟨sender, value, fun _ => EviceVerifier.verifyProof⟩, cmd)

/-- A deposit and the batch that resolves it. -/
def settled : List (Msg × Call) :=
  [send 1 0 (.setVerifier 9), send 3 5 (.depositIntent 7),
    send 1 0 (.updateStateWithIntents 1 [0] [7])]

theorem lifeCycle_settled : ∃ c, deploy 1 0 2 = .ok c ∧ LifeCycle c settled := by
  refine ⟨_, rfl, (lifeCycle_iff (rfl : deploy 1 0 2 = .ok _) settled).mpr ?_⟩
  intro before msg id hbefore hpaused hvalue
  match before with
  | [] => rfl
  | [_] =>
    obtain ⟨rfl, -⟩ := List.cons_prefix_cons.mp hbefore
    rfl
  | [_, _] => simp [settled, send] at hbefore
  | _ :: _ :: _ :: _ => simp [settled] at hbefore

/-- A second deposit locks the resolved intent again, and the next batch settles it a
second time. -/
theorem relocked :
    ∃ c, deploy 1 0 2 = .ok c ∧
      (history c settled).1.intentRegistry 7 = .resolved ∧
      (history c (settled ++ [send 4 5 (.depositIntent 7)])).1.intentRegistry 7 = .locked ∧
      (history c (settled ++ [send 4 5 (.depositIntent 7),
        send 1 0 (.updateStateWithIntents 2 [0] [7])])).2.countP (Event.locks 7) = 2 ∧
      (history c (settled ++ [send 4 5 (.depositIntent 7),
        send 1 0 (.updateStateWithIntents 2 [0] [7])])).2.countP (Event.settles 7) = 2 :=
  ⟨_, rfl, rfl, rfl, rfl, rfl⟩

/-! ## A batch is a set of ids -/

/-- After a batch that is accepted, the resolved intents are those resolved before and the
locked ones of the list; nothing else has changed, and `IntentSettled` was emitted once for
each newly resolved intent and for no other. A list of the same ids, in any order and with
any repeats, is accepted as well and leaves the same registry. -/
theorem settlement_of_set {c c' : EviceRollup} {msg : Msg} {newStateRoot : Bytes32}
    {proof : List UInt8} {ids : List Bytes32} {events : List Event}
    (h : updateStateWithIntents c msg newStateRoot proof ids = .ok (c', events)) :
    (∀ id, c'.intentRegistry id = .resolved ↔
      c.intentRegistry id = .resolved ∨ c.intentRegistry id = .locked ∧ id ∈ ids) ∧
    (∀ id, ¬(c.intentRegistry id = .locked ∧ id ∈ ids) →
      c'.intentRegistry id = c.intentRegistry id) ∧
    (∀ id, events.countP (Event.settles id) =
      if c.intentRegistry id = .locked ∧ id ∈ ids then 1 else 0) ∧
    ∀ ids', (∀ id, id ∈ ids' ↔ id ∈ ids) →
      ∃ c'' events', updateStateWithIntents c msg newStateRoot proof ids' = .ok (c'', events') ∧
        c''.intentRegistry = c'.intentRegistry := by
  have hsettle := settleIntents_spec c.sequencer c.intentRegistry
  have hresult := (update_any h ids).symm.trans h
  cases hresult
  dsimp only
  refine ⟨fun id => ?_, fun id hother => ?_, fun id => ?_, fun ids' hsame => ?_⟩
  · rw [(hsettle ids id).1]
    split
    · next hnow => exact ⟨fun _ => .inr hnow, fun _ => rfl⟩
    · next hnow => exact ⟨.inl, fun hor => hor.resolve_right hnow⟩
  · rw [(hsettle ids id).1, if_neg hother]
  · rw [List.countP_append, (hsettle ids id).2.1]
    rfl
  · refine ⟨_, _, update_any h ids', ?_⟩
    funext id
    dsimp only
    rw [(hsettle ids id).1, (hsettle ids' id).1]
    simp only [hsame]

/-- One intent is locked and one is resolved. -/
def halfSettled : EviceRollup :=
  ⟨1, 2, false, 0, 9, 0, fun id => if id = 7 then .locked else if id = 8 then .resolved else .none⟩

/-- The list names the locked intent twice, the resolved one and an unknown one. -/
theorem settlement_of_set_repeats :
    ∃ c' events, updateStateWithIntents halfSettled
        ⟨1, 0, fun _ => EviceVerifier.verifyProof⟩ 1 [0] [7, 9, 8, 7] = .ok (c', events) ∧
      c'.intentRegistry 7 = .resolved ∧ c'.intentRegistry 8 = .resolved ∧
      c'.intentRegistry 9 = .none ∧ events.countP (Event.settles 7) = 1 := by
  have hcall : updateStateWithIntents halfSettled ⟨1, 0, fun _ => EviceVerifier.verifyProof⟩ 1
      [0] [7, 9, 8, 7] = .ok (_, _) := rfl
  obtain ⟨hresolved, hother, honce, -⟩ := settlement_of_set hcall
  have hlocked : halfSettled.intentRegistry 7 = .locked ∧ (7 : Bytes32) ∈ [7, 9, 8, 7] :=
    ⟨rfl, List.mem_cons_self⟩
  exact ⟨_, _, hcall, (hresolved 7).mpr (.inr hlocked), (hresolved 8).mpr (.inl rfl),
    hother 9 (fun h => by cases h.1), (honce 7).trans (if_pos hlocked)⟩

end EviceChain.Settlement
