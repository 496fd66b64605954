import EviceChain.Foundation.Run
import EviceChain.Sequencer.State

/-!
# The swarm loop (`p2p/swarm.rs`)

The loop takes one event or command after another. What needs more time is left to
a task of its own, but the loop itself waits for the lock of `peer_scores` when a
connection comes or goes or a penalty is due, and for room in the consensus channel
when it forwards the content of a response. The task of a gossip message holds the
lock of `peer_scores` while it forwards the message.

A waiting task may take a free lock or a free place in any order. What a task does
between two points at which it waits is one step, taken at a time `now`. The steps
of the loop that neither wait nor touch this state (dialling, discovery, lookups for
other nodes) do nothing here.

Results:
1. `wellLocked`: `peer_scores` has one holder at most, and the channel no more messages
   than it has room for;
2. `authority_resumes`: at an authority, a loop that waits can always go on;
3. `swarm_never_wedged_iff`: at the other nodes it can be stuck for good.
-/

namespace EviceChain.P2p

open Foundation Sequencer

/-! ## Peers and their scores (`p2p/types.rs`) -/

/-- Seconds. -/
abbrev Instant := Nat

def initialPeerScore : Int := 0
def maxPeerScore : Int := 100
def banThreshold : Int := -50
def penaltyDeserializationError : Int := -5
def rewardValidMessage : Int := 2
def banDuration : Nat := 1800

structure PeerInfo where
  score : Int
  isBanned : Bool
  banUntil : Option Instant
deriving DecidableEq

namespace PeerInfo

def new : PeerInfo := ⟨initialPeerScore, false, none⟩

/-- The score that a penalty leaves. -/
def penalized (info : PeerInfo) (penalty : Int) : Int :=
  max (info.score + penalty) (banThreshold - 1)

def applyPenalty (info : PeerInfo) (penalty : Int) (now : Instant) : PeerInfo :=
  let score := info.penalized penalty
  if score ≤ banThreshold then ⟨score, true, some (now + banDuration)⟩ else { info with score }

def applyReward (info : PeerInfo) (reward : Int) : PeerInfo :=
  { info with score := min (info.score + reward) maxPeerScore }

end PeerInfo

/-! ## What arrives -/

inductive ChainMessage
  | newPayload (payload : AppPayload)
  | newConsensusMessage (msg : ConsensusMessage)
deriving DecidableEq

structure OptimisticConfirmation where
  header : BatchHeader
  payloadHashes : List Bytes
  parentQc : QuorumCertificate
  round : UInt64
deriving DecidableEq

/-- A `SyncRequest` of another node. -/
inductive Request
  | informAboutPeers (addresses : List String)
  | consensusRequest (msg : ConsensusMessage)
  | getFullProposal (batchHash : Bytes)
  | fullProposalForCommittee (confirmation : OptimisticConfirmation) (payloads : List AppPayload)
  | submitVote (vote : VelocityVote)
deriving DecidableEq

/-- A `SyncResponse` of another node. -/
inductive Response
  | peers (addresses : List String)
  | consensusResponse (msg : Option ConsensusMessage)
  | fullProposal (batch : Option PendingBatch)
  | fullProposalReceivedAck
  | voteAck
  | peersReceivedAck
deriving DecidableEq

/-- The message that a request brings for the engine. -/
def Request.forwards? : Request → Option ConsensusMessage
  | .consensusRequest msg => some msg
  | .fullProposalForCommittee confirmation payloads =>
    some (.intentBatchProposal
      ⟨confirmation.header, payloads, confirmation.parentQc, confirmation.round⟩)
  | .submitVote vote => some (.velocityVoteMsg vote)
  | .informAboutPeers _ | .getFullProposal _ => none

/-- The message that a response brings for the engine. -/
def Response.forwards? : Response → Option ConsensusMessage
  | .consensusResponse msg => msg
  | .fullProposal batch => batch.map fun pending => .intentBatchProposal pending.toPayload
  | .peers _ | .fullProposalReceivedAck | .voteAck | .peersReceivedAck => none

/-- The events of the swarm and the commands that the loop takes. -/
inductive Event
  | connectionEstablished (peer : PeerId)
  | connectionClosed (peer : PeerId)
  /-- A message on the main topic, if it can be read as one. -/
  | gossip (peer : PeerId) (data : Option ChainMessage)
  /-- A message on the topic for lost proposals. -/
  | fallbackGossip (peer : PeerId)
  | request (peer : PeerId) (request : Request)
  | response (peer : PeerId) (response : Response)
  | command (cmd : P2pCommand)
deriving DecidableEq

/-! ## The loop, its tasks and the consensus channel -/

inductive ScoreUpdate
  | established
  | closed
  | penalty (penalty : Int)
deriving DecidableEq

/-- Where the loop is. -/
inductive Loop
  | ready
  /-- It waits for the lock of `peer_scores`. -/
  | lockScores (peer : PeerId) (update : ScoreUpdate)
  /-- It sends to the engine. -/
  | forward (peer : PeerId) (msg : ConsensusMessage)
deriving DecidableEq

/-- Where a task is. -/
inductive Task
  /-- The task of a gossip message waits for the lock of `peer_scores`. -/
  | lockScores (peer : PeerId) (data : Option ChainMessage)
  /-- It holds the lock and sends to the engine. -/
  | forward (peer : PeerId) (msg : ConsensusMessage)
  /-- The task of a request sends to the engine. -/
  | direct (peer : PeerId) (msg : ConsensusMessage)
deriving DecidableEq

def Task.holdsScores : Task → Bool
  | .forward _ _ => true
  | _ => false

/-- What has happened to a peer. -/
inductive Record
  | banned (peer : PeerId) (banUntil : Instant)
  | forwarded (peer : PeerId) (msg : ConsensusMessage) (time : Instant)
deriving DecidableEq

/-- The `log` is the past of the node; no code reads it. -/
structure State where
  peerScores : PeerId → Option PeerInfo
  channel : List (ConsensusMessage × PeerId)
  loop : Loop
  tasks : List Task
  clock : Instant
  log : List Record

/-- The nodes that `main` starts: only an authority has an engine that reads the
consensus channel. -/
inductive NodeKind
  | authority
  | nonAuthority
deriving DecidableEq

/-- The room in the consensus channel. -/
def channelCapacity : Nat := 100

namespace State

def new : State := ⟨fun _ => none, [], .ready, [], 0, []⟩

/-- Some task holds the lock of `peer_scores`. -/
def locked (s : State) : Bool := s.tasks.any Task.holdsScores

/-- `p2p_to_consensus_tx.send`, when there is room. -/
def forward (s : State) (peer : PeerId) (msg : ConsensusMessage) : State :=
  { s with channel := s.channel ++ [(msg, peer)], log := s.log ++ [.forwarded peer msg s.clock] }

def setScore (s : State) (peer : PeerId) (info : PeerInfo) : State :=
  { s with peerScores := Function.update s.peerScores peer (some info) }

/-- `entry(peer).or_insert_with(PeerInfo::new)`. -/
def infoOrNew (s : State) (peer : PeerId) : PeerInfo := (s.peerScores peer).getD .new

def penalize (s : State) (peer : PeerId) (info : PeerInfo) (penalty : Int) : State :=
  let s' := s.setScore peer (info.applyPenalty penalty s.clock)
  if info.penalized penalty ≤ banThreshold then
    { s' with log := s.log ++ [.banned peer (s.clock + banDuration)] }
  else s'

def reward (s : State) (peer : PeerId) : State :=
  s.setScore peer ((s.infoOrNew peer).applyReward rewardValidMessage)

/-- What the loop does under the lock of `peer_scores`. -/
def updateScores (s : State) (peer : PeerId) : ScoreUpdate → State
  | .established => s.setScore peer (s.infoOrNew peer)
  | .closed => { s with peerScores := Function.update s.peerScores peer none }
  | .penalty penalty =>
    match s.peerScores peer with
    | some info => s.penalize peer info penalty
    | none => s

/-- The loop takes an event, up to the first point at which it waits. -/
def handle (s : State) : Event → State
  | .connectionEstablished peer => { s with loop := .lockScores peer .established }
  | .connectionClosed peer => { s with loop := .lockScores peer .closed }
  | .gossip peer data => { s with tasks := s.tasks ++ [.lockScores peer data] }
  | .fallbackGossip _ => s
  | .request peer request =>
    match request.forwards? with
    | some msg => { s with tasks := s.tasks ++ [.direct peer msg] }
    | none => s
  | .response peer response =>
    match response.forwards? with
    | some msg => { s with loop := .forward peer msg }
    | none => s
  | .command (.applyPenalty peer penalty) =>
    { s with loop := .lockScores peer (.penalty penalty) }
  | .command _ => s

end State

inductive Step
  /-- The loop takes an event. -/
  | event (event : Event)
  /-- The loop gets what it has been waiting for. -/
  | loop
  /-- The `k`-th task gets what it has been waiting for. -/
  | run (k : Nat)
  /-- The engine takes a message out of the channel. -/
  | drain
deriving DecidableEq

/-- A step at the time of the clock; `none` if it is not possible. -/
def State.advance (kind : NodeKind) (s : State) : Step → Option State
  | .event event =>
    match s.loop with
    | .ready => some (s.handle event)
    | _ => none
  | .loop =>
    match s.loop with
    | .ready => none
    | .lockScores peer update =>
      if s.locked then none else some { s.updateScores peer update with loop := .ready }
    | .forward peer msg =>
      if s.channel.length < channelCapacity then some { s.forward peer msg with loop := .ready }
      else none
  | .run k =>
    match s.tasks[k]? with
    | none => none
    | some (.lockScores peer data) =>
      if s.locked then none
      else
        match data with
        | some (.newConsensusMessage msg) =>
          some { s.setScore peer (s.infoOrNew peer) with
            tasks := s.tasks.set k (.forward peer msg) }
        | some (.newPayload _) => some { s.reward peer with tasks := s.tasks.eraseIdx k }
        | none =>
          some { s.penalize peer (s.infoOrNew peer) penaltyDeserializationError with
            tasks := s.tasks.eraseIdx k }
    | some (.forward peer msg) =>
      if s.channel.length < channelCapacity then
        some { (s.forward peer msg).reward peer with tasks := s.tasks.eraseIdx k }
      else none
    | some (.direct peer msg) =>
      if s.channel.length < channelCapacity then
        some { s.forward peer msg with tasks := s.tasks.eraseIdx k }
      else none
  | .drain =>
    match kind, s.channel with
    | .authority, _ :: rest => some { s with channel := rest }
    | _, _ => none

/-- A step at a time, which is not before that of the last one. -/
def State.step (kind : NodeKind) (s : State) (timed : Instant × Step) : Option State :=
  if s.clock ≤ timed.1 then { s with clock := timed.1 }.advance kind timed.2 else none

/-- The states that a node comes to by steps that satisfy `ok`. -/
abbrev Reaches (kind : NodeKind) (ok : State → Instant × Step → Prop) (s : State) : Prop :=
  Run (State.step kind) ok .new s

/-- What a step needs, and what it leads to. -/
inductive Advances (kind : NodeKind) (s : State) : Step → State → Prop
  | event {event : Event} : s.loop = .ready → Advances kind s (.event event) (s.handle event)
  | update {peer : PeerId} {update : ScoreUpdate} :
      s.loop = .lockScores peer update → s.locked = false →
      Advances kind s .loop { s.updateScores peer update with loop := .ready }
  | respond {peer : PeerId} {msg : ConsensusMessage} :
      s.loop = .forward peer msg → s.channel.length < channelCapacity →
      Advances kind s .loop { s.forward peer msg with loop := .ready }
  | lock {k : Nat} {peer : PeerId} {msg : ConsensusMessage} :
      s.tasks[k]? = some (.lockScores peer (some (.newConsensusMessage msg))) →
      s.locked = false →
      Advances kind s (.run k)
        { s.setScore peer (s.infoOrNew peer) with tasks := s.tasks.set k (.forward peer msg) }
  | payload {k : Nat} {peer : PeerId} {payload : AppPayload} :
      s.tasks[k]? = some (.lockScores peer (some (.newPayload payload))) → s.locked = false →
      Advances kind s (.run k) { s.reward peer with tasks := s.tasks.eraseIdx k }
  | unreadable {k : Nat} {peer : PeerId} :
      s.tasks[k]? = some (.lockScores peer none) → s.locked = false →
      Advances kind s (.run k)
        { s.penalize peer (s.infoOrNew peer) penaltyDeserializationError with
          tasks := s.tasks.eraseIdx k }
  | forward {k : Nat} {peer : PeerId} {msg : ConsensusMessage} :
      s.tasks[k]? = some (.forward peer msg) → s.channel.length < channelCapacity →
      Advances kind s (.run k)
        { (s.forward peer msg).reward peer with tasks := s.tasks.eraseIdx k }
  | direct {k : Nat} {peer : PeerId} {msg : ConsensusMessage} :
      s.tasks[k]? = some (.direct peer msg) → s.channel.length < channelCapacity →
      Advances kind s (.run k) { s.forward peer msg with tasks := s.tasks.eraseIdx k }
  | drain {entry : ConsensusMessage × PeerId} {rest : List (ConsensusMessage × PeerId)} :
      kind = .authority → s.channel = entry :: rest →
      Advances kind s .drain { s with channel := rest }

namespace SwarmLemmas

variable {kind : NodeKind} {s s' : State}

theorem advances_of_advance {step : Step} (h : s.advance kind step = some s') :
    Advances kind s step s' := by
  cases step with
  | event event =>
    dsimp only [State.advance] at h
    split at h
    · next hloop =>
      cases h
      exact .event hloop
    · cases h
  | loop =>
    dsimp only [State.advance] at h
    split at h
    · cases h
    · next hloop =>
      split at h
      · cases h
      · next hlocked =>
        cases h
        exact .update hloop (Bool.eq_false_iff.mpr hlocked)
    · next hloop =>
      split at h
      · next hroom =>
        cases h
        exact .respond hloop hroom
      · cases h
  | run k =>
    dsimp only [State.advance] at h
    split at h
    · cases h
    · next htask =>
      split at h
      · cases h
      · next hlocked =>
        have hlocked := Bool.eq_false_iff.mpr hlocked
        split at h <;> cases h
        · exact .lock htask hlocked
        · exact .payload htask hlocked
        · exact .unreadable htask hlocked
    · next htask =>
      split at h
      · next hroom =>
        cases h
        exact .forward htask hroom
      · cases h
    · next htask =>
      split at h
      · next hroom =>
        cases h
        exact .direct htask hroom
      · cases h
  | drain =>
    dsimp only [State.advance] at h
    split at h
    · next hchannel =>
      cases h
      exact .drain rfl hchannel
    · cases h

/-- A step at a later time. -/
theorem advances_of_step {timed : Instant × Step} (h : s.step kind timed = some s') :
    s.clock ≤ timed.1 ∧ Advances kind { s with clock := timed.1 } timed.2 s' := by
  unfold State.step at h
  split at h
  · next hlater => exact ⟨hlater, advances_of_advance h⟩
  · cases h

/-! The parts of the state that are left alone. -/

theorem penalize_same (s : State) (peer : PeerId) (info : PeerInfo) (penalty : Int) :
    (s.penalize peer info penalty).tasks = s.tasks ∧
      (s.penalize peer info penalty).channel = s.channel ∧
      (s.penalize peer info penalty).clock = s.clock := by
  unfold State.penalize
  split <;> exact ⟨rfl, rfl, rfl⟩

theorem updateScores_same (s : State) (peer : PeerId) (update : ScoreUpdate) :
    (s.updateScores peer update).tasks = s.tasks ∧
      (s.updateScores peer update).channel = s.channel ∧
      (s.updateScores peer update).clock = s.clock := by
  cases update with
  | established | closed => exact ⟨rfl, rfl, rfl⟩
  | penalty penalty =>
    dsimp only [State.updateScores]
    split
    · exact penalize_same s peer _ penalty
    · exact ⟨rfl, rfl, rfl⟩

/-- An event leaves the channel alone and starts at most one task, which does not
hold the lock. -/
theorem handle_same (s : State) (event : Event) :
    (s.handle event).channel = s.channel ∧ (s.handle event).clock = s.clock ∧
      ((s.handle event).tasks = s.tasks ∨
        ∃ task, task.holdsScores = false ∧ (s.handle event).tasks = s.tasks ++ [task]) := by
  cases event with
  | gossip peer data => exact ⟨rfl, rfl, .inr ⟨_, rfl, rfl⟩⟩
  | request peer request =>
    dsimp only [State.handle]
    split
    · exact ⟨rfl, rfl, .inr ⟨_, rfl, rfl⟩⟩
    · exact ⟨rfl, rfl, .inl rfl⟩
  | response peer response =>
    dsimp only [State.handle]
    split <;> exact ⟨rfl, rfl, .inl rfl⟩
  | command cmd => cases cmd <;> exact ⟨rfl, rfl, .inl rfl⟩
  | connectionEstablished | connectionClosed | fallbackGossip => exact ⟨rfl, rfl, .inl rfl⟩

theorem clock_of_advances {step : Step} (h : Advances kind s step s') : s'.clock = s.clock := by
  cases h with
  | event => exact (handle_same s _).2.1
  | update => exact (updateScores_same s _ _).2.2
  | unreadable => exact (penalize_same s _ _ _).2.2
  | _ => rfl

end SwarmLemmas

open SwarmLemmas

/-- The tasks that hold the lock of `peer_scores`. -/
def State.holders (s : State) : Nat := s.tasks.countP Task.holdsScores

/-- One holder of the lock at most, and a channel that is not overfull. -/
structure WellLocked (s : State) : Prop where
  exclusive : s.holders ≤ 1
  channel : s.channel.length ≤ channelCapacity

section

variable {kind : NodeKind} {s s' : State}

theorem holders_of_unlocked (h : s.locked = false) : s.holders = 0 := by
  refine List.countP_eq_zero.mpr fun task htask hholds => ?_
  have hlocked : s.locked = true := List.any_eq_true.mpr ⟨task, htask, hholds⟩
  rw [h] at hlocked
  cases hlocked

theorem WellLocked.later (h : WellLocked s) (now : Instant) :
    WellLocked { s with clock := now } :=
  ⟨h.exclusive, h.channel⟩

theorem WellLocked.advances {step : Step} (h : WellLocked s) (hstep : Advances kind s step s') :
    WellLocked s' := by
  have herase (k : Nat) : (s.tasks.eraseIdx k).countP Task.holdsScores ≤ 1 :=
    ((List.eraseIdx_sublist s.tasks k).countP_le).trans h.exclusive
  have hsend (peer : PeerId) (msg : ConsensusMessage)
      (hroom : s.channel.length < channelCapacity) :
      (s.channel ++ [(msg, peer)]).length ≤ channelCapacity := by
    rwa [List.length_append]
  cases hstep with
  | @event event hloop =>
    obtain ⟨hchannel, -, hsame | ⟨task, hfree, hnew⟩⟩ := handle_same s event
    · exact ⟨(congrArg (List.countP _) hsame).trans_le h.exclusive, hchannel ▸ h.channel⟩
    · refine ⟨?_, hchannel ▸ h.channel⟩
      rw [State.holders, hnew, List.countP_append, List.countP_singleton, hfree]
      exact h.exclusive
  | @update peer update hloop hlocked =>
    obtain ⟨htasks, hchannel, -⟩ := updateScores_same s peer update
    exact ⟨(congrArg (List.countP _) htasks).trans_le h.exclusive, hchannel ▸ h.channel⟩
  | respond hloop hroom => exact ⟨h.exclusive, hsend _ _ hroom⟩
  | @lock k peer msg htask hlocked =>
    refine ⟨?_, h.channel⟩
    have hnone := holders_of_unlocked hlocked
    show (s.tasks.set k (.forward peer msg)).countP _ ≤ 1
    obtain ⟨hk, -⟩ := List.getElem?_eq_some_iff.mp htask
    unfold State.holders at hnone
    rw [List.countP_set hk, hnone, Nat.zero_sub]
    exact le_rfl
  | payload => exact ⟨herase _, h.channel⟩
  | unreadable => exact ⟨herase _, (penalize_same s _ _ _).2.1 ▸ h.channel⟩
  | forward htask hroom | direct htask hroom => exact ⟨herase _, hsend _ _ hroom⟩
  | drain hkind hchannel =>
    refine ⟨h.exclusive, le_trans ?_ h.channel⟩
    rw [hchannel]
    exact Nat.le_succ _

theorem wellLocked {ok : State → Instant × Step → Prop} (h : Reaches kind ok s) :
    WellLocked s :=
  h.invariant ⟨Nat.zero_le _, Nat.zero_le _⟩ fun _ _ hstep ih =>
    (WellLocked.later ih _).advances (advances_of_step hstep).2

end

/-! ## A loop that is stuck -/

/-- The loop waits for the lock of `peer_scores`, the task that holds it waits to send
on the consensus channel, which is full, and nobody takes anything out of it. -/
structure Wedged (kind : NodeKind) (s : State) : Prop where
  loop : ∃ peer update, s.loop = .lockScores peer update
  holder : ∃ peer msg, .forward peer msg ∈ s.tasks
  full : channelCapacity ≤ s.channel.length
  undrained : s.advance kind .drain = none

/-- The steps that are not the arrival of something new. -/
def Internal (_ : State) (timed : Instant × Step) : Prop := ∀ event, timed.2 ≠ .event event

namespace SwarmLemmas

variable {kind : NodeKind} {s s' : State}

theorem locked_of_mem {peer : PeerId} {msg : ConsensusMessage} (h : .forward peer msg ∈ s.tasks) :
    s.locked = true :=
  List.any_eq_true.mpr ⟨_, h, rfl⟩

end SwarmLemmas

/-- Nothing can happen any more. -/
theorem Wedged.advance_eq_none {kind : NodeKind} {s : State} (h : Wedged kind s) (step : Step) :
    s.advance kind step = none := by
  obtain ⟨peer, update, hloop⟩ := h.loop
  obtain ⟨peer', msg, hholder⟩ := h.holder
  have hlocked := locked_of_mem hholder
  by_contra hsome
  obtain ⟨s', hstep⟩ := Option.ne_none_iff_exists'.mp hsome
  cases advances_of_advance hstep with
  | event hready =>
    rw [hloop] at hready
    cases hready
  | update _ hfree | lock _ hfree | payload _ hfree | unreadable _ hfree =>
    rw [hlocked] at hfree
    cases hfree
  | respond _ hroom | forward _ hroom | direct _ hroom => exact hroom.not_ge h.full
  | drain =>
    rw [h.undrained] at hstep
    cases hstep

namespace SwarmLemmas

variable {kind : NodeKind} {s s' : State}

/-- A step that is made at the time of the clock. -/
theorem step_of_advance {step : Step} (h : s.advance kind step = some s') :
    s.step kind (s.clock, step) = some s' := by
  rw [State.step, if_pos le_rfl]
  exact h

/-- The node takes a gossip message, and its task gets the lock. -/
theorem exists_holder (msg : ConsensusMessage) (hrun : Reaches kind (fun _ _ => True) s)
    (hready : s.loop = .ready) (htasks : s.tasks = []) :
    ∃ s', Reaches kind (fun _ _ => True) s' ∧ s'.loop = .ready ∧ s'.tasks = [.forward 0 msg] ∧
      s'.channel = s.channel := by
  obtain ⟨scores, channel, loop, tasks, clock, log⟩ := s
  cases hready
  cases htasks
  have harrived := hrun.tail (a := (_, .event (.gossip 0 (some (.newConsensusMessage msg)))))
    trivial (step_of_advance rfl)
  exact ⟨_, harrived.tail (a := (_, .run 0)) trivial (step_of_advance rfl), rfl, rfl, rfl⟩

/-- The channel can be filled. -/
theorem exists_filled (msg : ConsensusMessage) {n : Nat} (hn : n ≤ channelCapacity) :
    ∃ s, Reaches kind (fun _ _ => True) s ∧ s.loop = .ready ∧ s.tasks = [] ∧
      s.channel.length = n := by
  induction n with
  | zero => exact ⟨.new, .refl, rfl, rfl, rfl⟩
  | succ n ih =>
    obtain ⟨s, hrun, hready, htasks, hlength⟩ := ih (Nat.le_of_succ_le hn)
    obtain ⟨s', hrun', hready', htasks', hchannel⟩ := exists_holder msg hrun hready htasks
    have hroom : s'.channel.length < channelCapacity := by
      rw [hchannel, hlength]
      exact hn
    have hsends : s'.advance kind (.run 0) =
        some { (s'.forward 0 msg).reward 0 with tasks := [] } := by
      rw [State.advance, htasks']
      exact if_pos hroom
    refine ⟨_, hrun'.tail trivial (step_of_advance hsends), hready', rfl, ?_⟩
    show (s'.channel ++ [(msg, 0)]).length = n + 1
    rw [List.length_append, hchannel, hlength]
    rfl

/-- One more message and a new connection, and a node that does not read the channel
is stuck. -/
theorem exists_wedged (msg : ConsensusMessage) :
    ∃ s, Reaches .nonAuthority (fun _ _ => True) s ∧ Wedged .nonAuthority s := by
  obtain ⟨s, hrun, hready, htasks, hlength⟩ := exists_filled msg le_rfl
  obtain ⟨s', hrun', hready', htasks', hchannel⟩ := exists_holder msg hrun hready htasks
  have hconnects : s'.advance .nonAuthority (.event (.connectionEstablished 1)) =
      some { s' with loop := .lockScores 1 .established } := by
    rw [State.advance, hready']
    rfl
  refine ⟨_, hrun'.tail trivial (step_of_advance hconnects), ⟨1, _, rfl⟩, ⟨0, msg, ?_⟩, ?_, rfl⟩
  · rw [htasks']
    exact List.mem_singleton_self _
  · exact (hlength.symm.trans (congrArg List.length hchannel.symm)).le

end SwarmLemmas

section Resume

variable {ok : State → Instant × Step → Prop} {s : State}

/-- The engine makes room in the channel. -/
theorem exists_room (h : WellLocked s) :
    ∃ s', Run (State.step .authority) Internal s s' ∧ s'.channel.length < channelCapacity ∧
      s'.tasks = s.tasks ∧ s'.loop = s.loop := by
  rcases h.channel.lt_or_eq with hroom | hfull
  · exact ⟨s, .refl, hroom, rfl, rfl⟩
  · cases hchannel : s.channel with
    | nil =>
      rw [hchannel] at hfull
      cases hfull
    | cons entry rest =>
      have hdrain : s.advance .authority .drain = some { s with channel := rest } := by
        unfold State.advance
        rw [hchannel]
      rw [hchannel] at hfull
      exact ⟨_, Run.refl.tail (fun _ h => by cases h) (step_of_advance hdrain),
        (Nat.lt_succ_self rest.length).trans_eq hfull, rfl, rfl⟩

/-- The holder of the lock sends its message and gives the lock back. -/
theorem exists_unlocked (h : WellLocked s) :
    ∃ s', Run (State.step .authority) Internal s s' ∧ s'.locked = false ∧ s'.loop = s.loop := by
  cases hlocked : s.locked with
  | false => exact ⟨s, .refl, hlocked, rfl⟩
  | true =>
    obtain ⟨task, hmem, hholds⟩ := List.any_eq_true.mp hlocked
    obtain ⟨k, hk, rfl⟩ := List.getElem_of_mem hmem
    obtain ⟨s', hrun, hroom, htasks, hloop⟩ := exists_room h
    cases htask : s.tasks[k] with
    | lockScores | direct =>
      rw [htask] at hholds
      cases hholds
    | forward peer msg =>
      have hsends : s'.advance .authority (.run k) =
          some { (s'.forward peer msg).reward peer with tasks := s'.tasks.eraseIdx k } := by
        rw [State.advance, htasks, List.getElem?_eq_getElem hk, htask]
        exact if_pos hroom
      refine ⟨_, hrun.tail (fun _ h => by cases h) (step_of_advance hsends), ?_, hloop⟩
      -- it was the only one
      have hone := h.exclusive
      rw [State.holders, ← (List.getElem_cons_eraseIdx_perm hk).countP_eq,
        List.countP_cons_of_pos hholds] at hone
      show (s'.tasks.eraseIdx k).any Task.holdsScores = false
      rw [htasks, List.any_eq_false]
      exact List.countP_eq_zero.mp (Nat.le_zero.mp (Nat.le_of_succ_le_succ hone))

/-- Whatever the loop of an authority waits for, it can get without anything new
arriving. -/
theorem authority_resumes (h : Reaches .authority ok s) :
    ∃ s', Run (State.step .authority) Internal s s' ∧ s'.loop = .ready := by
  cases hloop : s.loop with
  | ready => exact ⟨s, .refl, hloop⟩
  | lockScores peer update =>
    obtain ⟨s', hrun, hfree, hsame⟩ := exists_unlocked (wellLocked h)
    have hupdates : s'.advance .authority .loop =
        some { s'.updateScores peer update with loop := .ready } := by
      rw [State.advance, hsame, hloop]
      exact if_neg (Bool.eq_false_iff.mp hfree)
    exact ⟨_, hrun.tail (fun _ h => by cases h) (step_of_advance hupdates), rfl⟩
  | forward peer msg =>
    obtain ⟨s', hrun, hroom, -, hsame⟩ := exists_room (wellLocked h)
    have hsends : s'.advance .authority .loop =
        some { s'.forward peer msg with loop := .ready } := by
      rw [State.advance, hsame, hloop]
      exact if_pos hroom
    exact ⟨_, hrun.tail (fun _ h => by cases h) (step_of_advance hsends), rfl⟩

end Resume

/-- The loop of a node is never stuck if and only if the node is an authority. -/
theorem swarm_never_wedged_iff (kind : NodeKind) :
    (∀ s, Reaches kind (fun _ _ => True) s → ¬ Wedged kind s) ↔ kind = .authority := by
  constructor
  · intro hnever
    cases kind with
    | authority => rfl
    | nonAuthority =>
      obtain ⟨s, hrun, hwedged⟩ :=
        exists_wedged (.newQuorumCertificate genesisQc)
      exact (hnever s hrun hwedged).elim
  · rintro rfl s - hwedged
    -- a full channel has a message, and the engine takes it
    have hfull := hwedged.full
    have hundrained := hwedged.undrained
    unfold State.advance at hundrained
    cases hchannel : s.channel with
    | nil =>
      rw [hchannel] at hfull
      exact absurd hfull (by decide)
    | cons entry rest =>
      rw [hchannel] at hundrained
      cases hundrained

/-- A hundred and one gossip messages fill the channel of a node that is no authority,
and the last of them holds the lock when a new connection comes. -/
theorem nonAuthority_wedges :
    ∃ s, Reaches .nonAuthority (fun _ _ => True) s ∧ Wedged .nonAuthority s :=
  exists_wedged (.newQuorumCertificate genesisQc)

end EviceChain.P2p
