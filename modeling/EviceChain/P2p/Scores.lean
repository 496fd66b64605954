import EviceChain.P2p.Slices
import EviceChain.Sequencer.Acts

/-!
# What the score of a peer says

A peer loses 5 points for a message on the main topic that cannot be read, and 50 for a
quorum certificate that the engine finds invalid; it gains 2 for every other message.
At -50 it is banned.

A run of a process is looked at together with what has happened to it (`hear`). The
main topic brings bytes, of which some are read as a message and some are not
(`fromSlice`), and the commands that the loop takes are those that the engine has sent.
Results:
1. `scores_bounded`: every score stays between -51 and 100, and a peer is marked as banned
   just if the end of its ban is set;
2. `banned_for_cause`: a peer is banned only if it has relayed an invalid certificate, or
   ten messages that cannot be read.
-/

namespace EviceChain.P2p

open Foundation Sequencer NetworkLemmas SwarmLemmas BansLemmas

variable {C : Crypto}

/-! ## Runs with their past -/

inductive Input
  /-- A message on the main topic. -/
  | gossip (now : Instant) (peer : PeerId) (data : Bytes)
  | move (move : Move)
deriving DecidableEq

/-- What is read off the main topic is up to `borsh::from_slice`. -/
def Input.toMove (fromSlice : Bytes → Option ChainMessage) : Input → Move
  | .gossip now peer data => .event now (.gossip peer (fromSlice data))
  | .move taken => taken

/-- One more input, with those before it. -/
def hear (fromSlice : Bytes → Option ChainMessage) (kind : NodeKind) (cfg : Config C)
    (s : Process × List Input) (input : Input) : Option (Process × List Input) :=
  (s.1.step kind cfg (input.toMove fromSlice)).map fun p => (p, s.2 ++ [input])

/-- What is on the main topic comes as bytes, and commands come from the engine. -/
def Genuine (s : Process × List Input) : Input → Prop
  | .move (.event _ (.gossip _ _)) => False
  | .move (.event _ (.command cmd)) => cmd ∈ s.1.node.outbox
  | _ => True

instance (s : Process × List Input) : (input : Input) → Decidable (Genuine s input)
  | .gossip .. => .isTrue trivial
  | .move taken =>
    match taken with
    | .event _ arrived =>
      match arrived with
      | .gossip .. => .isFalse id
      | .command cmd => inferInstanceAs (Decidable (cmd ∈ s.1.node.outbox))
      | .connectionEstablished _ | .connectionClosed _ | .fallbackGossip _ | .request _ _
      | .response _ _ => .isTrue trivial
    | .fallback .. | .loop _ | .run _ _ | .lookup _ | .drain _ | .act _ => .isTrue trivial

/-- The runs of a process from its start. -/
abbrev Hears (fromSlice : Bytes → Option ChainMessage) (kind : NodeKind) (cfg : Config C) :
    Process × List Input → Prop :=
  Run (hear fromSlice kind cfg) Genuine (.new genesisQc, [])

/-- The message for the engine that comes in, and the peer that relays it. -/
def Input.relays? (fromSlice : Bytes → Option ChainMessage) (input : Input) :
    Option (PeerId × ConsensusMessage) :=
  match input.toMove fromSlice with
  | .event _ arrived => arrived.relays?
  | _ => none

/-- The peer has relayed bytes that are no message. -/
def Input.unreadableFrom (fromSlice : Bytes → Option ChainMessage) (peer : PeerId) :
    Input → Bool
  | .gossip _ source data => source = peer && (fromSlice data).isNone
  | .move _ => false

/-- The peer has relayed the message. -/
def Relayed (fromSlice : Bytes → Option ChainMessage) (inputs : List Input)
    (relayed : PeerId × ConsensusMessage) : Prop :=
  ∃ input ∈ inputs, input.relays? fromSlice = some relayed

/-- The peer has relayed a certificate that is not valid. -/
def RelayedInvalid (fromSlice : Bytes → Option ChainMessage) (cfg : Config C)
    (inputs : List Input) (peer : PeerId) : Prop :=
  ∃ qc, Relayed fromSlice inputs (peer, .newQuorumCertificate qc) ∧
    isFullyValid C cfg.addressBook qc = false

/-! ## The score of one peer -/

/-- The messages of a peer that cannot be read and are not yet dealt with. -/
def State.unread (s : State) (peer : PeerId) : Nat := s.tasks.count (.lockScores peer none)

/-- The score of a peer, new or known. -/
def State.scoreOf (s : State) (peer : PeerId) : Int := (s.infoOrNew peer).score

/-- A peer that has relayed `n` messages that cannot be read, and nothing worse. -/
structure Fair (s : State) (peer : PeerId) (n : Nat) : Prop where
  pending : s.unread peer ≤ n
  score : 5 * (s.unread peer : Int) ≤ s.scoreOf peer + 5 * n
  atMost : s.scoreOf peer ≤ maxPeerScore
  banned : ∀ info, s.peerScores peer = some info → info.isBanned = true → 10 ≤ n

/-- Whether the step brings a message of the peer that cannot be read. -/
def Step.unreadableFrom (peer : PeerId) (step : Step) : Nat :=
  if step = .event (.gossip peer none) then 1 else 0

/-- What a step does to the record of a peer and to the messages that wait to be held
against it. -/
inductive Change (s : State) (peer : PeerId) (step : Step) (s' : State) : Prop
  | same : s'.peerScores peer = s.peerScores peer →
      s'.unread peer = s.unread peer + step.unreadableFrom peer → Change s peer step s'
  | renew : s'.peerScores peer = some (s.infoOrNew peer) → s'.unread peer = s.unread peer →
      Change s peer step s'
  | reward : s'.peerScores peer = some ((s.infoOrNew peer).applyReward rewardValidMessage) →
      s'.unread peer = s.unread peer → Change s peer step s'
  | remove : s'.peerScores peer = none → s'.unread peer = s.unread peer →
      Change s peer step s'
  | unreadable :
      s'.peerScores peer =
        some ((s.infoOrNew peer).applyPenalty penaltyDeserializationError s.clock) →
      s'.unread peer + 1 = s.unread peer → Change s peer step s'
  | penalty {info : PeerInfo} {penalty : Int} : s.loop = .lockScores peer (.penalty penalty) →
      s.peerScores peer = some info →
      s'.peerScores peer = some (info.applyPenalty penalty s.clock) →
      s'.unread peer = s.unread peer → Change s peer step s'

namespace ScoresLemmas

variable {kind : NodeKind} {s s' : State} {step : Step} {peer : PeerId} {n : Nat}

theorem peerScores_penalize (s : State) (peer : PeerId) (info : PeerInfo) (penalty : Int) :
    (s.penalize peer info penalty).peerScores =
      Function.update s.peerScores peer (some (info.applyPenalty penalty s.clock)) := by
  unfold State.penalize
  split <;> rfl

theorem count_set_of_ne {tasks : List Task} {k : Nat} {old new task : Task}
    (hold : tasks[k]? = some old) (hne : old ≠ task) (hne' : new ≠ task) :
    (tasks.set k new).count task = tasks.count task := by
  obtain ⟨hk, hget⟩ := List.getElem?_eq_some_iff.mp hold
  rw [List.count_set hk, hget, if_neg (by simpa using hne), if_neg (by simpa using hne')]
  rfl

theorem count_eraseIdx_of_ne {tasks : List Task} {k : Nat} {old task : Task}
    (hold : tasks[k]? = some old) (hne : old ≠ task) :
    (tasks.eraseIdx k).count task = tasks.count task := by
  obtain ⟨hk, hget⟩ := List.getElem?_eq_some_iff.mp hold
  rw [← (List.getElem_cons_eraseIdx_perm hk).count_eq task, hget, List.count_cons_of_ne hne]

theorem count_eraseIdx_self {tasks : List Task} {k : Nat} {task : Task}
    (hold : tasks[k]? = some task) : (tasks.eraseIdx k).count task + 1 = tasks.count task := by
  obtain ⟨hk, hget⟩ := List.getElem?_eq_some_iff.mp hold
  rw [← (List.getElem_cons_eraseIdx_perm hk).count_eq task, hget, List.count_cons_self]

theorem change_handle (s : State) (event : Event) (peer : PeerId) :
    Change s peer (.event event) (s.handle event) := by
  cases event with
  | connectionEstablished | connectionClosed | fallbackGossip => exact .same rfl rfl
  | gossip source data =>
    refine .same rfl ?_
    show (s.tasks ++ [Task.lockScores source data]).count _ = _
    rw [List.count_append, List.count_singleton]
    simp [Step.unreadableFrom, State.unread]
  | request source content =>
    dsimp only [State.handle]
    split
    · refine .same rfl ?_
      show (s.tasks ++ [Task.direct source _]).count _ = _
      rw [List.count_append, List.count_singleton]
      rfl
    · exact .same rfl rfl
  | response source content =>
    dsimp only [State.handle]
    split <;> exact .same rfl rfl
  | command cmd => cases cmd <;> exact .same rfl rfl

theorem change_updateScores {source : PeerId} {update : ScoreUpdate}
    (hloop : s.loop = .lockScores source update) (peer : PeerId) :
    Change s peer .loop { s.updateScores source update with loop := .ready } := by
  have hunread : ({ s.updateScores source update with loop := .ready } : State).unread peer =
      s.unread peer := by
    show (s.updateScores source update).tasks.count _ = _
    rw [(updateScores_same s source update).1]
    rfl
  by_cases hpeer : peer = source
  · subst hpeer
    cases update with
    | established => exact .renew (Function.update_self ..) hunread
    | closed => exact .remove (Function.update_self ..) hunread
    | penalty penalty =>
      cases hinfo : s.peerScores peer with
      | none =>
        refine .same ?_ hunread
        show (s.updateScores peer (.penalty penalty)).peerScores peer = _
        dsimp only [State.updateScores]
        rw [hinfo]
        exact hinfo
      | some info =>
        refine .penalty hloop hinfo ?_ hunread
        show (s.updateScores peer (.penalty penalty)).peerScores peer = _
        dsimp only [State.updateScores]
        rw [hinfo]
        show (s.penalize peer info penalty).peerScores peer = _
        rw [peerScores_penalize, Function.update_self]
  · refine .same ?_ hunread
    show (s.updateScores source update).peerScores peer = _
    cases update with
    | established => exact Function.update_of_ne hpeer ..
    | closed => exact Function.update_of_ne hpeer ..
    | penalty penalty =>
      dsimp only [State.updateScores]
      split
      · rw [peerScores_penalize, Function.update_of_ne hpeer]
      · rfl

theorem change_of_advances (h : Advances kind s step s') (peer : PeerId) :
    Change s peer step s' := by
  cases h with
  | @event event hloop => exact change_handle s event peer
  | update hloop hlocked => exact change_updateScores hloop peer
  | respond | drain => exact .same rfl rfl
  | @lock k source msg htask hlocked =>
    have hunread : (s.tasks.set k (.forward source msg)).count (.lockScores peer none) =
        s.unread peer := count_set_of_ne htask (by simp) (by simp)
    by_cases hpeer : peer = source
    · subst hpeer
      exact .renew (Function.update_self ..) hunread
    · exact .same (Function.update_of_ne hpeer ..) hunread
  | @payload k source payload htask hlocked =>
    have hunread : (s.tasks.eraseIdx k).count (.lockScores peer none) = s.unread peer :=
      count_eraseIdx_of_ne htask (by simp)
    by_cases hpeer : peer = source
    · subst hpeer
      exact .reward (Function.update_self ..) hunread
    · exact .same (Function.update_of_ne hpeer ..) hunread
  | @unreadable k source htask hlocked =>
    by_cases hpeer : peer = source
    · subst hpeer
      refine .unreadable ?_ ?_
      · show (s.penalize peer (s.infoOrNew peer) penaltyDeserializationError).peerScores peer = _
        rw [peerScores_penalize, Function.update_self]
      · exact count_eraseIdx_self htask
    · have hne : Task.lockScores source none ≠ .lockScores peer none := by
        simpa using fun h => hpeer h.symm
      refine .same ?_ (count_eraseIdx_of_ne htask hne)
      show (s.penalize source (s.infoOrNew source) penaltyDeserializationError).peerScores peer = _
      rw [peerScores_penalize, Function.update_of_ne hpeer]
  | @forward k source msg htask hroom =>
    have hunread : (s.tasks.eraseIdx k).count (.lockScores peer none) = s.unread peer :=
      count_eraseIdx_of_ne htask (by simp)
    by_cases hpeer : peer = source
    · subst hpeer
      exact .reward (Function.update_self ..) hunread
    · exact .same (Function.update_of_ne hpeer ..) hunread
  | @direct k source msg htask hroom =>
    exact .same rfl (count_eraseIdx_of_ne htask (by simp))

theorem infoOrNew_of_none (h : s.peerScores peer = none) : s.infoOrNew peer = .new := by
  rw [State.infoOrNew, h]
  rfl

theorem infoOrNew_of_some {info : PeerInfo} (h : s.peerScores peer = some info) :
    s.infoOrNew peer = info := by
  rw [State.infoOrNew, h]
  rfl

theorem score_applyPenalty (info : PeerInfo) (penalty : Int) (now : Instant) :
    (info.applyPenalty penalty now).score = info.penalized penalty := by
  dsimp only [PeerInfo.applyPenalty]
  split <;> rfl

theorem isBanned_applyPenalty {info : PeerInfo} {penalty : Int} {now : Instant}
    (h : (info.applyPenalty penalty now).isBanned = true) :
    info.penalized penalty ≤ banThreshold ∨ info.isBanned = true := by
  dsimp only [PeerInfo.applyPenalty] at h
  split at h
  · next hlow => exact .inl hlow
  · exact .inr h

end ScoresLemmas

open ScoresLemmas

section Fair

variable {s s' : State} {step : Step} {peer : PeerId} {n : Nat}

theorem Fair.mono {m : Nat} (h : Fair s peer n) (hle : n ≤ m) : Fair s peer m where
  pending := h.pending.trans hle
  score := by
    have := h.score
    omega
  atMost := h.atMost
  banned info hinfo hbanned := (h.banned info hinfo hbanned).trans hle

/-- Only a record that is there can be that of a banned peer. -/
theorem Fair.infoOrNew (h : Fair s peer n) (hbanned : (s.infoOrNew peer).isBanned = true) :
    10 ≤ n := by
  cases hinfo : s.peerScores peer with
  | none =>
    rw [infoOrNew_of_none hinfo] at hbanned
    cases hbanned
  | some info =>
    rw [infoOrNew_of_some hinfo] at hbanned
    exact h.banned info hinfo hbanned

theorem Fair.change (h : Fair s peer n) (hchange : Change s peer step s')
    (hloop : ∀ penalty, s.loop ≠ .lockScores peer (.penalty penalty)) :
    Fair s' peer (n + step.unreadableFrom peer) := by
  have hpending := h.pending
  have hscore := h.score
  have hmax := h.atMost
  unfold State.scoreOf at hscore hmax
  cases hchange with
  | same hscores hunread =>
    have hinfo : s'.infoOrNew peer = s.infoOrNew peer := by
      rw [State.infoOrNew, hscores]
      rfl
    refine ⟨by omega, ?_, ?_, ?_⟩
    · rw [State.scoreOf, hinfo]
      omega
    · rwa [State.scoreOf, hinfo]
    · intro info hsome hbanned
      exact Nat.le_add_right_of_le (h.banned info (hscores ▸ hsome) hbanned)
  | renew hscores hunread =>
    have hinfo := infoOrNew_of_some hscores
    refine ⟨by omega, ?_, ?_, ?_⟩
    · rw [State.scoreOf, hinfo]
      omega
    · rwa [State.scoreOf, hinfo]
    · intro info hsome hbanned
      cases hscores.symm.trans hsome
      exact Nat.le_add_right_of_le (h.infoOrNew hbanned)
  | reward hscores hunread =>
    have hscore' : s'.scoreOf peer = min ((s.infoOrNew peer).score + 2) 100 := by
      rw [State.scoreOf, infoOrNew_of_some hscores]
      rfl
    unfold maxPeerScore at hmax
    refine ⟨by omega, ?_, ?_, ?_⟩
    · rw [hscore']
      omega
    · rw [hscore']
      exact min_le_right _ _
    · intro info hsome hbanned
      cases hscores.symm.trans hsome
      exact Nat.le_add_right_of_le (h.infoOrNew hbanned)
  | remove hscores hunread =>
    have hscore' : s'.scoreOf peer = 0 := by
      rw [State.scoreOf, infoOrNew_of_none hscores]
      rfl
    refine ⟨by omega, ?_, ?_, ?_⟩
    · rw [hscore']
      omega
    · rw [hscore']
      decide
    · intro info hsome
      cases hscores.symm.trans hsome
  | unreadable hscores hunread =>
    have hscore' : s'.scoreOf peer = max ((s.infoOrNew peer).score + -5) (-51) := by
      rw [State.scoreOf, infoOrNew_of_some hscores, score_applyPenalty]
      rfl
    unfold maxPeerScore at hmax
    have hfair : 5 * (s'.unread peer : Int) ≤
        s'.scoreOf peer + 5 * ((n + step.unreadableFrom peer : Nat) : Int) := by
      rw [hscore']
      omega
    refine ⟨by omega, hfair, ?_, ?_⟩
    · rw [hscore', maxPeerScore]
      omega
    · intro info hsome hbanned
      cases hscores.symm.trans hsome
      rcases isBanned_applyPenalty hbanned with hlow | hbanned
      · -- the score has reached the threshold, so the messages account for it
        have hlow : s'.scoreOf peer ≤ -50 := by
          rw [hscore']
          exact hlow
        omega
      · exact Nat.le_add_right_of_le (h.infoOrNew hbanned)
  | penalty hloop' => exact absurd hloop' (hloop _)

end Fair

/-! ## The records of all peers -/

structure PeerInfo.Scored (info : PeerInfo) : Prop where
  low : banThreshold - 1 ≤ info.score
  high : info.score ≤ maxPeerScore
  banned : info.isBanned = info.banUntil.isSome

namespace ScoresLemmas

variable {info : PeerInfo} {s s' : State} {step : Step}

theorem scored_new : PeerInfo.new.Scored := ⟨by decide, by decide, rfl⟩

theorem scored_applyPenalty (h : info.Scored) {penalty : Int} (hle : penalty ≤ 0)
    (now : Instant) : (info.applyPenalty penalty now).Scored := by
  have hlow := h.low
  have hhigh := h.high
  unfold banThreshold at hlow
  unfold maxPeerScore at hhigh
  have hbounds : -51 ≤ info.penalized penalty ∧ info.penalized penalty ≤ 100 := by
    unfold PeerInfo.penalized banThreshold
    omega
  dsimp only [PeerInfo.applyPenalty]
  split
  · exact ⟨hbounds.1, hbounds.2, rfl⟩
  · exact ⟨hbounds.1, hbounds.2, h.banned⟩

theorem scored_applyReward (h : info.Scored) : (info.applyReward rewardValidMessage).Scored := by
  have hlow := h.low
  unfold banThreshold at hlow
  refine ⟨?_, min_le_right _ _, h.banned⟩
  show -51 ≤ min (info.score + 2) 100
  omega

theorem scored_infoOrNew {peer : PeerId} (h : ∀ info, s.peerScores peer = some info → info.Scored) :
    (s.infoOrNew peer).Scored := by
  cases hinfo : s.peerScores peer with
  | none =>
    rw [infoOrNew_of_none hinfo]
    exact scored_new
  | some info =>
    rw [infoOrNew_of_some hinfo]
    exact h info hinfo

theorem scored_change {peer : PeerId} (hchange : Change s peer step s')
    (hloop : ∀ penalty, s.loop = .lockScores peer (.penalty penalty) → penalty ≤ 0)
    (h : ∀ info, s.peerScores peer = some info → info.Scored) :
    ∀ info, s'.peerScores peer = some info → info.Scored := by
  intro info hinfo
  cases hchange with
  | same hscores _ => exact h info (hscores ▸ hinfo)
  | renew hscores _ =>
    cases hscores.symm.trans hinfo
    exact scored_infoOrNew h
  | reward hscores _ =>
    cases hscores.symm.trans hinfo
    exact scored_applyReward (scored_infoOrNew h)
  | remove hscores _ => cases hscores.symm.trans hinfo
  | unreadable hscores _ =>
    cases hscores.symm.trans hinfo
    exact scored_applyPenalty (scored_infoOrNew h) (by decide) _
  | penalty hloop' hold hscores _ =>
    cases hscores.symm.trans hinfo
    exact scored_applyPenalty (h _ hold) (hloop _ hloop') _

end ScoresLemmas

/-! ## A process -/

/-- What a move does to the loop and to the engine. -/
inductive Moves (kind : NodeKind) (cfg : Config C) (p : Process) (move : Move) (p' : Process) :
    Prop
  | swarm {now : Instant} {step : Step} : p.swarm.step kind (now, step) = some p'.swarm →
      p'.node = p.node →
      (∀ arrived, step = .event arrived →
        move = .event now arrived ∨ ∃ peer, arrived = .fallbackGossip peer) →
      Moves kind cfg p move p'
  | idle : p'.swarm = p.swarm → p'.node = p.node → Moves kind cfg p move p'
  | drain {now : Instant} {msg : ConsensusMessage} {peer : PeerId} :
      (msg, peer) ∈ p.swarm.channel → p.swarm.step kind (now, .drain) = some p'.swarm →
      act cfg p.node (.deliver msg peer) = some p'.node → Moves kind cfg p move p'
  | act {action : Action} : delivers? action = none → p'.swarm = p.swarm →
      act cfg p.node action = some p'.node → Moves kind cfg p move p'
  | panic {k : Nat} : p'.swarm = p.swarm →
      p'.node = { p.node with tasks := p.node.tasks.eraseIdx k } → Moves kind cfg p move p'

namespace ScoresLemmas

variable {kind : NodeKind} {cfg : Config C} {p p' : Process} {move : Move}

theorem evaluate_cases (sliced : List Bytes) (panics : Bytes → Process) (next : Process) :
    evaluate sliced panics next = next ∨ ∃ bytes, evaluate sliced panics next = panics bytes := by
  unfold evaluate
  split
  · exact .inr ⟨_, rfl⟩
  · exact .inl rfl

theorem moves_take {now : Instant} {event : Event} {sliced lookups : List Bytes}
    (hevent : move = .event now event ∨ ∃ peer, event = .fallbackGossip peer)
    (h : p.take kind now event sliced lookups = some p') : Moves kind cfg p move p' := by
  unfold Process.take at h
  split at h
  · cases h
  · obtain ⟨swarm, hswarm, rfl⟩ := Option.map_eq_some_iff.mp h
    rcases evaluate_cases sliced (fun bytes => p.panic (.loop bytes))
      { p with swarm, lookups := p.lookups ++ lookups } with heq | ⟨bytes, heq⟩
    · rw [heq]
      refine .swarm hswarm rfl fun arrived harrived => ?_
      cases harrived
      exact hevent
    · rw [heq]
      exact .idle rfl rfl

theorem moves_of_step (h : p.step kind cfg move = some p') : Moves kind cfg p move p' := by
  cases move with
  | event now event => exact moves_take (.inl rfl) h
  | fallback now peer request => exact moves_take (.inr ⟨peer, rfl⟩) h
  | loop now =>
    dsimp only [Process.step] at h
    split at h
    · cases h
    · obtain ⟨swarm, hswarm, rfl⟩ := Option.map_eq_some_iff.mp h
      exact .swarm hswarm rfl fun _ harrived => by cases harrived
  | run now k =>
    obtain ⟨swarm, hswarm, rfl⟩ := Option.map_eq_some_iff.mp h
    exact .swarm hswarm rfl fun _ harrived => by cases harrived
  | lookup k =>
    dsimp only [Process.step] at h
    split at h
    · cases h
    · next batchHash hlookup =>
      cases h
      rcases evaluate_cases [batchHash]
        (fun bytes => { p with lookups := p.lookups.eraseIdx k }.panic (.lookup bytes))
        { p with lookups := p.lookups.eraseIdx k } with heq | ⟨bytes, heq⟩
      · rw [heq]
        exact .idle rfl rfl
      · rw [heq]
        exact .idle rfl rfl
  | drain now =>
    dsimp only [Process.step] at h
    split at h
    · next msg peer rest swarm hchannel hswarm =>
      obtain ⟨node, hact, rfl⟩ := Option.map_eq_some_iff.mp h
      exact .drain (hchannel ▸ .head _) hswarm hact
    · cases h
  | act action =>
    dsimp only [Process.step] at h
    split at h
    · cases h
    · cases h
    · next hno =>
      obtain ⟨node, hact, rfl⟩ := Option.map_eq_some_iff.mp h
      have hdelivers : delivers? action = none := by
        cases action with
        | deliver msg peer => exact (hno msg peer rfl).elim
        | _ => rfl
      rcases evaluate_cases (actionSlices cfg p.node action)
        (fun bytes => (p.endHandler action).panic (.handler bytes))
        { p with node } with heq | ⟨bytes, heq⟩
      · rw [heq]
        exact .act hdelivers rfl hact
      · rw [heq]
        cases action with
        | run | cancel => exact .panic rfl rfl
        | _ => exact .idle rfl rfl

/-- The loop comes to a penalty by a command. -/
theorem loop_of_advances {s s' : State} {step : Step} (h : Advances kind s step s')
    {peer : PeerId} {penalty : Int} (hloop : s'.loop = .lockScores peer (.penalty penalty)) :
    s.loop = .lockScores peer (.penalty penalty) ∨
      step = .event (.command (.applyPenalty peer penalty)) := by
  cases h with
  | @event event hready =>
    cases event with
    | connectionEstablished | connectionClosed => cases hloop
    | gossip | fallbackGossip => exact .inl hloop
    | request source content =>
      dsimp only [State.handle] at hloop
      split at hloop <;> exact .inl hloop
    | response source content =>
      dsimp only [State.handle] at hloop
      split at hloop
      · cases hloop
      · exact .inl hloop
    | command cmd =>
      cases cmd with
      | applyPenalty =>
        cases hloop
        exact .inr rfl
      | _ => exact .inl hloop
  | update | respond => cases hloop
  | unreadable =>
    refine .inl (Eq.trans ?_ hloop)
    unfold State.penalize
    dsimp only
    split <;> rfl
  | _ => exact .inl hloop

end ScoresLemmas

/-! ## Accounts -/

section Accounts

variable {fromSlice : Bytes → Option ChainMessage} {kind : NodeKind} {cfg : Config C}
  {inputs : List Input}

theorem Relayed.snoc {relayed : PeerId × ConsensusMessage} (h : Relayed fromSlice inputs relayed)
    (input : Input) : Relayed fromSlice (inputs ++ [input]) relayed := by
  obtain ⟨earlier, hmem, hrelays⟩ := h
  exact ⟨earlier, List.mem_append_left _ hmem, hrelays⟩

theorem RelayedInvalid.snoc {peer : PeerId} (h : RelayedInvalid fromSlice cfg inputs peer)
    (input : Input) : RelayedInvalid fromSlice cfg (inputs ++ [input]) peer := by
  obtain ⟨qc, hrelayed, hinvalid⟩ := h
  exact ⟨qc, hrelayed.snoc input, hinvalid⟩

/-- What a handler of the engine has in hand was relayed. -/
def HandlesRelayed (fromSlice : Bytes → Option ChainMessage) (inputs : List Input) :
    Sequencer.Task → Prop
  | .receive msg peer | .recheck msg peer => Relayed fromSlice inputs (peer, msg)
  | .anchorQc qc peer => Relayed fromSlice inputs (peer, .newQuorumCertificate qc)
  | _ => True

theorem HandlesRelayed.snoc {task : Sequencer.Task} (h : HandlesRelayed fromSlice inputs task)
    (input : Input) : HandlesRelayed fromSlice (inputs ++ [input]) task := by
  cases task with
  | receive | recheck | anchorQc => exact Relayed.snoc h input
  | _ => trivial

/-- The engine works on what was relayed, and penalizes for invalid certificates. -/
structure NodeAccounted (fromSlice : Bytes → Option ChainMessage) (cfg : Config C) (node : Node)
    (inputs : List Input) : Prop where
  handlers : ∀ entry ∈ node.tasks, HandlesRelayed fromSlice inputs entry.2
  penalties : ∀ peer penalty, .applyPenalty peer penalty ∈ node.outbox →
    penalty = -50 ∧ RelayedInvalid fromSlice cfg inputs peer

/-- The loop carries what was relayed, and every score is accounted for. -/
structure SwarmAccounted (fromSlice : Bytes → Option ChainMessage) (cfg : Config C) (s : State)
    (inputs : List Input) : Prop where
  carried : ∀ relayed ∈ s.carried, Relayed fromSlice inputs relayed
  channel : ∀ entry ∈ s.channel, Relayed fromSlice inputs entry.swap
  loop : ∀ peer penalty, s.loop = .lockScores peer (.penalty penalty) →
    penalty = -50 ∧ RelayedInvalid fromSlice cfg inputs peer
  scored : ∀ peer info, s.peerScores peer = some info → info.Scored
  fair : ∀ peer, RelayedInvalid fromSlice cfg inputs peer ∨
    Fair s peer (inputs.countP (·.unreadableFrom fromSlice peer))

theorem NodeAccounted.snoc {node : Node} (h : NodeAccounted fromSlice cfg node inputs)
    (input : Input) : NodeAccounted fromSlice cfg node (inputs ++ [input]) where
  handlers entry hentry := (h.handlers entry hentry).snoc input
  penalties peer penalty hsent :=
    ⟨(h.penalties peer penalty hsent).1, (h.penalties peer penalty hsent).2.snoc input⟩

theorem NodeAccounted.deliver {node node' : Node} (h : NodeAccounted fromSlice cfg node inputs)
    {msg : ConsensusMessage} {peer : PeerId} (hrelayed : Relayed fromSlice inputs (peer, msg))
    (hact : act cfg node (.deliver msg peer) = some node') :
    NodeAccounted fromSlice cfg node' inputs := by
  cases hact
  exact ⟨forall_mem_snoc h.handlers hrelayed, h.penalties⟩

theorem NodeAccounted.act {node node' : Node} {a : Action}
    (h : NodeAccounted fromSlice cfg node inputs) (hdelivers : delivers? a = none)
    (hact : act cfg node a = some node') : NodeAccounted fromSlice cfg node' inputs where
  handlers := by
    refine act_tasks (T := HandlesRelayed fromSlice inputs) ?_ (fun _ _ _ _ => trivial) ?_ hact
      h.handlers
    · intro msg peer hmsg
      cases hdelivers.symm.trans hmsg
    · intro now task task' _ hrelayed hnext
      cases exec_next hnext with
      | recheck | anchorQc => exact hrelayed
      | _ => trivial
  penalties peer penalty hsent := by
    rw [outbox_act hact] at hsent
    rcases List.mem_append.mp hsent with hold | hnew
    · exact h.penalties peer penalty hold
    · obtain ⟨k, kind, qc, htask, rfl, hinvalid⟩ := penalty_of_actionSends hnew
      exact ⟨rfl, qc, h.handlers _ (List.mem_of_getElem? htask), hinvalid⟩

theorem SwarmAccounted.step {s s' : State} {input : Input} {now : Instant} {step : Step}
    (h : SwarmAccounted fromSlice cfg s inputs) (hstep : s.step kind (now, step) = some s')
    (hrelays : ∀ relayed ∈ step.relays?, input.relays? fromSlice = some relayed)
    (hunread : ∀ peer, step = .event (.gossip peer none) →
      input.unreadableFrom fromSlice peer = true)
    (hcommand : ∀ peer penalty, step = .event (.command (.applyPenalty peer penalty)) →
      penalty = -50 ∧ RelayedInvalid fromSlice cfg inputs peer) :
    SwarmAccounted fromSlice cfg s' (inputs ++ [input]) := by
  obtain ⟨-, hadvances⟩ := advances_of_step hstep
  dsimp only at hadvances
  refine ⟨?_, ?_, ?_, ?_, ?_⟩
  · intro relayed hrelayed
    rcases List.mem_append.mp ((effect_of_advances hadvances).carried hrelayed) with hnew | hold
    · exact ⟨input, List.mem_append_right _ (List.mem_singleton_self _),
        hrelays relayed (Option.mem_toList.mp hnew)⟩
    · exact (h.carried relayed hold).snoc input
  · intro entry hentry
    rcases channel_of_advances hadvances entry hentry with hold | hcarried
    · exact (h.channel entry hold).snoc input
    · exact (h.carried _ hcarried).snoc input
  · intro peer penalty hloop
    rcases loop_of_advances hadvances hloop with hold | rfl
    · exact ⟨(h.loop peer penalty hold).1, (h.loop peer penalty hold).2.snoc input⟩
    · exact ⟨(hcommand peer penalty rfl).1, (hcommand peer penalty rfl).2.snoc input⟩
  · intro peer
    refine scored_change (change_of_advances hadvances peer) (fun penalty hloop => ?_)
      (h.scored peer)
    rw [(h.loop peer penalty hloop).1]
    decide
  · intro peer
    rcases h.fair peer with hinvalid | hfair
    · exact .inl (hinvalid.snoc input)
    · by_cases hloop : ∃ penalty, s.loop = .lockScores peer (.penalty penalty)
      · obtain ⟨penalty, hloop⟩ := hloop
        exact .inl ((h.loop peer penalty hloop).2.snoc input)
      · have hclock : Fair { s with clock := now } peer _ :=
          ⟨hfair.pending, hfair.score, hfair.atMost, hfair.banned⟩
        refine .inr ((hclock.change (change_of_advances hadvances peer)
          fun penalty hpenalty => hloop ⟨penalty, hpenalty⟩).mono ?_)
        rw [List.countP_append, List.countP_singleton]
        refine Nat.add_le_add_left ?_ _
        unfold Step.unreadableFrom
        split
        · next harrived => rw [if_pos (hunread peer harrived)]
        · exact Nat.zero_le _

theorem SwarmAccounted.snoc {s : State} (h : SwarmAccounted fromSlice cfg s inputs)
    (input : Input) : SwarmAccounted fromSlice cfg s (inputs ++ [input]) where
  carried relayed hrelayed := (h.carried relayed hrelayed).snoc input
  channel entry hentry := (h.channel entry hentry).snoc input
  loop peer penalty hloop :=
    ⟨(h.loop peer penalty hloop).1, (h.loop peer penalty hloop).2.snoc input⟩
  scored := h.scored
  fair peer := by
    rcases h.fair peer with hinvalid | hfair
    · exact .inl (hinvalid.snoc input)
    · refine .inr (hfair.mono ?_)
      rw [List.countP_append]
      exact Nat.le_add_right _ _

theorem swarmAccounted_new : SwarmAccounted fromSlice cfg .new [] where
  carried _ h := by cases h
  channel _ h := by cases h
  loop _ _ h := by cases h
  scored _ _ h := by cases h
  fair _ := .inr
    { pending := Nat.le_refl _
      score := by
        show (5 * (0 : Nat) : Int) ≤ 0 + 5 * (0 : Nat)
        decide
      atMost := by
        show (0 : Int) ≤ 100
        decide
      banned := fun _ h => by cases h }

theorem nodeAccounted_new : NodeAccounted fromSlice cfg (.new genesisQc) [] where
  handlers _ h := by cases h
  penalties _ _ h := by cases h

/-- What an input brings is put down for the peer that it comes from. -/
theorem accounted_hear {s s' : Process × List Input} {input : Input}
    (hswarm : SwarmAccounted fromSlice cfg s.1.swarm s.2)
    (hnode : NodeAccounted fromSlice cfg s.1.node s.2)
    (hgenuine : Genuine s input) (hhear : hear fromSlice kind cfg s input = some s') :
    SwarmAccounted fromSlice cfg s'.1.swarm s'.2 ∧ NodeAccounted fromSlice cfg s'.1.node s'.2 := by
  obtain ⟨p, hstep, rfl⟩ := Option.map_eq_some_iff.mp hhear
  cases moves_of_step hstep with
  | @swarm now step hswarm' hsame hevent =>
    refine ⟨hswarm.step hswarm' ?_ ?_ ?_, hsame ▸ hnode.snoc input⟩
    · intro relayed hrelayed
      cases step with
      | event arrived =>
        rcases hevent arrived rfl with hmove | ⟨peer, rfl⟩
        · rw [Input.relays?, hmove]
          exact hrelayed
        · cases hrelayed
      | _ => cases hrelayed
    · rintro peer rfl
      rcases hevent _ rfl with hmove | ⟨_, harrived⟩
      · cases input with
        | gossip now' source data =>
          injection hmove with _ harrived
          injection harrived with hsource hdata
          simp [Input.unreadableFrom, hsource, hdata]
        | move taken =>
          change taken = _ at hmove
          subst hmove
          exact hgenuine.elim
      · cases harrived
    · rintro peer penalty rfl
      rcases hevent _ rfl with hmove | ⟨_, harrived⟩
      · cases input with
        | gossip => cases hmove
        | move taken =>
          change taken = _ at hmove
          subst hmove
          exact hnode.penalties peer penalty hgenuine
      · cases harrived
  | idle hsame hsame' => exact ⟨hsame ▸ hswarm.snoc input, hsame' ▸ hnode.snoc input⟩
  | @drain now msg peer hchannel hswarm' hact =>
    refine ⟨hswarm.step hswarm' ?_ ?_ ?_, ?_⟩
    · intro _ h
      cases h
    · intro _ h
      cases h
    · intro _ _ h
      cases h
    · exact (hnode.snoc input).deliver ((hswarm.channel _ hchannel).snoc input) hact
  | act hdelivers hsame hact =>
    exact ⟨hsame ▸ hswarm.snoc input, (hnode.snoc input).act hdelivers hact⟩
  | panic hsame hsame' =>
    refine ⟨hsame ▸ hswarm.snoc input, ?_⟩
    rw [hsame']
    have hmore := hnode.snoc input
    exact ⟨fun entry hentry => hmore.handlers entry (List.mem_of_mem_eraseIdx hentry),
      hmore.penalties⟩

theorem accounted {s : Process × List Input} (hrun : Hears fromSlice kind cfg s) :
    SwarmAccounted fromSlice cfg s.1.swarm s.2 ∧ NodeAccounted fromSlice cfg s.1.node s.2 :=
  hrun.invariant (I := fun s => SwarmAccounted fromSlice cfg s.1.swarm s.2 ∧
      NodeAccounted fromSlice cfg s.1.node s.2) ⟨swarmAccounted_new, nodeAccounted_new⟩
    fun _ hgenuine hhear h => accounted_hear h.1 h.2 hgenuine hhear

end Accounts

/-- Whatever arrives, every score stays in its bounds, and the mark of a ban goes with
the end of the ban. -/
theorem scores_bounded {fromSlice : Bytes → Option ChainMessage} {kind : NodeKind}
    {cfg : Config C} {p : Process} {inputs : List Input}
    (hrun : Hears fromSlice kind cfg (p, inputs)) {peer : PeerId} {info : PeerInfo}
    (hinfo : p.swarm.peerScores peer = some info) :
    banThreshold - 1 ≤ info.score ∧ info.score ≤ maxPeerScore ∧
      (info.isBanned = true ↔ info.banUntil.isSome = true) := by
  have hscored := (accounted hrun).1.scored peer info hinfo
  exact ⟨hscored.low, hscored.high, by rw [hscored.banned]⟩

/-- Messages of one peer that cannot be read, each dealt with. -/
def garbage (n : Nat) : List Input :=
  (List.replicate n [Input.gossip 0 7 [9], .move (.run 0 0)]).flatten

theorem scores_bounded_garbage :
    ∃ p inputs info, Hears (fun _ => none) .authority (soloNetwork.config false) (p, inputs) ∧
      p.swarm.peerScores 7 = some info ∧ info.score = -50 ∧
      banThreshold - 1 ≤ info.score ∧ info.score ≤ maxPeerScore ∧
      (info.isBanned = true ↔ info.banUntil.isSome = true) := by
  obtain ⟨⟨p, inputs⟩, hrun, hscore⟩ :
      ∃ s, Hears (fun _ => none) .authority (soloNetwork.config false) s ∧
        (s.1.swarm.peerScores 7).map PeerInfo.score = some (-50) :=
    exists_run (garbage 10) (by decide +kernel)
  obtain ⟨info, hinfo, hscore⟩ := Option.map_eq_some_iff.mp hscore
  exact ⟨p, inputs, info, hrun, hinfo, hscore, scores_bounded hrun hinfo⟩

/-- A banned peer has relayed a certificate that is not valid, or ten messages that
cannot be read. -/
theorem banned_for_cause {fromSlice : Bytes → Option ChainMessage} {kind : NodeKind}
    {cfg : Config C} {p : Process} {inputs : List Input}
    (hrun : Hears fromSlice kind cfg (p, inputs)) {peer : PeerId} {info : PeerInfo}
    (hinfo : p.swarm.peerScores peer = some info) (hbanned : info.isBanned = true) :
    RelayedInvalid fromSlice cfg inputs peer ∨
      10 ≤ inputs.countP (·.unreadableFrom fromSlice peer) := by
  rcases (accounted hrun).1.fair peer with hinvalid | hfair
  · exact .inl hinvalid
  · exact .inr (hfair.banned info hinfo hbanned)

theorem banned_for_cause_garbage :
    ∃ p inputs info, Hears (fun _ => none) .authority (soloNetwork.config false) (p, inputs) ∧
      p.swarm.peerScores 7 = some info ∧ info.isBanned = true ∧
      (RelayedInvalid (fun _ => none) (soloNetwork.config false) inputs 7 ∨
        10 ≤ inputs.countP (·.unreadableFrom (fun _ => none) 7)) := by
  obtain ⟨⟨p, inputs⟩, hrun, hbanned⟩ :
      ∃ s, Hears (fun _ => none) .authority (soloNetwork.config false) s ∧
        (s.1.swarm.peerScores 7).map PeerInfo.isBanned = some true :=
    exists_run (garbage 10) (by decide +kernel)
  obtain ⟨info, hinfo, hbanned⟩ := Option.map_eq_some_iff.mp hbanned
  exact ⟨p, inputs, info, hrun, hinfo, hbanned, banned_for_cause hrun hinfo hbanned⟩

end EviceChain.P2p
