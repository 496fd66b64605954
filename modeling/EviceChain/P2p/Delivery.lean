import EviceChain.P2p.Bans

/-!
# From the network to the engine

A consensus message for the engine comes by gossip, in a request or in a response. A
task, or the loop itself, carries it to the consensus channel, which may be full, and
the engine takes the messages out of the channel one after the other.

The run of the loop and its tasks is looked at together with what has arrived and what
the engine has taken (`Courier`). The log messages of the loop are left out, that is, none
of the slices in them panics. `forwarded_exactly_once`: no message is lost, none is
doubled, and the engine takes them in the order in which they were forwarded.
-/

namespace EviceChain.P2p

open Foundation Sequencer SwarmLemmas BansLemmas

/-- The state of a node, the messages that have arrived for its engine, and those that
the engine has taken. -/
structure Courier where
  state : State
  arrived : List (PeerId × ConsensusMessage)
  taken : List (PeerId × ConsensusMessage)

namespace Courier

def new : Courier := ⟨.new, [], []⟩

/-- What the engine takes with the step. -/
def takes (s : State) : Step → List (PeerId × ConsensusMessage)
  | .drain => s.channel.head?.toList.map Prod.swap
  | _ => []

def step (kind : NodeKind) (c : Courier) (timed : Instant × Step) : Option Courier :=
  (c.state.step kind timed).map fun s =>
    ⟨s, c.arrived ++ timed.2.relays?.toList, c.taken ++ takes c.state timed.2⟩

/-- The messages that have been forwarded: the engine has them, or they wait for it. -/
def forwarded (c : Courier) : List (PeerId × ConsensusMessage) :=
  c.taken ++ c.state.channel.map Prod.swap

end Courier

def Record.forwarded? : Record → Option (PeerId × ConsensusMessage)
  | .forwarded peer msg _ => some (peer, msg)
  | .banned _ _ => none

namespace DeliveryLemmas

variable {kind : NodeKind} {s s' : State} {step : Step}

/-- A task that is started carries what arrives, and so does a loop that was ready. -/
theorem carried_handle (hready : s.loop = .ready) (event : Event) :
    (event.relays?.toList ++ s.carried).Perm (s.handle event).carried := by
  have hidle : s.carried = s.tasks.filterMap Task.carries? := by
    rw [State.carried, hready]
    rfl
  cases event with
  | connectionEstablished | connectionClosed =>
    rw [hidle]
    exact .refl _
  | gossip peer data =>
    have hrelays : (Event.gossip peer data).relays? = (Task.lockScores peer data).carries? := by
      rcases data with _ | (payload | msg) <;> rfl
    rw [hrelays]
    exact carried_snoc s _
  | fallbackGossip => exact .refl _
  | request peer content =>
    dsimp only [State.handle, Event.relays?]
    split
    · next msg hmsg =>
      rw [hmsg]
      exact carried_snoc s (.direct peer msg)
    · next hnone =>
      rw [hnone]
      exact .refl _
  | response peer content =>
    dsimp only [State.handle, Event.relays?]
    split
    · next msg hmsg =>
      rw [hmsg, hidle]
      exact .refl _
    · next hnone =>
      rw [hnone]
      exact .refl _
  | command cmd =>
    cases cmd with
    | applyPenalty =>
      rw [hidle]
      exact .refl _
    | _ => exact .refl _

theorem log_handle (s : State) (event : Event) : (s.handle event).log = s.log := by
  cases event with
  | request | response =>
    dsimp only [State.handle]
    split <;> rfl
  | command cmd => cases cmd <;> rfl
  | _ => rfl

theorem forwarded?_penalize (s : State) (peer : PeerId) (info : PeerInfo) (penalty : Int) :
    (s.penalize peer info penalty).log.filterMap Record.forwarded? =
      s.log.filterMap Record.forwarded? := by
  unfold State.penalize
  dsimp only
  split
  · rw [List.filterMap_append]
    exact List.append_nil _
  · rfl

theorem forwarded?_updateScores (s : State) (peer : PeerId) (update : ScoreUpdate) :
    (s.updateScores peer update).log.filterMap Record.forwarded? =
      s.log.filterMap Record.forwarded? := by
  cases update with
  | established | closed => rfl
  | penalty penalty =>
    dsimp only [State.updateScores]
    split
    · exact forwarded?_penalize s peer _ penalty
    · rfl

/-- What a step does to the messages under way: it sends those of `sent`. -/
structure Moved (s : State) (step : Step) (s' : State)
    (sent : List (PeerId × ConsensusMessage)) : Prop where
  carried : (step.relays?.toList ++ s.carried).Perm (sent ++ s'.carried)
  channel : Courier.takes s step ++ s'.channel.map Prod.swap = s.channel.map Prod.swap ++ sent
  log : s'.log.filterMap Record.forwarded? = s.log.filterMap Record.forwarded? ++ sent

/-- Nothing is sent, and the channel is left alone. -/
theorem Moved.none (hcarried : (step.relays?.toList ++ s.carried).Perm s'.carried)
    (htakes : Courier.takes s step = []) (hchannel : s'.channel = s.channel)
    (hlog : s'.log.filterMap Record.forwarded? = s.log.filterMap Record.forwarded?) :
    Moved s step s' [] := by
  refine ⟨hcarried, ?_, ?_⟩
  · rw [htakes, hchannel, List.nil_append, List.append_nil]
  · rw [hlog, List.append_nil]

/-- One message goes into the channel. -/
theorem Moved.one {peer : PeerId} {msg : ConsensusMessage} (hrelays : step.relays? = Option.none)
    (htakes : Courier.takes s step = [])
    (hcarried : s.carried.Perm ((peer, msg) :: s'.carried))
    (hchannel : s'.channel = s.channel ++ [(msg, peer)])
    (hlog : s'.log = s.log ++ [.forwarded peer msg s.clock]) :
    Moved s step s' [(peer, msg)] := by
  refine ⟨?_, ?_, ?_⟩
  · rw [hrelays]
    exact hcarried
  · rw [htakes, hchannel, List.nil_append, List.map_append]
    rfl
  · rw [hlog, List.filterMap_append]
    rfl

theorem moved_of_advances (h : Advances kind s step s') : ∃ sent, Moved s step s' sent := by
  have herase {k : Nat} {task : Task} (htask : s.tasks[k]? = some task) {s' : State}
      (hloop : s'.loop = s.loop) (htasks : s'.tasks = s.tasks.eraseIdx k) :
      s.carried.Perm (task.carries?.toList ++ s'.carried) := by
    rw [State.carried, State.carried, hloop, htasks, ← List.append_assoc]
    refine ((carries_eraseIdx htask).append_left _).trans ?_
    rw [← List.append_assoc]
    exact List.perm_append_comm.append_right _
  cases h with
  | @event event hready =>
    exact ⟨[], .none (carried_handle hready event) rfl (handle_same s event).1
      (congrArg _ (log_handle s event))⟩
  | @update peer update hloop hlocked =>
    obtain ⟨htasks, hchannel, -⟩ := updateScores_same s peer update
    refine ⟨[], .none ?_ rfl hchannel (forwarded?_updateScores s peer update)⟩
    show s.carried.Perm ([] ++ (s.updateScores peer update).tasks.filterMap Task.carries?)
    rw [htasks, State.carried, hloop]
    exact .refl _
  | @respond peer msg hloop hroom =>
    refine ⟨[(peer, msg)], .one rfl rfl ?_ rfl rfl⟩
    rw [State.carried, hloop]
    exact .refl _
  | @lock k peer msg htask hlocked =>
    have hsame : (Task.forward peer msg).carries? =
        (Task.lockScores peer (some (.newConsensusMessage msg))).carries? := rfl
    exact ⟨[], .none ((carries_set htask hsame).symm.append_left _) rfl rfl rfl⟩
  | @payload k peer payload htask hlocked => exact ⟨[], .none (herase htask rfl rfl) rfl rfl rfl⟩
  | @unreadable k peer htask hlocked =>
    refine ⟨[], .none (herase htask ?_ rfl) rfl (penalize_same s _ _ _).2.1
      (forwarded?_penalize s _ _ _)⟩
    unfold State.penalize
    dsimp only
    split <;> rfl
  | @forward k peer msg htask hroom =>
    exact ⟨[(peer, msg)], .one rfl rfl (herase htask rfl rfl) rfl rfl⟩
  | @direct k peer msg htask hroom =>
    exact ⟨[(peer, msg)], .one rfl rfl (herase htask rfl rfl) rfl rfl⟩
  | @drain entry rest hkind hchannel =>
    refine ⟨[], .refl _, ?_, (List.append_nil _).symm⟩
    show s.channel.head?.toList.map Prod.swap ++ rest.map Prod.swap = _
    rw [hchannel]
    exact (List.append_nil _).symm

end DeliveryLemmas

open DeliveryLemmas

/-- As long as the loop does not panic, every message that has arrived is carried, waits in
the channel or has been taken, and is there once. The engine takes the messages in the
order in which they were forwarded. -/
theorem forwarded_exactly_once {kind : NodeKind} {c : Courier}
    (hrun : Run (Courier.step kind) (fun _ _ => True) .new c) :
    c.arrived.Perm (c.forwarded ++ c.state.carried) ∧
      c.state.log.filterMap Record.forwarded? = c.forwarded := by
  refine hrun.invariant (I := fun c => c.arrived.Perm (c.forwarded ++ c.state.carried) ∧
    c.state.log.filterMap Record.forwarded? = c.forwarded) ⟨.refl _, rfl⟩ ?_
  intro c c' timed _ _ hstep ⟨hperm, hlog⟩
  obtain ⟨s, hs, rfl⟩ := Option.map_eq_some_iff.mp hstep
  obtain ⟨-, hadvances⟩ := advances_of_step hs
  obtain ⟨sent, hmoved⟩ := moved_of_advances hadvances
  -- what the engine takes, and what is sent, moves along the line of forwarded messages
  have hforwarded : c.taken ++ Courier.takes c.state timed.2 ++ s.channel.map Prod.swap =
      c.forwarded ++ sent := by
    rw [List.append_assoc, Courier.forwarded, List.append_assoc]
    exact congrArg _ hmoved.channel
  constructor
  · show (c.arrived ++ timed.2.relays?.toList).Perm
      (c.taken ++ Courier.takes c.state timed.2 ++ s.channel.map Prod.swap ++ s.carried)
    rw [hforwarded, List.append_assoc]
    refine (hperm.append_right _).trans ?_
    rw [List.append_assoc]
    exact (List.perm_append_comm.append_left _).trans (hmoved.carried.append_left _)
  · show s.log.filterMap Record.forwarded? =
      c.taken ++ Courier.takes c.state timed.2 ++ s.channel.map Prod.swap
    rw [hforwarded, hmoved.log]
    exact congrArg (· ++ sent) hlog

/-- Two messages of one peer: the second is forwarded first, and the engine has taken it. -/
theorem forwarded_exactly_once_two :
    ∃ c, Run (Courier.step .authority) (fun _ _ => True) .new c ∧
      c.arrived.length = 2 ∧ c.taken.length = 1 ∧
      c.arrived.Perm (c.forwarded ++ c.state.carried) ∧
      c.state.log.filterMap Record.forwarded? = c.forwarded := by
  obtain ⟨c, hrun, harrived, htaken⟩ : ∃ c, Run (Courier.step .authority) (fun _ _ => True) .new c ∧
      c.arrived.length = 2 ∧ c.taken.length = 1 :=
    exists_run [
      (0, .event (.gossip 7 (some (.newConsensusMessage (.newQuorumCertificate genesisQc))))),
      (0, .event (.request 7 (.consensusRequest (.newQuorumCertificate genesisQc)))),
      (0, .run 1), (0, .drain)] (by decide +kernel)
  exact ⟨c, hrun, harrived, htaken, forwarded_exactly_once hrun⟩

end EviceChain.P2p
