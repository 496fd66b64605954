import EviceChain.P2p.Swarm

/-!
# Bans

A penalty that takes a score down to `BAN_THRESHOLD` sets `ban_until`, and its log line
says that the peer is blocked until then. No code reads `is_banned` or `ban_until`, and
the record goes when the peer disconnects: whatever a peer relays is forwarded to
the engine (`banned_peer_heard`). So a ban is kept only by peers that keep it
themselves (`bans_enforced`).
-/

namespace EviceChain.P2p

open Foundation Sequencer SwarmLemmas

/-- The record does not ban the peer beyond the time. -/
def Record.over (peer : PeerId) (time : Instant) : Record → Bool
  | .banned p banUntil => p ≠ peer || banUntil ≤ time
  | .forwarded _ _ _ => true

/-- The later record can follow the earlier one: what is forwarded does not come
from a peer that is banned at the time. -/
def Record.permits (earlier : Record) : Record → Bool
  | .forwarded peer _ time => earlier.over peer time
  | .banned _ _ => true

/-- While a peer is banned, nothing that it relays is forwarded. -/
def Enforced (log : List Record) : Prop := log.Pairwise fun r r' => r.permits r'

instance (log : List Record) : Decidable (Enforced log) :=
  inferInstanceAs (Decidable (log.Pairwise fun r r' => r.permits r'))

/-- Every ban of the peer has passed. -/
def State.banOver (s : State) (peer : PeerId) (time : Instant) : Bool :=
  s.log.all (·.over peer time)

/-! ## Messages on their way to the engine -/

/-- The message that a task is about to forward, and the peer that relayed it. -/
def Task.carries? : Task → Option (PeerId × ConsensusMessage)
  | .lockScores peer (some (.newConsensusMessage msg)) => some (peer, msg)
  | .lockScores _ _ => none
  | .forward peer msg => some (peer, msg)
  | .direct peer msg => some (peer, msg)

def Loop.carries? : Loop → Option (PeerId × ConsensusMessage)
  | .forward peer msg => some (peer, msg)
  | _ => none

def State.carried (s : State) : List (PeerId × ConsensusMessage) :=
  s.loop.carries?.toList ++ s.tasks.filterMap Task.carries?

/-- The message for the engine that arrives with an event, and the peer that relays
it. -/
def Event.relays? : Event → Option (PeerId × ConsensusMessage)
  | .gossip peer (some (.newConsensusMessage msg)) => some (peer, msg)
  | .request peer content => content.forwards?.map (peer, ·)
  | .response peer content => content.forwards?.map (peer, ·)
  | _ => none

def Step.relays? : Step → Option (PeerId × ConsensusMessage)
  | .event arrived => arrived.relays?
  | _ => none

/-- The peer whose score the step takes down to `BAN_THRESHOLD`. -/
def State.bans? (s : State) : Step → Option PeerId
  | .loop =>
    match s.loop with
    | .lockScores peer (.penalty penalty) =>
      (s.peerScores peer).bind fun info =>
        if info.penalized penalty ≤ banThreshold then some peer else none
    | _ => none
  | .run k =>
    match s.tasks[k]? with
    | some (.lockScores peer none) =>
      if (s.infoOrNew peer).penalized penaltyDeserializationError ≤ banThreshold then some peer
      else none
    | _ => none
  | _ => none

/-- Peers relay no consensus message while they are banned, and none of their
messages is on its way when they are banned. -/
def Courteous (s : State) (timed : Instant × Step) : Prop :=
  (∀ relayed ∈ timed.2.relays?, s.banOver relayed.1 timed.1 = true) ∧
    ∀ peer ∈ s.bans? timed.2, ∀ entry ∈ s.carried, entry.1 ≠ peer

instance (s : State) (timed : Instant × Step) : Decidable (Courteous s timed) :=
  inferInstanceAs (Decidable ((∀ relayed ∈ timed.2.relays?, s.banOver relayed.1 timed.1 = true) ∧
    ∀ peer ∈ s.bans? timed.2, ∀ entry ∈ s.carried, entry.1 ≠ peer))

/-! ## What a step does to the messages and the records -/

/-- The changes to the messages on their way and to the log. -/
inductive Effect (s : State) (step : Step) (s' : State) : Prop
  | quiet : s'.carried ⊆ step.relays?.toList ++ s.carried → s'.log = s.log → Effect s step s'
  | forward {relayed : PeerId × ConsensusMessage} : relayed ∈ s.carried →
      s'.carried ⊆ s.carried → s'.log = s.log ++ [.forwarded relayed.1 relayed.2 s.clock] →
      Effect s step s'
  | ban {peer : PeerId} : peer ∈ s.bans? step → s'.carried ⊆ s.carried →
      s'.log = s.log ++ [.banned peer (s.clock + banDuration)] → Effect s step s'

/-- Nothing new is on its way, and nothing has happened to a peer. -/
theorem Effect.idle {s s' : State} {step : Step} (hcarried : s'.carried ⊆ s.carried)
    (hlog : s'.log = s.log) : Effect s step s' :=
  .quiet (List.Subset.trans hcarried (List.subset_append_right _ _)) hlog

namespace BansLemmas

variable {kind : NodeKind} {s s' : State} {step : Step}

theorem carried_of_task {k : Nat} {task : Task} {relayed : PeerId × ConsensusMessage}
    (htask : s.tasks[k]? = some task) (h : task.carries? = some relayed) :
    relayed ∈ s.carried :=
  List.mem_append_right _ (List.mem_filterMap.mpr ⟨task, List.mem_of_getElem? htask, h⟩)

theorem carried_of_loop {relayed : PeerId × ConsensusMessage}
    (h : s.loop.carries? = some relayed) : relayed ∈ s.carried := by
  refine List.mem_append_left _ ?_
  rw [h]
  exact List.mem_singleton_self _

/-- A loop that has nothing new to forward, and tasks that carry nothing new. -/
theorem carried_subset (hloop : s'.loop = s.loop ∨ s'.loop.carries? = none)
    (htasks : s'.tasks.filterMap Task.carries? ⊆ s.tasks.filterMap Task.carries?) :
    s'.carried ⊆ s.carried := by
  refine List.append_subset.mpr ⟨?_, fun x hx => List.mem_append_right _ (htasks hx)⟩
  rcases hloop with hsame | hnone
  · rw [hsame]
    exact List.subset_append_left _ _
  · rw [hnone]
    exact List.nil_subset _

/-- A task that is started comes with what it carries. -/
theorem carried_snoc (s : State) (task : Task) :
    (task.carries?.toList ++ s.carried).Perm
      ({ s with tasks := s.tasks ++ [task] } : State).carried := by
  have htask : [task].filterMap Task.carries? = task.carries?.toList := by
    cases h : task.carries? with
    | none => rw [List.filterMap_cons_none h, List.filterMap_nil, Option.toList_none]
    | some relayed => rw [List.filterMap_cons_some h, List.filterMap_nil, Option.toList_some]
  show (_ ++ s.carried).Perm (s.loop.carries?.toList ++ (s.tasks ++ [task]).filterMap _)
  rw [List.filterMap_append, htask, ← List.append_assoc]
  exact List.perm_append_comm

theorem carried_loop (s : State) (loop : Loop) :
    ({ s with loop } : State).carried ⊆ loop.carries?.toList ++ s.carried := by
  refine List.append_subset.mpr ⟨List.subset_append_left _ _, fun x hx => ?_⟩
  exact List.mem_append_right _ (List.mem_append_right _ hx)

/-- A task that is gone leaves what the others carry. -/
theorem carries_eraseIdx {tasks : List Task} {k : Nat} {task : Task}
    (htask : tasks[k]? = some task) :
    (tasks.filterMap Task.carries?).Perm
      (task.carries?.toList ++ (tasks.eraseIdx k).filterMap Task.carries?) := by
  obtain ⟨hk, hget⟩ := List.getElem?_eq_some_iff.mp htask
  have hperm := (List.getElem_cons_eraseIdx_perm hk).symm.filterMap Task.carries?
  rw [hget] at hperm
  cases hcarries : task.carries? with
  | none => rwa [List.filterMap_cons_none hcarries] at hperm
  | some relayed => rwa [List.filterMap_cons_some hcarries] at hperm

/-- A task that goes on carries what it carried before. -/
theorem carries_set {tasks : List Task} {k : Nat} {task task' : Task}
    (htask : tasks[k]? = some task) (hsame : task'.carries? = task.carries?) :
    ((tasks.set k task').filterMap Task.carries?).Perm (tasks.filterMap Task.carries?) := by
  obtain ⟨hk, -⟩ := List.getElem?_eq_some_iff.mp htask
  refine ((List.set_perm_cons_eraseIdx hk task').filterMap _).trans ?_
  refine List.Perm.trans ?_ (carries_eraseIdx htask).symm
  rw [← hsame]
  cases hcarries : task'.carries? with
  | none => rw [List.filterMap_cons_none hcarries]; exact .refl _
  | some relayed => rw [List.filterMap_cons_some hcarries]; exact .refl _

/-- The loop takes an event. -/
theorem effect_handle (s : State) (event : Event) : Effect s (.event event) (s.handle event) := by
  have hidle : Effect s (.event event) s := .idle (List.Subset.refl _) rfl
  cases event with
  | connectionEstablished | connectionClosed => exact .quiet (carried_loop s _) rfl
  | gossip peer data =>
    have hrelays : (Step.event (.gossip peer data)).relays? =
        (Task.lockScores peer data).carries? := by
      rcases data with _ | (payload | msg) <;> rfl
    refine .quiet ?_ rfl
    rw [hrelays]
    exact (carried_snoc s _).symm.subset
  | fallbackGossip => exact hidle
  | request peer content =>
    dsimp only [State.handle]
    split
    · next msg hmsg =>
      have hrelays : (Step.event (.request peer content)).relays? = some (peer, msg) :=
        congrArg (Option.map (peer, ·)) hmsg
      refine .quiet ?_ rfl
      rw [hrelays]
      exact (carried_snoc s (.direct peer msg)).symm.subset
    · exact hidle
  | response peer content =>
    dsimp only [State.handle]
    split
    · next msg hmsg =>
      have hrelays : (Step.event (.response peer content)).relays? = some (peer, msg) :=
        congrArg (Option.map (peer, ·)) hmsg
      refine .quiet ?_ rfl
      rw [hrelays]
      exact carried_loop s (.forward peer msg)
    · exact hidle
  | command cmd =>
    cases cmd with
    | applyPenalty => exact .quiet (carried_loop s _) rfl
    | _ => exact hidle

/-- A penalty, with the tasks and the loop that it leaves. -/
theorem effect_penalize {peer : PeerId} {info : PeerInfo} {penalty : Int}
    (hbans : info.penalized penalty ≤ banThreshold → peer ∈ s.bans? step)
    (hlog : s'.log = (s.penalize peer info penalty).log) (hcarried : s'.carried ⊆ s.carried) :
    Effect s step s' := by
  unfold State.penalize at hlog
  split at hlog
  · next hscore => exact .ban (hbans hscore) hcarried hlog
  · exact .idle hcarried hlog

/-- The loop under the lock of `peer_scores`. -/
theorem effect_update {peer : PeerId} {update : ScoreUpdate}
    (hloop : s.loop = .lockScores peer update)
    (hlog : s'.log = (s.updateScores peer update).log) (hcarried : s'.carried ⊆ s.carried) :
    Effect s .loop s' := by
  cases update with
  | established | closed => exact .idle hcarried hlog
  | penalty penalty =>
    unfold State.updateScores at hlog
    cases hinfo : s.peerScores peer with
    | none =>
      rw [hinfo] at hlog
      exact .idle hcarried hlog
    | some info =>
      rw [hinfo] at hlog
      refine effect_penalize (fun hscore => ?_) hlog hcarried
      simp [State.bans?, hloop, hinfo, hscore]

theorem effect_of_advances (h : Advances kind s step s') : Effect s step s' := by
  have herase {s' : State} {k : Nat} (hloop : s'.loop = s.loop)
      (htasks : s'.tasks = s.tasks.eraseIdx k) : s'.carried ⊆ s.carried := by
    refine carried_subset (.inl hloop) ?_
    rw [htasks]
    exact ((List.eraseIdx_sublist s.tasks k).filterMap _).subset
  cases h with
  | event => exact effect_handle s _
  | @update peer update hloop hlocked =>
    refine effect_update hloop rfl (carried_subset (.inr rfl) ?_)
    dsimp only
    rw [(updateScores_same s peer update).1]
    exact List.Subset.refl _
  | @respond peer msg hloop hroom =>
    have hcarries : s.loop.carries? = some (peer, msg) := by
      rw [hloop]
      rfl
    exact .forward (carried_of_loop hcarries) (carried_subset (.inr rfl) (List.Subset.refl _)) rfl
  | @lock k peer msg htask hlocked =>
    have hsame : (Task.forward peer msg).carries? =
        (Task.lockScores peer (some (.newConsensusMessage msg))).carries? := rfl
    exact .idle (carried_subset (.inl rfl) (carries_set htask hsame).subset) rfl
  | payload htask hlocked => exact .idle (herase rfl rfl) rfl
  | @unreadable k peer htask hlocked =>
    refine effect_penalize (fun hscore => ?_) rfl (herase (k := k) ?_ rfl)
    · simp [State.bans?, htask, hscore]
    · unfold State.penalize
      split <;> rfl
  | forward htask hroom => exact .forward (carried_of_task htask rfl) (herase rfl rfl) rfl
  | direct htask hroom => exact .forward (carried_of_task htask rfl) (herase rfl rfl) rfl
  | drain => exact .idle (List.Subset.refl _) rfl

theorem over_mono {r : Record} {peer : PeerId} {time time' : Instant} (h : r.over peer time = true)
    (hle : time ≤ time') : r.over peer time' = true := by
  cases r with
  | banned p banUntil =>
    simp only [Record.over, Bool.or_eq_true, decide_eq_true_eq] at h ⊢
    exact h.imp_right fun hpassed => hpassed.trans hle
  | forwarded => rfl

end BansLemmas

open BansLemmas

/-- What is on its way was relayed by peers that are not banned. -/
structure Kept (s : State) : Prop where
  enforced : Enforced s.log
  carried : ∀ entry ∈ s.carried, s.banOver entry.1 s.clock = true

theorem Kept.step {kind : NodeKind} {s s' : State} {timed : Instant × Step} (h : Kept s)
    (hok : Courteous s timed) (hstep : s.step kind timed = some s') : Kept s' := by
  obtain ⟨now, step⟩ := timed
  obtain ⟨hlater, hadvances⟩ := advances_of_step hstep
  have hclock : s'.clock = now := clock_of_advances hadvances
  have hover : ∀ entry ∈ s.carried, s.banOver entry.1 now = true := fun entry hentry =>
    List.all_eq_true.mpr fun r hr =>
      over_mono (List.all_eq_true.mp (h.carried entry hentry) r hr) hlater
  rw [Courteous] at hok
  cases effect_of_advances hadvances with
  | quiet hcarried hlog =>
    refine ⟨hlog ▸ h.enforced, fun entry hentry => ?_⟩
    rw [State.banOver, hlog, hclock]
    rcases List.mem_append.mp (hcarried hentry) with hnew | hold
    · exact hok.1 entry (Option.mem_toList.mp hnew)
    · exact hover entry hold
  | @forward relayed hrelayed hcarried hlog =>
    constructor
    · rw [Enforced, hlog]
      refine List.pairwise_append.mpr
        ⟨h.enforced, List.pairwise_singleton _ _, fun r hr r' hr' => ?_⟩
      cases List.mem_singleton.mp hr'
      exact List.all_eq_true.mp (hover relayed hrelayed) r hr
    · intro entry hentry
      rw [State.banOver, hlog, hclock, List.all_append, Bool.and_eq_true]
      exact ⟨hover entry (hcarried hentry), rfl⟩
  | @ban peer hbans hcarried hlog =>
    constructor
    · rw [Enforced, hlog]
      refine List.pairwise_append.mpr
        ⟨h.enforced, List.pairwise_singleton _ _, fun r hr r' hr' => ?_⟩
      cases List.mem_singleton.mp hr'
      rfl
    · intro entry hentry
      rw [State.banOver, hlog, hclock, List.all_append, Bool.and_eq_true]
      refine ⟨hover entry (hcarried hentry), ?_⟩
      have hother := hok.2 peer hbans entry (hcarried hentry)
      simp [Record.over, hother.symm]

/-- However the events and the tasks interleave: where every peer keeps its bans
itself, nothing that a banned peer relays is forwarded before its ban has passed. -/
theorem bans_enforced {kind : NodeKind} {s : State} (hrun : Reaches kind Courteous s) :
    Enforced s.log :=
  (hrun.invariant ⟨.nil, fun _ h => by cases h⟩ fun _ hok hstep ih =>
    Kept.step ih hok hstep).enforced

/-- A peer is banned, and says nothing until its ban has passed. -/
theorem bans_enforced_silent :
    ∃ s, Reaches .authority Courteous s ∧
      s.log = [.banned 7 1800, .forwarded 7 (.newQuorumCertificate genesisQc) 1800] ∧
      Enforced s.log := by
  have hplay : ∃ s, Reaches .authority Courteous s ∧
      s.log = [.banned 7 1800, .forwarded 7 (.newQuorumCertificate genesisQc) 1800] :=
    exists_run [(0, .event (.connectionEstablished 7)), (0, .loop),
      (0, .event (.command (.applyPenalty 7 (-50)))), (0, .loop),
      (1800, .event (.gossip 7 (some (.newConsensusMessage (.newQuorumCertificate genesisQc))))),
      (1800, .run 0), (1800, .run 0)] (by decide +kernel)
  obtain ⟨s, hrun, hlog⟩ := hplay
  exact ⟨s, hrun, hlog, bans_enforced hrun⟩

/-- A peer is banned, disconnects, comes back, and is heard at once. -/
theorem banned_peer_heard :
    ∃ s, Reaches .authority (fun _ _ => True) s ∧ ¬ Enforced s.log :=
  exists_run [(0, .event (.connectionEstablished 7)), (0, .loop),
    (0, .event (.command (.applyPenalty 7 (-50)))), (0, .loop),
    (1, .event (.connectionClosed 7)), (1, .loop),
    (2, .event (.connectionEstablished 7)), (2, .loop),
    (3, .event (.gossip 7 (some (.newConsensusMessage (.newQuorumCertificate genesisQc))))),
    (3, .run 0), (3, .run 0)] (by decide +kernel)

end EviceChain.P2p
