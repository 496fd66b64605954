import EviceChain.Sequencer.Pending

/-!
# Rounds

The driver moves on to the round after that of the highest certificate, or, when a
step has run out, to the next step or round. The view of a certificate is the round
that its batch names, and that is whatever the sender of the batch has written: no
check bounds it and no signature of the header covers it. With a batch for the round
`u64::MAX` and the votes for it the next round is 0 (`round_wraps`).

As long as the rounds of the messages leave room for the steps that the driver takes
itself, it only moves forward (`rounds_progress`).

`act_anchor` and `act_clock` say what an action does to the highest certificate and to
the round and the step of a node.
-/

namespace EviceChain.Sequencer

open Foundation NetworkLemmas

variable {C : Crypto}

/-- What an action does to the highest certificate and the last confirmed batch. -/
inductive AnchorStep (cfg : Config C) (node : Node) (a : Action) (node' : Node) : Prop
  | same : node'.core.highestSeenQc = node.core.highestSeenQc →
      node'.core.optimisticallyConfirmedBatches = node.core.optimisticallyConfirmedBatches →
      AnchorStep cfg node a node'
  | received {now : UInt64} {qc : QuorumCertificate} {peer : PeerId} :
      Runs node a now (.anchorQc qc peer) → isFullyValid C cfg.addressBook qc = true →
      qc.viewNumber > node.core.highestSeenQc.viewNumber → node'.core.highestSeenQc = qc →
      node'.core.optimisticallyConfirmedBatches = node.core.optimisticallyConfirmedBatches →
      AnchorStep cfg node a node'
  | confirmed {batchHash : Bytes} {batch : PendingBatch} :
      (batchHash, batch) ∈ confirms? cfg node a →
      node'.core.highestSeenQc = (node.confirm batchHash batch).core.highestSeenQc →
      node'.core.optimisticallyConfirmedBatches.getLast? = some batch.toPayload →
      AnchorStep cfg node a node'

/-- What an action does to the round and the step, and to those that the driver has
decided on. -/
inductive ClockStep (cfg : Config C) (node : Node) (a : Action) (node' : Node) : Prop
  | same : node'.core.currentRound = node.core.currentRound →
      node'.core.currentStep = node.core.currentStep → node'.driver = node.driver →
      a ≠ .advance → ClockStep cfg node a node'
  | decide {timedOut : Bool} {next : UInt64 × UInt64} : a = .tick timedOut →
      nextStep cfg node.core timedOut = some next → node'.driver = some next →
      node'.core = node.core → ClockStep cfg node a node'
  | start {round step : UInt64} : a = .advance → node.driver = some (round, step) →
      node'.driver = none →
      node'.core = { node.core with currentRound := round, currentStep := step } →
      ClockStep cfg node a node'

namespace RoundsLemmas

variable {cfg : Config C} {node node' : Node} {a : Action}

theorem getLast?_certify (node : Node) (batchHash : Bytes) (batch : PendingBatch)
    (qc : QuorumCertificate) :
    ((node.confirm batchHash batch).certify qc).core.optimisticallyConfirmedBatches.getLast? =
      some batch.toPayload := by
  rw [PushedOnce.confirmed_certify, List.getLast?_drop, if_neg]
  · exact List.getLast?_concat
  · simp [Node.confirm, maxConfirmedBatches]

theorem exec_anchor (cfg : Config C) {now : UInt64} {task : Task} (hruns : Runs node a now task) :
    AnchorStep cfg node a (exec cfg now node task).1 := by
  cases task with
  | processVotes batchHash =>
    dsimp only [exec]
    split
    · exact .same rfl rfl
    · next batch hready =>
      exact .confirmed (confirms?_of_runs hruns hready) rfl
        (getLast?_certify node batchHash batch _)
  | anchorQc qc peer =>
    dsimp only [exec]
    split
    · exact .same rfl rfl
    · next hvalid =>
      split
      · next hview => exact .received hruns (by simpa using hvalid) hview rfl rfl
      · exact .same rfl rfl
  | receive | recheck | checkVote =>
    dsimp only [exec]
    split <;> exact .same rfl rfl
  | insertProposal | storeVote | roundStep =>
    dsimp only [exec]
    split
    · exact .same rfl rfl
    · split <;> exact .same rfl rfl
  | _ => exact .same rfl rfl

theorem exec_clock (cfg : Config C) (now : UInt64) (node : Node) (task : Task) :
    (exec cfg now node task).1.core.currentRound = node.core.currentRound ∧
      (exec cfg now node task).1.core.currentStep = node.core.currentStep ∧
      (exec cfg now node task).1.driver = node.driver := by
  cases task with
  | receive | recheck | checkVote | processVotes =>
    dsimp only [exec]
    split <;> exact ⟨rfl, rfl, rfl⟩
  | insertProposal | storeVote | roundStep | anchorQc =>
    dsimp only [exec]
    split
    · exact ⟨rfl, rfl, rfl⟩
    · split <;> exact ⟨rfl, rfl, rfl⟩
  | _ => exact ⟨rfl, rfl, rfl⟩

end RoundsLemmas

open RoundsLemmas

section

variable {cfg : Config C} {node node' : Node} {a : Action}

theorem act_anchor (hact : act cfg node a = some node') : AnchorStep cfg node a node' := by
  cases a with
  | deliver | submit =>
    cases hact
    exact .same rfl rfl
  | tick | advance =>
    dsimp only [act] at hact
    split at hact <;> cases hact <;> exact .same rfl rfl
  | run k now =>
    obtain ⟨task, hruns⟩ := exists_runs hact
    rw [act_of_runs hact hruns]
    cases exec_anchor cfg hruns with
    | same hqc hconfirmed => exact .same hqc hconfirmed
    | received hruns' hvalid hview hqc hconfirmed =>
      exact .received hruns' hvalid hview hqc hconfirmed
    | confirmed hready hqc hlast => exact .confirmed hready hqc hlast
  | cancel k midway =>
    dsimp only [act] at hact
    split at hact
    · next task htask =>
      cases hact
      unfold cancelTask
      split
      · split
        · exact .same rfl rfl
        · next hready =>
          refine .confirmed (by simp [confirms?, htask, hready]) rfl ?_
          exact List.getLast?_concat
      · exact .same rfl rfl
    · cases hact

theorem act_clock (hact : act cfg node a = some node') : ClockStep cfg node a node' := by
  cases a with
  | deliver | submit =>
    cases hact
    exact .same rfl rfl rfl (by simp)
  | tick timedOut =>
    dsimp only [act] at hact
    split at hact
    · next hnext =>
      cases hact
      exact .decide rfl hnext rfl rfl
    · cases hact
      exact .same rfl rfl rfl (by simp)
    · cases hact
  | advance =>
    dsimp only [act] at hact
    split at hact
    · cases hact
    · next hdriver =>
      cases hact
      exact .start rfl hdriver rfl rfl
  | run k now =>
    obtain ⟨task, hruns⟩ := exists_runs hact
    rw [act_of_runs hact hruns]
    obtain ⟨hround, hstep, hdriver⟩ := exec_clock cfg now node task
    exact .same hround hstep hdriver (by simp)
  | cancel k midway =>
    dsimp only [act] at hact
    split at hact
    · next task htask =>
      cases hact
      unfold cancelTask
      split
      · split <;> exact .same rfl rfl rfl (by simp)
      · exact .same rfl rfl rfl (by simp)
    · cases hact

end

/-! ## The driver moves forward -/

/-- The lexicographic order of rounds and steps. -/
def Before (p q : UInt64 × UInt64) : Prop := p.1 < q.1 ∨ p.1 = q.1 ∧ p.2 < q.2

instance (p q : UInt64 × UInt64) : Decidable (Before p q) :=
  inferInstanceAs (Decidable (p.1 < q.1 ∨ p.1 = q.1 ∧ p.2 < q.2))

/-- The additions that the driver makes when it looks at this state do not overflow:
`highest_qc_view + 1`, or `current_step + 1` and `current_round + 1`. -/
structure NoOverflow (cfg : Config C) (core : CoreConsensusState) (timedOut : Bool) : Prop where
  view : core.highestSeenQc.viewNumber ≥ core.currentRound →
    core.highestSeenQc.viewNumber.toNat + 1 < 2 ^ 64
  step : core.highestSeenQc.viewNumber < core.currentRound → timedOut = true →
    core.currentStep.toNat + 1 < 2 ^ 64
  round : core.highestSeenQc.viewNumber < core.currentRound → timedOut = true →
    cfg.subCommitteeSize ≤ core.currentStep.toNat + 1 → core.currentRound.toNat + 1 < 2 ^ 64

/-- What an action should do to the round and the step. -/
structure Progress (cfg : Config C) (node : Node) (a : Action) (node' : Node) : Prop where
  forward : a = .advance → Before (node.core.currentRound, node.core.currentStep)
    (node'.core.currentRound, node'.core.currentStep)
  monotone : node.core.currentRound ≤ node'.core.currentRound
  exact : ∀ timedOut, a = .tick timedOut → NoOverflow cfg node.core timedOut

/-- The round that a message names. -/
def ConsensusMessage.round : ConsensusMessage → Nat
  | .intentBatchProposal batch => batch.round.toNat
  | .newQuorumCertificate qc => qc.viewNumber.toNat
  | .velocityVoteMsg _ => 0

/-- The rounds of certificates and of the proposer. -/
def Task.RoundsUpTo (bound : Nat) : Task → Prop
  | .receive msg _ | .recheck msg _ => msg.round ≤ bound
  | .anchorQc qc _ => qc.viewNumber.toNat ≤ bound
  | .roundStep round _ | .readParent round | .drainMempool round _ | .buildBatch round _ _ =>
    round.toNat ≤ bound
  | _ => True

/-- No round that a node knows is above the bound, and the driver is about to go
forward. -/
structure Bounded (cfg : Config C) (bound : Nat) (node : Node) : Prop where
  batches : DataOk C (fun batch => batch.round.toNat ≤ bound) (fun _ => True) node
  tasks : ∀ entry ∈ node.tasks, entry.2.RoundsUpTo bound
  round : node.core.currentRound.toNat ≤ bound
  view : node.core.highestSeenQc.viewNumber.toNat ≤ bound
  step : node.core.currentStep = 0 ∨ node.core.currentStep.toNat < cfg.subCommitteeSize
  driver : ∀ next ∈ node.driver, next.1.toNat ≤ bound + 1 ∧
    (next.2 = 0 ∨ next.2.toNat < cfg.subCommitteeSize) ∧
    Before (node.core.currentRound, node.core.currentStep) next

namespace RoundsLemmas

variable {cfg : Config C} {node node' : Node} {a : Action} {bound : Nat}

theorem toNat_succ {n : UInt64} (h : n.toNat + 1 < 2 ^ 64) : (n + 1).toNat = n.toNat + 1 := by
  rw [UInt64.toNat_add]
  exact Nat.mod_eq_of_lt h

theorem lt_succ {n : UInt64} (h : n.toNat + 1 < 2 ^ 64) : n < n + 1 := by
  rw [UInt64.lt_iff_toNat_lt, toNat_succ h]
  exact Nat.lt_succ_self _

theorem step_room (hsize : cfg.subCommitteeSize < 2 ^ 64) {step : UInt64}
    (h : step = 0 ∨ step.toNat < cfg.subCommitteeSize) : step.toNat + 1 < 2 ^ 64 := by
  rcases h with rfl | h
  · decide
  · exact Nat.lt_of_le_of_lt h hsize

end RoundsLemmas

namespace Bounded

variable {cfg : Config C} {node node' : Node} {a : Action} {bound : Nat}

theorem noOverflow (h : Bounded cfg bound node) (hbound : bound + 1 < 2 ^ 64)
    (hsize : cfg.subCommitteeSize < 2 ^ 64) (timedOut : Bool) :
    NoOverflow cfg node.core timedOut where
  view _ := Nat.lt_of_le_of_lt (Nat.succ_le_succ h.view) hbound
  step _ _ := step_room hsize h.step
  round _ _ _ := Nat.lt_of_le_of_lt (Nat.succ_le_succ h.round) hbound

/-- The round and step that the driver decides on are ahead. -/
theorem nextStep_ahead (h : Bounded cfg bound node) (hbound : bound + 1 < 2 ^ 64)
    (hsize : cfg.subCommitteeSize < 2 ^ 64) {timedOut : Bool} {next : UInt64 × UInt64}
    (hnext : nextStep cfg node.core timedOut = some next) :
    next.1.toNat ≤ bound + 1 ∧ (next.2 = 0 ∨ next.2.toNat < cfg.subCommitteeSize) ∧
      Before (node.core.currentRound, node.core.currentStep) next := by
  have hview := Nat.lt_of_le_of_lt (Nat.succ_le_succ h.view) hbound
  have hround := Nat.lt_of_le_of_lt (Nat.succ_le_succ h.round) hbound
  unfold nextStep at hnext
  split at hnext
  · -- a certificate for this round or a later one
    next hreached =>
    cases hnext
    refine ⟨?_, .inl rfl, .inl (UInt64.lt_of_le_of_lt hreached (lt_succ hview))⟩
    rw [toNat_succ hview]
    exact Nat.succ_le_succ h.view
  · split at hnext
    · dsimp only at hnext
      split at hnext
      · -- all proposers of the round have failed
        cases hnext
        refine ⟨?_, .inl rfl, .inl (lt_succ hround)⟩
        rw [toNat_succ hround]
        exact Nat.succ_le_succ h.round
      · next hsteps =>
        cases hnext
        exact ⟨Nat.le_succ_of_le h.round, .inr (Nat.lt_of_not_le hsteps),
          .inr ⟨rfl, lt_succ (step_room hsize h.step)⟩⟩
    · cases hnext

theorem mono {bound' : Nat} (h : Bounded cfg bound node) (hle : bound ≤ bound') :
    Bounded cfg bound' node where
  batches := h.batches.mono (fun _ hb => hb.trans hle) fun _ hv => hv
  tasks entry hentry := by
    have hold := h.tasks entry hentry
    revert hold
    cases entry.2 <;> first | exact fun hold => Nat.le_trans hold hle | exact id
  round := h.round.trans hle
  view := h.view.trans hle
  step := h.step
  driver next hnext := by
    obtain ⟨hround, hstep, hbefore⟩ := h.driver next hnext
    exact ⟨hround.trans (Nat.succ_le_succ hle), hstep, hbefore⟩

theorem new (cfg : Config C) (bound : Nat) : Bounded cfg bound (Node.new genesisQc) where
  batches := .new _
  tasks _ h := by cases h
  round := Nat.zero_le _
  view := Nat.zero_le _
  step := .inl rfl
  driver _ h := by cases h

/-- The batch that a proposer builds is for its own round. -/
theorem round_of_builds? (h : Bounded cfg bound node) {batch : PayloadBatch}
    (hbuilds : batch ∈ builds? cfg node a) : batch.round.toNat ≤ bound := by
  cases a with
  | run k now =>
    dsimp only [builds?] at hbuilds
    split at hbuilds
    · next htask =>
      cases hbuilds
      exact h.tasks _ (List.mem_of_getElem? htask)
    · cases hbuilds
  | _ => cases hbuilds

/-- A task hands on the round it has. -/
theorem roundsUpTo_next {now : UInt64} {task task' : Task} (h : task.RoundsUpTo bound)
    (hnext : (exec cfg now node task).2 = some task') : task'.RoundsUpTo bound := by
  cases exec_next hnext with
  | recheck | anchorQc | readParent | drainMempool | buildBatch => exact h
  | _ => trivial

/-- The highest certificate is one that was received, or is for a batch that was
pending. -/
theorem view_le (h : Bounded cfg bound node) (hact : act cfg node a = some node') :
    node'.core.highestSeenQc.viewNumber.toNat ≤ bound := by
  cases act_anchor hact with
  | same hqc =>
    rw [hqc]
    exact h.view
  | received hruns _ _ hqc =>
    obtain ⟨kind, hmem⟩ := mem_tasks_of_runs hruns
    rw [hqc]
    exact h.tasks _ hmem
  | confirmed hconf hqc =>
    rw [hqc]
    dsimp only [Node.confirm]
    split
    · exact (h.batches.pending _ _ (ready_of_confirms? hconf).pending).1
    · exact h.view

/-- An action raises the bound if it starts a step. -/
theorem act (h : Bounded cfg bound node) (hbound : bound + 1 < 2 ^ 64)
    (hsize : cfg.subCommitteeSize < 2 ^ 64) (hdeliver : ∀ msg ∈ delivers? a, msg.round ≤ bound)
    (hact : act cfg node a = some node') :
    Bounded cfg (bound + [a].count .advance) node' := by
  have hle : bound ≤ bound + [a].count .advance := Nat.le_add_right _ _
  have hwide := h.mono hle
  have hbatches : DataOk C (fun batch => batch.round.toNat ≤ bound) (fun _ => True) node' := by
    refine h.batches.act
      ⟨fun msg hmsg => ?_, fun _ => round_of_builds? h, fun _ _ _ => trivial⟩ hact
    cases msg with
    | intentBatchProposal => exact hdeliver _ hmsg
    | _ => trivial
  refine
    { batches := hbatches.mono (fun _ hb => hb.trans hle) fun _ hv => hv
      tasks := ?_, round := ?_, view := (view_le h hact).trans hle, step := ?_, driver := ?_ }
  · refine act_tasks (T := Task.RoundsUpTo (bound + [a].count .advance))
      (fun msg _ hmsg => (hdeliver msg hmsg).trans hle) ?_ (fun _ _ _ _ => roundsUpTo_next)
      hact hwide.tasks
    rintro round step rfl hdriver
    exact (h.driver _ hdriver).1
  · cases act_clock hact with
    | same hround => exact hround ▸ hwide.round
    | decide _ _ _ hcore => exact hcore ▸ hwide.round
    | start ha hdriver _ hcore =>
      subst ha
      rw [hcore]
      exact (h.driver _ hdriver).1
  · cases act_clock hact with
    | same _ hstep => exact hstep ▸ h.step
    | decide _ _ _ hcore => exact hcore ▸ h.step
    | start _ hdriver _ hcore =>
      rw [hcore]
      exact (h.driver _ hdriver).2.1
  · cases act_clock hact with
    | same hround hstep hdriver =>
      rw [hround, hstep, hdriver]
      exact hwide.driver
    | decide _ hnext hdriver hcore =>
      rw [hcore, hdriver]
      rintro next hmem
      cases Option.mem_some_iff.mp hmem
      obtain ⟨hround, hrest⟩ := nextStep_ahead h hbound hsize hnext
      exact ⟨hround.trans (Nat.succ_le_succ hle), hrest⟩
    | start _ _ hdriver _ =>
      rw [hdriver]
      intro next hmem
      cases hmem

theorem of_run (hsize : cfg.subCommitteeSize < 2 ^ 64) {as : List Action}
    (hrounds : ∀ b ∈ as, ∀ msg ∈ delivers? b, msg.round ≤ bound)
    (hroom : bound + as.count .advance + 1 < 2 ^ 64)
    (hrun : as.foldlM (Sequencer.act cfg) (Node.new genesisQc) = some node) :
    Bounded cfg (bound + as.count .advance) node := by
  induction as using List.reverseRecOn generalizing node with
  | nil =>
    cases hrun
    exact .new cfg _
  | append_singleton as a ih =>
    rw [List.foldlM_append] at hrun
    obtain ⟨before, hbefore, hlast⟩ := Option.bind_eq_some_iff.mp hrun
    rw [List.foldlM_cons] at hlast
    obtain ⟨after, hact, hdone⟩ := Option.bind_eq_some_iff.mp hlast
    cases hdone
    rw [List.count_append, ← Nat.add_assoc] at hroom ⊢
    have hroom' : bound + as.count .advance + 1 < 2 ^ 64 := by omega
    have hb := ih (fun b hb => hrounds b (List.mem_append_left _ hb)) hroom' hbefore
    refine hb.act hroom' hsize (fun msg hmsg => ?_) hact
    exact (hrounds a List.mem_concat_self msg hmsg).trans (Nat.le_add_right _ _)

/-- A driver that is within its bounds goes forward, whatever the node does next. -/
theorem progress (h : Bounded cfg bound node) (hbound : bound + 1 < 2 ^ 64)
    (hsize : cfg.subCommitteeSize < 2 ^ 64) (hact : Sequencer.act cfg node a = some node') :
    Progress cfg node a node' := by
  have hexact := fun timedOut (_ : a = .tick timedOut) => h.noOverflow hbound hsize timedOut
  cases act_clock hact with
  | same hround _ _ ha => exact ⟨fun h => (ha h).elim, hround ▸ UInt64.le_refl _, hexact⟩
  | decide ha _ _ hcore =>
    refine ⟨fun h => ?_, hcore ▸ UInt64.le_refl _, hexact⟩
    rw [h] at ha
    cases ha
  | start _ hdriver _ hcore =>
    have hbefore := (h.driver _ hdriver).2.2
    refine ⟨fun _ => ?_, ?_, hexact⟩
    · rw [hcore]
      exact hbefore
    · rw [hcore]
      rcases hbefore with hlater | ⟨hsame, -⟩
      · exact UInt64.le_of_lt hlater
      · exact UInt64.le_iff_toNat_le.mpr (congrArg UInt64.toNat hsame).le

end Bounded

/-- In every run of a node, whatever it receives: if the rounds that messages name are
at most `bound`, and fewer than `2 ^ 64 - 1 - bound` steps are started, each step that
the driver starts is after the one before, the round never goes back, and no addition
overflows. -/
theorem rounds_progress {cfg : Config C} (hsize : cfg.subCommitteeSize < 2 ^ 64) (bound : Nat)
    (as : List Action) {a : Action} {node node' : Node}
    (hrounds : ∀ b ∈ as, ∀ msg ∈ delivers? b, msg.round ≤ bound)
    (hroom : bound + as.count .advance + 1 < 2 ^ 64)
    (hrun : as.foldlM (act cfg) (Node.new genesisQc) = some node)
    (hact : act cfg node a = some node') : Progress cfg node a node' :=
  (Bounded.of_run hsize hrounds hroom hrun).progress hroom hsize hact

/-- A batch of the second validator for a round of its choice. -/
def batchFor (round : UInt64) : PayloadBatch :=
  newBatch (toyNetwork.config true) (.new genesisQc) round genesisQc [] 10

/-- The first node is in round 1 and has received a batch for round 5 when its step
runs out. -/
theorem rounds_progress_timeout :
    ∃ node node',
      [.tick false, .advance, .deliver (.intentBatchProposal (batchFor 5)) 0, .tick true].foldlM
        (act (toyNetwork.config false)) (Node.new genesisQc) = some node ∧
      act (toyNetwork.config false) node .advance = some node' ∧
      node'.core.currentStep = 1 ∧ Progress (toyNetwork.config false) node .advance node' :=
  ⟨_, _, rfl, rfl, rfl, rounds_progress (by decide) 5
    [.tick false, .advance, .deliver (.intentBatchProposal (batchFor 5)) 0, .tick true]
    (by decide) (by decide) rfl rfl⟩

/-- Two validators. The second one proposes for the last round there is and votes for
its batch, and so does the first node, which is in round 1. With this certificate
the driver of the first node goes on to round 0. -/
theorem round_wraps :
    ∃ node node', NodeRun (toyNetwork.config false) (fun _ _ => True) (Node.new genesisQc) node ∧
      act (toyNetwork.config false) node .advance = some node' ∧
      node.core.currentRound = 1 ∧ node'.core.currentRound = 0 := by
  have hplay : ∃ node, NodeRun (toyNetwork.config false) (fun _ _ => True) (Node.new genesisQc)
      node ∧ node.core.currentRound = 1 ∧ node.driver = some (0, 0) :=
    exists_run (List.flatten
      [[.tick false, .advance,
        .deliver (.intentBatchProposal (batchFor 18446744073709551615)) 0],
      List.replicate 6 (.run 1 20),
      [.deliver (.velocityVoteMsg
        (ownVote (toyNetwork.config true) (batchFor 18446744073709551615))) 0],
      List.replicate 5 (.run 1 20), [.tick false]]) (by decide +kernel)
  obtain ⟨node, hrun, hround, hdriver⟩ := hplay
  refine ⟨node, { node with
    core := { node.core with currentRound := 0, currentStep := 0 }
    driver := none
    tasks := node.tasks ++ [(.step, .roundStep 0 0)] }, hrun, ?_, hround, rfl⟩
  rw [act, hdriver]

end EviceChain.Sequencer
