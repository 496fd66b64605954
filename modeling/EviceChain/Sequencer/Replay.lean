import EviceChain.Sequencer.Pending
import EviceChain.Sequencer.Quiescence

/-!
# Messages that come again

A message whose hash has left the cache is handled as if it were new, and so is a
proposal with a known header in another round. What is left to stop it are the
pending proposals, the stored votes and the set of processed batches. The votes are
looked up in the last two; a proposal is looked up in the first only, from which
confirmed batches are removed. So a node stores a batch again that it has confirmed
and removed, and votes for it again (`replay_votes_again`).

The handler of a message is followed from point to point, with whatever other tasks
do in between (`ownSteps`). Results:
1. `FullyHandled.taken`: what is left of a message that has been handled;
2. `replay_unchanged_iff`: a further handling changes nothing if and only if each of
   its points finds the node as it should be (`Inert`).
-/

namespace EviceChain.Sequencer

open Foundation NetworkLemmas DutiesLemmas NoLostQuorumLemmas QuiescenceLemmas

variable {C : Crypto}

/-! ## One task among the others -/

/-- The place of the task that ends with the action. -/
def ends? (cfg : Config C) (node : Node) : Action → Option Nat
  | .run j now =>
    match node.tasks[j]? with
    | some (_, task) => if (exec cfg now node task).2.isNone then some j else none
    | none => none
  | .cancel j _ => some j
  | _ => none

/-- The place of the `k`-th task after the action, unless it has ended. -/
def follow (cfg : Config C) (node : Node) (a : Action) (k : Nat) : Option Nat :=
  match ends? cfg node a with
  | some j => if j = k then none else if j < k then some (k - 1) else some k
  | none => some k

/-- An action, with an eye on one task. -/
def followStep (cfg : Config C) (s : Node × Option Nat) (a : Action) : Option (Node × Option Nat) :=
  (act cfg s.1 a).map fun node => (node, s.2.bind (follow cfg s.1 a))

/-- In a run of the node, some handler has found the message new and has come to its
end. -/
def FullyHandled (cfg : Config C) (msg : ConsensusMessage) (node : Node) : Prop :=
  ∃ node₀ node₁ k kind peer now,
    NodeRun cfg (fun _ _ => True) (Node.new genesisQc) node₀ ∧
    node₀.tasks[k]? = some (kind, .recheck msg peer) ∧
    C.messageHash msg ∉ node₀.recentlyProcessedHashes ∧
    act cfg node₀ (.run k now) = some node₁ ∧
    Run (followStep cfg) (fun _ _ => True) (node₁, some k) (node, none)

/-- A step of the task that is followed, with the node before and after it. -/
structure OwnStep where
  before : Node
  task : Task
  after : Node

/-- The task that is followed, if the action runs it. -/
def runs? (node : Node) (place : Option Nat) : Action → Option Task
  | .run j _ => if place = some j then node.tasks[j]?.map Prod.snd else none
  | _ => none

/-- The steps that one task takes in the course of the actions. -/
def ownSteps (cfg : Config C) (node : Node) (place : Option Nat) : List Action → List OwnStep
  | [] => []
  | a :: as =>
    match act cfg node a with
    | none => []
    | some node' =>
      ((runs? node place a).toList.map fun task => ⟨node, task, node'⟩) ++
        ownSteps cfg node' (place.bind (follow cfg node a)) as

/-- The steps of the handler of a message that has just arrived. -/
def handlingSteps (cfg : Config C) (node : Node) (msg : ConsensusMessage) (sourcePeer : PeerId)
    (as : List Action) : List OwnStep :=
  ownSteps cfg { node with tasks := node.tasks ++ [(.handler, .receive msg sourcePeer)] }
    (some node.tasks.length) as

/-! ## What a further handling should leave alone -/

/-- The votes that a node has broadcast. -/
def Node.sentVotes (node : Node) : List VelocityVote :=
  node.broadcasts.filterMap fun
    | .velocityVoteMsg vote => some vote
    | _ => none

structure Unchanged (node node' : Node) : Prop where
  pending : node'.pendingProposals = node.pendingProposals
  votes : node'.core.velocityVotes = node.core.velocityVotes
  processed : node'.core.processedOptimisticBatches = node.core.processedOptimisticBatches
  confirmed :
    node'.core.optimisticallyConfirmedBatches = node.core.optimisticallyConfirmedBatches
  sent : node'.sentVotes = node.sentVotes

/-- The same message, or a proposal with the same header. -/
def Replays (msg : ConsensusMessage) : ConsensusMessage → Prop
  | .intentBatchProposal batch' =>
    ∃ batch, msg = .intentBatchProposal batch ∧ batch'.header = batch.header
  | msg' => msg' = msg

/-- What a handler has to find. The batch of a signed proposal is still pending if it
is confirmed, a voter still among the voters if the batch is, and no batch waits for
somebody to count its votes. -/
def Inert (cfg : Config C) (node : Node) : Task → Prop
  | .insertProposal batch =>
    verifyBatchSignature C cfg.addressBook batch.header = true →
      batch.hash C ∈ node.core.processedOptimisticBatches →
      (node.pendingProposals (batch.hash C)).isSome = true
  | .storeVote vote =>
    verifyVoteSignature C cfg.addressBook vote.voterAddress vote.roundId vote.batchHash
        vote.signature = true →
      vote.batchHash ∈ node.core.processedOptimisticBatches →
      ∃ v ∈ node.core.velocityVotes vote.batchHash, v.voterAddress = vote.voterAddress
  | .processVotes batchHash =>
    batchHash ∉ node.core.processedOptimisticBatches →
      requiredQuorum cfg.addressBook.size ≤ (node.core.velocityVotes batchHash).length →
      node.pendingProposals batchHash = none
  | _ => True

instance (cfg : Config C) (node : Node) : (task : Task) → Decidable (Inert cfg node task)
  | .insertProposal _ => inferInstanceAs (Decidable (_ → _ → _))
  | .storeVote vote =>
    inferInstanceAs (Decidable (_ → _ → ∃ v ∈ node.core.velocityVotes vote.batchHash,
      v.voterAddress = vote.voterAddress))
  | .processVotes batchHash =>
    inferInstanceAs (Decidable (_ → _ → node.pendingProposals batchHash = none))
  | .receive _ _ | .recheck _ _ | .castVote _ | .sendVote _ | .collectConfirmed
  | .pruneProposals _ | .checkVote _ | .anchorQc _ _ | .requestBatch _ _ | .roundStep _ _
  | .readParent _ | .drainMempool _ _ | .buildBatch _ _ _ | .insertOwn _ | .announce _
  | .selfVote _ => isTrue trivial

/-- What is left of a message that has been handled. -/
def Taken (cfg : Config C) (node : Node) : ConsensusMessage → Prop
  | .intentBatchProposal batch =>
    verifyBatchSignature C cfg.addressBook batch.header = true → Held node (batch.hash C)
  | .velocityVoteMsg vote =>
    verifyVoteSignature C cfg.addressBook vote.voterAddress vote.roundId vote.batchHash
        vote.signature = true →
      Counted node vote.batchHash vote.voterAddress
  | .newQuorumCertificate _ => True

/-- The points of a handler up to where the message is taken. -/
def Task.Opens (msg : ConsensusMessage) : Task → Prop
  | .insertProposal batch => msg = .intentBatchProposal batch
  | .checkVote vote | .storeVote vote => msg = .velocityVoteMsg vote
  | _ => False

/-- The points of a handler that changes nothing. -/
def Task.Again (msg : ConsensusMessage) : Task → Prop
  | .receive msg' _ | .recheck msg' _ => msg' = msg
  | .insertProposal batch => msg = .intentBatchProposal batch
  | .checkVote vote | .storeVote vote => msg = .velocityVoteMsg vote
  | .processVotes _ | .anchorQc _ _ | .requestBatch _ _ => True
  | _ => False

/-- The handler that is followed has ended, or is at such a point. -/
def AtAgain (msg : ConsensusMessage) (node : Node) (place : Option Nat) : Prop :=
  ∀ k, place = some k → ∃ task, node.tasks[k]? = some (.handler, task) ∧ task.Again msg

namespace ReplayLemmas

variable {cfg : Config C} {node node' : Node} {a : Action} {msg msg' : ConsensusMessage}

/-- The place of a handler: it goes on by its own steps and stays by those of others.
The driver does not end it. -/
theorem follow_cases (hact : act cfg node a = some node') {k : Nat} {task : Task}
    (htask : node.tasks[k]? = some (.handler, task)) :
    (∃ now, a = .run k now ∧ ((exec cfg now node task).2 = none ∧ follow cfg node a k = none ∨
      ∃ task', (exec cfg now node task).2 = some task' ∧ follow cfg node a k = some k ∧
        node'.tasks[k]? = some (.handler, task'))) ∨
    ((∀ now, a ≠ .run k now) ∧ ∃ k', follow cfg node a k = some k' ∧
      node'.tasks[k']? = some (.handler, task)) := by
  obtain ⟨hk, -⟩ := List.getElem?_eq_some_iff.mp htask
  have herase {j : Nat} (hjk : j ≠ k) :
      ∃ k', (if j < k then some (k - 1) else some k) = some k' ∧
        (node.tasks.eraseIdx j)[k']? = some (.handler, task) :=
    ⟨_, (apply_ite some _ _ _).symm, (getElem?_eraseIdx_of_ne _ hjk).trans htask⟩
  cases a with
  | deliver msg peer =>
    cases hact
    exact .inr ⟨(fun _ h => by cases h), k, rfl, getElem?_snoc htask _⟩
  | submit payload =>
    cases hact
    exact .inr ⟨(fun _ h => by cases h), k, rfl, htask⟩
  | tick timedOut =>
    refine .inr ⟨(fun _ h => by cases h), k, rfl, ?_⟩
    dsimp only [act] at hact
    split at hact
    · cases hact
      rw [List.getElem?_map, htask]
      rfl
    · cases hact
      exact htask
    · cases hact
  | advance =>
    refine .inr ⟨(fun _ h => by cases h), k, rfl, ?_⟩
    dsimp only [act] at hact
    split at hact
    · cases hact
    · cases hact
      exact getElem?_snoc htask _
  | run j now =>
    by_cases hjk : j = k
    · subst hjk
      refine .inl ⟨now, rfl, ?_⟩
      simp only [act, htask] at hact
      simp only [follow, ends?, htask]
      split at hact
      · next task' hnext =>
        cases hact
        rw [hnext]
        exact .inr ⟨task', rfl, rfl, List.getElem?_set_self hk⟩
      · next hnext =>
        rw [hnext]
        exact .inl ⟨rfl, if_pos rfl⟩
    · refine .inr ⟨fun _ h => hjk (by cases h; rfl), ?_⟩
      dsimp only [act] at hact
      split at hact
      · cases hact
      · next kind other hother =>
        simp only [follow, ends?, hother]
        split at hact
        · next task' hnext =>
          cases hact
          rw [hnext]
          exact ⟨k, rfl, (List.getElem?_set_ne hjk).trans htask⟩
        · next hnext =>
          cases hact
          rw [hnext]
          simp only [Option.isNone_none, if_true, if_neg hjk]
          exact herase hjk
  | cancel j midway =>
    refine .inr ⟨(fun _ h => by cases h), ?_⟩
    dsimp only [act] at hact
    split at hact
    · next other hother =>
      cases hact
      have hjk : j ≠ k := by
        rintro rfl
        rw [htask] at hother
        cases hother
      simp only [follow, ends?, if_neg hjk]
      exact herase hjk
    · cases hact

theorem duties_of_run (h : NodeRun cfg (fun _ _ => True) (Node.new genesisQc) node) :
    Duties cfg node :=
  h.invariant (.new cfg _) fun _ _ hact ih => Duties.act ih hact

theorem taken_of_sameData (h : Taken cfg node msg) (hsame : SameData node node') :
    Taken cfg node' msg := by
  cases msg with
  | intentBatchProposal batch => exact fun hsigned => held_of_sameData (h hsigned) hsame
  | velocityVoteMsg vote =>
    intro hsigned
    have hcounted := h hsigned
    unfold Counted at hcounted ⊢
    rwa [hsame.votes, hsame.processed]
  | newQuorumCertificate qc => trivial

theorem taken_act (h : Taken cfg node msg) (hduties : Duties cfg node)
    (hact : act cfg node a = some node') : Taken cfg node' msg := by
  cases msg with
  | intentBatchProposal batch =>
    exact fun hsigned => held_act hact hduties.backed (h hsigned)
  | velocityVoteMsg vote => exact fun hsigned => counted_act hact (h hsigned)
  | newQuorumCertificate qc => trivial

/-- A proposal is taken by its header. -/
theorem taken_replays (h : Taken cfg node msg) (hreplay : Replays msg msg') :
    Taken cfg node msg' := by
  cases msg' with
  | intentBatchProposal batch' =>
    obtain ⟨batch, rfl, hheader⟩ := hreplay
    intro hsigned
    have hheld := h (hheader ▸ hsigned)
    unfold PayloadBatch.hash at hheld ⊢
    rwa [hheader]
  | velocityVoteMsg vote =>
    obtain rfl : _ = msg := hreplay
    exact h
  | newQuorumCertificate qc => trivial

theorem exec_opens (now : UInt64) {task : Task} (h : task.Opens msg) :
    Taken cfg (exec cfg now node task).1 msg ∨
      ∃ task', (exec cfg now node task).2 = some task' ∧ task'.Opens msg := by
  cases task with
  | insertProposal batch =>
    obtain rfl : msg = _ := h
    exact .inl fun hsigned => held_insertProposal now hsigned
  | checkVote vote =>
    obtain rfl : msg = _ := h
    dsimp only [exec]
    split
    · next hprocessed => exact .inl fun _ => .inr hprocessed
    · exact .inr ⟨_, rfl, rfl⟩
  | storeVote vote =>
    obtain rfl : msg = _ := h
    exact .inl fun hsigned => .inl (stored_storeVote now hsigned)
  | _ => exact h.elim

/-- A message that is new is handed to its handler. -/
theorem exec_recheck_opens (now : UInt64) (peer : PeerId)
    (hunseen : C.messageHash msg ∉ node.recentlyProcessedHashes) :
    (∀ node', Taken cfg node' msg) ∨
      ∃ task', (exec cfg now node (.recheck msg peer)).2 = some task' ∧ task'.Opens msg := by
  dsimp only [exec]
  rw [if_neg hunseen]
  cases msg with
  | intentBatchProposal batch => exact .inr ⟨_, rfl, rfl⟩
  | velocityVoteMsg vote => exact .inr ⟨_, rfl, rfl⟩
  | newQuorumCertificate qc => exact .inl fun _ => trivial

/-- A step of the node while a handler is followed. -/
theorem opens_follow (hduties : Duties cfg node) (hact : act cfg node a = some node')
    {place : Option Nat} (h : Taken cfg node msg ∨ ∃ k task, place = some k ∧
      node.tasks[k]? = some (.handler, task) ∧ task.Opens msg) :
    Taken cfg node' msg ∨ ∃ k task, place.bind (follow cfg node a) = some k ∧
      node'.tasks[k]? = some (.handler, task) ∧ task.Opens msg := by
  rcases h with htaken | ⟨k, task, rfl, htask, hopens⟩
  · exact .inl (taken_act htaken hduties hact)
  rcases follow_cases hact htask with ⟨now, rfl, hown⟩ | ⟨-, k', hfollow, htask'⟩
  · have hruns : Runs node (.run k now) now task := ⟨rfl, .handler, htask⟩
    rcases exec_opens now hopens with htaken | ⟨task', hnext, hopens'⟩
    · exact .inl (taken_of_sameData htaken (sameData_of_runs hact hruns))
    · rcases hown with ⟨hend, -⟩ | ⟨task'', hnext', hfollow, htask'⟩
      · rw [hnext] at hend
        cases hend
      · obtain rfl : task'' = task' := Option.some.inj (hnext'.symm.trans hnext)
        exact .inr ⟨k, task'', hfollow, htask', hopens'⟩
  · exact .inr ⟨k', task, hfollow, htask', hopens⟩

theorem unchanged_of_sameData (h : SameData node node') : Unchanged node node' := by
  refine ⟨h.pending, h.votes, h.processed, h.confirmed, ?_⟩
  unfold Node.sentVotes
  rw [h.broadcasts]

theorem exec_insertProposal_taken (now : UInt64) {batch : PayloadBatch}
    (htaken : Taken cfg node (.intentBatchProposal batch))
    (hinert : Inert cfg node (.insertProposal batch)) :
    exec cfg now node (.insertProposal batch) = (node, none) := by
  dsimp only [exec]
  split
  · rfl
  · next hverify =>
    have hsigned : verifyBatchSignature C cfg.addressBook batch.header = true := by
      simpa using hverify
    have hpending : (node.pendingProposals (batch.hash C)).isSome = true := by
      rcases htaken hsigned with hpending | hprocessed
      · exact hpending
      · exact hinert hsigned hprocessed
    rw [if_pos hpending]

theorem exec_storeVote_taken (now : UInt64) {vote : VelocityVote}
    (htaken : Taken cfg node (.velocityVoteMsg vote)) (hinert : Inert cfg node (.storeVote vote)) :
    exec cfg now node (.storeVote vote) = (node, none) ∨
      exec cfg now node (.storeVote vote) = (node, some (.processVotes vote.batchHash)) := by
  dsimp only [exec]
  split
  · exact .inl rfl
  · next hverify =>
    have hsigned : verifyVoteSignature C cfg.addressBook vote.voterAddress vote.roundId
        vote.batchHash vote.signature = true := by
      simpa using hverify
    obtain ⟨v, hv, hvoter⟩ : ∃ v ∈ node.core.velocityVotes vote.batchHash,
        v.voterAddress = vote.voterAddress := by
      rcases htaken hsigned with hstored | hprocessed
      · exact hstored
      · exact hinert hsigned hprocessed
    have hknown : ((node.core.velocityVotes vote.batchHash).any
        (·.voterAddress = vote.voterAddress)) = true :=
      List.any_eq_true.mpr ⟨v, hv, decide_eq_true hvoter⟩
    rw [if_pos hknown]
    exact .inr rfl

theorem exec_processVotes_inert (now : UInt64) {batchHash : Bytes}
    (hinert : Inert cfg node (.processVotes batchHash)) :
    exec cfg now node (.processVotes batchHash) = (node, none) := by
  have hready : readyBatch cfg node batchHash = none := by
    unfold readyBatch
    split
    · rfl
    · next hfresh =>
      split
      · next hquorum => exact hinert hfresh hquorum
      · rfl
  dsimp only [exec]
  rw [hready]

/-- What is taken already and found as it should be is not done again. -/
theorem exec_inert (now : UInt64) {task : Task} (htaken : Taken cfg node msg)
    (hagain : task.Again msg) (hinert : Inert cfg node task) :
    Unchanged node (exec cfg now node task).1 ∧
      ∀ task', (exec cfg now node task).2 = some task' → task'.Again msg := by
  have hsame : Unchanged node node := unchanged_of_sameData (.refl node)
  cases task with
  | receive | checkVote =>
    refine ⟨unchanged_of_sameData (exec_quiet cfg now node trivial), fun task' hnext => ?_⟩
    cases exec_next hnext
    exact hagain
  | recheck msg' peer =>
    refine ⟨unchanged_of_sameData (exec_quiet cfg now node trivial), fun task' hnext => ?_⟩
    obtain rfl : msg' = msg := hagain
    cases exec_next hnext with
    | insertProposal => rfl
    | checkVote => rfl
    | anchorQc => trivial
  | insertProposal batch =>
    obtain rfl : msg = _ := hagain
    rw [exec_insertProposal_taken now htaken hinert]
    exact ⟨hsame, fun _ h => by cases h⟩
  | storeVote vote =>
    obtain rfl : msg = _ := hagain
    rcases exec_storeVote_taken now htaken hinert with hexec | hexec
    · rw [hexec]
      exact ⟨hsame, fun _ h => by cases h⟩
    · rw [hexec]
      refine ⟨hsame, fun task' hnext => ?_⟩
      cases hnext
      trivial
  | processVotes batchHash =>
    rw [exec_processVotes_inert now hinert]
    exact ⟨hsame, fun _ h => by cases h⟩
  | anchorQc qc peer =>
    refine ⟨unchanged_of_sameData (exec_quiet cfg now node trivial), fun task' hnext => ?_⟩
    cases exec_next hnext
    trivial
  | requestBatch batchHash peer =>
    refine ⟨unchanged_of_sameData (exec_quiet cfg now node trivial), fun task' hnext => ?_⟩
    cases hnext
  | _ => exact hagain.elim

/-- A point that does not find the node so changes it. -/
theorem not_unchanged_of_not_inert (now : UInt64) {task : Task} (h : ¬ Inert cfg node task) :
    ¬ Unchanged node (exec cfg now node task).1 := by
  intro hsame
  cases task with
  | insertProposal batch =>
    obtain ⟨hsigned, -, hmissing⟩ : verifyBatchSignature C cfg.addressBook batch.header = true ∧
        batch.hash C ∈ node.core.processedOptimisticBatches ∧
        ¬ (node.pendingProposals (batch.hash C)).isSome = true := by
      simpa only [Inert, Classical.not_imp] using h
    have hpending := congrFun hsame.pending (batch.hash C)
    rw [exec, if_neg (by simp [hsigned]), if_neg hmissing] at hpending
    rw [← hpending] at hmissing
    refine hmissing ?_
    dsimp only [Node.insertPending]
    rw [Function.update_self]
    rfl
  | storeVote vote =>
    obtain ⟨hsigned, -, hmissing⟩ : verifyVoteSignature C cfg.addressBook vote.voterAddress
        vote.roundId vote.batchHash vote.signature = true ∧
        vote.batchHash ∈ node.core.processedOptimisticBatches ∧
        ¬ ∃ v ∈ node.core.velocityVotes vote.batchHash, v.voterAddress = vote.voterAddress := by
      simpa only [Inert, Classical.not_imp] using h
    refine hmissing ?_
    rw [← hsame.votes]
    exact stored_storeVote now hsigned
  | processVotes batchHash =>
    obtain ⟨hfresh, hquorum, hpending⟩ : batchHash ∉ node.core.processedOptimisticBatches ∧
        requiredQuorum cfg.addressBook.size ≤ (node.core.velocityVotes batchHash).length ∧
        ¬ node.pendingProposals batchHash = none := by
      simpa only [Inert, Classical.not_imp] using h
    obtain ⟨batch, hready⟩ := readyBatch_of_complete
      ⟨Option.isSome_iff_ne_none.mpr hpending, hquorum⟩ hfresh
    have hprocessed := hsame.processed
    simp only [exec, hready] at hprocessed
    exact List.cons_ne_self _ _ hprocessed
  | _ => exact h trivial

theorem unchanged_iff_of_sameData {node'' : Node} (h : SameData node' node'') :
    Unchanged node node'' ↔ Unchanged node node' := by
  have hsent : node''.sentVotes = node'.sentVotes := (unchanged_of_sameData h).sent
  constructor
  · intro ⟨hpending, hvotes, hprocessed, hconfirmed, hsent'⟩
    exact ⟨h.pending ▸ hpending, h.votes ▸ hvotes, h.processed ▸ hprocessed,
      h.confirmed ▸ hconfirmed, hsent ▸ hsent'⟩
  · intro ⟨hpending, hvotes, hprocessed, hconfirmed, hsent'⟩
    exact ⟨h.pending.trans hpending, h.votes.trans hvotes, h.processed.trans hprocessed,
      h.confirmed.trans hconfirmed, hsent.trans hsent'⟩

/-- One action of the node: it is not a step of the handler, or a step that changes
nothing and leads to the next point, or a step that finds what it should not. -/
theorem again_step (hact : act cfg node a = some node') (htaken : Taken cfg node msg)
    {place : Option Nat} (hplace : AtAgain msg node place) :
    (runs? node place a = none ∧ AtAgain msg node' (place.bind (follow cfg node a))) ∨
      ∃ task, runs? node place a = some task ∧
        (Inert cfg node task ∧ Unchanged node node' ∧
            AtAgain msg node' (place.bind (follow cfg node a)) ∨
          ¬ Inert cfg node task ∧ ¬ Unchanged node node') := by
  cases place with
  | none =>
    refine .inl ⟨?_, fun k hk => by cases hk⟩
    cases a <;> rfl
  | some k =>
    obtain ⟨task, htask, hagain⟩ := hplace k rfl
    rcases follow_cases hact htask with ⟨now, rfl, hown⟩ | ⟨hother, k', hfollow, htask'⟩
    · have hruns : Runs node (.run k now) now task := ⟨rfl, .handler, htask⟩
      have hown? : runs? node (some k) (.run k now) = some task := by
        simp only [runs?, htask, if_true, Option.map_some]
      refine .inr ⟨task, hown?, ?_⟩
      rw [unchanged_iff_of_sameData (sameData_of_runs hact hruns)]
      by_cases hinert : Inert cfg node task
      · obtain ⟨hunchanged, hnext⟩ := exec_inert now htaken hagain hinert
        refine .inl ⟨hinert, hunchanged, fun j hj => ?_⟩
        rw [Option.bind_some] at hj
        rcases hown with ⟨-, hfollow⟩ | ⟨task', hnext', hfollow, htask'⟩
        · rw [hfollow] at hj
          cases hj
        · rw [hfollow] at hj
          cases hj
          exact ⟨task', htask', hnext task' hnext'⟩
      · exact .inr ⟨hinert, not_unchanged_of_not_inert now hinert⟩
    · refine .inl ⟨?_, fun j hj => ?_⟩
      · cases a with
        | run j now =>
          refine if_neg fun he => hother now ?_
          cases he
          rfl
        | _ => rfl
      · rw [Option.bind_some, hfollow] at hj
        cases hj
        exact ⟨task, htask', hagain⟩

end ReplayLemmas

open ReplayLemmas

section

variable {cfg : Config C} {node : Node} {msg msg' : ConsensusMessage}

/-- A message that has been handled has left its mark: a signed proposal is pending or
processed, and a signed vote is stored unless its batch is processed. -/
theorem FullyHandled.taken (h : FullyHandled cfg msg node) :
    NodeRun cfg (fun _ _ => True) (Node.new genesisQc) node ∧ Taken cfg node msg := by
  obtain ⟨node₀, node₁, k, kind, peer, now, hrun, htask, hunseen, hact, hfollowed⟩ := h
  have hrun₁ := hrun.tail trivial hact
  have hstart : Taken cfg node₁ msg ∨ ∃ k' task, some k = some k' ∧
      node₁.tasks[k']? = some (.handler, task) ∧ task.Opens msg := by
    obtain rfl : kind = .handler :=
      ((duties_of_run hrun).kinds _ (List.mem_of_getElem? htask)).resolve_right id
    rcases exec_recheck_opens now peer hunseen with htaken | ⟨task, hnext, hopens⟩
    · exact .inl (htaken node₁)
    · rcases follow_cases hact htask with ⟨_, ha, hown⟩ | ⟨hother, -⟩
      · cases ha
        rcases hown with ⟨hend, -⟩ | ⟨task', hnext', -, htask'⟩
        · rw [hnext] at hend
          cases hend
        · obtain rfl : task' = task := Option.some.inj (hnext'.symm.trans hnext)
          exact .inr ⟨k, task', rfl, htask', hopens⟩
      · exact (hother now rfl).elim
  have hend := hfollowed.invariant (I := fun s => NodeRun cfg (fun _ _ => True)
    (Node.new genesisQc) s.1 ∧ (Taken cfg s.1 msg ∨ ∃ k task, s.2 = some k ∧
      s.1.tasks[k]? = some (.handler, task) ∧ task.Opens msg)) ⟨hrun₁, hstart⟩ ?_
  · obtain ⟨hrun', htaken | ⟨_, _, hnone, -⟩⟩ := hend
    · exact ⟨hrun', htaken⟩
    · cases hnone
  · rintro s t a - - hstep ⟨hbefore, hopens⟩
    obtain ⟨node', hact', rfl⟩ := Option.map_eq_some_iff.mp hstep
    exact ⟨hbefore.tail trivial hact', opens_follow (duties_of_run hbefore) hact' hopens⟩

/-- The steps of a handler, by induction over the actions. -/
theorem ownSteps_unchanged_iff (hrun : NodeRun cfg (fun _ _ => True) (Node.new genesisQc) node)
    (htaken : Taken cfg node msg) {place : Option Nat} (hplace : AtAgain msg node place)
    (as : List Action) :
    (∀ s ∈ ownSteps cfg node place as, Unchanged s.before s.after) ↔
      ∀ s ∈ ownSteps cfg node place as, Inert cfg s.before s.task := by
  induction as generalizing node place with
  | nil => exact iff_of_true (List.forall_mem_nil _) (List.forall_mem_nil _)
  | cons a as ih =>
    rw [ownSteps]
    split
    · exact iff_of_true (List.forall_mem_nil _) (List.forall_mem_nil _)
    next node' hact =>
    have ih' := fun hplace' : AtAgain msg node' (place.bind (follow cfg node a)) =>
      ih (hrun.tail trivial hact) (taken_act htaken (duties_of_run hrun) hact) hplace'
    rcases again_step hact htaken hplace with ⟨hruns, hplace'⟩ | ⟨task, hruns, hstep⟩
    · rw [hruns]
      exact ih' hplace'
    · rw [hruns]
      show (∀ s ∈ ⟨node, task, node'⟩ :: ownSteps cfg node' _ as, _) ↔
        ∀ s ∈ ⟨node, task, node'⟩ :: ownSteps cfg node' _ as, _
      rw [List.forall_mem_cons, List.forall_mem_cons]
      rcases hstep with ⟨hinert, hunchanged, hplace'⟩ | ⟨hinert, hunchanged⟩
      · exact and_congr (iff_of_true hunchanged hinert) (ih' hplace')
      · exact iff_of_false (fun h => hunchanged h.1) fun h => hinert h.1

/-- A message that has been handled, or a proposal with the header of one, arrives
again: whatever else the node does in the meantime, its handler changes nothing if and
only if each of its points finds the node as it should be. -/
theorem replay_unchanged_iff (hhandled : FullyHandled cfg msg node) (hreplay : Replays msg msg')
    (sourcePeer : PeerId) (as : List Action) :
    (∀ s ∈ handlingSteps cfg node msg' sourcePeer as, Unchanged s.before s.after) ↔
      ∀ s ∈ handlingSteps cfg node msg' sourcePeer as, Inert cfg s.before s.task := by
  obtain ⟨hrun, htaken⟩ := hhandled.taken
  have hdeliver := hrun.tail (a := .deliver msg' sourcePeer) trivial rfl
  refine ownSteps_unchanged_iff hdeliver
    (taken_act (taken_replays htaken hreplay) (duties_of_run hrun)
      (a := .deliver msg' sourcePeer) rfl) (fun k hk => ?_) as
  cases hk
  exact ⟨_, List.getElem?_concat_length, rfl⟩

end

/-! ## Runs in which a message comes again -/

/-- The first actions bring a handler to its second look at the cache, the others
bring it to its end. -/
theorem exists_fullyHandled {cfg : Config C} {msg : ConsensusMessage} {P : Node → Prop}
    [DecidablePred P] (peer : PeerId) (now : UInt64) (before after : List Action)
    (h : (play (act cfg) (fun _ _ => True) (Node.new genesisQc) before).any (fun node₀ =>
      node₀.tasks[0]? = some (.handler, .recheck msg peer) ∧
        C.messageHash msg ∉ node₀.recentlyProcessedHashes ∧
        ((act cfg node₀ (.run 0 now)).bind fun node₁ =>
          play (followStep cfg) (fun _ _ => True) (node₁, some 0) after).any
            (fun s => s.2 = none ∧ P s.1) = true) = true) :
    ∃ node, FullyHandled cfg msg node ∧ P node := by
  obtain ⟨node₀, hbefore, hfirst⟩ := (Option.any_eq_true _ _).mp h
  obtain ⟨htask, hunseen, hrest⟩ := of_decide_eq_true hfirst
  obtain ⟨⟨node, place⟩, hplay, hlast⟩ := (Option.any_eq_true _ _).mp hrest
  obtain ⟨node₁, hact, hafter⟩ := Option.bind_eq_some_iff.mp hplay
  obtain ⟨rfl, hP⟩ := of_decide_eq_true hlast
  exact ⟨node, ⟨node₀, node₁, 0, .handler, peer, now, run_of_play before hbefore, htask, hunseen,
    hact, run_of_play after hafter⟩, hP⟩

/-- The round is a part of what a message is known by. -/
def roundCrypto : Crypto :=
  { toyCrypto with
    messageHash := fun
      | .intentBatchProposal batch =>
        toBytesLE 32 (toyNumber (0 :: batch.header.signature ++ beBytes batch.round))
      | .velocityVoteMsg vote => toBytesLE 32 (toyNumber (1 :: vote.signature))
      | .newQuorumCertificate qc => toBytesLE 32 (toyNumber (2 :: qc.batchHash)) }

/-- One of two validators. -/
def validator (key : UInt8) : Config roundCrypto where
  myAddress := toyAddress key
  signingKeys := key
  vrfKeys := key
  addressBook := toyNetwork.addressBook
  subCommitteeSize := 2

/-- A batch of the first validator. -/
def leaderBatch : PayloadBatch := newBatch (validator 1) (.new genesisQc) 1 genesisQc [] 10

/-- Its header in the next round. -/
def nextRoundBatch : PayloadBatch := { leaderBatch with round := 2 }

/-- The second validator receives the batch, looks at it and votes for it. -/
def proposalArrives : List Action := [.deliver (.intentBatchProposal leaderBatch) 0, .run 0 20]

def proposalHandled : List Action := List.replicate 4 (.run 0 20)

/-- It receives the vote of the first, confirms the batch and removes it. -/
def voteHandled : List Action :=
  .deliver (.velocityVoteMsg (ownVote (validator 1) leaderBatch)) 0 :: List.replicate 7 (.run 0 30)

/-- What the second validator does when the header comes again. -/
def secondHandling (node : Node) : List OwnStep :=
  handlingSteps (validator 2) node (.intentBatchProposal nextRoundBatch) 0
    (List.replicate 6 (.run 0 40))

/-- The batch is pending: the handler looks at the cache twice and finds it. -/
theorem replay_unchanged_iff_pending :
    ∃ node, FullyHandled (validator 2) (.intentBatchProposal leaderBatch) node ∧
      (secondHandling node).length = 3 ∧
      ∀ s ∈ secondHandling node, Unchanged s.before s.after := by
  obtain ⟨node, hhandled, hlength, hinert⟩ : ∃ node,
      FullyHandled (validator 2) (.intentBatchProposal leaderBatch) node ∧
      (secondHandling node).length = 3 ∧
      ∀ s ∈ secondHandling node, Inert (validator 2) s.before s.task :=
    exists_fullyHandled 0 20 proposalArrives proposalHandled (by decide +kernel)
  have hreplay : Replays (.intentBatchProposal leaderBatch) (.intentBatchProposal nextRoundBatch) :=
    ⟨leaderBatch, rfl, rfl⟩
  exact ⟨node, hhandled, hlength, (replay_unchanged_iff hhandled hreplay 0 _).mpr hinert⟩

/-- The batch has been confirmed and removed: it is stored again, and a second vote for
it is stored and sent. -/
theorem replay_votes_again :
    ∃ node, FullyHandled (validator 2) (.intentBatchProposal leaderBatch) node ∧
      Replays (.intentBatchProposal leaderBatch) (.intentBatchProposal nextRoundBatch) ∧
      leaderBatch ∈ node.core.optimisticallyConfirmedBatches ∧
      (secondHandling node).map (fun s =>
          ((s.before.pendingProposals (leaderBatch.hash roundCrypto)).isSome,
            (s.before.core.velocityVotes (leaderBatch.hash roundCrypto)).length,
            s.before.sentVotes.length)) =
        [(false, 0, 1), (false, 0, 1), (false, 0, 1), (true, 0, 1), (true, 1, 1), (true, 1, 2)] ∧
      ¬ ∀ s ∈ secondHandling node, Unchanged s.before s.after := by
  obtain ⟨node, hhandled, hconfirmed, hsteps, s, hs, hsent⟩ : ∃ node,
      FullyHandled (validator 2) (.intentBatchProposal leaderBatch) node ∧
      leaderBatch ∈ node.core.optimisticallyConfirmedBatches ∧
      (secondHandling node).map (fun s =>
          ((s.before.pendingProposals (leaderBatch.hash roundCrypto)).isSome,
            (s.before.core.velocityVotes (leaderBatch.hash roundCrypto)).length,
            s.before.sentVotes.length)) =
        [(false, 0, 1), (false, 0, 1), (false, 0, 1), (true, 0, 1), (true, 1, 1), (true, 1, 2)] ∧
      ∃ s ∈ secondHandling node, s.after.sentVotes ≠ s.before.sentVotes :=
    exists_fullyHandled 0 20 proposalArrives (proposalHandled ++ voteHandled) (by decide +kernel)
  exact ⟨node, hhandled, ⟨leaderBatch, rfl, rfl⟩, hconfirmed, hsteps,
    fun h => hsent (h s hs).sent⟩

end EviceChain.Sequencer
