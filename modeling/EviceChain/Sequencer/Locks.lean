import EviceChain.Foundation.Loop
import EviceChain.Foundation.RwLock
import EviceChain.Sequencer.NoLostQuorum
import EviceChain.Sequencer.Pending

/-!
# The locks of a node

The tasks of a node share `core_state` and `pending_proposals`, each under a fair
reader-writer lock. Between two of its points a task takes the locks it needs one
after the other, does its work, and gives them back (`Task.locks`, `Move`). So does
the driver, and so does the network layer when a peer asks for a batch
(`GetFullProposal`). What is done between the locks are the actions of a node
without locks: runs with locks are runs (`ReachesLocked.reaches`), and nobody
changes what another one has locked (`ReachesLocked.stable`).

The engine takes `pending_proposals` while it holds `core_state`. A lookup that
misses takes `core_state` while it holds `pending_proposals`. With a writer of
`pending_proposals` between them, all three wait for each other
(`lookup_deadlocks`). As long as every lookup finds its batch pending, there is no
deadlock (`locks_not_deadlocked`).
-/

namespace EviceChain.Sequencer

open Foundation NetworkLemmas PendingLemmas

variable {ι : Type} {C : Crypto}

inductive Lock
  | core
  | pending
deriving DecidableEq

/-- The locks that the task takes before its next point, in their order. Whether it
takes the second depends on what it finds under the first. -/
def Task.locks (cfg : Config C) (node : Node) : Task → List (Lock × Mode)
  | .insertProposal batch =>
    if verifyBatchSignature C cfg.addressBook batch.header then [(.pending, .write)] else []
  | .castVote _ | .selfVote _ => [(.core, .write)]
  | .processVotes batchHash =>
    (.core, .write) ::
      if batchHash ∉ node.core.processedOptimisticBatches ∧
          requiredQuorum cfg.addressBook.size ≤ (node.core.velocityVotes batchHash).length then
        [(.pending, .read)]
      else []
  | .storeVote vote =>
    if verifyVoteSignature C cfg.addressBook vote.voterAddress vote.roundId vote.batchHash
        vote.signature then
      [(.core, .write)]
    else []
  | .anchorQc qc _ =>
    if isFullyValid C cfg.addressBook qc then
      (.core, .write) ::
        if qc.viewNumber > node.core.highestSeenQc.viewNumber then [(.pending, .read)] else []
    else []
  | .collectConfirmed | .checkVote _ | .roundStep _ _ | .readParent _ | .buildBatch _ _ _ =>
    [(.core, .read)]
  | .pruneProposals _ | .insertOwn _ => [(.pending, .write)]
  | .receive _ _ | .recheck _ _ | .sendVote _ | .requestBatch _ _ | .drainMempool _ _
  | .announce _ => []

/-- Who takes locks: the driver, the tasks of the engine and the lookups of the
network layer. -/
inductive Party
  | driver
  | task (id : Nat)
  | lookup (id : Nat)
deriving DecidableEq

/-- A node with its locks. `taskIds` names the tasks in their order. -/
structure LockedNode where
  node : Node
  taskIds : List Nat
  lookups : List (Nat × Bytes)
  spawned : Nat
  locks : Lock → RwLock Party

/-- What can happen: a party asks for the `n`-th of the locks it needs, the head of
a queue gets its lock, a lookup arrives or is answered, or the node acts. -/
inductive Move
  | request (party : Party) (n : Nat)
  | grant (lock : Lock)
  | lookup (batchHash : Bytes)
  | answer (id : Nat)
  | act (a : Action)
deriving DecidableEq

namespace LockedNode

def new (initialQc : QuorumCertificate) : LockedNode :=
  ⟨.new initialQc, [], [], 0, fun _ => .unlocked⟩

def taskOf (s : LockedNode) (id : Nat) : Option Task :=
  ((s.taskIds.zip s.node.tasks).find? (·.1 = id)).map (·.2.2)

/-- The locks that a party needs for what it does next. -/
def needs (cfg : Config C) (s : LockedNode) : Party → List (Lock × Mode)
  | .driver => [(.core, if s.node.driver.isSome then .write else .read)]
  | .task id =>
    match s.taskOf id with
    | none => []
    | some task => task.locks cfg s.node
  | .lookup id =>
    match s.lookups.find? (·.1 = id) with
    | none => []
    | some (_, batchHash) =>
      (.pending, .read) ::
        if (s.node.pendingProposals batchHash).isSome then [] else [(.core, .read)]

/-- The party holds these locks and no others, and waits for none. -/
def HoldsJust (s : LockedNode) (party : Party) (wanted : List (Lock × Mode)) : Prop :=
  ∀ lock ∈ [Lock.core, .pending], ¬ (s.locks lock).Waits party ∧
    ∀ mode ∈ [Mode.read, .write],
      (party, mode) ∈ (s.locks lock).holders ↔ (lock, mode) ∈ wanted

instance (s : LockedNode) (party : Party) (wanted : List (Lock × Mode)) :
    Decidable (s.HoldsJust party wanted) :=
  inferInstanceAs (Decidable (∀ lock ∈ [Lock.core, .pending], ¬ (s.locks lock).Waits party ∧
    ∀ mode ∈ [Mode.read, .write],
      (party, mode) ∈ (s.locks lock).holders ↔ (lock, mode) ∈ wanted))

/-- Who makes an action; a message that arrives needs no lock. -/
def actor? (s : LockedNode) : Action → Option Party
  | .deliver _ _ | .submit _ => none
  | .tick _ | .advance => some .driver
  | .run k _ | .cancel k _ => s.taskIds[k]?.map .task

/-- The actor has what it needs. A task that is ended may be ended while it waits,
unless it is about to broadcast a certificate. -/
def Permits (cfg : Config C) (s : LockedNode) (a : Action) : Prop :=
  a matches .cancel _ false ∨ ∀ party ∈ s.actor? a, s.HoldsJust party (s.needs cfg party)

instance (cfg : Config C) (s : LockedNode) (a : Action) : Decidable (s.Permits cfg a) :=
  inferInstanceAs (Decidable
    (a matches .cancel _ false ∨ ∀ party ∈ s.actor? a, s.HoldsJust party (s.needs cfg party)))

/-- The names of the tasks after an action. -/
def namesAfter (s : LockedNode) (a : Action) (node : Node) : List Nat :=
  match a with
  | .deliver _ _ | .advance => s.taskIds ++ [s.spawned]
  | .run k _ =>
    if node.tasks.length < s.node.tasks.length then s.taskIds.eraseIdx k else s.taskIds
  | .cancel k _ => s.taskIds.eraseIdx k
  | .submit _ | .tick _ => s.taskIds

def releaseAll (s : LockedNode) (party : Party) : LockedNode :=
  { s with locks := fun lock => (s.locks lock).release party }

def step (cfg : Config C) (s : LockedNode) : Move → Option LockedNode
  | .request party n =>
    match (s.needs cfg party)[n]? with
    | none => none
    | some (lock, mode) =>
      if s.HoldsJust party ((s.needs cfg party).take n) then
        some { s with
          locks := Function.update s.locks lock ((s.locks lock).request party mode) }
      else none
  | .grant lock =>
    (s.locks lock).grant?.map fun granted =>
      { s with locks := Function.update s.locks lock granted }
  | .lookup batchHash =>
    some { s with lookups := s.lookups ++ [(s.spawned, batchHash)], spawned := s.spawned + 1 }
  | .answer id =>
    if s.HoldsJust (.lookup id) (s.needs cfg (.lookup id)) then
      some ({ s with lookups := s.lookups.filter (·.1 ≠ id) }.releaseAll (.lookup id))
    else none
  | .act a =>
    if s.Permits cfg a then
      (act cfg s.node a).map fun node =>
        let s' := { s with node, taskIds := s.namesAfter a node, spawned := s.spawned + 1 }
        match s.actor? a with
        | none => s'
        | some party => s'.releaseAll party
    else none

end LockedNode

/-- The states that a run of moves satisfying `ok` can lead to. -/
inductive ReachesLocked (cfg : Config C) (ok : LockedNode → Move → Prop) : LockedNode → Prop
  | init : ReachesLocked cfg ok (.new genesisQc)
  | step {s s' : LockedNode} {move : Move} :
      ReachesLocked cfg ok s → ok s move → s.step cfg move = some s' → ReachesLocked cfg ok s'

/-! ## What a move does -/

/-- The node after an action, before the actor gives back its locks. -/
def LockedNode.afterAct (s : LockedNode) (a : Action) (node : Node) : LockedNode :=
  { s with node, taskIds := s.namesAfter a node, spawned := s.spawned + 1 }

/-- What a move needs, and what it leads to. -/
inductive Moves (cfg : Config C) (s : LockedNode) : Move → LockedNode → Prop
  | request {party : Party} {n : Nat} {lock : Lock} {mode : Mode} :
      (s.needs cfg party)[n]? = some (lock, mode) →
      s.HoldsJust party ((s.needs cfg party).take n) →
      Moves cfg s (.request party n)
        { s with locks := Function.update s.locks lock ((s.locks lock).request party mode) }
  | grant {lock : Lock} {granted : RwLock Party} : (s.locks lock).grant? = some granted →
      Moves cfg s (.grant lock) { s with locks := Function.update s.locks lock granted }
  | lookup {batchHash : Bytes} :
      Moves cfg s (.lookup batchHash)
        { s with lookups := s.lookups ++ [(s.spawned, batchHash)], spawned := s.spawned + 1 }
  | answer {id : Nat} : s.HoldsJust (.lookup id) (s.needs cfg (.lookup id)) →
      Moves cfg s (.answer id)
        ({ s with lookups := s.lookups.filter (·.1 ≠ id) }.releaseAll (.lookup id))
  | input {a : Action} {node : Node} : s.Permits cfg a → act cfg s.node a = some node →
      s.actor? a = none → Moves cfg s (.act a) (s.afterAct a node)
  | act {a : Action} {node : Node} {party : Party} : s.Permits cfg a →
      act cfg s.node a = some node → s.actor? a = some party →
      Moves cfg s (.act a) ((s.afterAct a node).releaseAll party)

/-- What a move can do to the locks. -/
inductive Locking (cfg : Config C) (s : LockedNode) (move : Move) :
    (Lock → RwLock Party) → Prop
  | none : Locking cfg s move s.locks
  | request {party : Party} {n : Nat} {lock : Lock} {mode : Mode} :
      (s.needs cfg party)[n]? = some (lock, mode) →
      s.HoldsJust party ((s.needs cfg party).take n) →
      Locking cfg s move (Function.update s.locks lock ((s.locks lock).request party mode))
  | grant {lock : Lock} {granted : RwLock Party} :
      (s.locks lock).grant? = some granted →
      Locking cfg s move (Function.update s.locks lock granted)
  | release {party : Party} : Locking cfg s move fun lock => (s.locks lock).release party

namespace LocksLemmas

variable {cfg : Config C} {s s' : LockedNode} {move : Move}

theorem moves_of_step (h : s.step cfg move = some s') : Moves cfg s move s' := by
  cases move with
  | request party n =>
    dsimp only [LockedNode.step] at h
    split at h
    · cases h
    · next hneeds =>
      split at h <;> cases h
      next hjust => exact .request hneeds hjust
  | grant lock =>
    obtain ⟨granted, hgrant, rfl⟩ := Option.map_eq_some_iff.mp h
    exact .grant hgrant
  | lookup batchHash =>
    cases h
    exact .lookup
  | answer id =>
    dsimp only [LockedNode.step] at h
    split at h <;> cases h
    next hjust => exact .answer hjust
  | act a =>
    dsimp only [LockedNode.step] at h
    split at h
    · next hpermits =>
      obtain ⟨node, hact, rfl⟩ := Option.map_eq_some_iff.mp h
      split
      · next hactor => exact .input hpermits hact hactor
      · next hactor => exact .act hpermits hact hactor
    · cases h

theorem locking_of_step (h : s.step cfg move = some s') : Locking cfg s move s'.locks := by
  cases moves_of_step h with
  | request hneeds hjust => exact .request hneeds hjust
  | grant hgrant => exact .grant hgrant
  | lookup | input => exact .none
  | answer | act => exact .release

/-- The node acts, or is as it was. -/
theorem node_of_step (h : s.step cfg move = some s') :
    (s'.node = s.node ∧ ∀ a, move ≠ .act a) ∨
      ∃ a, move = .act a ∧ s.Permits cfg a ∧ act cfg s.node a = some s'.node := by
  cases moves_of_step h with
  | request | grant | lookup | answer => exact .inl ⟨rfl, fun _ h => by cases h⟩
  | input hpermits hact | act hpermits hact => exact .inr ⟨_, rfl, hpermits, hact⟩

theorem mem_holders {party : Party} {wanted : List (Lock × Mode)} (h : s.HoldsJust party wanted)
    (lock : Lock) (mode : Mode) :
    (party, mode) ∈ (s.locks lock).holders ↔ (lock, mode) ∈ wanted :=
  (h lock (by cases lock <;> decide)).2 mode (by cases mode <;> decide)

theorem not_waits {party : Party} {wanted : List (Lock × Mode)} (h : s.HoldsJust party wanted)
    (lock : Lock) : ¬ (s.locks lock).Waits party :=
  (h lock (by cases lock <;> decide)).1

/-- A task writes only what it has locked for writing. -/
theorem exec_core {now : UInt64} {node : Node} {task : Task}
    (h : (.core, .write) ∉ task.locks cfg node) : (exec cfg now node task).1.core = node.core := by
  cases task with
  | castVote | selfVote | processVotes => exact (h List.mem_cons_self).elim
  | storeVote vote =>
    dsimp only [Task.locks] at h
    split at h
    · exact (h List.mem_cons_self).elim
    · next hinvalid => rw [exec, if_pos (by simpa using hinvalid)]
  | anchorQc qc peer =>
    dsimp only [Task.locks] at h
    split at h
    · exact (h List.mem_cons_self).elim
    · next hinvalid =>
      rw [exec, if_pos (by simpa using hinvalid)]
      rfl
  | receive | recheck | checkVote =>
    dsimp only [exec]
    split <;> rfl
  | insertProposal | roundStep =>
    dsimp only [exec]
    split
    · rfl
    · split <;> rfl
  | _ => rfl

theorem exec_pending {now : UInt64} {node : Node} {task : Task}
    (h : (.pending, .write) ∉ task.locks cfg node) :
    (exec cfg now node task).1.pendingProposals = node.pendingProposals := by
  cases task with
  | pruneProposals | insertOwn => exact (h List.mem_cons_self).elim
  | insertProposal batch =>
    dsimp only [Task.locks] at h
    split at h
    · exact (h List.mem_cons_self).elim
    · next hinvalid => rw [exec, if_pos (by simpa using hinvalid)]
  | _ => exact exec_pending_eq cfg now node (by simp) (by simp) (by simp)

end LocksLemmas

open LocksLemmas

/-- Runs with locks are runs in which the others do nothing. -/
theorem ReachesLocked.reaches [DecidableEq ι] {net : Network ι C} {i : ι}
    {ok : LockedNode → Move → Prop} {s : LockedNode} (h : ReachesLocked (net.config i) ok s) :
    Reaches net (fun _ _ _ => True) (Function.update initialState i s.node) := by
  induction h with
  | init => exact .alone_init net _ i
  | @step s s' move _ _ hstep ih =>
    rcases node_of_step hstep with ⟨hsame, -⟩ | ⟨a, -, -, hact⟩
    · rwa [hsame]
    · exact ih.alone_step trivial hact

/-! ## What is locked does not change -/

/-- Every task has a name of its own. -/
structure Named (s : LockedNode) : Prop where
  each : s.taskIds.length = s.node.tasks.length
  distinct : s.taskIds.Nodup
  given : ∀ id ∈ s.taskIds, id < s.spawned

namespace LocksLemmas

variable {cfg : Config C} {s s' : LockedNode} {move : Move} {a : Action} {node : Node}

/-- Names are dropped, or the next one is added. -/
theorem namesAfter_cases (s : LockedNode) (a : Action) (node : Node) :
    (s.namesAfter a node).Sublist s.taskIds ∨
      s.namesAfter a node = s.taskIds ++ [s.spawned] := by
  cases a with
  | deliver | advance => exact .inr rfl
  | submit | tick => exact .inl (.refl _)
  | cancel k => exact .inl (List.eraseIdx_sublist _ k)
  | run k =>
    dsimp only [LockedNode.namesAfter]
    split
    · exact .inl (List.eraseIdx_sublist _ k)
    · exact .inl (.refl _)

/-- There are as many names as tasks. -/
theorem length_namesAfter (heach : s.taskIds.length = s.node.tasks.length)
    (hact : act cfg s.node a = some node) :
    (s.namesAfter a node).length = node.tasks.length := by
  cases a with
  | deliver =>
    cases hact
    simp [LockedNode.namesAfter, heach]
  | submit =>
    cases hact
    exact heach
  | tick =>
    dsimp only [act] at hact
    split at hact <;> cases hact
    · exact heach.trans (List.length_map _).symm
    · exact heach
  | advance =>
    dsimp only [act] at hact
    split at hact <;> cases hact
    simp [LockedNode.namesAfter, heach]
  | run k =>
    dsimp only [act] at hact
    split at hact
    · cases hact
    · next kind task htask =>
      have hk : k < s.node.tasks.length := (List.getElem?_eq_some_iff.mp htask).1
      split at hact <;> cases hact
      · simp [LockedNode.namesAfter, heach]
      · -- the task has ended
        have hfewer : (s.node.tasks.eraseIdx k).length < s.node.tasks.length := by
          rw [List.length_eraseIdx_of_lt hk]
          omega
        dsimp only [LockedNode.namesAfter]
        rw [if_pos hfewer, List.length_eraseIdx_of_lt hk, List.length_eraseIdx_of_lt (heach ▸ hk),
          heach]
  | cancel k =>
    dsimp only [act] at hact
    split at hact
    · next task htask =>
      have hk : k < s.node.tasks.length := (List.getElem?_eq_some_iff.mp htask).1
      cases hact
      dsimp only [LockedNode.namesAfter]
      rw [List.length_eraseIdx_of_lt hk, List.length_eraseIdx_of_lt (heach ▸ hk), heach]
    · cases hact

theorem named_act (h : Named s) (hact : act cfg s.node a = some node) :
    Named (s.afterAct a node) := by
  have hgiven : ∀ id ∈ s.taskIds, id < s.spawned + 1 :=
    fun id hid => Nat.lt_succ_of_lt (h.given id hid)
  have heach := length_namesAfter h.each hact
  rcases namesAfter_cases s a node with hsub | hnew
  · exact ⟨heach, h.distinct.sublist hsub, fun id hid => hgiven id (hsub.subset hid)⟩
  · refine ⟨heach, ?_, ?_⟩ <;> dsimp only [LockedNode.afterAct] <;> rw [hnew]
    · refine List.nodup_append.mpr ⟨h.distinct, List.nodup_singleton _, fun id hid id' hid' => ?_⟩
      rw [List.mem_singleton.mp hid']
      exact (h.given id hid).ne
    · exact forall_mem_snoc hgiven (Nat.lt_succ_self _)

theorem named_step (h : Named s) (hstep : s.step cfg move = some s') : Named s' := by
  cases moves_of_step hstep with
  | request | grant | answer => exact ⟨h.each, h.distinct, h.given⟩
  | lookup => exact ⟨h.each, h.distinct, fun id hid => Nat.lt_succ_of_lt (h.given id hid)⟩
  | input _ hact => exact named_act h hact
  | act _ hact =>
    have hnamed := named_act h hact
    exact ⟨hnamed.each, hnamed.distinct, hnamed.given⟩

/-- The name of a task leads to it. -/
theorem taskOf_eq (h : Named s) {k id : Nat} {entry : TaskKind × Task}
    (hid : s.taskIds[k]? = some id) (hentry : s.node.tasks[k]? = some entry) :
    s.taskOf id = some entry.2 := by
  have hmem : (id, entry) ∈ s.taskIds.zip s.node.tasks :=
    List.mem_of_getElem? (i := k) (by rw [List.getElem?_zip_eq_some]; exact ⟨hid, hentry⟩)
  have hkeys : ((s.taskIds.zip s.node.tasks).map Prod.fst).Nodup := by
    rw [List.map_fst_zip h.each.le]
    exact h.distinct
  rw [LockedNode.taskOf, TypesLemmas.find?_of_nodup_map hkeys hmem]
  rfl

/-- The task that an action is about has the locks it needs. -/
theorem holdsJust_of_task (hnamed : Named s) {k : Nat} {entry : TaskKind × Task}
    (hactor : s.actor? a = s.taskIds[k]?.map .task)
    (hjust : ∀ party ∈ s.actor? a, s.HoldsJust party (s.needs cfg party))
    (hentry : s.node.tasks[k]? = some entry) :
    ∃ id, s.actor? a = some (.task id) ∧ s.HoldsJust (.task id) (entry.2.locks cfg s.node) := by
  have hk : k < s.taskIds.length := hnamed.each ▸ (List.getElem?_eq_some_iff.mp hentry).1
  have hid : s.taskIds[k]? = some s.taskIds[k] := List.getElem?_eq_getElem hk
  rw [hid, Option.map_some] at hactor
  refine ⟨s.taskIds[k], hactor, ?_⟩
  have hneeds := hjust _ hactor
  rwa [LockedNode.needs, taskOf_eq hnamed hid hentry] at hneeds

theorem cancelTask_pending (cfg : Config C) (node : Node) (midway : Bool) (task : Task) :
    (cancelTask cfg node midway task).pendingProposals = node.pendingProposals := by
  dsimp only [cancelTask]
  split
  · split <;> rfl
  · rfl

/-- A task that is ended has confirmed a batch, or leaves everything as it was. -/
theorem cancelTask_core {node : Node} {midway : Bool} {task : Task}
    (h : (cancelTask cfg node midway task).core ≠ node.core) :
    midway = true ∧ ∃ batchHash, task = .processVotes batchHash := by
  dsimp only [cancelTask] at h
  split at h
  · exact ⟨rfl, _, rfl⟩
  · exact (h rfl).elim

/-- Whoever changes the data of a lock holds it for writing. -/
theorem writer_of_act (hnamed : Named s) (hpermits : s.Permits cfg a)
    (hact : act cfg s.node a = some node) :
    (node.core ≠ s.node.core → ∃ party ∈ s.actor? a, (party, .write) ∈ (s.locks .core).holders) ∧
      (node.pendingProposals ≠ s.node.pendingProposals →
        ∃ party ∈ s.actor? a, (party, .write) ∈ (s.locks .pending).holders) := by
  cases a with
  | deliver msg peer | submit payload =>
    cases hact
    exact ⟨fun h => (h rfl).elim, fun h => (h rfl).elim⟩
  | tick timedOut =>
    dsimp only [act] at hact
    split at hact <;> cases hact <;> exact ⟨fun h => (h rfl).elim, fun h => (h rfl).elim⟩
  | advance =>
    have hjust := (hpermits.resolve_left (by simp)) .driver rfl
    dsimp only [act] at hact
    split at hact
    · cases hact
    · next hdriver =>
      cases hact
      refine ⟨fun _ => ⟨.driver, rfl, ?_⟩, fun h => (h rfl).elim⟩
      rw [mem_holders hjust, LockedNode.needs, hdriver]
      exact List.mem_cons_self
  | run k now =>
    dsimp only [act] at hact
    split at hact
    · cases hact
    · next kind task htask =>
      obtain ⟨id, hactor, hjust⟩ :=
        holdsJust_of_task hnamed rfl (hpermits.resolve_left (by simp)) htask
      have hcore : node.core = (exec cfg now s.node task).1.core := by
        split at hact <;> cases hact <;> rfl
      have hpending : node.pendingProposals = (exec cfg now s.node task).1.pendingProposals := by
        split at hact <;> cases hact <;> rfl
      refine ⟨fun h => ⟨_, hactor, ?_⟩, fun h => ⟨_, hactor, ?_⟩⟩
      · by_contra hread
        exact h (hcore.trans (exec_core fun hmem => hread ((mem_holders hjust _ _).mpr hmem)))
      · by_contra hread
        exact h (hpending.trans (exec_pending fun hmem => hread ((mem_holders hjust _ _).mpr hmem)))
  | cancel k midway =>
    dsimp only [act] at hact
    split at hact
    · next task htask =>
      cases hact
      refine ⟨fun h => ?_, fun h => (h (cancelTask_pending cfg s.node midway task)).elim⟩
      obtain ⟨rfl, batchHash, rfl⟩ := cancelTask_core h
      obtain ⟨id, hactor, hjust⟩ :=
        holdsJust_of_task hnamed rfl (hpermits.resolve_left (by simp)) htask
      exact ⟨_, hactor, (mem_holders hjust _ _).mpr List.mem_cons_self⟩
    · cases hact

end LocksLemmas

section Runs

variable {cfg : Config C} {ok : LockedNode → Move → Prop} {s s' : LockedNode} {move : Move}

theorem ReachesLocked.named (h : ReachesLocked cfg ok s) : Named s := by
  induction h with
  | init => exact ⟨rfl, List.nodup_nil, fun _ h => nomatch h⟩
  | step _ _ hstep ih => exact named_step ih hstep

theorem ReachesLocked.exclusive (h : ReachesLocked cfg ok s) (lock : Lock) :
    (s.locks lock).Exclusive := by
  induction h generalizing lock with
  | init => exact fun _ h => nomatch h
  | @step s s' move _ _ hstep ih =>
    have hlocks := locking_of_step hstep
    generalize s'.locks = locks at hlocks ⊢
    cases hlocks with
    | none => exact ih lock
    | request =>
      rw [Function.update_apply]
      split
      · exact ih _
      · exact ih lock
    | grant hgrant =>
      rw [Function.update_apply]
      split
      · exact (ih _).grant hgrant
      · exact ih lock
    | release => exact (ih lock).release _

/-- What a party has locked, in whatever mode, nobody else changes. -/
theorem ReachesLocked.stable (h : ReachesLocked cfg ok s) (hstep : s.step cfg move = some s')
    {party : Party} (hother : ∀ a, move = .act a → party ∉ s.actor? a) :
    ((s.locks .core).Holds party → s'.node.core = s.node.core) ∧
      ((s.locks .pending).Holds party → s'.node.pendingProposals = s.node.pendingProposals) := by
  rcases node_of_step hstep with ⟨hsame, -⟩ | ⟨a, rfl, hpermits, hact⟩
  · rw [hsame]
    exact ⟨fun _ => rfl, fun _ => rfl⟩
  · -- a writer would hold the lock together with the party
    have hnobody : ∀ lock, (s.locks lock).Holds party →
        ¬ ∃ writer ∈ s.actor? a, (writer, .write) ∈ (s.locks lock).holders := by
      rintro lock hholds ⟨writer, hwriter, hmem⟩
      obtain ⟨⟨holder, mode⟩, hholder, rfl⟩ := List.mem_map.mp hholds
      have hne : writer ≠ holder := by
        rintro rfl
        exact hother a rfl hwriter
      cases h.exclusive lock _ hmem _ hholder hne
    have hwriter := writer_of_act h.named hpermits hact
    refine ⟨fun hholds => ?_, fun hholds => ?_⟩
    · by_contra hchanged
      exact hnobody .core hholds (hwriter.1 hchanged)
    · by_contra hchanged
      exact hnobody .pending hholds (hwriter.2 hchanged)

end Runs

/-! ## Deadlock -/

/-- `core_state` comes before `pending_proposals`. -/
def Lock.rank : Lock → Bool
  | .core => false
  | .pending => true

/-- Every lookup that has the lock on the pending proposals finds its batch there. -/
def LookupsHit (s : LockedNode) (_ : Move) : Prop :=
  ∀ entry ∈ s.lookups, (s.locks .pending).Holds (.lookup entry.1) →
    (s.node.pendingProposals entry.2).isSome

instance (s : LockedNode) (move : Move) : Decidable (LookupsHit s move) :=
  inferInstanceAs (Decidable (∀ entry ∈ s.lookups, (s.locks .pending).Holds (.lookup entry.1) →
    (s.node.pendingProposals entry.2).isSome))

namespace LocksLemmas

variable {cfg : Config C} {s s' : LockedNode} {move : Move}

/-- A task that takes both locks takes `core_state` first. -/
theorem locks_ordered (cfg : Config C) (node : Node) (task : Task) :
    (task.locks cfg node).Pairwise (·.1.rank < ·.1.rank) := by
  have hboth : [(Lock.core, Mode.write), (Lock.pending, Mode.read)].Pairwise
      (·.1.rank < ·.1.rank) := by
    decide
  cases task with
  | processVotes =>
    dsimp only [Task.locks]
    split
    · exact hboth
    · exact List.pairwise_singleton _ _
  | anchorQc =>
    dsimp only [Task.locks]
    split
    · split
      · exact hboth
      · exact List.pairwise_singleton _ _
    · exact .nil
  | insertProposal | storeVote =>
    dsimp only [Task.locks]
    split
    · exact List.pairwise_singleton _ _
    · exact .nil
  | receive | recheck | sendVote | requestBatch | drainMempool | announce => exact .nil
  | _ => exact List.pairwise_singleton _ _

theorem task_ordered (cfg : Config C) (s : LockedNode) (id : Nat) :
    (s.needs cfg (.task id)).Pairwise (·.1.rank < ·.1.rank) := by
  dsimp only [LockedNode.needs]
  split
  · exact .nil
  · exact locks_ordered cfg s.node _

/-- So does everybody, where lookups hit. -/
theorem needs_ordered (hhit : LookupsHit s move) {party : Party} {n : Nat} {lock : Lock}
    {mode : Mode} (hjust : s.HoldsJust party ((s.needs cfg party).take n))
    (hheld : (lock, mode) ∈ (s.needs cfg party).take n) :
    (s.needs cfg party).Pairwise (·.1.rank < ·.1.rank) := by
  cases party with
  | driver => exact List.pairwise_singleton _ _
  | task id => exact task_ordered cfg s id
  | lookup id =>
    have hpending : (.pending, .read) ∈ (s.needs cfg (.lookup id)).take n →
        (s.locks .pending).Holds (.lookup id) :=
      fun hmem => List.mem_map_of_mem ((mem_holders hjust _ _).mpr hmem)
    dsimp only [LockedNode.needs] at hheld hpending ⊢
    split at hheld
    · cases n <;> cases hheld
    · next id' batchHash hfind =>
      rw [hfind] at hpending
      have hid := List.find?_some hfind
      obtain rfl : id' = id := of_decide_eq_true hid
      cases n with
      | zero => cases hheld
      | succ n =>
        have hfound := hhit _ (List.mem_of_find?_eq_some hfind) (hpending List.mem_cons_self)
        rw [if_pos hfound]
        exact List.pairwise_singleton _ _

/-- What comes first in an ordered list is related to what comes next. -/
theorem rel_next {α : Type} {R : α → α → Prop} {l : List α} (h : l.Pairwise R) {n : Nat} {x y : α}
    (hx : x ∈ l.take n) (hy : l[n]? = some y) : R x y := by
  rw [← List.take_append_drop n l] at h
  refine (List.pairwise_append.mp h).2.2 x hx y (List.mem_of_getElem? (i := 0) ?_)
  rw [List.getElem?_drop]
  exact hy

/-- A party asks for a lock above those it holds. -/
theorem rank_lt_of_request (hhit : LookupsHit s move) {party : Party} {n : Nat} {lock lock' : Lock}
    {mode : Mode} (hneeds : (s.needs cfg party)[n]? = some (lock, mode))
    (hjust : s.HoldsJust party ((s.needs cfg party).take n))
    (hholds : (s.locks lock').Holds party) : lock'.rank < lock.rank := by
  obtain ⟨⟨_, mode'⟩, hholder, rfl⟩ := List.mem_map.mp hholds
  have hheld : (lock', mode') ∈ (s.needs cfg _).take n := (mem_holders hjust _ _).mp hholder
  exact rel_next (needs_ordered hhit hjust hheld) hheld hneeds

end LocksLemmas

/-- However the tasks, the driver and the lookups of a node are scheduled: as long
as every lookup finds its batch pending, no set of them waits for each other. -/
theorem locks_not_deadlocked {cfg : Config C} {s : LockedNode}
    (hrun : ReachesLocked cfg LookupsHit s) (parties : Set Party) :
    ¬ Deadlocked s.locks parties := by
  have hhierarchical : Hierarchical Lock.rank s.locks := by
    induction hrun with
    | init => exact .unlocked
    | @step s s' move _ hhit hstep ih =>
      have hlocks := locking_of_step hstep
      generalize s'.locks = locks at hlocks ⊢
      cases hlocks with
      | none => exact ih
      | request hneeds hjust =>
        exact ih.request (not_waits hjust) fun lock' => rank_lt_of_request hhit hneeds hjust
      | grant hgrant => exact ih.grant hgrant
      | release => exact ih.release _
  exact hhierarchical.not_deadlocked parties

/-! ## Scripts of moves -/

/-- Moves, each made up from the state. -/
def performMoves (cfg : Config C) (ok : LockedNode → Move → Prop) [∀ s m, Decidable (ok s m)]
    (s : LockedNode) (script : List (LockedNode → Move)) : Option LockedNode :=
  script.foldlM (fun s move => if ok s (move s) then s.step cfg (move s) else none) s

theorem exists_reachesLocked {cfg : Config C} {ok : LockedNode → Move → Prop}
    [∀ s m, Decidable (ok s m)] {P : LockedNode → Prop} [DecidablePred P]
    (script : List (LockedNode → Move))
    (h : (performMoves cfg ok (.new genesisQc) script).any (fun s => decide (P s)) = true) :
    ∃ s, ReachesLocked cfg ok s ∧ P s := by
  obtain ⟨s, hplay, hP⟩ := (Option.any_eq_true _ _).mp h
  refine ⟨s, foldlM_keeps (fun s move s' hs hmove => ?_) .init hplay, of_decide_eq_true hP⟩
  split at hmove
  · next hok => exact hs.step hok hmove
  · cases hmove

/-- A party takes one lock. -/
def takes (party : Party) (n : Nat) (lock : Lock) : List (LockedNode → Move) :=
  [fun _ => .request party n, fun _ => .grant lock]

def acts (a : Action) : List (LockedNode → Move) := [fun _ => .act a]

/-- A peer hands the first message of the node back to it. -/
def handBack (s : LockedNode) : Move :=
  match s.node.broadcasts with
  | [] => .act (.tick false)
  | msg :: _ => .act (.deliver msg 0)

/-- A peer asks for the batch that the node has proposed. -/
def lookUpProposed (s : LockedNode) : Move :=
  .lookup ((s.node.proposed.head?.map (·.hash toyCrypto)).getD [])

/-- The node proposes and is about to test the votes for its batch. A handler is
about to insert the batch, which a peer has handed back. -/
def beforeVotes : List (LockedNode → Move) :=
  takes .driver 0 .core ++ acts (.tick false) ++ takes .driver 0 .core ++ acts .advance ++
    -- the driver's task: `handle_round_step` and `run_proposer_flow`
    takes (.task 1) 0 .core ++ acts (.run 0 10) ++ takes (.task 1) 0 .core ++ acts (.run 0 10) ++
    acts (.run 0 10) ++ takes (.task 1) 0 .core ++ acts (.run 0 10) ++
    takes (.task 1) 0 .pending ++ acts (.run 0 10) ++ acts (.run 0 10) ++
    takes (.task 1) 0 .core ++ acts (.run 0 10) ++ [handBack] ++ acts (.run 1 20) ++
    acts (.run 1 20)

/-- A lookup takes the pending proposals. The handler asks for them behind it, and
the proposer, which holds the core, behind the handler. -/
def allAsk (lookup : LockedNode → Move) : List (LockedNode → Move) :=
  beforeVotes ++ [lookup] ++ takes (.lookup 12) 0 .pending ++ [fun _ => .request (.task 9) 0] ++
    takes (.task 1) 0 .core ++ [fun _ => .request (.task 1) 1]

/-- The lookup finds its batch and can be answered. -/
theorem locks_not_deadlocked_hit :
    ∃ s, ReachesLocked (soloNetwork.config false) LookupsHit s ∧
      (s.locks .pending).blockers (.task 1) = [.task 9] ∧
      (s.locks .pending).blockers (.task 9) = [.lookup 12] ∧
      ∀ parties, ¬ Deadlocked s.locks parties := by
  have hplay : ∃ s, ReachesLocked (soloNetwork.config false) LookupsHit s ∧
      (s.locks .pending).blockers (.task 1) = [.task 9] ∧
      (s.locks .pending).blockers (.task 9) = [.lookup 12] :=
    exists_reachesLocked (allAsk lookUpProposed) (by decide +kernel)
  obtain ⟨s, hrun, hproposer, hhandler⟩ := hplay
  exact ⟨s, hrun, hproposer, hhandler, locks_not_deadlocked hrun⟩

/-- A lookup for a batch that is not pending goes on to ask for the core. The
proposer, the handler and the lookup wait for each other. -/
theorem lookup_deadlocks :
    ∃ s, ReachesLocked (soloNetwork.config false) (fun _ _ => True) s ∧
      Deadlocked s.locks {.task 1, .task 9, .lookup 12} := by
  have hplay : ∃ s, ReachesLocked (soloNetwork.config false) (fun _ _ => True) s ∧
      (s.locks .pending).blockers (.task 1) = [.task 9] ∧
      (s.locks .pending).blockers (.task 9) = [.lookup 12] ∧
      (s.locks .core).blockers (.lookup 12) = [.task 1] :=
    exists_reachesLocked (allAsk (fun _ => .lookup []) ++ [fun _ => .request (.lookup 12) 1])
      (by decide +kernel)
  obtain ⟨s, hrun, hproposer, hhandler, hlookup⟩ := hplay
  refine ⟨s, hrun, .of_one ⟨.task 1, .inl rfl⟩ fun t ht => ?_⟩
  rcases ht with rfl | rfl | rfl
  · exact ⟨.pending, .task 9, .inr (.inl rfl), hproposer⟩
  · exact ⟨.pending, .lookup 12, .inr (.inr rfl), hhandler⟩
  · exact ⟨.core, .task 1, .inl rfl, hlookup⟩

end EviceChain.Sequencer
