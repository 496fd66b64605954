import EviceChain.Foundation.LockOrder
import EviceChain.Foundation.Run
import EviceChain.Sequencer.Locks
import EviceChain.Sequencer.Rounds

/-!
# Lookups and deadlock

The driver, the tasks and the lookups take the locks they need one after the other
(`ReachesLocked.orderly`). Two things follow.

1. A deadlock among handlers and lookups is for ever: handlers are not aborted, and
   nobody else can help (`ReachesLocked.deadlock_lasts`), so the lookups among them are
   never answered.
2. As long as no writer of `pending_proposals` waits behind a lookup, every lookup is
   answered (`answered_of_fair`), whatever else happens: locks are given in the order in
   which they are asked for, and whoever has what it waits for goes on at some time
   (`FairSchedule`).
-/

namespace EviceChain.Sequencer

open Foundation RwLockLemmas NetworkLemmas LocksLemmas

variable {C : Crypto}

/-! ## The order in which locks are taken -/

namespace LockProgressLemmas

variable {cfg : Config C} {s s' : LockedNode} {a : Action} {node : Node} {party : Party}

theorem locks_head (cfg : Config C) (node node' : Node) (task : Task) :
    (task.locks cfg node')[0]? = (task.locks cfg node)[0]? := by
  cases task with
  | anchorQc =>
    dsimp only [Task.locks]
    split <;> rfl
  | _ => rfl

/-- What a task needs depends on the core state only, and it takes that first. -/
theorem locks_stable (cfg : Config C) (node : Node) (task : Task) :
    (∀ node' : Node, task.locks cfg node' = task.locks cfg node) ∨
      ((.core, .write) ∈ (task.locks cfg node).take 1 ∧
        ∀ node' : Node, node'.core = node.core → task.locks cfg node' = task.locks cfg node) := by
  cases task with
  | processVotes =>
    refine .inr ⟨List.mem_cons_self, fun node' hcore => ?_⟩
    dsimp only [Task.locks]
    rw [hcore]
  | anchorQc qc peer =>
    dsimp only [Task.locks]
    split
    · refine .inr ⟨List.mem_cons_self, fun node' hcore => ?_⟩
      rw [hcore]
    · exact .inl fun _ => rfl
  | _ => exact .inl fun _ => rfl

theorem needs_nodup (cfg : Config C) (s : LockedNode) (party : Party) :
    ((s.needs cfg party).map Prod.fst).Nodup := by
  cases party with
  | driver => exact List.nodup_singleton _
  | task id =>
    refine List.pairwise_map.mpr ((task_ordered cfg s id).imp fun hlt he => ?_)
    rw [he] at hlt
    exact lt_irrefl _ hlt
  | lookup id =>
    dsimp only [LockedNode.needs]
    split
    · exact List.nodup_nil
    · split <;> simp

/-- The next lock is not among those before it. -/
theorem fresh_next {needs : List (Lock × Mode)} (h : (needs.map Prod.fst).Nodup) {n : Nat}
    {lock : Lock} {mode : Mode} (hnext : needs[n]? = some (lock, mode)) (mode' : Mode) :
    (lock, mode') ∉ needs.take n := by
  intro hmem
  exact rel_next (List.pairwise_map.mp h) hmem hnext rfl

/-! Tasks keep their names. -/

theorem taskOf_some {id : Nat} {task : Task} (h : s.taskOf id = some task) :
    ∃ (k : Nat) (entry : TaskKind × Task), s.taskIds[k]? = some id ∧
      s.node.tasks[k]? = some entry ∧ entry.2 = task := by
  obtain ⟨⟨id', entry⟩, hfind, rfl⟩ := Option.map_eq_some_iff.mp h
  have hid := List.find?_some hfind
  obtain rfl : id' = id := of_decide_eq_true hid
  obtain ⟨k, hk⟩ := List.mem_iff_getElem?.mp (List.mem_of_find?_eq_some hfind)
  rw [List.getElem?_zip_eq_some] at hk
  exact ⟨k, entry, hk.1, hk.2, rfl⟩

/-- The tasks of which another one acts are as they were, at some place. -/
theorem place_act (hact : act cfg s.node a = some node) {id j : Nat}
    {entry : TaskKind × Task} (hother : .task id ∉ s.actor? a)
    (hid : s.taskIds[j]? = some id) (hentry : s.node.tasks[j]? = some entry) :
    ∃ (j' : Nat) (entry' : TaskKind × Task), (s.namesAfter a node)[j']? = some id ∧
      node.tasks[j']? = some entry' ∧ entry'.2 = entry.2 ∧
      (entry.1 = .handler → entry'.1 = .handler) := by
  have hne {k : Nat} (hactor : s.actor? a = s.taskIds[k]?.map .task) : j ≠ k := by
    rintro rfl
    rw [hactor, hid] at hother
    exact hother rfl
  cases a with
  | deliver =>
    cases hact
    exact ⟨j, entry, getElem?_snoc hid _, getElem?_snoc hentry _, rfl, fun h => h⟩
  | submit =>
    cases hact
    exact ⟨j, entry, hid, hentry, rfl, fun h => h⟩
  | tick =>
    dsimp only [act] at hact
    split at hact <;> cases hact
    · refine ⟨j, abortTask entry, hid, ?_, ?_⟩
      · rw [List.getElem?_map, hentry]
        rfl
      · obtain ⟨kind, task⟩ := entry
        cases kind with
        | handler => exact ⟨rfl, fun h => h⟩
        | step | aborted => exact ⟨rfl, fun h => by cases h⟩
    · exact ⟨j, entry, hid, hentry, rfl, fun h => h⟩
  | advance =>
    dsimp only [act] at hact
    split at hact <;> cases hact
    exact ⟨j, entry, getElem?_snoc hid _, getElem?_snoc hentry _, rfl, fun h => h⟩
  | run k =>
    have hjk := hne (k := k) rfl
    dsimp only [act] at hact
    split at hact
    · cases hact
    · next kind task htask =>
      have hk : k < s.node.tasks.length := (List.getElem?_eq_some_iff.mp htask).1
      split at hact <;> cases hact
      · refine ⟨j, entry, ?_, ?_, rfl, fun h => h⟩
        · dsimp only [LockedNode.namesAfter]
          rw [List.length_set, if_neg (lt_irrefl _)]
          exact hid
        · rw [List.getElem?_set_ne hjk.symm]
          exact hentry
      · -- the task has ended
        refine ⟨_, entry, ?_, (getElem?_eraseIdx_of_ne _ hjk.symm).trans hentry, rfl, fun h => h⟩
        dsimp only [LockedNode.namesAfter]
        rw [if_pos, getElem?_eraseIdx_of_ne _ hjk.symm]
        · exact hid
        · rw [List.length_eraseIdx_of_lt hk]
          exact Nat.sub_lt (Nat.zero_lt_of_lt hk) Nat.zero_lt_one
  | cancel k =>
    have hjk : j ≠ k := hne rfl
    dsimp only [act] at hact
    split at hact <;> cases hact
    exact ⟨_, entry, (getElem?_eraseIdx_of_ne _ hjk.symm).trans hid,
      (getElem?_eraseIdx_of_ne _ hjk.symm).trans hentry, rfl, fun h => h⟩

/-- Other tasks than the one that acts keep their names. -/
theorem taskOf_act (hnamed : Named s) (hact : act cfg s.node a = some node) {id : Nat} {task : Task}
    (hother : .task id ∉ s.actor? a) (htask : s.taskOf id = some task) :
    (s.afterAct a node).taskOf id = some task := by
  obtain ⟨j, entry, hid, hentry, rfl⟩ := taskOf_some htask
  obtain ⟨j', entry', hid', hentry', he, -⟩ := place_act hact hother hid hentry
  rw [← he]
  exact taskOf_eq (named_act hnamed hact) hid' hentry'

/-! ## Parties hold the first locks that they need -/

theorem step_act (hpermits : s.Permits cfg a) (hact : act cfg s.node a = some node) :
    s.step cfg (.act a) = some (match s.actor? a with
      | none => s.afterAct a node
      | some party => (s.afterAct a node).releaseAll party) := by
  rw [LockedNode.step, if_pos hpermits, hact]
  rfl

/-- What a party has locked does not change when others act. -/
theorem stable_act {ok : LockedNode → Move → Prop} (hrun : ReachesLocked cfg ok s)
    (hpermits : s.Permits cfg a) (hact : act cfg s.node a = some node)
    (hother : party ∉ s.actor? a) :
    ((s.locks .core).Holds party → node.core = s.node.core) ∧
      ((s.locks .pending).Holds party → node.pendingProposals = s.node.pendingProposals) := by
  have hothers : ∀ a', Move.act a = .act a' → party ∉ s.actor? a' := by
    rintro a' ⟨⟩
    exact hother
  have hstable := hrun.stable (step_act hpermits hact) hothers
  revert hstable
  split <;> exact id

/-- What the others need changes only before they hold anything. -/
theorem stage_act {ok : LockedNode → Move → Prop} (hrun : ReachesLocked cfg ok s)
    (hpermits : s.Permits cfg a) (hact : act cfg s.node a = some node)
    (hother : party ∉ s.actor? a) {n : Nat} (h : Stage (s.needs cfg party) s.locks party n) :
    ∃ n', Stage ((s.afterAct a node).needs cfg party) s.locks party n' := by
  have hstable := stable_act hrun hpermits hact hother
  cases party with
  | driver =>
    have hdriver : node.driver = s.node.driver := by
      cases act_clock hact with
      | same _ _ hdriver => exact hdriver
      | decide ha | start ha =>
        subst ha
        exact (hother rfl).elim
    refine ⟨n, ?_⟩
    show Stage [(.core, if node.driver.isSome then .write else .read)] s.locks .driver n
    rw [hdriver]
    exact h
  | task id =>
    unfold LockedNode.needs at h ⊢
    cases htask : s.taskOf id with
    | none =>
      simp only [htask] at h
      exact ⟨0, h.of_nil⟩
    | some task =>
      have htask' : (s.afterAct a node).taskOf id = some task :=
        taskOf_act hrun.named hact hother htask
      simp only [htask] at h
      simp only [htask']
      rcases locks_stable cfg s.node task with hsame | ⟨hfirst, hsame⟩
      · exact ⟨n, (hsame node).symm ▸ h⟩
      · cases n with
        | zero => exact ⟨0, h.of_head (locks_head cfg s.node node task)⟩
        | succ n =>
          have hheld : (s.locks .core).Holds (.task id) :=
            List.mem_map_of_mem ((h.holds .core .write).mpr
              (List.take_subset_take_left _ (Nat.le_add_left 1 n) hfirst))
          exact ⟨n + 1, (hsame node (hstable.1 hheld)).symm ▸ h⟩
  | lookup id =>
    unfold LockedNode.needs at h ⊢
    cases hlookup : s.lookups.find? (·.1 = id) with
    | none =>
      simp only [hlookup] at h
      exact ⟨0, h.of_nil⟩
    | some entry =>
      have hlookup' : (s.afterAct a node).lookups.find? (·.1 = id) = some entry := hlookup
      simp only [hlookup] at h
      simp only [hlookup']
      cases n with
      | zero => exact ⟨0, h.of_head rfl⟩
      | succ n =>
        have hheld : (s.locks .pending).Holds (.lookup id) :=
          List.mem_map_of_mem ((h.holds .pending .read).mpr List.mem_cons_self)
        have hpending : (s.afterAct a node).node.pendingProposals = s.node.pendingProposals :=
          hstable.2 hheld
        refine ⟨n + 1, ?_⟩
        rw [hpending]
        exact h

/-- Lookups come and go; the others need what they needed. -/
theorem stage_lookups (spawned : Nat) {lookups : List (Nat × Bytes)}
    (hfind : ∀ id, party = .lookup id → ∀ entry, s.lookups.find? (·.1 = id) = some entry →
      lookups.find? (·.1 = id) = some entry)
    {n : Nat} (h : Stage (s.needs cfg party) s.locks party n) :
    ∃ n', Stage ({ s with lookups, spawned }.needs cfg party) s.locks party n' := by
  cases party with
  | driver | task => exact ⟨n, h⟩
  | lookup id =>
    unfold LockedNode.needs at h ⊢
    cases hlookup : s.lookups.find? (·.1 = id) with
    | none =>
      simp only [hlookup] at h
      exact ⟨0, h.of_nil⟩
    | some entry =>
      simp only [hlookup] at h
      simp only [hfind id rfl entry hlookup]
      exact ⟨n, h⟩

end LockProgressLemmas

open LockProgressLemmas

/-- In every run, each party holds the first few of the locks it needs, and waits for
the next one if for any. -/
theorem ReachesLocked.orderly {cfg : Config C} {ok : LockedNode → Move → Prop} {s : LockedNode}
    (h : ReachesLocked cfg ok s) : Orderly (s.needs cfg) s.locks := by
  induction h with
  | init => exact .unlocked _
  | @step s s' move hrun hok hstep ih =>
    cases moves_of_step hstep with
    | @request party _ _ _ hneeds hjust =>
      exact ih.request hneeds (fresh_next (needs_nodup cfg s party) hneeds) (mem_holders hjust)
        (not_waits hjust)
    | grant hgrant => exact ih.grant hgrant
    | lookup =>
      refine ih.congr fun party n => stage_lookups _ fun id _ entry hentry => ?_
      rw [List.find?_append, hentry]
      rfl
    | @answer id =>
      refine ih.release (.lookup id) fun party hparty n =>
        stage_lookups s.spawned fun id' hid' entry hentry => ?_
      -- only the entries of the lookup that is answered are gone
      have hne : id' ≠ id := by
        rintro rfl
        exact hparty hid'
      show (s.lookups.filter (·.1 ≠ id)).find? (·.1 = id') = some entry
      rw [List.find?_filter, ← hentry]
      congr 1
      funext entry
      by_cases he : entry.1 = id'
      · simp [he, hne]
      · simp [he]
    | input hpermits hact hactor =>
      exact ih.congr fun party n => stage_act hrun hpermits hact (by rw [hactor]; simp)
    | @act _ _ party hpermits hact hactor =>
      refine ih.release party fun other hother n => stage_act hrun hpermits hact ?_
      rw [hactor]
      intro hmem
      cases hmem
      exact hother rfl

/-! ## A deadlock is for ever -/

/-- The task was started for a message, so that nobody aborts it. -/
def IsHandler (s : LockedNode) (id : Nat) : Prop :=
  ∃ (j : Nat) (task : Task), s.taskIds[j]? = some id ∧ s.node.tasks[j]? = some (.handler, task)

namespace LockProgressLemmas

variable {cfg : Config C} {s s' : LockedNode} {a : Action} {node : Node} {move : Move}
  {ok : LockedNode → Move → Prop} {parties : Set Party}

theorem isHandler_of_kind {j id : Nat} (hid : s.taskIds[j]? = some id)
    (hkind : (s.node.tasks.map Prod.fst)[j]? = some .handler) : IsHandler s id := by
  rw [List.getElem?_map] at hkind
  obtain ⟨⟨_, task⟩, htask, rfl⟩ := Option.map_eq_some_iff.mp hkind
  exact ⟨j, task, hid, htask⟩

theorem isHandler_act (hact : act cfg s.node a = some node) {id : Nat}
    (hother : .task id ∉ s.actor? a) (h : IsHandler s id) : IsHandler (s.afterAct a node) id := by
  obtain ⟨j, task, hid, htask⟩ := h
  obtain ⟨j', ⟨kind, task'⟩, hid', htask', -, hkind⟩ := place_act hact hother hid htask
  obtain rfl : kind = .handler := hkind rfl
  exact ⟨j', task', hid', htask'⟩

/-- Whoever waits for nothing is not part of a deadlock. -/
theorem not_mem_of_rests (hdead : Deadlocked s.locks parties) {party : Party}
    (hrests : ∀ lock, ¬ (s.locks lock).Waits party) : party ∉ parties := by
  intro hmem
  obtain ⟨lock, hwait, -⟩ := hdead.2 party hmem
  exact hrests lock (waits_of_blockers hwait)

theorem actor_not_mem (hnamed : Named s) (hpermits : s.Permits cfg a)
    (hact : act cfg s.node a = some node) (hdead : Deadlocked s.locks parties)
    (hhandlers : ∀ id, .task id ∈ parties → IsHandler s id) {party : Party}
    (hactor : party ∈ s.actor? a) : party ∉ parties := by
  rcases hpermits with hcancel | hjust
  · cases a with
    | cancel k midway =>
      obtain ⟨id, hid, rfl⟩ := Option.map_eq_some_iff.mp hactor
      intro hmem
      obtain ⟨j, task, hid', htask⟩ := hhandlers id hmem
      obtain ⟨hj, hjid⟩ := List.getElem?_eq_some_iff.mp hid'
      obtain ⟨hk, hkid⟩ := List.getElem?_eq_some_iff.mp hid
      obtain rfl : j = k := (hnamed.distinct.getElem_inj_iff).mp (hjid.trans hkid.symm)
      -- only aborted tasks are ended
      dsimp only [act] at hact
      rw [htask] at hact
      cases hact
    | _ => cases hcancel
  · exact not_mem_of_rests hdead (not_waits (hjust party hactor))

theorem deadlock_step (hrun : ReachesLocked cfg ok s) (hstep : s.step cfg move = some s')
    (hdead : Deadlocked s.locks parties)
    (hhandlers : ∀ id, .task id ∈ parties → IsHandler s id) :
    Deadlocked s'.locks parties ∧ ∀ id, .task id ∈ parties → IsHandler s' id := by
  have hhandlers' {a : Action} {node : Node} (hact : act cfg s.node a = some node)
      (hactor : ∀ party ∈ s.actor? a, party ∉ parties) :
      ∀ id, .task id ∈ parties → IsHandler (s.afterAct a node) id :=
    fun id hid => isHandler_act hact (fun hmem => hactor _ hmem hid) (hhandlers id hid)
  cases moves_of_step hstep with
  | request => exact ⟨hdead.request _ _ _, hhandlers⟩
  | grant hgrant => exact ⟨hdead.grant hrun.orderly.one hgrant, hhandlers⟩
  | lookup => exact ⟨hdead, hhandlers⟩
  | answer hjust =>
    exact ⟨hdead.release (not_mem_of_rests hdead (not_waits hjust)), hhandlers⟩
  | input hpermits hact =>
    exact ⟨hdead, hhandlers' hact fun party =>
      actor_not_mem hrun.named hpermits hact hdead hhandlers⟩
  | act hpermits hact hactor =>
    have hothers : ∀ party ∈ s.actor? _, party ∉ parties :=
      fun party => actor_not_mem hrun.named hpermits hact hdead hhandlers
    exact ⟨hdead.release (hothers _ hactor), hhandlers' hact hothers⟩

end LockProgressLemmas

/-- The lookup is under way, and has all the locks it needs. -/
def CanAnswer (cfg : Config C) (s : LockedNode) (id : Nat) (batchHash : Bytes) : Prop :=
  (id, batchHash) ∈ s.lookups ∧ s.HoldsJust (.lookup id) (s.needs cfg (.lookup id))

/-- The states that a node with its locks can come to from another one. -/
abbrev LockedRun (cfg : Config C) (s : LockedNode) : LockedNode → Prop :=
  Run (LockedNode.step cfg) (fun _ _ => True) s

section

variable {cfg : Config C} {s t : LockedNode}

theorem ReachesLocked.trans (h : ReachesLocked cfg (fun _ _ => True) s) (hrun : LockedRun cfg s t) :
    ReachesLocked cfg (fun _ _ => True) t :=
  hrun.invariant h fun _ hok hstep ih => ih.step hok hstep

/-- Handlers and lookups that wait for each other do so in every later state. -/
theorem ReachesLocked.deadlock_lasts (h : ReachesLocked cfg (fun _ _ => True) s)
    {parties : Set Party} (hdead : Deadlocked s.locks parties)
    (hhandlers : ∀ id, .task id ∈ parties → IsHandler s id) (hrun : LockedRun cfg s t) :
    Deadlocked t.locks parties :=
  (hrun.invariant (I := fun t => Deadlocked t.locks parties ∧
    ∀ id, .task id ∈ parties → IsHandler t id) ⟨hdead, hhandlers⟩
    fun hmid _ hstep ih => deadlock_step (h.trans hmid) hstep ih.1 ih.2).1

end

/-- A lookup that is part of such a deadlock is never answered. -/
theorem ReachesLocked.never_answered {cfg : Config C} {s t : LockedNode}
    (h : ReachesLocked cfg (fun _ _ => True) s) {parties : Set Party}
    (hdead : Deadlocked s.locks parties)
    (hhandlers : ∀ id, .task id ∈ parties → IsHandler s id) {id : Nat}
    (hlookup : .lookup id ∈ parties) {batchHash : Bytes} (hrun : LockedRun cfg s t) :
    ¬ CanAnswer cfg t id batchHash := by
  intro hanswer
  exact not_mem_of_rests (h.deadlock_lasts hdead hhandlers hrun) (not_waits hanswer.2) hlookup

/-! ## Lookups come to their end -/

def Party.isLookup : Party → Bool
  | .lookup _ => true
  | .driver | .task _ => false

/-- Nobody waits to write the pending proposals behind a lookup that holds them or
waits for them. -/
def Calm (locks : Lock → RwLock Party) : Prop :=
  (locks .pending).entries.Pairwise fun earlier later =>
    earlier.1.isLookup → later.2 = .read

instance (locks : Lock → RwLock Party) : Decidable (Calm locks) :=
  inferInstanceAs (Decidable ((locks .pending).entries.Pairwise fun earlier later =>
    earlier.1.isLookup → later.2 = .read))

/-- Who makes a move; the locks are given by themselves. -/
def Move.mover (s : LockedNode) : Move → Option Party
  | .request party _ => some party
  | .answer id => some (.lookup id)
  | .act a => s.actor? a
  | .grant _ | .lookup _ => none

/-- The party waits for nothing and is in the middle of something: it holds a lock, or it
is a lookup. -/
def CanGoOn (s : LockedNode) (party : Party) : Prop :=
  (∀ lock, ¬ (s.locks lock).Waits party) ∧
    ((∃ lock, (s.locks lock).Holds party) ∨ ∃ entry ∈ s.lookups, party = .lookup entry.1)

/-- A lock that can be given is given at some time, and a party that can go on does so at
some time, unless it comes to be otherwise before. -/
structure FairSchedule {cfg : Config C} {s : LockedNode} (ρ : Schedule (LockedNode.step cfg) s) :
    Prop where
  grants : ∀ lock k, ∃ k' ≥ k,
    ρ.move k' = .grant lock ∨ ((ρ.state k').locks lock).grant? = none
  moves : ∀ party k, ∃ k' ≥ k,
    (ρ.move k').mover (ρ.state k') = some party ∨ ¬ CanGoOn (ρ.state k') party

namespace LockProgressLemmas

variable {cfg : Config C} {s s' : LockedNode} {move : Move} {party : Party} {n : Nat}

/-- A lookup only reads. -/
theorem read_of_needs {id : Nat} {mode : Mode}
    (h : (Lock.pending, mode) ∈ s.needs cfg (.lookup id)) : mode = .read := by
  dsimp only [LockedNode.needs] at h
  split at h
  · cases h
  · rcases List.mem_cons.mp h with he | h
    · cases he
      rfl
    · split at h
      · cases h
      · cases List.mem_singleton.mp h

/-- Only lookups wait for something while they hold the pending proposals. -/
theorem lookup_of_holds (hstage : Stage (s.needs cfg party) s.locks party n) {mode : Mode}
    (hholds : (party, mode) ∈ (s.locks .pending).holders) {lock : Lock}
    (hwaits : (s.locks lock).Waits party) : party.isLookup := by
  have hheld := (hstage.holds .pending mode).mp hholds
  have hnext : ∃ mode', (s.needs cfg party)[n]? = some (lock, mode') := by
    obtain ⟨⟨_, mode'⟩, hqueued, rfl⟩ := List.mem_map.mp hwaits
    exact ⟨mode', hstage.waits lock mode' hqueued⟩
  obtain ⟨mode', hnext⟩ := hnext
  cases party with
  | driver => cases List.mem_singleton.mp (List.mem_of_mem_take hheld)
  | task id =>
    -- a task takes them last
    have hlt : Lock.pending.rank < lock.rank := rel_next (task_ordered cfg s id) hheld hnext
    cases lock <;> exact absurd hlt (by decide)
  | lookup id => rfl

/-! ### What a move does to a party -/

theorem lockStep_of_step (h : s.step cfg move = some s') : LockStep s.locks s'.locks := by
  have hlocks := locking_of_step h
  generalize s'.locks = locks at hlocks ⊢
  cases hlocks with
  | none => exact .none
  | request => exact .request _ _ _
  | grant hgrant => exact .grant hgrant
  | release => exact .release _

/-- The party has nothing any more; a lookup has been answered. -/
structure GivesUp (party : Party) (move : Move) (s' : LockedNode) : Prop where
  holds : ∀ lock, ¬ (s'.locks lock).Holds party
  answered : ∀ id, party = .lookup id → move = .answer id

theorem givesUp_release {locks : Lock → RwLock Party}
    (hlocks : s'.locks = fun lock => (locks lock).release party)
    (hanswered : ∀ id, party = .lookup id → move = .answer id) : GivesUp party move s' := by
  refine ⟨fun lock hholds => ?_, hanswered⟩
  rw [hlocks] at hholds
  exact (holds_release.mp hholds).2 rfl

/-- Lookups do not act. -/
theorem actor_not_lookup {a : Action} (h : s.actor? a = some party) (id : Nat) :
    party ≠ .lookup id := by
  rintro rfl
  cases a with
  | deliver | submit | tick | advance => cases h
  | run k | cancel k =>
    obtain ⟨_, -, he⟩ := Option.map_eq_some_iff.mp h
    cases he

/-- A party that others move past keeps what it has, and its place in a queue until it
gets the lock. -/
theorem kept_or_givesUp (h : s.step cfg move = some s') (party : Party) :
    (∀ lock, ((s.locks lock).Holds party → (s'.locks lock).Holds party) ∧
      ((s.locks lock).Waits party → (s'.locks lock).Waits party ∨ (s'.locks lock).Holds party)) ∨
    GivesUp party move s' := by
  cases moves_of_step h with
  | lookup | input => exact .inl fun lock => ⟨id, .inl⟩
  | @request _ _ lock' =>
    refine .inl fun lock => ?_
    dsimp only
    rw [Function.update_apply]
    split
    · next he =>
      subst he
      exact ⟨id, fun hwaits => .inl (waits_request.mpr (.inl hwaits))⟩
    · exact ⟨id, .inl⟩
  | @grant lock' granted hgrant =>
    refine .inl fun lock => ?_
    dsimp only
    rw [Function.update_apply]
    split
    · next he =>
      subst he
      obtain ⟨t, mode, rest, hqueue, rfl, -⟩ := grant?_eq_some hgrant
      refine ⟨List.mem_cons_of_mem _, fun hwaits => ?_⟩
      rw [RwLock.Waits, hqueue] at hwaits
      rcases List.mem_cons.mp hwaits with rfl | hwaits
      · exact .inr List.mem_cons_self
      · exact .inl hwaits
    · exact ⟨id, .inl⟩
  | @answer id =>
    by_cases hparty : party = .lookup id
    · subst hparty
      exact .inr (givesUp_release rfl fun id' he => by cases he; rfl)
    · exact .inl fun lock => ⟨fun hholds => holds_release.mpr ⟨hholds, hparty⟩,
        fun hwaits => .inl (waits_release.mpr ⟨hwaits, hparty⟩)⟩
  | @act a node actor _ _ hactor =>
    by_cases hparty : party = actor
    · subst hparty
      exact .inr (givesUp_release rfl fun id he => (actor_not_lookup hactor id he).elim)
    · exact .inl fun lock => ⟨fun hholds => holds_release.mpr ⟨hholds, hparty⟩,
        fun hwaits => .inl (waits_release.mpr ⟨hwaits, hparty⟩)⟩

/-- A party that moves asks for a lock or gives back what it has. -/
theorem waits_or_givesUp_of_mover (h : s.step cfg move = some s')
    (hmover : move.mover s = some party) :
    (∃ lock, (s'.locks lock).Waits party) ∨ GivesUp party move s' := by
  cases moves_of_step h with
  | lookup | grant => cases hmover
  | input _ _ hactor =>
    rw [Move.mover, hactor] at hmover
    cases hmover
  | @request _ _ lock =>
    cases hmover
    refine .inl ⟨lock, ?_⟩
    dsimp only
    rw [Function.update_self]
    exact waits_request.mpr (.inr rfl)
  | answer =>
    cases hmover
    exact .inr (givesUp_release rfl fun id' he => by cases he; rfl)
  | act _ _ hactor =>
    cases hactor.symm.trans hmover
    exact .inr (givesUp_release rfl fun id he => (actor_not_lookup hactor id he).elim)

/-- A lookup is there until it is answered. -/
theorem answered_or_open (h : s.step cfg move = some s') {id : Nat} {batchHash : Bytes}
    (hopen : (id, batchHash) ∈ s.lookups) :
    (move = .answer id ∧ CanAnswer cfg s id batchHash) ∨
      (move ≠ .answer id ∧ (id, batchHash) ∈ s'.lookups) := by
  cases moves_of_step h with
  | request | grant | input | act => exact .inr ⟨nofun, hopen⟩
  | lookup => exact .inr ⟨nofun, List.mem_append_left _ hopen⟩
  | @answer id' hjust =>
    by_cases hid : id' = id
    · subst hid
      exact .inl ⟨rfl, hopen, hjust⟩
    · refine .inr ⟨fun he => hid (Move.answer.inj he), ?_⟩
      exact List.mem_filter.mpr ⟨hopen, decide_eq_true (Ne.symm hid)⟩

/-- Nobody waits for what it holds. -/
theorem not_waits_of_holds (h : Orderly (s.needs cfg) s.locks) {lock : Lock}
    (hholds : (s.locks lock).Holds party) : ¬ (s.locks lock).Waits party := by
  intro hwaits
  have honce := h.once lock
  rw [RwLock.entries, List.map_append, List.map_reverse] at honce
  exact (List.nodup_append.mp honce).2.2 party (List.mem_reverse.mpr hholds) party hwaits rfl

/-- A lookup waits for the core only when it has the pending proposals. -/
theorem pending_of_waits (h : Orderly (s.needs cfg) s.locks) {id : Nat} {lock : Lock}
    (hwaits : (s.locks lock).Waits (.lookup id)) :
    (s.locks .pending).Waits (.lookup id) ∨ (s.locks .pending).Holds (.lookup id) := by
  cases lock with
  | pending => exact .inl hwaits
  | core =>
    obtain ⟨n, hstage⟩ := h.stage (.lookup id)
    obtain ⟨⟨_, mode⟩, hqueued, he⟩ := List.mem_map.mp hwaits
    cases he
    have hnext := hstage.waits .core mode hqueued
    refine .inr (List.mem_map_of_mem ((hstage.holds .pending .read).mpr ?_))
    dsimp only [LockedNode.needs] at hnext ⊢
    split at hnext
    · cases hnext
    · cases n with
      | zero => cases hnext
      | succ n => exact List.mem_cons_self

/-- While it is calm and a lookup holds the pending proposals, there is no writer. -/
theorem read_of_lookup (h : Orderly (s.needs cfg) s.locks)
    (hexclusive : (s.locks .pending).Exclusive) (hcalm : Calm s.locks) {id : Nat}
    (hholds : (s.locks .pending).Holds (.lookup id)) {entry : Party × Mode}
    (hentry : entry ∈ (s.locks .pending).entries) : entry.2 = .read := by
  obtain ⟨⟨_, mode⟩, hholder, he⟩ := List.mem_map.mp hholds
  cases he
  obtain ⟨n, hstage⟩ := h.stage (.lookup id)
  obtain rfl := read_of_needs (List.mem_of_mem_take ((hstage.holds .pending mode).mp hholder))
  rcases RwLock.mem_entries.mp hentry with hother | hqueued
  · obtain ⟨other, mode'⟩ := entry
    by_cases hsame : Party.lookup id = other
    · -- one entry for each party
      subst hsame
      have honce := h.once .pending
      have heq := List.inj_on_of_nodup_map honce hentry
        (RwLock.mem_entries.mpr (.inl hholder)) rfl
      exact congrArg Prod.snd heq
    · have hboth := hexclusive _ hholder _ hother hsame
      cases mode' with
      | read => rfl
      | write => cases hboth
  · exact (List.pairwise_append.mp hcalm).2.2 _ (List.mem_reverse.mpr hholder) entry hqueued rfl

end LockProgressLemmas

/-! ### Whole runs -/

section

variable {cfg : Config C} {s : LockedNode} {ρ : Schedule (LockedNode.step cfg) s}
  {party : Party} {lock lock' : Lock} {k : ℕ}

/-- From a time on the party holds the lock. -/
def Keeps (ρ : Schedule (LockedNode.step cfg) s) (party : Party) (lock : Lock) (k : ℕ) : Prop :=
  ∀ j ≥ k, ((ρ.state j).locks lock).Holds party

/-- From a time on the party never gives back what it has. -/
def Stays (ρ : Schedule (LockedNode.step cfg) s) (party : Party) (k : ℕ) : Prop :=
  ∀ j ≥ k, ¬ GivesUp party (ρ.move j) (ρ.state (j + 1))

theorem Keeps.stays (h : Keeps ρ party lock k) : Stays ρ party k :=
  fun j hj hgone => hgone.holds lock (h (j + 1) (hj.trans (Nat.le_succ j)))

namespace Stays

theorem mono (h : Stays ρ party k) {j : ℕ} (hj : k ≤ j) : Stays ρ party j :=
  fun i hi => h i (hj.trans hi)

theorem keeps (h : Stays ρ party k) (hholds : ((ρ.state k).locks lock).Holds party) :
    Keeps ρ party lock k := by
  intro j hj
  induction j, hj using Nat.le_induction with
  | base => exact hholds
  | succ j hj ih =>
    exact ((kept_or_givesUp (ρ.next j) party).resolve_right (h j hj) lock).1 ih

/-- A party in a queue gets the lock, or waits for ever. -/
theorem gets (h : Stays ρ party k) (hwaits : ((ρ.state k).locks lock).Waits party) :
    (∃ j ≥ k, ((ρ.state j).locks lock).Holds party) ∨
      ∀ j ≥ k, ((ρ.state j).locks lock).Waits party := by
  by_cases hgets : ∃ j ≥ k, ((ρ.state j).locks lock).Holds party
  · exact .inl hgets
  · refine .inr fun j hj => ?_
    induction j, hj using Nat.le_induction with
    | base => exact hwaits
    | succ j hj ih =>
      refine (((kept_or_givesUp (ρ.next j) party).resolve_right (h j hj) lock).2 ih).resolve_right
        fun hholds => hgets ⟨j + 1, hj.trans (Nat.le_succ j), hholds⟩

/-- A party in the middle of something asks for a lock at some time. -/
theorem waits (h : Stays ρ party k) (hfair : FairSchedule ρ)
    (hbusy : ∀ j ≥ k, (∃ lock, ((ρ.state j).locks lock).Holds party) ∨
      ∃ entry ∈ (ρ.state j).lookups, party = .lookup entry.1) :
    ∃ j ≥ k, ∃ lock, ((ρ.state j).locks lock).Waits party := by
  obtain ⟨j, hj, hmover | hrests⟩ := hfair.moves party k
  · have hwaits := (waits_or_givesUp_of_mover (ρ.next j) hmover).resolve_right (h j hj)
    exact ⟨j + 1, hj.trans (Nat.le_succ j), hwaits⟩
  · by_contra hnever
    exact hrests ⟨fun lock hwaits => hnever ⟨j, hj, lock, hwaits⟩, hbusy j hj⟩

end Stays

theorem Keeps.waits (h : Keeps ρ party lock k) (hfair : FairSchedule ρ) :
    ∃ j ≥ k, ∃ lock', ((ρ.state j).locks lock').Waits party :=
  h.stays.waits hfair fun j hj => .inl ⟨lock, h j hj⟩

section

variable (horderly : ∀ j, Orderly ((ρ.state j).needs cfg) (ρ.state j).locks)
  (hfair : FairSchedule ρ)

include horderly hfair

/-- A party that waits for a lock for ever waits for somebody who keeps it. -/
theorem blocked_of_waits (hwaits : ∀ j ≥ k, ((ρ.state j).locks lock).Waits party) :
    ∃ K ≥ k, ∃ head ∈ ((ρ.state K).locks lock).queue,
      ∃ holder ∈ ((ρ.state K).locks lock).holders,
        head.2.compatible holder.2 = false ∧ Keeps ρ holder.1 lock K := by
  have hstep : ∀ j, LockStep (ρ.state j).locks (ρ.state (j + 1)).locks :=
    fun j => lockStep_of_step (ρ.next j)
  refine waits_forever hstep (fun j => ?_) (fun j => ?_) hwaits
  · have honce := (horderly j).once lock
    rw [RwLock.entries, List.map_append] at honce
    exact (List.nodup_append.mp honce).2.1
  · obtain ⟨j', hj', hgrant | hnone⟩ := hfair.grants lock j
    · refine ⟨j', hj', .inl ?_⟩
      have hmoves := moves_of_step (ρ.next j')
      rw [hgrant] at hmoves
      generalize hnext : ρ.state (j' + 1) = s' at hmoves
      cases hmoves with
      | grant hgranted =>
        dsimp only
        rw [hgranted, Function.update_self]
    · exact ⟨j', hj', .inr hnone⟩

/-- Nobody keeps both locks: it would have all that it can ask for. -/
theorem not_keeps_both (hcore : Keeps ρ party .core k) (hpending : Keeps ρ party .pending k) :
    False := by
  obtain ⟨j, hj, lock, hwaits⟩ := hcore.waits hfair
  cases lock with
  | core => exact not_waits_of_holds (horderly j) (hcore j hj) hwaits
  | pending => exact not_waits_of_holds (horderly j) (hpending j hj) hwaits

variable (hexclusive : ∀ j, ((ρ.state j).locks .pending).Exclusive)
  (hcalm : ∀ j, Calm (ρ.state j).locks) {id : Nat}

include hexclusive hcalm

/-- Nobody waits for ever for the pending proposals while a lookup has them. -/
theorem pending_of_keeps (hkeeps : Keeps ρ (.lookup id) .pending k) {j : ℕ} (hj : k ≤ j)
    (hstays : Stays ρ party j) (hwaits : ((ρ.state j).locks .pending).Waits party) :
    ∃ i ≥ j, ((ρ.state i).locks .pending).Holds party := by
  refine (hstays.gets hwaits).resolve_right fun hforever => ?_
  obtain ⟨K, hK, head, hhead, holder, hholder, hnot, -⟩ :=
    blocked_of_waits horderly hfair hforever
  have hread {entry : Party × Mode} (hentry : entry ∈ ((ρ.state K).locks .pending).entries) :=
    read_of_lookup (horderly K) (hexclusive K) (hcalm K) (hkeeps K (hj.trans hK)) hentry
  rw [hread (RwLock.mem_entries.mpr (.inr hhead)), hread (RwLock.mem_entries.mpr (.inl hholder))]
    at hnot
  cases hnot

/-- A lookup that asks for the pending proposals gets them: whoever keeps them would be
another lookup, and readers do not stand in each other's way. -/
theorem lookup_gets_pending (hstays : Stays ρ (.lookup id) k)
    (hwaits : ((ρ.state k).locks .pending).Waits (.lookup id)) :
    ∃ j ≥ k, ((ρ.state j).locks .pending).Holds (.lookup id) := by
  by_contra hnever
  have hforever := (hstays.gets hwaits).resolve_left hnever
  obtain ⟨K, hK, head, hhead, ⟨holder, mode⟩, hholder, hnot, hkeeps⟩ :=
    blocked_of_waits horderly hfair hforever
  obtain ⟨j, hj, lock, hwaits'⟩ := hkeeps.waits hfair
  obtain ⟨n, hstage⟩ := (horderly j).stage holder
  obtain ⟨⟨_, mode'⟩, hholder', he⟩ := List.mem_map.mp (hkeeps j hj)
  cases he
  have hlookup := lookup_of_holds hstage hholder' hwaits'
  obtain ⟨id', hid'⟩ : ∃ id', holder = .lookup id' := by
    cases holder with
    | lookup id' => exact ⟨id', rfl⟩
    | driver | task => cases hlookup
  subst hid'
  obtain ⟨i, hi, hholds⟩ := pending_of_keeps horderly hfair hexclusive hcalm hkeeps le_rfl
    (hstays.mono hK) (hforever K hK)
  exact hnever ⟨i, hK.trans hi, hholds⟩

/-- Nor does it wait for ever for the core: whoever keeps that one waits for the pending
proposals, and gets them. -/
theorem lookup_gets_core (hkeeps : Keeps ρ (.lookup id) .pending k)
    (hwaits : ((ρ.state k).locks .core).Waits (.lookup id)) :
    ∃ j ≥ k, ((ρ.state j).locks .core).Holds (.lookup id) := by
  refine (hkeeps.stays.gets hwaits).resolve_right fun hforever => ?_
  obtain ⟨K, hK, head, hhead, ⟨holder, mode⟩, hholder, hnot, hcore⟩ :=
    blocked_of_waits horderly hfair hforever
  obtain ⟨j, hj, lock, hwaits'⟩ := hcore.waits hfair
  cases lock with
  | core => exact not_waits_of_holds (horderly j) (hcore j hj) hwaits'
  | pending =>
    obtain ⟨i, hi, hholds⟩ := pending_of_keeps horderly hfair hexclusive hcalm hkeeps
      (hK.trans hj) (hcore.stays.mono hj) hwaits'
    have hcore' : Keeps ρ holder .core i := fun m hm => hcore m (hj.trans (hi.trans hm))
    exact not_keeps_both horderly hfair hcore' (hcore'.stays.keeps hholds)

end

/-- A lookup is answered in every fair run that stays calm until then. -/
theorem answered_of_fair (hreach : ReachesLocked cfg (fun _ _ => True) s) (hfair : FairSchedule ρ)
    {id : Nat} {batchHash : Bytes} (hopen : (id, batchHash) ∈ s.lookups)
    (hcalm : ∀ k, (id, batchHash) ∈ (ρ.state k).lookups → Calm (ρ.state k).locks) :
    ∃ k, ρ.move k = .answer id ∧ CanAnswer cfg (ρ.state k) id batchHash := by
  by_contra hnever
  have hreach (k : ℕ) := hreach.trans (ρ.run k)
  have hunanswered {k : ℕ} (hopen : (id, batchHash) ∈ (ρ.state k).lookups) :=
    (answered_or_open (ρ.next k) hopen).resolve_left fun hanswered => hnever ⟨k, hanswered⟩
  have hopen : ∀ k, (id, batchHash) ∈ (ρ.state k).lookups := by
    intro k
    induction k with
    | zero => rwa [ρ.start]
    | succ k ih => exact (hunanswered ih).2
  have horderly (k : ℕ) := (hreach k).orderly
  have hexclusive (k : ℕ) := (hreach k).exclusive .pending
  have hcalm (k : ℕ) := hcalm k (hopen k)
  have hstays : Stays ρ (.lookup id) 0 :=
    fun k _ hgone => (hunanswered (hopen k)).1 (hgone.answered id rfl)
  have hwaits (k : ℕ) := (hstays.mono (Nat.zero_le k)).waits hfair fun j _ =>
    .inr ⟨_, hopen j, rfl⟩
  -- it gets the pending proposals, then the core, and then it has both
  obtain ⟨k, -, lock, hfirst⟩ := hwaits 0
  obtain ⟨k, hpending⟩ : ∃ k, Keeps ρ (.lookup id) .pending k := by
    rcases pending_of_waits (horderly k) hfirst with hasked | hholds
    · obtain ⟨j, -, hholds⟩ := lookup_gets_pending horderly hfair hexclusive hcalm
        (hstays.mono (Nat.zero_le k)) hasked
      exact ⟨j, (hstays.mono (Nat.zero_le j)).keeps hholds⟩
    · exact ⟨k, (hstays.mono (Nat.zero_le k)).keeps hholds⟩
  obtain ⟨j, hj, lock, hsecond⟩ := hwaits k
  cases lock with
  | pending => exact not_waits_of_holds (horderly j) (hpending j hj) hsecond
  | core =>
    have hpending' : Keeps ρ (.lookup id) .pending j := fun i hi => hpending i (hj.trans hi)
    obtain ⟨i, hi, hcore⟩ := lookup_gets_core horderly hfair hexclusive hcalm hpending' hsecond
    exact not_keeps_both horderly hfair ((hstays.mono (Nat.zero_le i)).keeps hcore)
      fun m hm => hpending' m (hi.trans hm)

end

end EviceChain.Sequencer
