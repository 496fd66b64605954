import EviceChain.Sequencer.LockProgress

/-!
# Lookups of stored batches

A peer that asks for a batch (`GetFullProposal`) is answered from the pending proposals
and, if the batch is not there, from the confirmed ones; the lookup keeps the first
lock while it waits for the second. From the moment it is stored, a batch is in one
of the two for as long as fewer than 256 later ones are confirmed, so a lookup that
is answered finds it (`getFullProposal_of_stored`).

But a lookup need not be answered. With a writer of `pending_proposals` behind it, one
that misses there can wait for ever (`stored_lookup_deadlocks`). In a run in which no
writer comes to wait behind a lookup, it is answered, with the batch (`lookup_returns`).
-/

namespace EviceChain.Sequencer

open Foundation LocksLemmas LockProgressLemmas

variable {C : Crypto}

/-- The batch that a lookup returns once it has its locks. -/
def getFullProposal (C : Crypto) (node : Node) (batchHash : Bytes) : Option PendingBatch :=
  match node.pendingProposals batchHash with
  | some pending => some pending
  | none =>
    (node.core.optimisticallyConfirmedBatches.find? (·.hash C = batchHash)).map (·.toPending)

/-- The state comes after the start of a lookup for a hash that was pending before. -/
def AfterLookup (cfg : Config C) (batchHash : Bytes) (id : Nat) (s : LockedNode) : Prop :=
  ∃ stored started, ReachesLocked cfg (fun _ _ => True) stored ∧
    (stored.node.pendingProposals batchHash).isSome ∧ LockedRun cfg stored started ∧
    started.spawned = id ∧
    ∃ looking, started.step cfg (.lookup batchHash) = some looking ∧ LockedRun cfg looking s

theorem AfterLookup.reaches {cfg : Config C} {batchHash : Bytes} {id : Nat} {s : LockedNode}
    (h : AfterLookup cfg batchHash id s) : ReachesLocked cfg (fun _ _ => True) s := by
  obtain ⟨stored, started, hreach, -, hbefore, -, looking, hlookup, hrun⟩ := h
  exact hreach.trans ((hbefore.tail trivial hlookup).trans hrun)

namespace AvailabilityLemmas

variable {cfg : Config C} {s t : LockedNode} {node : Node} {batchHash : Bytes} {id : Nat}

/-- Without its locks, a run with locks is a run of the node. -/
theorem nodeRun_of_lockedRun (h : LockedRun cfg s t) :
    NodeRun cfg (fun _ _ => True) s.node t.node := by
  refine h.invariant (I := fun t => NodeRun cfg (fun _ _ => True) s.node t.node) .refl
    fun _ _ hstep ih => ?_
  rcases node_of_step hstep with ⟨hsame, -⟩ | ⟨a, -, -, hact⟩
  · rwa [hsame]
  · exact ih.tail trivial hact

theorem nodeRun_of_reachesLocked (h : ReachesLocked cfg (fun _ _ => True) s) :
    NodeRun cfg (fun _ _ => True) (Node.new genesisQc) s.node := by
  induction h with
  | init => exact .refl
  | step _ _ hstep ih => exact ih.trans (nodeRun_of_lockedRun (Run.refl.tail trivial hstep))

end AvailabilityLemmas

open AvailabilityLemmas

/-- A batch that has been stored is found in every later state, until 256 others
have been confirmed after it. -/
theorem getFullProposal_of_stored {cfg : Config C} {node node' : Node} {batchHash : Bytes}
    (hreach : NodeRun cfg (fun _ _ => True) (Node.new genesisQc) node)
    (hstored : (node.pendingProposals batchHash).isSome)
    (hrun : NodeRun cfg (fun _ _ => True) node node')
    (hwindow : (confirmedAfter C node' batchHash).length < 256) :
    ∃ batch, getFullProposal C node' batchHash = some batch ∧
      batch.toPayload.hash C = batchHash := by
  have hreach' := hreach.trans hrun
  unfold getFullProposal
  cases hpending : node'.pendingProposals batchHash with
  | some batch =>
    exact ⟨batch, rfl, ((dataOk_of_run hreach').pending batchHash batch hpending).2⟩
  | none =>
    have hprocessed : batchHash ∈ node'.core.processedOptimisticBatches := by
      rcases stored_or_processed hreach hrun hstored with hsome | hprocessed
      · rw [hpending] at hsome
        cases hsome
      · exact hprocessed
    obtain ⟨batch, hmem, hhash⟩ :=
      (pushedOnce_of_run hreach').kept_of_processed hprocessed hwindow
    have hfind : (node'.core.optimisticallyConfirmedBatches.find?
        (·.hash C = batchHash)).isSome :=
      List.find?_isSome.mpr ⟨batch, hmem, decide_eq_true hhash⟩
    obtain ⟨found, hfound⟩ := Option.isSome_iff_exists.mp hfind
    refine ⟨found.toPending, ?_, of_decide_eq_true (List.find?_some hfound :)⟩
    rw [hfound]
    rfl

/-- The lookup would return a batch with the hash that was asked for, unless 256 others
have been confirmed after it. -/
def Finds (C : Crypto) (node : Node) (batchHash : Bytes) : Prop :=
  (confirmedAfter C node batchHash).length < 256 →
    ∃ batch, getFullProposal C node batchHash = some batch ∧ batch.toPayload.hash C = batchHash

/-- A lookup of a batch that was stored before is answered in every fair run in which, until
then, no writer waits behind a lookup, and it returns the batch. In no run is there a
moment at which it would miss it. -/
theorem lookup_returns {cfg : Config C} {s : LockedNode} {batchHash : Bytes} {id : Nat}
    (hafter : AfterLookup cfg batchHash id s) (hopen : (id, batchHash) ∈ s.lookups) :
    (∀ ρ : Schedule (LockedNode.step cfg) s, FairSchedule ρ →
      (∀ k, (id, batchHash) ∈ (ρ.state k).lookups → Calm (ρ.state k).locks) →
      ∃ k, ρ.move k = .answer id ∧ CanAnswer cfg (ρ.state k) id batchHash ∧
        Finds C (ρ.state k).node batchHash) ∧
    ∀ t, LockedRun cfg s t → Finds C t.node batchHash := by
  have hfinds : ∀ t, LockedRun cfg s t → Finds C t.node batchHash := by
    intro t ht hwindow
    obtain ⟨stored, started, hreach, hstored, hbefore, -, looking, hlookup, hrun⟩ := hafter
    have hlater : LockedRun cfg stored s := (hbefore.tail trivial hlookup).trans hrun
    exact getFullProposal_of_stored (nodeRun_of_reachesLocked hreach) hstored
      (nodeRun_of_lockedRun (hlater.trans ht)) hwindow
  refine ⟨fun ρ hfair hcalm => ?_, hfinds⟩
  obtain ⟨k, hanswer, hcan⟩ := answered_of_fair hafter.reaches hfair hopen hcalm
  exact ⟨k, hanswer, hcan, hfinds _ (ρ.run k)⟩

/-! ## A lookup that is never answered -/

/-- Moves that store a batch, start a lookup for it and go on from there. -/
theorem exists_afterLookup {cfg : Config C} {batchHash : Bytes} {id : Nat}
    {P : LockedNode → Prop} [DecidablePred P] (first second third : List Move)
    (h : ((play (LockedNode.step cfg) (fun _ _ => True) (.new genesisQc) first).any fun stored =>
      (stored.node.pendingProposals batchHash).isSome &&
        (play (LockedNode.step cfg) (fun _ _ => True) stored second).any fun started =>
          started.spawned = id && (started.step cfg (.lookup batchHash)).any fun looking =>
            (play (LockedNode.step cfg) (fun _ _ => True) looking third).any fun s =>
              P s) = true) :
    ∃ s, AfterLookup cfg batchHash id s ∧ P s := by
  obtain ⟨stored, hfirst, h⟩ := (Option.any_eq_true _ _).mp h
  obtain ⟨hstored, h⟩ := Bool.and_eq_true_iff.mp h
  obtain ⟨started, hsecond, h⟩ := (Option.any_eq_true _ _).mp h
  obtain ⟨hid, h⟩ := Bool.and_eq_true_iff.mp h
  obtain ⟨looking, hlookup, h⟩ := (Option.any_eq_true _ _).mp h
  obtain ⟨s, hthird, hP⟩ := (Option.any_eq_true _ _).mp h
  exact ⟨s, ⟨stored, started, ReachesLocked.init.trans (run_of_play first hfirst), hstored,
    run_of_play second hsecond, of_decide_eq_true hid, looking, hlookup,
    run_of_play third hthird⟩, of_decide_eq_true hP⟩

def takeLock (party : Party) (n : Nat) (lock : Lock) : List Move :=
  [.request party n, .grant lock]

/-- Batches of the only validator, signed at different times. -/
def soloBatch (n : UInt64) : PayloadBatch :=
  newBatch (soloNetwork.config false) (.new genesisQc) n genesisQc [] n

/-- A handler (the `k`-th task) receives a proposal and is about to insert it. -/
def receives (k : Nat) (batch : PayloadBatch) : List Move :=
  [.act (.deliver (.intentBatchProposal batch) 0), .act (.run k 0), .act (.run k 0)]

/-- It inserts the proposal. -/
def inserts (k id : Nat) : List Move := takeLock (.task id) 0 .pending ++ [.act (.run k 0)]

/-- It votes for it. -/
def votes (k id : Nat) : List Move :=
  takeLock (.task id) 0 .core ++ [.act (.run k 0), .act (.run k 0)]

/-- The proposal is confirmed and pruned. -/
def confirms (k id : Nat) : List Move :=
  List.flatten [takeLock (.task id) 0 .core, takeLock (.task id) 1 .pending, [.act (.run k 0)],
    takeLock (.task id) 0 .core, [.act (.run k 0)], takeLock (.task id) 0 .pending,
    [.act (.run k 0)]]

/-- Nobody holds a lock or waits for one, and no lookup is under way. -/
def AtRest (s : LockedNode) : Prop :=
  s.lookups = [] ∧ ∀ lock ∈ [Lock.core, .pending], (s.locks lock).entries = []

instance : DecidablePred AtRest := fun s =>
  inferInstanceAs (Decidable (s.lookups = [] ∧ ∀ lock ∈ [Lock.core, .pending],
    (s.locks lock).entries = []))

/-- Moves after which only payloads arrive make a fair run. -/
theorem exists_fair {cfg : Config C} {s : LockedNode} (moves : List Move)
    (h : (play (LockedNode.step cfg) (fun s _ => Calm s.locks) s moves).any
      (fun t => decide (AtRest t)) = true) :
    ∃ ρ : Schedule (LockedNode.step cfg) s, FairSchedule ρ ∧ ∀ k, Calm (ρ.state k).locks := by
  have hempty {s : LockedNode} (h : AtRest s) (lock : Lock) : (s.locks lock).entries = [] :=
    h.2 lock (by cases lock <;> decide)
  have hidle : ∀ s, AtRest s →
      ∃ s', s.step cfg (.act (.submit [])) = some s' ∧ AtRest s' :=
    fun s hs => ⟨_, rfl, hs⟩
  obtain ⟨ρ, hcalm, K, hK⟩ := exists_schedule hidle moves h
  refine ⟨ρ, ⟨fun lock k => ⟨max k K, le_max_left _ _, .inr ?_⟩,
    fun party k => ⟨max k K, le_max_left _ _, .inr ?_⟩⟩, fun k => ?_⟩
  · have hqueue := (List.append_eq_nil_iff.mp (hempty (hK _ (le_max_right k K)) lock)).2
    rw [RwLock.grant?, hqueue]
  · rintro ⟨-, ⟨lock, hholds⟩ | ⟨entry, hentry, -⟩⟩
    · have hholders := (List.append_eq_nil_iff.mp (hempty (hK _ (le_max_right k K)) lock)).1
      rw [RwLock.Holds, List.reverse_eq_nil_iff.mp hholders] at hholds
      cases hholds
    · rw [(hK _ (le_max_right k K)).1] at hentry
      cases hentry
  · rcases hcalm k with hcalm | hrest
    · exact hcalm
    · rw [Calm, hempty hrest .pending]
      exact .nil

/-- The batch has been confirmed and pruned, and the lookup has just missed it in the
pending proposals. It goes on to the core and is answered. -/
theorem lookup_returns_pruned :
    ∃ s, AfterLookup (soloNetwork.config false) ((soloBatch 1).hash toyCrypto) 9 s ∧
      s.node.pendingProposals ((soloBatch 1).hash toyCrypto) = none ∧
      ∃ ρ : Schedule (LockedNode.step (soloNetwork.config false)) s, FairSchedule ρ ∧
        ∃ k, ρ.move k = .answer 9 ∧
          Finds toyCrypto (ρ.state k).node ((soloBatch 1).hash toyCrypto) := by
  have hplay : ∃ s, AfterLookup (soloNetwork.config false) ((soloBatch 1).hash toyCrypto) 9 s ∧
      s.node.pendingProposals ((soloBatch 1).hash toyCrypto) = none ∧
      (9, (soloBatch 1).hash toyCrypto) ∈ s.lookups ∧
      (play (LockedNode.step (soloNetwork.config false)) (fun s _ => Calm s.locks) s
        (takeLock (.lookup 9) 1 .core ++ [.answer 9])).any (fun t => decide (AtRest t)) = true :=
    exists_afterLookup (receives 0 (soloBatch 1) ++ inserts 0 0) (votes 0 0 ++ confirms 0 0)
      (takeLock (.lookup 9) 0 .pending) (by decide +kernel)
  obtain ⟨s, hafter, hmiss, hopen, hrest⟩ := hplay
  obtain ⟨ρ, hfair, hcalm⟩ := exists_fair _ hrest
  obtain ⟨k, hanswer, -, hfinds⟩ := (lookup_returns hafter hopen).1 ρ hfair fun k _ => hcalm k
  exact ⟨s, hafter, hmiss, ρ, hfair, k, hanswer, hfinds⟩

/-- The batch has been confirmed and pruned. The lookup holds the pending proposals and
waits for the core, which a second handler holds. That one waits for the pending
proposals behind a third, which waits for the lookup. -/
theorem stored_lookup_deadlocks :
    ∃ s, AfterLookup (soloNetwork.config false) ((soloBatch 1).hash toyCrypto) 18 s ∧
      (18, (soloBatch 1).hash toyCrypto) ∈ s.lookups ∧
      confirmedAfter toyCrypto s.node ((soloBatch 1).hash toyCrypto) = [] ∧
      ∀ t, LockedRun (soloNetwork.config false) s t →
        ¬ CanAnswer (soloNetwork.config false) t 18 ((soloBatch 1).hash toyCrypto) := by
  have hplay : ∃ s, AfterLookup (soloNetwork.config false) ((soloBatch 1).hash toyCrypto) 18 s ∧
      (18, (soloBatch 1).hash toyCrypto) ∈ s.lookups ∧
      confirmedAfter toyCrypto s.node ((soloBatch 1).hash toyCrypto) = [] ∧
      (s.taskIds = [9, 15] ∧ s.node.tasks.map Prod.fst = [.handler, .handler]) ∧
      (s.locks .pending).blockers (.task 9) = [.task 15] ∧
      (s.locks .pending).blockers (.task 15) = [.lookup 18] ∧
      (s.locks .core).blockers (.lookup 18) = [.task 9] :=
    exists_afterLookup (receives 0 (soloBatch 1) ++ inserts 0 0)
      (List.flatten [votes 0 0, confirms 0 0, receives 0 (soloBatch 2), inserts 0 9, votes 0 9,
        receives 1 (soloBatch 3)])
      (List.flatten [takeLock (.lookup 18) 0 .pending, [.request (.task 15) 0],
        takeLock (.task 9) 0 .core, [.request (.task 9) 1, .request (.lookup 18) 1]])
      (by decide +kernel)
  obtain ⟨s, hafter, hopen, hnone, ⟨hids, hkinds⟩, hsecond, hthird, hlookup⟩ := hplay
  refine ⟨s, hafter, hopen, hnone, fun t hrun => ?_⟩
  have hdead : Deadlocked s.locks {.task 9, .task 15, .lookup 18} := by
    refine .of_one ⟨.task 9, .inl rfl⟩ fun party hparty => ?_
    rcases hparty with rfl | rfl | rfl
    · exact ⟨.pending, .task 15, .inr (.inl rfl), hsecond⟩
    · exact ⟨.pending, .lookup 18, .inr (.inr rfl), hthird⟩
    · exact ⟨.core, .task 9, .inl rfl, hlookup⟩
  have hhandlers : ∀ id, .task id ∈ ({.task 9, .task 15, .lookup 18} : Set Party) →
      IsHandler s id := by
    rintro id (hid | hid | hid) <;> cases hid
    · exact isHandler_of_kind (j := 0) (by rw [hids]; rfl) (by rw [hkinds]; rfl)
    · exact isHandler_of_kind (j := 1) (by rw [hids]; rfl) (by rw [hkinds]; rfl)
  exact hafter.reaches.never_answered hdead hhandlers (.inr (.inr rfl)) hrun

end EviceChain.Sequencer
