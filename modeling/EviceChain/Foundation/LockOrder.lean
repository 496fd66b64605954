import EviceChain.Foundation.RwLock

/-!
# Parties that take their locks one after the other

A party needs certain locks, in an order of its own. It asks for one after the other
and gives all of them back together. `Orderly` says that the locks are held that way:
each party holds the first few of the locks it needs and waits for the next one, if
for any.

Results:
1. `Orderly.request`, `Orderly.grant`, `Orderly.release`: these moves keep the order;
2. `waits_forever`: where every lock that can be given is given at some time, a party
   that waits for ever does so because some holder of the lock never gives it back.
-/

namespace Foundation

open RwLockLemmas

variable {ℓ τ : Type}

namespace RwLock

/-- The holders in the order in which they got the lock, then the queue. -/
def entries (lock : RwLock τ) : List (τ × Mode) := lock.holders.reverse ++ lock.queue

variable {lock lock' : RwLock τ} {t : τ} {mode : Mode}

theorem mem_entries {entry : τ × Mode} :
    entry ∈ lock.entries ↔ entry ∈ lock.holders ∨ entry ∈ lock.queue := by
  rw [entries, List.mem_append, List.mem_reverse]

theorem entries_request (lock : RwLock τ) (t : τ) (mode : Mode) :
    (lock.request t mode).entries = lock.entries ++ [(t, mode)] :=
  (List.append_assoc _ _ _).symm

theorem entries_grant (h : lock.grant? = some lock') : lock'.entries = lock.entries := by
  obtain ⟨t, mode, rest, hqueue, rfl, -⟩ := grant?_eq_some h
  rw [entries, entries, hqueue, List.reverse_cons, List.append_assoc, List.singleton_append]

theorem entries_release [DecidableEq τ] (lock : RwLock τ) (t : τ) :
    (lock.release t).entries = lock.entries.filter (·.1 ≠ t) := by
  rw [entries, entries, List.filter_append, List.filter_reverse]
  rfl

end RwLock

/-- The party holds the first `n` of the locks it needs, and waits for the next if for
any. -/
structure Stage (needs : List (ℓ × Mode)) (locks : ℓ → RwLock τ) (t : τ) (n : Nat) : Prop where
  holds : ∀ lock mode, (t, mode) ∈ (locks lock).holders ↔ (lock, mode) ∈ needs.take n
  waits : ∀ lock mode, (t, mode) ∈ (locks lock).queue → needs[n]? = some (lock, mode)

namespace Stage

variable {needs needs' : List (ℓ × Mode)} {locks : ℓ → RwLock τ} {t : τ} {n : Nat}

/-- A party that needs nothing holds nothing, and waits for nothing. -/
theorem of_nil (h : Stage [] locks t n) : Stage needs locks t 0 where
  holds lock mode := by
    rw [h.holds, List.take_nil, List.take_zero]
  waits lock mode hmem := by
    cases h.waits lock mode hmem

/-- Before a party holds anything, only the first lock it needs matters. -/
theorem of_head (h : Stage needs locks t 0) (hhead : needs'[0]? = needs[0]?) :
    Stage needs' locks t 0 where
  holds := h.holds
  waits lock mode hmem := hhead.trans (h.waits lock mode hmem)

end Stage

structure Orderly (needs : τ → List (ℓ × Mode)) (locks : ℓ → RwLock τ) : Prop where
  stage : ∀ t, ∃ n, Stage (needs t) locks t n
  once : ∀ lock, ((locks lock).entries.map Prod.fst).Nodup

namespace Orderly

variable {needs needs' : τ → List (ℓ × Mode)} {locks : ℓ → RwLock τ}

/-- A party waits at one place at most. -/
theorem one (h : Orderly needs locks) (t : τ) (lock lock' : ℓ) (hwaits : (locks lock).Waits t)
    (hwaits' : (locks lock').Waits t) : lock = lock' := by
  obtain ⟨n, hstage⟩ := h.stage t
  obtain ⟨⟨_, mode⟩, hmem, rfl⟩ := List.mem_map.mp hwaits
  obtain ⟨⟨u, mode'⟩, hmem', rfl⟩ := List.mem_map.mp hwaits'
  have hsame := (hstage.waits lock mode hmem).symm.trans (hstage.waits lock' mode' hmem')
  cases hsame
  rfl

theorem unlocked (needs : τ → List (ℓ × Mode)) :
    Orderly needs (fun _ => RwLock.unlocked : ℓ → RwLock τ) where
  stage t := ⟨0, (fun _ _ => by simp [RwLock.unlocked]), (fun _ _ h => by cases h)⟩
  once _ := List.nodup_nil

/-- The parties come to need other locks. -/
theorem congr (h : Orderly needs locks)
    (hneeds : ∀ t n, Stage (needs t) locks t n → ∃ n', Stage (needs' t) locks t n') :
    Orderly needs' locks where
  stage t := by
    obtain ⟨n, hstage⟩ := h.stage t
    exact hneeds t n hstage
  once := h.once

theorem request [DecidableEq ℓ] (h : Orderly needs locks) {t : τ} {n : Nat} {lock : ℓ}
    {mode : Mode} (hnext : (needs t)[n]? = some (lock, mode))
    (hnew : ∀ mode', (lock, mode') ∉ (needs t).take n)
    (hholds : ∀ lock mode, (t, mode) ∈ (locks lock).holders ↔ (lock, mode) ∈ (needs t).take n)
    (hwaits : ∀ lock, ¬ (locks lock).Waits t) :
    Orderly needs (Function.update locks lock ((locks lock).request t mode)) where
  stage u := by
    have hsame (lock' : ℓ) :
        (Function.update locks lock ((locks lock).request t mode) lock').holders =
          (locks lock').holders := by
      rw [Function.update_apply]
      split
      · next he =>
        subst he
        rfl
      · rfl
    by_cases hu : u = t
    · subst hu
      refine ⟨n, fun lock' mode' => by rw [hsame]; exact hholds lock' mode',
        fun lock' mode' hmem => ?_⟩
      rw [Function.update_apply] at hmem
      split at hmem
      · next he =>
        subst he
        rcases List.mem_append.mp hmem with hold | hlast
        · exact (hwaits _ (List.mem_map_of_mem hold)).elim
        · cases List.mem_singleton.mp hlast
          exact hnext
      · exact (hwaits _ (List.mem_map_of_mem hmem)).elim
    · obtain ⟨m, hstage⟩ := h.stage u
      refine ⟨m, fun lock' mode' => by rw [hsame]; exact hstage.holds lock' mode',
        fun lock' mode' hmem => hstage.waits lock' mode' ?_⟩
      rw [Function.update_apply] at hmem
      split at hmem
      · next he =>
        subst he
        rcases List.mem_append.mp hmem with hold | hlast
        · exact hold
        · cases List.mem_singleton.mp hlast
          exact (hu rfl).elim
      · exact hmem
  once lock' := by
    rw [Function.update_apply]
    split
    · next he =>
      subst he
      rw [RwLock.entries_request, List.map_append, List.nodup_append_comm, List.map_singleton,
        List.singleton_append, List.nodup_cons]
      refine ⟨fun hmem => ?_, h.once _⟩
      obtain ⟨⟨u, mode'⟩, hentry, rfl⟩ := List.mem_map.mp hmem
      rcases RwLock.mem_entries.mp hentry with hheld | hqueued
      · exact hnew mode' ((hholds _ _).mp hheld)
      · exact hwaits _ (List.mem_map_of_mem hqueued)
    · exact h.once lock'

theorem grant [DecidableEq ℓ] (h : Orderly needs locks) {lock : ℓ} {granted : RwLock τ}
    (hgrant : (locks lock).grant? = some granted) :
    Orderly needs (Function.update locks lock granted) where
  stage u := by
    obtain ⟨t, mode, rest, hqueue, rfl, -⟩ := grant?_eq_some hgrant
    have hholders (lock' : ℓ) (entry : τ × Mode) :
        entry ∈
            (Function.update locks lock ⟨(t, mode) :: (locks lock).holders, rest⟩ lock').holders ↔
          entry ∈ (locks lock').holders ∨ lock' = lock ∧ entry = (t, mode) := by
      rw [Function.update_apply]
      split
      · next he =>
        subst he
        rw [List.mem_cons, or_comm]
        exact or_congr_right (and_iff_right rfl).symm
      · next he => simp [he]
    have hrest {lock' : ℓ} {entry : τ × Mode}
        (hmem : entry ∈
          (Function.update locks lock ⟨(t, mode) :: (locks lock).holders, rest⟩ lock').queue) :
        entry ∈ (locks lock').queue ∧ (lock' = lock → entry ∈ rest) := by
      rw [Function.update_apply] at hmem
      split at hmem
      · next he =>
        subst he
        exact ⟨hqueue ▸ List.mem_cons_of_mem _ hmem, fun _ => hmem⟩
      · next he => exact ⟨hmem, fun he' => (he he').elim⟩
    obtain ⟨n, hstage⟩ := h.stage u
    by_cases hu : u = t
    · subst hu
      have hnext := hstage.waits lock mode (hqueue ▸ List.mem_cons_self)
      refine ⟨n + 1, fun lock' mode' => ?_, fun lock' mode' hmem => ?_⟩
      · rw [hholders, hstage.holds, List.take_add_one, hnext, List.mem_append]
        simp [eq_comm]
      · -- the party has left the only queue that it was in
        obtain ⟨hbefore, hother⟩ := hrest hmem
        have hsame := hstage.waits lock' mode' hbefore
        rw [hnext] at hsame
        cases hsame
        have honce := h.once lock
        rw [RwLock.entries, hqueue, List.map_append] at honce
        have hqueued := (List.nodup_append.mp honce).2.1
        rw [List.map_cons, List.nodup_cons] at hqueued
        exact (hqueued.1 (List.mem_map_of_mem (hother rfl))).elim
    · refine ⟨n, fun lock' mode' => ?_, fun lock' mode' hmem =>
        hstage.waits lock' mode' (hrest hmem).1⟩
      rw [hholders, hstage.holds]
      exact or_iff_left fun hnew => hu (congrArg Prod.fst hnew.2)
  once lock' := by
    rw [Function.update_apply]
    split
    · next he =>
      subst he
      rw [RwLock.entries_grant hgrant]
      exact h.once _
    · exact h.once lock'

/-- A party gives back all it has, and others may come to need other locks. -/
theorem release [DecidableEq τ] (h : Orderly needs locks) (t : τ)
    (hneeds : ∀ u ≠ t, ∀ n, Stage (needs u) locks u n → ∃ n', Stage (needs' u) locks u n') :
    Orderly needs' fun lock => (locks lock).release t where
  stage u := by
    by_cases hu : u = t
    · subst hu
      refine ⟨0, fun lock mode => ?_, fun lock mode hmem => ?_⟩
      · simp [RwLock.release]
      · exact ((of_decide_eq_true (List.mem_filter.mp hmem).2) rfl).elim
    · obtain ⟨n, hstage⟩ := h.stage u
      obtain ⟨n', hstage'⟩ := hneeds u hu n hstage
      refine ⟨n', fun lock mode => ?_, fun lock mode hmem =>
        hstage'.waits lock mode (List.mem_of_mem_filter hmem)⟩
      rw [← hstage'.holds]
      simp [RwLock.release, hu]
  once lock := by
    rw [RwLock.entries_release]
    exact (h.once lock).sublist (List.filter_sublist.map _)

end Orderly

/-! ## Waiting for ever -/

/-- What can happen to the locks at one time. -/
inductive LockStep [DecidableEq ℓ] [DecidableEq τ] (locks : ℓ → RwLock τ) :
    (ℓ → RwLock τ) → Prop
  | none : LockStep locks locks
  | request (lock : ℓ) (t : τ) (mode : Mode) :
      LockStep locks (Function.update locks lock ((locks lock).request t mode))
  | grant {lock : ℓ} {granted : RwLock τ} : (locks lock).grant? = some granted →
      LockStep locks (Function.update locks lock granted)
  | release (t : τ) : LockStep locks fun lock => (locks lock).release t

namespace RwLock

variable [DecidableEq τ] {lock lock' : RwLock τ} {t u : τ} {mode : Mode}

/-- How much has to happen before the turn of a party in the queue: those ahead of it get
the lock, and all holders give it back. -/
def distance (lock : RwLock τ) (t : τ) : Nat :=
  lock.holders.length + 2 * (lock.queue.takeWhile (·.1 ≠ t)).length

theorem distance_of_queue {ahead behind : List (τ × Mode)}
    (hqueue : lock.queue = ahead ++ (t, mode) :: behind) (hfirst : t ∉ ahead.map Prod.fst) :
    lock.distance t = lock.holders.length + 2 * ahead.length := by
  have hahead : ∀ entry ∈ ahead, decide (entry.1 ≠ t) = true := by
    intro entry hentry
    refine decide_eq_true ?_
    rintro rfl
    exact hfirst (List.mem_map_of_mem hentry)
  rw [distance, hqueue, List.takeWhile_append_of_pos hahead, List.takeWhile_cons_of_neg (by simp),
    List.append_nil]

theorem distance_request (h : lock.Waits t) (u : τ) (mode : Mode) :
    (lock.request u mode).distance t = lock.distance t := by
  obtain ⟨ahead, mode', behind, hqueue, hfirst⟩ := queue_split h
  have hqueue' : (lock.request u mode).queue = ahead ++ (t, mode') :: (behind ++ [(u, mode)]) := by
    rw [request, hqueue, List.append_assoc, List.cons_append]
  rw [distance_of_queue hqueue hfirst, distance_of_queue hqueue' hfirst]
  rfl

theorem distance_grant (honce : (lock.queue.map Prod.fst).Nodup)
    (hgrant : lock.grant? = some lock') (h : lock'.Waits t) :
    lock'.distance t < lock.distance t := by
  obtain ⟨u, mode, rest, hqueue, rfl, -⟩ := grant?_eq_some hgrant
  obtain ⟨ahead, mode', behind, hrest, hfirst⟩ := queue_split h
  have hne : t ≠ u := by
    rintro rfl
    rw [hqueue, List.map_cons, List.nodup_cons] at honce
    exact honce.1 h
  have hqueue' : lock.queue = ((u, mode) :: ahead) ++ (t, mode') :: behind := by
    rw [hqueue]
    exact congrArg _ hrest
  have hfirst' : t ∉ ((u, mode) :: ahead).map Prod.fst := by
    rw [List.map_cons, List.mem_cons, not_or]
    exact ⟨hne, hfirst⟩
  rw [distance_of_queue hqueue' hfirst', distance_of_queue hrest hfirst, List.length_cons,
    List.length_cons]
  omega

/-- It gets less when a holder gives the lock back. -/
theorem distance_release (h : lock.Waits t) (hne : t ≠ u) :
    (lock.release u).distance t ≤ lock.distance t ∧
      (lock.Holds u → (lock.release u).distance t < lock.distance t) := by
  obtain ⟨ahead, mode, behind, hqueue, hfirst⟩ := queue_split h
  have hqueue' : (lock.release u).queue =
      ahead.filter (·.1 ≠ u) ++ (t, mode) :: behind.filter (·.1 ≠ u) := by
    have hstays : decide ((t, mode).1 ≠ u) = true := decide_eq_true hne
    rw [release, hqueue, List.filter_append, List.filter_cons, if_pos hstays]
  have hfirst' : t ∉ (ahead.filter (·.1 ≠ u)).map Prod.fst :=
    fun hmem => hfirst ((List.filter_sublist.map _).subset hmem)
  rw [distance_of_queue hqueue hfirst, distance_of_queue hqueue' hfirst']
  have hahead : (ahead.filter (·.1 ≠ u)).length ≤ ahead.length := List.length_filter_le _ _
  refine ⟨?_, fun hholds => ?_⟩
  · have hholders : (lock.release u).holders.length ≤ lock.holders.length :=
      List.length_filter_le _ _
    omega
  · obtain ⟨entry, hentry, he⟩ := List.mem_map.mp hholds
    have hholders : (lock.release u).holders.length < lock.holders.length :=
      List.length_filter_lt_length_iff_exists.mpr ⟨entry, hentry, by simpa using he⟩
    omega

end RwLock

section Forever

variable [DecidableEq ℓ] [DecidableEq τ] {locks : ℕ → ℓ → RwLock τ} {lock : ℓ} {t u : τ}

/-- A step brings a party that goes on waiting no further from its turn, and nearer if the
lock is given or given back. -/
theorem LockStep.distance_le {locks locks' : ℓ → RwLock τ} (hstep : LockStep locks locks')
    (honce : ((locks lock).queue.map Prod.fst).Nodup) (hwaits : (locks lock).Waits t)
    (hwaits' : (locks' lock).Waits t) :
    (locks' lock).distance t ≤ (locks lock).distance t ∧
      ((locks lock).Holds u → ¬ (locks' lock).Holds u →
        (locks' lock).distance t < (locks lock).distance t) := by
  cases hstep with
  | none => exact ⟨le_rfl, fun h h' => (h' h).elim⟩
  | request lock' v mode =>
    rw [Function.update_apply] at hwaits' ⊢
    split
    · next he =>
      subst he
      exact ⟨(RwLock.distance_request hwaits v mode).le, fun h h' => (h' h).elim⟩
    · exact ⟨le_rfl, fun h h' => (h' h).elim⟩
  | @grant lock' granted hgrant =>
    rw [Function.update_apply] at hwaits' ⊢
    split at hwaits'
    · next he =>
      subst he
      rw [if_pos rfl]
      have hlt := RwLock.distance_grant honce hgrant hwaits'
      exact ⟨hlt.le, fun _ _ => hlt⟩
    · next hne =>
      rw [if_neg hne]
      exact ⟨le_rfl, fun h h' => (h' h).elim⟩
  | release v =>
    obtain ⟨hle, hlt⟩ := RwLock.distance_release hwaits (waits_release.mp hwaits').2
    refine ⟨hle, fun hholds hgone => hlt ?_⟩
    obtain rfl : u = v := of_not_not fun hne => hgone (holds_release.mpr ⟨hholds, hne⟩)
    exact hholds

/-- What never grows comes to rest. -/
theorem exists_rest {f : ℕ → ℕ} {k : ℕ} (h : ∀ j ≥ k, f (j + 1) ≤ f j) :
    ∃ K ≥ k, ∀ j ≥ K, ¬ f (j + 1) < f j := by
  obtain ⟨K, hK, hleast⟩ := (measure f).wf.has_min {j | k ≤ j} ⟨k, Nat.le_refl k⟩
  have hbelow : ∀ j ≥ K, f j ≤ f K := fun j hj => by
    induction j, hj using Nat.le_induction with
    | base => exact le_rfl
    | succ j hj ih => exact (h j (hK.trans hj)).trans ih
  refine ⟨K, hK, fun j hj hlt => hleast (j + 1) ?_ (hlt.trans_le (hbelow j hj))⟩
  exact hK.trans (hj.trans (Nat.le_succ j))

/-- A party waits for a lock for ever although the lock is given whenever it can be. Then
at some time the head of the queue cannot have it because of a holder, and this holder
keeps it from then on. -/
theorem waits_forever (hstep : ∀ k, LockStep (locks k) (locks (k + 1)))
    (honce : ∀ k, ((locks k lock).queue.map Prod.fst).Nodup)
    (hfair : ∀ k, ∃ k' ≥ k, (locks k' lock).grant? = some (locks (k' + 1) lock) ∨
      (locks k' lock).grant? = none)
    {k : ℕ} (hwaits : ∀ j ≥ k, (locks j lock).Waits t) :
    ∃ K ≥ k, ∃ head ∈ (locks K lock).queue, ∃ holder ∈ (locks K lock).holders,
      head.2.compatible holder.2 = false ∧ ∀ j ≥ K, (locks j lock).Holds holder.1 := by
  have hnext {j : ℕ} (hj : k ≤ j) := hwaits (j + 1) (hj.trans (Nat.le_succ j))
  -- the distance from the turn comes to rest at a time `K`
  obtain ⟨K, hK, hrest⟩ := exists_rest (f := fun j => (locks j lock).distance t) fun j hj =>
    ((hstep j).distance_le (u := t) (honce j) (hwaits j hj) (hnext hj)).1
  obtain ⟨K', hK', hgrant⟩ := hfair K
  have hwaits' := hwaits _ (hK.trans hK')
  have hnone : (locks K' lock).grant? = none := by
    refine hgrant.resolve_left fun hgrant => hrest K' hK' ?_
    exact RwLock.distance_grant (honce K') hgrant (hnext (hK.trans hK'))
  obtain ⟨⟨u, mode⟩, rest, hqueue⟩ : ∃ head rest, (locks K' lock).queue = head :: rest := by
    obtain ⟨entry, hentry, -⟩ := List.mem_map.mp hwaits'
    exact List.exists_cons_of_ne_nil (List.ne_nil_of_mem hentry)
  obtain ⟨holder, hholder, hnot⟩ := holder_of_grant?_none hqueue hnone
  refine ⟨K', hK.trans hK', (u, mode), hqueue ▸ List.mem_cons_self, holder, hholder, hnot, ?_⟩
  intro j hj
  induction j, hj using Nat.le_induction with
  | base => exact List.mem_map_of_mem hholder
  | succ j hj ih =>
    by_contra hgone
    have hj' := hK.trans (hK'.trans hj)
    exact hrest j (hK'.trans hj)
      (((hstep j).distance_le (honce j) (hwaits j hj') (hnext hj')).2 ih hgone)

end Forever

end Foundation
