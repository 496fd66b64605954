import Mathlib

/-!
# Fair reader-writer locks and deadlock

A lock has holders and a queue of those who have asked for it. It is given to the
head of the queue only, as soon as its mode goes together with those of all
holders: a writer in the queue holds up the readers behind it, even where only
readers hold the lock.

A set of parties is deadlocked if each of them waits, and only for parties of the
set (`Deadlocked`). `Hierarchical.not_deadlocked` is the rule against it: if parties
that wait for a lock hold only locks of a lower rank, no set is deadlocked. Asking
upwards, granting and releasing keep it so. Once there is a deadlock, it stays for as
long as nobody of the set gives up (`Deadlocked.request`, `Deadlocked.grant`,
`Deadlocked.release`).
-/

namespace Foundation

inductive Mode
  | read
  | write
deriving DecidableEq

/-- Only readers go together. -/
def Mode.compatible : Mode → Mode → Bool
  | .read, .read => true
  | _, _ => false

structure RwLock (τ : Type) where
  holders : List (τ × Mode)
  queue : List (τ × Mode)

namespace RwLock

variable {τ : Type}

def unlocked : RwLock τ := ⟨[], []⟩

def Holds (lock : RwLock τ) (t : τ) : Prop := t ∈ lock.holders.map Prod.fst

def Waits (lock : RwLock τ) (t : τ) : Prop := t ∈ lock.queue.map Prod.fst

/-- Parties that hold the lock together are readers. -/
def Exclusive (lock : RwLock τ) : Prop :=
  ∀ a ∈ lock.holders, ∀ b ∈ lock.holders, a.1 ≠ b.1 → a.2.compatible b.2 = true

def request (lock : RwLock τ) (t : τ) (mode : Mode) : RwLock τ :=
  { lock with queue := lock.queue ++ [(t, mode)] }

/-- The head of the queue gets the lock, if it can have it. -/
def grant? (lock : RwLock τ) : Option (RwLock τ) :=
  match lock.queue with
  | [] => none
  | (t, mode) :: rest =>
    if lock.holders.all fun holder => mode.compatible holder.2 then
      some ⟨(t, mode) :: lock.holders, rest⟩
    else none

variable [DecidableEq τ]

instance (lock : RwLock τ) (t : τ) : Decidable (lock.Holds t) :=
  inferInstanceAs (Decidable (t ∈ lock.holders.map Prod.fst))

instance (lock : RwLock τ) (t : τ) : Decidable (lock.Waits t) :=
  inferInstanceAs (Decidable (t ∈ lock.queue.map Prod.fst))

/-- The party gives up the lock, or its place in the queue. -/
def release (lock : RwLock τ) (t : τ) : RwLock τ :=
  ⟨lock.holders.filter (·.1 ≠ t), lock.queue.filter (·.1 ≠ t)⟩

/-- Whom a party in the queue waits for: all that are ahead of it, and the holders
that it does not go together with. -/
def blockers (lock : RwLock τ) (t : τ) : List τ :=
  match lock.queue.dropWhile (·.1 ≠ t) with
  | [] => []
  | (_, mode) :: _ =>
    (lock.queue.takeWhile (·.1 ≠ t)).map Prod.fst ++
      (lock.holders.filter fun holder => !mode.compatible holder.2).map Prod.fst

end RwLock

variable {ℓ τ κ : Type}

/-- Each party of the set waits, and only for parties of the set. -/
def Deadlocked [DecidableEq τ] (locks : ℓ → RwLock τ) (parties : Set τ) : Prop :=
  parties.Nonempty ∧ ∀ t ∈ parties, ∃ lock, (locks lock).blockers t ≠ [] ∧
    ∀ u ∈ (locks lock).blockers t, u ∈ parties

/-- A party waits at one place only, and for a lock that ranks above all it holds. -/
structure Hierarchical [LT κ] (rank : ℓ → κ) (locks : ℓ → RwLock τ) : Prop where
  once : ∀ lock, ((locks lock).queue.map Prod.fst).Nodup
  one : ∀ t lock lock', (locks lock).Waits t → (locks lock').Waits t → lock = lock'
  upward : ∀ t lock lock', (locks lock).Holds t → (locks lock').Waits t → rank lock < rank lock'

namespace RwLockLemmas

variable {lock lock' : RwLock τ} {t u : τ} {mode : Mode} {rest : List (τ × Mode)}

theorem compatible_symm (a b : Mode) : a.compatible b = b.compatible a := by
  cases a <;> cases b <;> rfl

theorem grant?_eq_some (h : lock.grant? = some lock') :
    ∃ t mode rest, lock.queue = (t, mode) :: rest ∧
      lock' = ⟨(t, mode) :: lock.holders, rest⟩ ∧
      ∀ holder ∈ lock.holders, mode.compatible holder.2 = true := by
  unfold RwLock.grant? at h
  split at h
  · cases h
  · next t mode rest hqueue =>
    split at h <;> cases h
    next hall => exact ⟨t, mode, rest, hqueue, rfl, List.all_eq_true.mp hall⟩

/-- The head cannot have the lock because of a holder. -/
theorem holder_of_grant?_none (hqueue : lock.queue = (t, mode) :: rest)
    (h : lock.grant? = none) :
    ∃ holder ∈ lock.holders, mode.compatible holder.2 = false := by
  rw [RwLock.grant?, hqueue] at h
  dsimp only at h
  split at h
  · cases h
  · next hall =>
    by_contra hnone
    simp only [not_exists, not_and, Bool.not_eq_false] at hnone
    exact hall (List.all_eq_true.mpr hnone)

theorem waits_request : (lock.request u mode).Waits t ↔ lock.Waits t ∨ t = u := by
  simp [RwLock.request, RwLock.Waits]

/-- Where a party stands in the queue. -/
theorem queue_split (h : lock.Waits t) :
    ∃ ahead mode behind, lock.queue = ahead ++ (t, mode) :: behind ∧ t ∉ ahead.map Prod.fst := by
  obtain ⟨before, after, hsplit, hfirst⟩ := List.eq_append_cons_of_mem h
  obtain ⟨ahead, rest, hqueue, rfl, hrest⟩ := List.map_eq_append_iff.mp hsplit
  obtain ⟨⟨u, mode⟩, behind, rfl, rfl, -⟩ := List.map_eq_cons_iff.mp hrest
  exact ⟨ahead, mode, behind, hqueue, hfirst⟩

variable [DecidableEq τ]

theorem mem_parties_filter {entries : List (τ × Mode)} :
    t ∈ (entries.filter (·.1 ≠ u)).map Prod.fst ↔ t ∈ entries.map Prod.fst ∧ t ≠ u := by
  constructor
  · intro h
    obtain ⟨entry, hentry, rfl⟩ := List.mem_map.mp h
    obtain ⟨hmem, hne⟩ := List.mem_filter.mp hentry
    exact ⟨List.mem_map_of_mem hmem, of_decide_eq_true hne⟩
  · rintro ⟨h, hne⟩
    obtain ⟨entry, hentry, rfl⟩ := List.mem_map.mp h
    exact List.mem_map_of_mem (List.mem_filter.mpr ⟨hentry, decide_eq_true hne⟩)

theorem holds_release : (lock.release u).Holds t ↔ lock.Holds t ∧ t ≠ u := mem_parties_filter

theorem waits_release : (lock.release u).Waits t ↔ lock.Waits t ∧ t ≠ u := mem_parties_filter

theorem blockers_of_queue {ahead behind : List (τ × Mode)}
    (hqueue : lock.queue = ahead ++ (t, mode) :: behind) (hfirst : t ∉ ahead.map Prod.fst) :
    lock.blockers t = ahead.map Prod.fst ++
      (lock.holders.filter fun holder => !mode.compatible holder.2).map Prod.fst := by
  have hahead : ∀ entry ∈ ahead, decide (entry.1 ≠ t) = true := by
    intro entry hentry
    refine decide_eq_true ?_
    rintro rfl
    exact hfirst (List.mem_map_of_mem hentry)
  unfold RwLock.blockers
  rw [hqueue, List.dropWhile_append_of_pos hahead, List.takeWhile_append_of_pos hahead]
  simp

theorem waits_of_blockers (h : lock.blockers t ≠ []) : lock.Waits t := by
  by_contra hwaits
  refine h ?_
  have hnone : lock.queue.dropWhile (·.1 ≠ t) = [] := by
    refine List.dropWhile_eq_nil_iff.mpr fun entry hentry => decide_eq_true ?_
    rintro rfl
    exact hwaits (List.mem_map_of_mem hentry)
  rw [RwLock.blockers, hnone]

/-- Whoever waits, waits for the head of the queue or is the head. -/
theorem head_blocks (hqueue : lock.queue = (u, mode) :: rest) (h : lock.blockers t ≠ []) :
    u = t ∨ u ∈ lock.blockers t := by
  by_cases hhead : u = t
  · exact .inl hhead
  · refine .inr ?_
    unfold RwLock.blockers at h ⊢
    rw [hqueue, List.takeWhile_cons_of_pos (by simpa using hhead)] at *
    split at h
    · exact (h rfl).elim
    · exact List.mem_append_left _ List.mem_cons_self

/-- The head waits only for holders that it does not go together with. -/
theorem holder_of_blocks_head (hqueue : lock.queue = (t, mode) :: rest)
    (h : u ∈ lock.blockers t) :
    ∃ mode', (u, mode') ∈ lock.holders ∧ mode.compatible mode' = false := by
  have hqueue' : lock.queue = [] ++ (t, mode) :: rest := hqueue
  rw [blockers_of_queue hqueue' List.not_mem_nil] at h
  obtain ⟨⟨_, mode'⟩, hholder, rfl⟩ := List.mem_map.mp h
  obtain ⟨hmem, hnot⟩ := List.mem_filter.mp hholder
  exact ⟨mode', hmem, by simpa using hnot⟩

theorem holds_of_blocks_head (hqueue : lock.queue = (t, mode) :: rest)
    (h : u ∈ lock.blockers t) : lock.Holds u := by
  obtain ⟨mode', hmem, -⟩ := holder_of_blocks_head hqueue h
  exact List.mem_map_of_mem hmem

/-- Who asks later is no hindrance. -/
theorem blockers_request (u : τ) (mode : Mode) (h : lock.blockers t ≠ []) :
    (lock.request u mode).blockers t = lock.blockers t := by
  obtain ⟨ahead, mode', behind, hqueue, hfirst⟩ := queue_split (waits_of_blockers h)
  have hqueue' : (lock.request u mode).queue = ahead ++ (t, mode') :: (behind ++ [(u, mode)]) := by
    rw [RwLock.request, hqueue, List.append_assoc, List.cons_append]
  rw [blockers_of_queue hqueue' hfirst, blockers_of_queue hqueue hfirst]
  rfl

/-- Neither is who gives the lock back without having been one. -/
theorem blockers_release (h : lock.blockers t ≠ []) (hself : u ≠ t) (hother : u ∉ lock.blockers t) :
    (lock.release u).blockers t = lock.blockers t := by
  obtain ⟨ahead, mode, behind, hqueue, hfirst⟩ := queue_split (waits_of_blockers h)
  have hblockers := blockers_of_queue hqueue hfirst
  rw [hblockers, List.mem_append, not_or] at hother
  have hahead : ahead.filter (·.1 ≠ u) = ahead := by
    refine List.filter_eq_self.mpr fun entry hentry => decide_eq_true ?_
    rintro rfl
    exact hother.1 (List.mem_map_of_mem hentry)
  have hqueue' : (lock.release u).queue = ahead ++ (t, mode) :: behind.filter (·.1 ≠ u) := by
    dsimp only [RwLock.release]
    have hstays : decide ((t, mode).1 ≠ u) = true := decide_eq_true hself.symm
    rw [hqueue, List.filter_append, hahead, List.filter_cons, if_pos hstays]
  have hholders : (lock.holders.filter (·.1 ≠ u)).filter (fun holder => !mode.compatible holder.2) =
      lock.holders.filter fun holder => !mode.compatible holder.2 := by
    rw [List.filter_comm]
    refine List.filter_eq_self.mpr fun entry hentry => decide_eq_true ?_
    rintro rfl
    exact hother.2 (List.mem_map_of_mem hentry)
  rw [blockers_of_queue hqueue' hfirst, hblockers]
  exact congrArg (fun holders => ahead.map Prod.fst ++ holders.map Prod.fst) hholders

end RwLockLemmas

open RwLockLemmas

namespace RwLock.Exclusive

variable {lock lock' : RwLock τ}

theorem grant (h : lock.Exclusive) (hgrant : lock.grant? = some lock') : lock'.Exclusive := by
  obtain ⟨t, mode, rest, -, rfl, hall⟩ := grant?_eq_some hgrant
  intro a ha b hb hne
  rcases List.mem_cons.mp ha with rfl | ha <;> rcases List.mem_cons.mp hb with rfl | hb
  · exact (hne rfl).elim
  · exact hall b hb
  · rw [compatible_symm]
    exact hall a ha
  · exact h a ha b hb hne

theorem release [DecidableEq τ] (h : lock.Exclusive) (t : τ) : (lock.release t).Exclusive :=
  fun a ha b hb => h a (List.mem_of_mem_filter ha) b (List.mem_of_mem_filter hb)

end RwLock.Exclusive

namespace Hierarchical

variable [Preorder κ] {rank : ℓ → κ} {locks : ℓ → RwLock τ}

theorem unlocked : Hierarchical rank (fun _ => RwLock.unlocked : ℓ → RwLock τ) :=
  ⟨fun _ => List.nodup_nil, (fun _ _ _ h => nomatch h), fun _ _ _ h => nomatch h⟩

/-- A party that does not wait asks for a lock above all it holds. -/
theorem request [DecidableEq ℓ] (h : Hierarchical rank locks) {t : τ} {lock : ℓ} {mode : Mode}
    (hidle : ∀ lock', ¬ (locks lock').Waits t)
    (habove : ∀ lock', (locks lock').Holds t → rank lock' < rank lock) :
    Hierarchical rank (Function.update locks lock ((locks lock).request t mode)) := by
  -- who waits now has waited before, or has just asked
  have hwaits : ∀ u lock', (Function.update locks lock ((locks lock).request t mode) lock').Waits
      u → (locks lock').Waits u ∨ u = t ∧ lock' = lock := by
    intro u lock' hu
    rw [Function.update_apply] at hu
    split at hu
    · next he =>
      subst he
      exact (waits_request.mp hu).imp_right fun hut => ⟨hut, rfl⟩
    · exact .inl hu
  have hholds : ∀ u lock', (Function.update locks lock ((locks lock).request t mode) lock').Holds
      u → (locks lock').Holds u := by
    intro u lock' hu
    rw [Function.update_apply] at hu
    split at hu
    · next he => exact he ▸ hu
    · exact hu
  refine ⟨fun lock' => ?_, fun u lock₁ lock₂ h₁ h₂ => ?_, fun u lock₁ lock₂ h₁ h₂ => ?_⟩
  · rw [Function.update_apply]
    split
    · next he =>
      rw [RwLock.request, List.map_append, List.map_singleton]
      exact List.nodup_append.mpr ⟨h.once lock, List.nodup_singleton t, fun u hu v hv => by
        rintro rfl
        obtain rfl : u = t := List.mem_singleton.mp hv
        exact hidle lock hu⟩
    · exact h.once lock'
  · rcases hwaits u lock₁ h₁ with h₁ | ⟨hu, he₁⟩ <;> rcases hwaits u lock₂ h₂ with h₂ | ⟨hu', he₂⟩
    · exact h.one u lock₁ lock₂ h₁ h₂
    · exact (hidle _ (hu' ▸ h₁)).elim
    · exact (hidle _ (hu ▸ h₂)).elim
    · exact he₁.trans he₂.symm
  · rcases hwaits u lock₂ h₂ with h₂ | ⟨rfl, rfl⟩
    · exact h.upward u lock₁ lock₂ (hholds u lock₁ h₁) h₂
    · exact habove lock₁ (hholds _ lock₁ h₁)

/-- The head of a queue that gets its lock waits for none any more. -/
theorem grant [DecidableEq ℓ] (h : Hierarchical rank locks) {lock : ℓ} {granted : RwLock τ}
    (hgrant : (locks lock).grant? = some granted) :
    Hierarchical rank (Function.update locks lock granted) := by
  obtain ⟨t, mode, rest, hqueue, rfl, -⟩ := grant?_eq_some hgrant
  have honce := h.once lock
  rw [hqueue, List.map_cons, List.nodup_cons] at honce
  have hwaits : ∀ u lock', (Function.update locks lock ⟨(t, mode) :: (locks lock).holders, rest⟩
      lock').Waits u → (locks lock').Waits u ∧ (lock' = lock → u ≠ t) := by
    intro u lock' hu
    rw [Function.update_apply] at hu
    split at hu
    · next he =>
      subst he
      refine ⟨?_, fun _ hut => honce.1 (hut ▸ hu)⟩
      rw [RwLock.Waits, hqueue]
      exact List.mem_cons_of_mem _ hu
    · next hne => exact ⟨hu, fun he => (hne he).elim⟩
  refine ⟨fun lock' => ?_, fun u lock₁ lock₂ h₁ h₂ => ?_, fun u lock₁ lock₂ h₁ h₂ => ?_⟩
  · rw [Function.update_apply]
    split
    · exact honce.2
    · exact h.once lock'
  · exact h.one u lock₁ lock₂ (hwaits u lock₁ h₁).1 (hwaits u lock₂ h₂).1
  · obtain ⟨hstill, hother⟩ := hwaits u lock₂ h₂
    rw [Function.update_apply] at h₁
    split at h₁
    · next he =>
      subst he
      rcases List.mem_cons.mp h₁ with rfl | h₁
      · -- it was waiting for this lock, so for no other
        have hhead : (locks lock₁).Waits u := by
          rw [RwLock.Waits, hqueue]
          exact List.mem_cons_self
        exact (hother (h.one u lock₂ lock₁ hstill hhead) rfl).elim
      · exact h.upward u lock₁ lock₂ h₁ hstill
    · exact h.upward u lock₁ lock₂ h₁ hstill

theorem release [DecidableEq τ] (h : Hierarchical rank locks) (t : τ) :
    Hierarchical rank fun lock => (locks lock).release t where
  once lock := (h.once lock).sublist (List.Sublist.map _ List.filter_sublist)
  one u lock lock' h₁ h₂ := h.one u lock lock' (waits_release.mp h₁).1 (waits_release.mp h₂).1
  upward u lock lock' h₁ h₂ :=
    h.upward u lock lock' (holds_release.mp h₁).1 (waits_release.mp h₂).1

/-- Where locks are asked for upwards, there is no deadlock. -/
theorem not_deadlocked [DecidableEq τ] [WellFoundedGT κ] (h : Hierarchical rank locks)
    (parties : Set τ) : ¬ Deadlocked locks parties := by
  rintro ⟨⟨t, ht⟩, hblocked⟩
  -- somebody who waits for a lock leads to somebody who waits for a higher one
  have hclimb : ∀ r : κ, ∀ t ∈ parties, ∀ lock, rank lock = r →
      (locks lock).blockers t ≠ [] → (∀ u ∈ (locks lock).blockers t, u ∈ parties) → False := by
    intro r
    induction r using WellFoundedGT.induction with
    | ind r ih =>
      rintro t ht lock rfl hwait hclosed
      obtain ⟨entry, hentry, -⟩ := List.mem_map.mp (waits_of_blockers hwait)
      obtain ⟨⟨u, mode⟩, rest, hqueue⟩ := List.exists_cons_of_ne_nil (List.ne_nil_of_mem hentry)
      have hu : u ∈ parties := by
        rcases head_blocks hqueue hwait with rfl | hu
        · exact ht
        · exact hclosed u hu
      have huwaits : (locks lock).Waits u := by
        rw [RwLock.Waits, hqueue]
        exact List.mem_cons_self
      obtain ⟨lock', hwait', hclosed'⟩ := hblocked u hu
      obtain rfl := h.one u lock lock' huwaits (waits_of_blockers hwait')
      obtain ⟨holder, hholder⟩ := List.exists_mem_of_ne_nil _ hwait'
      obtain ⟨lock', hwait'', hclosed''⟩ := hblocked holder (hclosed' holder hholder)
      refine ih (rank lock') ?_ holder (hclosed' holder hholder) lock' rfl hwait'' hclosed''
      exact h.upward holder lock lock' (holds_of_blocks_head hqueue hholder)
        (waits_of_blockers hwait'')
  obtain ⟨lock, hwait, hclosed⟩ := hblocked t ht
  exact hclimb (rank lock) t ht lock rfl hwait hclosed

end Hierarchical

/-! ## A deadlock lasts -/

namespace Deadlocked

variable [DecidableEq τ] {locks : ℓ → RwLock τ} {parties : Set τ}

/-- Everybody waits for one other. -/
theorem of_one (hsome : parties.Nonempty)
    (h : ∀ t ∈ parties, ∃ lock, ∃ u ∈ parties, (locks lock).blockers t = [u]) :
    Deadlocked locks parties := by
  refine ⟨hsome, fun t ht => ?_⟩
  obtain ⟨lock, u, hu, hblockers⟩ := h t ht
  refine ⟨lock, ?_, fun v hv => ?_⟩
  · rw [hblockers]
    exact List.cons_ne_nil _ _
  · rw [hblockers] at hv
    exact List.mem_singleton.mp hv ▸ hu

/-- What the parties of the set wait for is as it was. -/
theorem congr (h : Deadlocked locks parties) {locks' : ℓ → RwLock τ}
    (hsame : ∀ t ∈ parties, ∀ lock, (locks lock).blockers t ≠ [] →
      (∀ u ∈ (locks lock).blockers t, u ∈ parties) →
      (locks' lock).blockers t = (locks lock).blockers t) :
    Deadlocked locks' parties := by
  refine ⟨h.1, fun t ht => ?_⟩
  obtain ⟨lock, hwait, hclosed⟩ := h.2 t ht
  refine ⟨lock, ?_, ?_⟩ <;> rw [hsame t ht lock hwait hclosed]
  · exact hwait
  · exact hclosed

theorem request [DecidableEq ℓ] (h : Deadlocked locks parties) (u : τ) (lock : ℓ) (mode : Mode) :
    Deadlocked (Function.update locks lock ((locks lock).request u mode)) parties := by
  refine h.congr fun t _ lock' hwait _ => ?_
  rw [Function.update_apply]
  split
  · next he =>
    subst he
    exact blockers_request u mode hwait
  · rfl

/-- The lock is none that a party of the set waits for: the head of its queue would
be one of them, and wait for a holder. -/
theorem grant [DecidableEq ℓ] (h : Deadlocked locks parties)
    (hone : ∀ t lock lock', (locks lock).Waits t → (locks lock').Waits t → lock = lock')
    {lock : ℓ} {granted : RwLock τ} (hgrant : (locks lock).grant? = some granted) :
    Deadlocked (Function.update locks lock granted) parties := by
  refine h.congr fun t ht lock' hwait hclosed => ?_
  rw [Function.update_apply]
  split
  · next he =>
    subst he
    obtain ⟨u, mode, rest, hqueue, -, hall⟩ := grant?_eq_some hgrant
    have hu : u ∈ parties := by
      rcases head_blocks hqueue hwait with rfl | hu
      · exact ht
      · exact hclosed u hu
    have hhead : u ∈ (locks lock').queue.map Prod.fst := by
      rw [hqueue]
      exact List.mem_cons_self
    obtain ⟨lock'', hwait', -⟩ := h.2 u hu
    obtain rfl := hone u lock' lock'' hhead (waits_of_blockers hwait')
    obtain ⟨holder, hholder⟩ := List.exists_mem_of_ne_nil _ hwait'
    obtain ⟨mode', hmem, hnot⟩ := holder_of_blocks_head hqueue hholder
    rw [hall _ hmem] at hnot
    cases hnot
  · rfl

/-- Somebody else gives back what it has. -/
theorem release (h : Deadlocked locks parties) {u : τ} (hu : u ∉ parties) :
    Deadlocked (fun lock => (locks lock).release u) parties :=
  h.congr fun _ ht _ hwait hclosed =>
    blockers_release hwait (fun he => hu (he ▸ ht)) fun hmem => hu (hclosed u hmem)

end Deadlocked

end Foundation
