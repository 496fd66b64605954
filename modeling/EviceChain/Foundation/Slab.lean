import Mathlib

/-!
# Slabs

A slab stores values under integer keys that it chooses itself: `insert` puts
the value into a vacant slot and `remove` makes a slot vacant again. `SlabLike`
is what a client may rely on, whatever the slab's policy for choosing the slot;
`StackSlab` is the policy that reuses the slot freed last.
-/

namespace Foundation

/-- A slab, up to its choice of vacant slots. `insert` stores at `vacantKey`;
`set` is a write through a mutable reference to a live slot; `set` and `remove`
are described for live slots only. -/
class SlabLike (S : Type → Type) where
  empty {α : Type} : S α
  get {α : Type} : S α → Nat → Option α
  vacantKey {α : Type} : S α → Nat
  insert {α : Type} : S α → α → S α
  set {α : Type} : S α → Nat → α → S α
  remove {α : Type} : S α → Nat → S α
  get_empty {α : Type} (k : Nat) : get (empty : S α) k = none
  get_vacantKey {α : Type} (s : S α) : get s (vacantKey s) = none
  get_insert {α : Type} (s : S α) (a : α) (k : Nat) :
    get (insert s a) k = if k = vacantKey s then some a else get s k
  get_set {α : Type} {s : S α} {k : Nat} (live : (get s k).isSome) (a : α) (j : Nat) :
    get (set s k a) j = if j = k then some a else get s j
  get_remove {α : Type} {s : S α} {k : Nat} (live : (get s k).isSome) (j : Nat) :
    get (remove s k) j = if j = k then none else get s j

namespace SlabLike

variable {S : Type → Type} [SlabLike S] {α : Type} {s : S α} {j k : Nat} {a b : α}

theorem get_set_self (h : get s k = some b) : get (set s k a) k = some a := by
  rw [get_set (by simp [h]), if_pos rfl]

theorem get_set_of_ne (h : get s k = some b) (hne : j ≠ k) : get (set s k a) j = get s j := by
  rw [get_set (by simp [h]), if_neg hne]

theorem get_remove_self (h : get s k = some b) : get (remove s k) k = none := by
  rw [get_remove (by simp [h]), if_pos rfl]

theorem get_remove_of_ne (h : get s k = some b) (hne : j ≠ k) :
    get (remove s k) j = get s j := by
  rw [get_remove (by simp [h]), if_neg hne]

end SlabLike

/-! ## The slab that reuses the slot freed last -/

/-- Slots in key order, and the stack of freed keys. -/
structure StackSlab (α : Type) where
  slots : List (Option α)
  free : List Nat
  free_nodup : free.Nodup
  free_vacant : ∀ k ∈ free, slots[k]? = some none

namespace StackSlab

variable {α : Type}

def empty : StackSlab α := ⟨[], [], List.nodup_nil, by simp⟩

def get (s : StackSlab α) (k : Nat) : Option α := (s.slots[k]?).join

def vacantKey (s : StackSlab α) : Nat := s.free.headD s.slots.length

/-- The slot array after an insertion: the freed slot on top of the stack is
filled, or the array grows by one. -/
def filled (s : StackSlab α) (a : α) : List (Option α) :=
  match s.free with
  | [] => s.slots ++ [some a]
  | k :: _ => s.slots.set k (some a)

theorem filled_free {s : StackSlab α} (a : α) {k : Nat} (hk : k ∈ s.free.tail) :
    (s.filled a)[k]? = some none := by
  unfold filled
  have hnodup := s.free_nodup
  have hvacant := s.free_vacant
  generalize s.free = free at hk hnodup hvacant
  cases free with
  | nil => exact absurd hk List.not_mem_nil
  | cons j rest =>
    have hne : j ≠ k := fun h => (List.nodup_cons.mp hnodup).1 (h ▸ hk)
    show (s.slots.set j (some a))[k]? = some none
    rw [List.getElem?_set_ne hne]
    exact hvacant k (List.mem_cons_of_mem _ hk)

def insert (s : StackSlab α) (a : α) : StackSlab α :=
  ⟨s.filled a, s.free.tail, s.free_nodup.sublist (List.tail_sublist _), fun _ => filled_free a⟩

theorem lt_of_live {s : StackSlab α} {k : Nat} (live : (s.get k).isSome) :
    k < s.slots.length := by
  by_contra hge
  simp [get, List.getElem?_eq_none (Nat.not_lt.mp hge)] at live

/-- A write to a vacant slot is ignored. -/
def set (s : StackSlab α) (k : Nat) (a : α) : StackSlab α :=
  if live : (s.get k).isSome then
    ⟨s.slots.set k (some a), s.free, s.free_nodup, by
      intro j hj
      have hne : k ≠ j := by
        rintro rfl
        simp [get, s.free_vacant _ hj] at live
      rw [List.getElem?_set_ne hne]
      exact s.free_vacant j hj⟩
  else s

def remove (s : StackSlab α) (k : Nat) : StackSlab α :=
  if live : (s.get k).isSome then
    have vacant_ne : ∀ j ∈ s.free, k ≠ j := by
      rintro j hj rfl
      simp [get, s.free_vacant _ hj] at live
    ⟨s.slots.set k none, k :: s.free,
      List.nodup_cons.mpr ⟨fun hk => vacant_ne k hk rfl, s.free_nodup⟩, by
      intro j hj
      rcases List.mem_cons.mp hj with rfl | hj
      · simp [lt_of_live live]
      · rw [List.getElem?_set_ne (vacant_ne j hj)]
        exact s.free_vacant j hj⟩
  else s

theorem get_of_getElem? {s : StackSlab α} {k : Nat} {o : Option α} (h : s.slots[k]? = some o) :
    s.get k = o := by
  simp [get, h]

theorem get_vacantKey (s : StackSlab α) : s.get s.vacantKey = none := by
  unfold vacantKey
  cases hfree : s.free with
  | nil => simp [get]
  | cons k rest => exact get_of_getElem? (s.free_vacant k (by rw [hfree]; exact List.mem_cons_self))

theorem get_insert (s : StackSlab α) (a : α) (k : Nat) :
    (s.insert a).get k = if k = s.vacantKey then some a else s.get k := by
  show ((s.filled a)[k]?).join = if k = s.free.headD s.slots.length then some a else s.get k
  unfold filled
  have hvacant := s.free_vacant
  generalize s.free = free at hvacant
  cases free with
  | nil =>
    show ((s.slots ++ [some a])[k]?).join = if k = s.slots.length then some a else s.get k
    by_cases h : k = s.slots.length
    · subst h
      simp
    · rw [if_neg h]
      rcases Nat.lt_or_ge k s.slots.length with hlt | hge
      · rw [List.getElem?_append_left hlt]
        rfl
      · have hlen : (s.slots ++ [some a]).length ≤ k := by
          rw [List.length_append, List.length_singleton]
          omega
        rw [List.getElem?_eq_none hlen, get, List.getElem?_eq_none hge]
  | cons j rest =>
    have hlt : j < s.slots.length :=
      (List.getElem?_eq_some_iff.mp (hvacant j List.mem_cons_self)).1
    show ((s.slots.set j (some a))[k]?).join = if k = j then some a else s.get k
    by_cases h : k = j
    · subst h
      simp [hlt]
    · rw [if_neg h, List.getElem?_set_ne (Ne.symm h)]
      rfl

theorem get_set {s : StackSlab α} {k : Nat} (live : (s.get k).isSome) (a : α) (j : Nat) :
    (s.set k a).get j = if j = k then some a else s.get j := by
  unfold set
  rw [dif_pos live]
  simp only [get]
  by_cases h : j = k
  · subst h
    simp [lt_of_live live]
  · rw [if_neg h, List.getElem?_set_ne (Ne.symm h)]

theorem get_remove {s : StackSlab α} {k : Nat} (live : (s.get k).isSome) (j : Nat) :
    (s.remove k).get j = if j = k then none else s.get j := by
  unfold remove
  rw [dif_pos live]
  simp only [get]
  by_cases h : j = k
  · subst h
    simp [lt_of_live live]
  · rw [if_neg h, List.getElem?_set_ne (Ne.symm h)]

instance : SlabLike StackSlab where
  empty := empty
  get := get
  vacantKey := vacantKey
  insert := insert
  set := set
  remove := remove
  get_empty := by simp [get, empty]
  get_vacantKey := get_vacantKey
  get_insert := get_insert
  get_set := get_set
  get_remove := get_remove

end StackSlab

end Foundation
