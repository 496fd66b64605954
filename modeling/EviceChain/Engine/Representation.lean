import EviceChain.Engine.PriceTime

/-!
# The representation invariant of the order book

`OrderBook.levels` reads a tree best price first, `OrderBook.keys` lists the
slab keys queued on a side in priority order and `OrderBook.flat` the orders
behind them. `Inv` is the invariant that ties slab and trees together.

Every mutation of the book is one of two kinds. A `LevelUpdate` shortens the
queue of one level and rewrites or frees the slots queued there; matching and
cancelling are of this kind. `OrderBook.enqueue` stores a new order. Both keep
`Inv`, and both say what becomes of the flat lists.
-/

namespace EviceChain.Engine

open Foundation

variable {S : Type → Type}

/-! ## Reading a book in priority order -/

/-- The levels of a tree of the given side, best price first. -/
def treeLevels (side : Side) (t : SortedMap Price (List Nat)) : List (Price × List Nat) :=
  match side with
  | .ask => t.entries
  | .bid => t.entries.reverse

namespace OrderBook

def levels (book : OrderBook S) (side : Side) : List (Price × List Nat) :=
  treeLevels side (book.tree side)

def keys (book : OrderBook S) (side : Side) : List Nat :=
  (book.levels side).flatMap Prod.snd

end OrderBook

/-! ## Sides and levels -/

namespace RepresentationLemmas

@[simp] theorem opposite_opposite (side : Side) : side.opposite.opposite = side := by
  cases side <;> rfl

theorem ne_opposite (side : Side) : side ≠ side.opposite := by
  cases side <;> decide

/-- A side is a given one or its opposite. -/
@[elab_as_elim]
theorem sideCases (side : Side) {motive : Side → Prop} (same : motive side)
    (other : motive side.opposite) (s : Side) : motive s := by
  cases side <;> cases s
  · exact same
  · exact other
  · exact other
  · exact same

theorem not_ahead_self (side : Side) (p : Price) : ahead side p p = false := by
  cases side <;> simp [ahead]

theorem ahead_asymm {side : Side} {p q : Price} (h : ahead side p q = true) :
    ahead side q p = false := by
  cases side <;> simp only [ahead, decide_eq_true_eq, decide_eq_false_iff_not] at h ⊢ <;>
    exact not_lt_of_gt h

@[simp] theorem tree_setTree_self (book : OrderBook S) (side : Side)
    (t : SortedMap Price (List Nat)) : (book.setTree side t).tree side = t := by
  cases side <;> rfl

@[simp] theorem tree_setTree_opposite (book : OrderBook S) (side : Side)
    (t : SortedMap Price (List Nat)) :
    (book.setTree side t).tree side.opposite = book.tree side.opposite := by
  cases side <;> rfl

@[simp] theorem orderStore_setTree (book : OrderBook S) (side : Side)
    (t : SortedMap Price (List Nat)) : (book.setTree side t).orderStore = book.orderStore := by
  cases side <;> rfl

@[simp] theorem orderIndex_setTree (book : OrderBook S) (side : Side)
    (t : SortedMap Price (List Nat)) : (book.setTree side t).orderIndex = book.orderIndex := by
  cases side <;> rfl

@[simp] theorem tree_with_store_index (book : OrderBook S) (store : S Order)
    (index : OrderId → Option Nat) (side : Side) :
    ({ book with orderStore := store, orderIndex := index } : OrderBook S).tree side =
      book.tree side := by
  cases side <;> rfl

theorem unqueue_store (book : OrderBook S) (side : Side) (price : Price) (k : Nat) :
    (book.unqueue side price k).orderStore = book.orderStore := by
  unfold OrderBook.unqueue
  dsimp only
  split
  · rfl
  · split <;> simp

theorem unqueue_index (book : OrderBook S) (side : Side) (price : Price) (k : Nat) :
    (book.unqueue side price k).orderIndex = book.orderIndex := by
  unfold OrderBook.unqueue
  dsimp only
  split
  · rfl
  · split <;> simp

theorem treeLevels_length (side : Side) (t : SortedMap Price (List Nat)) :
    (treeLevels side t).length = t.size := by
  cases side <;> simp [treeLevels, SortedMap.size]

theorem mem_treeLevels {side : Side} {t : SortedMap Price (List Nat)} {e : Price × List Nat} :
    e ∈ treeLevels side t ↔ e ∈ t.entries := by
  cases side <;> simp [treeLevels]

theorem treeLevels_sorted (side : Side) (t : SortedMap Price (List Nat)) :
    (treeLevels side t).Pairwise fun a b => ahead side a.1 b.1 = true := by
  cases side with
  | ask => exact t.sorted.imp fun h => by simpa [ahead] using h
  | bid => exact List.pairwise_reverse.mpr (t.sorted.imp fun h => by simpa [ahead] using h)

/-- The first level a taker meets is the head of the opposite levels. -/
theorem bestMatch_eq (book : OrderBook S) (side : Side) :
    book.bestMatch side = (book.levels side.opposite).head? := by
  cases side with
  | bid => rfl
  | ask => simp [OrderBook.bestMatch, OrderBook.levels, treeLevels, OrderBook.tree,
      Side.opposite, SortedMap.last?]

section Split

variable {side : Side} {t : SortedMap Price (List Nat)} {p : Price} {q q' : List Nat}
  {l₁ l₂ : List (Price × List Nat)}

theorem entries_of_bid (h : treeLevels .bid t = l₁ ++ l₂) :
    t.entries = l₂.reverse ++ l₁.reverse := by
  rw [← List.reverse_append, ← h]
  simp [treeLevels]

theorem treeLevels_insert (q' : List Nat) (h : treeLevels side t = l₁ ++ (p, q) :: l₂) :
    treeLevels side (t.insert p q') = l₁ ++ (p, q') :: l₂ := by
  cases side with
  | ask => exact SortedMap.insert_of_split h
  | bid =>
    have he := entries_of_bid h
    rw [List.reverse_cons, List.append_assoc] at he
    simp [treeLevels, SortedMap.insert_of_split he]

theorem treeLevels_erase (h : treeLevels side t = l₁ ++ (p, q) :: l₂) :
    treeLevels side (t.erase p) = l₁ ++ l₂ := by
  cases side with
  | ask => exact SortedMap.erase_of_split h
  | bid =>
    have he := entries_of_bid h
    rw [List.reverse_cons, List.append_assoc] at he
    simp [treeLevels, SortedMap.erase_of_split he]

/-- A price without a level has its place between those ahead of it and those
behind it. -/
theorem treeLevels_gap (side : Side) (q : List Nat) (h : t.get? p = none) :
    ∃ l₁ l₂, treeLevels side t = l₁ ++ l₂ ∧
      treeLevels side (t.insert p q) = l₁ ++ (p, q) :: l₂ ∧
      (∀ e ∈ l₁, ahead side e.1 p = true) ∧ ∀ e ∈ l₂, ahead side p e.1 = true := by
  obtain ⟨k₁, k₂, hk, h₁, h₂⟩ := SortedMap.exists_gap h
  have hins := SortedMap.insert_of_gap (v := q) hk h₁ h₂
  cases side with
  | ask =>
    refine ⟨k₁, k₂, hk, hins, ?_, ?_⟩
    · intro e he
      simpa [ahead] using h₁ e he
    · intro e he
      simpa [ahead] using h₂ e he
  | bid =>
    refine ⟨k₂.reverse, k₁.reverse, by simp [treeLevels, hk], by simp [treeLevels, hins],
      ?_, ?_⟩
    · intro e he
      simpa [ahead] using h₂ e (by simpa using he)
    · intro e he
      simpa [ahead] using h₁ e (by simpa using he)

theorem treeLevels_get? (side : Side) (h : t.get? p = some q) :
    ∃ l₁ l₂, treeLevels side t = l₁ ++ (p, q) :: l₂ :=
  List.append_of_mem (mem_treeLevels.mpr (SortedMap.get?_eq_some_iff.mp h))

/-- Around a level, the prices before it are strictly ahead and those after it
strictly behind. -/
theorem treeLevels_split (h : treeLevels side t = l₁ ++ (p, q) :: l₂) :
    (∀ e ∈ l₁, ahead side e.1 p = true) ∧ ∀ e ∈ l₂, ahead side p e.1 = true := by
  have hs := treeLevels_sorted side t
  rw [h, List.pairwise_append, List.pairwise_cons] at hs
  exact ⟨fun e he => hs.2.2 e he (p, q) List.mem_cons_self, hs.2.1.1⟩

end Split

theorem mem_keys {book : OrderBook S} {side : Side} {k : Nat} :
    k ∈ book.keys side ↔ ∃ level ∈ book.levels side, k ∈ level.2 := by
  simp [OrderBook.keys]

end RepresentationLemmas

open RepresentationLemmas

/-! ## The invariant -/

variable [SlabLike S]

def OrderBook.flat (book : OrderBook S) : Flat := fun side =>
  (book.keys side).filterMap (SlabLike.get book.orderStore)

/-- A live slot whose order belongs to the level at `price` of `side`. -/
def Resting (store : S Order) (side : Side) (price : Price) (k : Nat) : Prop :=
  ∃ order, SlabLike.get store k = some order ∧ order.side = side ∧ order.price = price ∧
    0 < order.quantity

/-- The representation invariant. -/
structure Inv (book : OrderBook S) : Prop where
  nodup : ∀ side, (book.keys side).Nodup
  disjoint : ∀ side, ∀ k ∈ book.keys side, k ∉ book.keys side.opposite
  live : ∀ k, (SlabLike.get book.orderStore k).isSome ↔ ∃ side, k ∈ book.keys side
  resting : ∀ side, ∀ level ∈ book.levels side, ∀ k ∈ level.2,
    Resting book.orderStore side level.1 k
  nonempty : ∀ side, ∀ level ∈ book.levels side, level.2 ≠ []

namespace RepresentationLemmas

theorem filterMap_get_congr {store store' : S Order} {queue : List Nat}
    (h : ∀ k ∈ queue, SlabLike.get store' k = SlabLike.get store k) :
    queue.filterMap (SlabLike.get store') = queue.filterMap (SlabLike.get store) :=
  List.filterMap_congr h

theorem mem_flat {book : OrderBook S} {side : Side} {order : Order} :
    order ∈ book.flat side ↔
      ∃ k ∈ book.keys side, SlabLike.get book.orderStore k = some order := by
  simp [OrderBook.flat]

end RepresentationLemmas

theorem Inv.resting_of_mem {book : OrderBook S} (hinv : Inv book) {side : Side} {k : Nat}
    (hk : k ∈ book.keys side) : ∃ level ∈ book.levels side, k ∈ level.2 ∧
      Resting book.orderStore side level.1 k := by
  obtain ⟨level, hlevel, hmem⟩ := mem_keys.mp hk
  exact ⟨level, hlevel, hmem, hinv.resting side level hlevel k hmem⟩

/-- An order rests at every level. -/
theorem Inv.exists_resting {book : OrderBook S} (hinv : Inv book) {side : Side}
    {level : Price × List Nat} (hlevel : level ∈ book.levels side) :
    ∃ order ∈ book.flat side, order.price = level.1 := by
  obtain ⟨k, hk⟩ := List.exists_mem_of_ne_nil _ (hinv.nonempty side level hlevel)
  obtain ⟨order, hget, -, hprice, -⟩ := hinv.resting side level hlevel k hk
  exact ⟨order, mem_flat.mpr ⟨k, mem_keys.mpr ⟨level, hlevel, hk⟩, hget⟩, hprice⟩

/-- The flat lists of a well-formed book are in priority order. -/
theorem Inv.flat_ordered {book : OrderBook S} (hinv : Inv book) : book.flat.Ordered := by
  intro side
  have hprice : ∀ level ∈ book.levels side,
      ∀ order ∈ level.2.filterMap (SlabLike.get book.orderStore), order.price = level.1 := by
    intro level hlevel order horder
    obtain ⟨k, hk, hget⟩ := List.mem_filterMap.mp horder
    obtain ⟨order', hget', -, hprice, -⟩ := hinv.resting side level hlevel k hk
    rw [hget] at hget'
    cases hget'
    exact hprice
  show ((book.levels side).flatMap Prod.snd |>.filterMap _).Pairwise _
  rw [List.filterMap_flatMap, List.pairwise_flatMap]
  constructor
  · intro level hlevel
    refine List.pairwise_of_forall_mem_list fun a ha b hb => ?_
    rw [hprice level hlevel a ha, hprice level hlevel b hb]
    exact not_ahead_self side _
  · refine (treeLevels_sorted side _).imp_of_mem ?_
    intro first second hfirst hsecond hahead a ha b hb
    rw [hprice first hfirst a ha, hprice second hsecond b hb]
    exact ahead_asymm hahead

theorem Inv.new : Inv (OrderBook.new : OrderBook S) where
  nodup side := by cases side <;> exact List.nodup_nil
  disjoint side k hk := by cases side <;> exact absurd hk List.not_mem_nil
  live k := by
    constructor
    · intro h
      rw [show SlabLike.get (OrderBook.new : OrderBook S).orderStore k = none from
        SlabLike.get_empty k] at h
      exact nomatch h
    · rintro ⟨side, hk⟩
      cases side <;> exact absurd hk List.not_mem_nil
  resting side level hlevel := by cases side <;> exact absurd hlevel List.not_mem_nil
  nonempty side level hlevel := by cases side <;> exact absurd hlevel List.not_mem_nil

/-! ## Updates of one level -/

/-- The queue `q` of the level at `p` is shortened to `q'`, the level going
away if nothing is left. Slots outside `q` keep their orders, slots that left
the queue are free, and the others still belong to the level. -/
structure LevelUpdate (book book' : OrderBook S) (side : Side) (p : Price) (q q' : List Nat)
    (l₁ l₂ : List (Price × List Nat)) : Prop where
  before : book.levels side = l₁ ++ (p, q) :: l₂
  after : book'.levels side = l₁ ++ if q' = [] then l₂ else (p, q') :: l₂
  other : book'.levels side.opposite = book.levels side.opposite
  sublist : q'.Sublist q
  frame : ∀ k, k ∉ q → SlabLike.get book'.orderStore k = SlabLike.get book.orderStore k
  freed : ∀ k ∈ q, k ∉ q' → SlabLike.get book'.orderStore k = none
  kept : ∀ k ∈ q', Resting book'.orderStore side p k

namespace LevelUpdate

variable {book book' : OrderBook S} {side : Side} {p : Price} {q q' : List Nat}
  {l₁ l₂ : List (Price × List Nat)}

theorem keys_before (h : LevelUpdate book book' side p q q' l₁ l₂) :
    book.keys side = l₁.flatMap Prod.snd ++ (q ++ l₂.flatMap Prod.snd) := by
  simp [OrderBook.keys, h.before]

theorem keys_after (h : LevelUpdate book book' side p q q' l₁ l₂) :
    book'.keys side = l₁.flatMap Prod.snd ++ (q' ++ l₂.flatMap Prod.snd) := by
  unfold OrderBook.keys
  rw [h.after]
  split
  · next hnil => simp [hnil]
  · simp

theorem keys_other (h : LevelUpdate book book' side p q q' l₁ l₂) :
    book'.keys side.opposite = book.keys side.opposite := by
  simp [OrderBook.keys, h.other]

theorem keys_sublist (h : LevelUpdate book book' side p q q' l₁ l₂) :
    (book'.keys side).Sublist (book.keys side) := by
  rw [h.keys_before, h.keys_after]
  exact List.Sublist.append (List.Sublist.refl _) (h.sublist.append (List.Sublist.refl _))

theorem mem_queue (h : LevelUpdate book book' side p q q' l₁ l₂) {k : Nat} (hk : k ∈ q) :
    k ∈ book.keys side := by
  rw [h.keys_before]
  exact List.mem_append_right _ (List.mem_append_left _ hk)

/-- A key queued elsewhere on the side is not in the queue. -/
theorem not_mem_queue (h : LevelUpdate book book' side p q q' l₁ l₂) (hinv : Inv book) {k : Nat}
    (hk : k ∈ l₁.flatMap Prod.snd ∨ k ∈ l₂.flatMap Prod.snd) : k ∉ q := by
  have hnodup := hinv.nodup side
  rw [h.keys_before, List.nodup_append, List.nodup_append] at hnodup
  obtain ⟨_, ⟨_, _, hright⟩, hleft⟩ := hnodup
  intro hq
  rcases hk with hk | hk
  · exact hleft k hk k (List.mem_append_left _ hq) rfl
  · exact hright k hq k hk rfl

theorem mem_keys_after (h : LevelUpdate book book' side p q q' l₁ l₂) (hinv : Inv book)
    {k : Nat} : k ∈ book'.keys side ↔ k ∈ book.keys side ∧ (k ∈ q → k ∈ q') := by
  constructor
  · intro hk
    refine ⟨h.keys_sublist.subset hk, ?_⟩
    intro hq
    rw [h.keys_after, List.mem_append, List.mem_append] at hk
    rcases hk with hk | hk | hk
    · exact absurd hq (h.not_mem_queue hinv (.inl hk))
    · exact hk
    · exact absurd hq (h.not_mem_queue hinv (.inr hk))
  · rintro ⟨hk, hq⟩
    rw [h.keys_before, List.mem_append, List.mem_append] at hk
    rw [h.keys_after, List.mem_append, List.mem_append]
    exact hk.imp id (Or.imp hq id)

theorem frame_other (h : LevelUpdate book book' side p q q' l₁ l₂) (hinv : Inv book) {k : Nat}
    (hk : k ∈ book.keys side.opposite) :
    SlabLike.get book'.orderStore k = SlabLike.get book.orderStore k :=
  h.frame k fun hq => hinv.disjoint side k (h.mem_queue hq) hk

theorem flat_other (h : LevelUpdate book book' side p q q' l₁ l₂) (hinv : Inv book) :
    book'.flat side.opposite = book.flat side.opposite := by
  unfold OrderBook.flat
  rw [h.keys_other]
  exact filterMap_get_congr fun k hk => h.frame_other hinv hk

/-- Only the stretch of the level changes in the flat list. -/
theorem flat_after (h : LevelUpdate book book' side p q q' l₁ l₂) (hinv : Inv book) :
    book'.flat side = (l₁.flatMap Prod.snd).filterMap (SlabLike.get book.orderStore) ++
      (q'.filterMap (SlabLike.get book'.orderStore) ++
        (l₂.flatMap Prod.snd).filterMap (SlabLike.get book.orderStore)) := by
  unfold OrderBook.flat
  rw [h.keys_after, List.filterMap_append, List.filterMap_append]
  rw [filterMap_get_congr fun k hk => h.frame k (h.not_mem_queue hinv (.inl hk)),
    filterMap_get_congr fun k hk => h.frame k (h.not_mem_queue hinv (.inr hk))]

theorem flat_before (h : LevelUpdate book book' side p q q' l₁ l₂) :
    book.flat side = (l₁.flatMap Prod.snd).filterMap (SlabLike.get book.orderStore) ++
      (q.filterMap (SlabLike.get book.orderStore) ++
        (l₂.flatMap Prod.snd).filterMap (SlabLike.get book.orderStore)) := by
  simp [OrderBook.flat, h.keys_before]

theorem resting_elsewhere (h : LevelUpdate book book' side p q q' l₁ l₂) (hinv : Inv book)
    {level : Price × List Nat} (hlevel : level ∈ l₁ ∨ level ∈ l₂) {k : Nat}
    (hk : k ∈ level.2) : Resting book'.orderStore side level.1 k := by
  have hnot : k ∉ q := by
    refine h.not_mem_queue hinv (hlevel.imp ?_ ?_) <;>
      exact fun hl => List.mem_flatMap.mpr ⟨level, hl, hk⟩
  have hmem : level ∈ book.levels side := by
    rw [h.before, List.mem_append, List.mem_cons]
    exact hlevel.imp id .inr
  obtain ⟨order, horder, hrest⟩ := hinv.resting side level hmem k hk
  exact ⟨order, (h.frame k hnot).trans horder, hrest⟩

theorem mem_levels_after (h : LevelUpdate book book' side p q q' l₁ l₂)
    {level : Price × List Nat} (hlevel : level ∈ book'.levels side) :
    level ∈ l₁ ∨ level ∈ l₂ ∨ (level = (p, q') ∧ q' ≠ []) := by
  rw [h.after, List.mem_append] at hlevel
  rcases hlevel with hlevel | hlevel
  · exact .inl hlevel
  · split at hlevel
    · exact .inr (.inl hlevel)
    · next hne =>
      rcases List.mem_cons.mp hlevel with rfl | hlevel
      · exact .inr (.inr ⟨rfl, hne⟩)
      · exact .inr (.inl hlevel)

theorem live_after (h : LevelUpdate book book' side p q q' l₁ l₂) (hinv : Inv book) (k : Nat) :
    (SlabLike.get book'.orderStore k).isSome ↔ ∃ s, k ∈ book'.keys s := by
  by_cases hq : k ∈ q
  · constructor
    · intro hlive
      refine ⟨side, (h.mem_keys_after hinv).mpr ⟨h.mem_queue hq, fun _ => ?_⟩⟩
      by_contra hgone
      rw [h.freed k hq hgone] at hlive
      exact nomatch hlive
    · rintro ⟨s, hk⟩
      cases s using sideCases side with
      | same =>
        obtain ⟨order, horder, _⟩ := h.kept k (((h.mem_keys_after hinv).mp hk).2 hq)
        rw [horder]
        rfl
      | other =>
        rw [h.keys_other] at hk
        exact absurd hk (hinv.disjoint side k (h.mem_queue hq))
  · rw [h.frame k hq, hinv.live k]
    refine exists_congr fun s => ?_
    cases s using sideCases side with
    | same =>
      rw [h.mem_keys_after hinv]
      exact ⟨fun hk => ⟨hk, fun hq' => absurd hq' hq⟩, And.left⟩
    | other => rw [h.keys_other]

theorem inv (h : LevelUpdate book book' side p q q' l₁ l₂) (hinv : Inv book) : Inv book' where
  nodup s := by
    cases s using sideCases side with
    | same => exact (hinv.nodup side).sublist h.keys_sublist
    | other =>
      rw [h.keys_other]
      exact hinv.nodup _
  disjoint s k hk := by
    cases s using sideCases side with
    | same =>
      rw [h.keys_other]
      exact hinv.disjoint side k (h.keys_sublist.subset hk)
    | other =>
      rw [h.keys_other] at hk
      rw [opposite_opposite]
      intro hk'
      exact hinv.disjoint side k (h.keys_sublist.subset hk') hk
  live := h.live_after hinv
  resting s level hlevel k hk := by
    cases s using sideCases side with
    | same =>
      rcases h.mem_levels_after hlevel with hl | hl | ⟨rfl, _⟩
      · exact h.resting_elsewhere hinv (.inl hl) hk
      · exact h.resting_elsewhere hinv (.inr hl) hk
      · exact h.kept k hk
    | other =>
      rw [h.other] at hlevel
      obtain ⟨order, horder, hrest⟩ := hinv.resting _ level hlevel k hk
      have hmem : k ∈ book.keys side.opposite := mem_keys.mpr ⟨level, hlevel, hk⟩
      exact ⟨order, (h.frame_other hinv hmem).trans horder, hrest⟩
  nonempty s level hlevel := by
    cases s using sideCases side with
    | same =>
      rcases h.mem_levels_after hlevel with hl | hl | ⟨rfl, hne⟩
      · exact hinv.nonempty side level (by rw [h.before]; exact List.mem_append_left _ hl)
      · exact hinv.nonempty side level (by
          rw [h.before]
          exact List.mem_append_right _ (List.mem_cons_of_mem _ hl))
      · exact hne
    | other =>
      rw [h.other] at hlevel
      exact hinv.nonempty _ level hlevel

end LevelUpdate

/-! ## Storing a new order -/

namespace RepresentationLemmas

theorem takeWhile_append_stop {α : Type} {f : α → Bool} {a b : List α}
    (ha : ∀ x ∈ a, f x = true) (hb : ∀ x ∈ b, f x = false) :
    (a ++ b).takeWhile f = a ∧ (a ++ b).dropWhile f = b := by
  rw [List.takeWhile_append_of_pos ha, List.dropWhile_append_of_pos ha]
  cases b with
  | nil => simp
  | cons x b => simp [hb x List.mem_cons_self]

variable {book : OrderBook S} {order : Order}

theorem enqueue_levels (book : OrderBook S) (order : Order) :
    ∃ l₁ l₂ q,
      (book.levels order.side = l₁ ++ (order.price, q) :: l₂ ∨
        q = [] ∧ book.levels order.side = l₁ ++ l₂) ∧
      (book.enqueue order).levels order.side =
        l₁ ++ (order.price, q ++ [SlabLike.vacantKey book.orderStore]) :: l₂ ∧
      (∀ e ∈ l₁, ahead order.side e.1 order.price = true) ∧
      ∀ e ∈ l₂, ahead order.side order.price e.1 = true := by
  cases hget : (book.tree order.side).get? order.price with
  | none =>
    obtain ⟨l₁, l₂, hl, hins, h₁, h₂⟩ := treeLevels_gap order.side
      [SlabLike.vacantKey book.orderStore] hget
    refine ⟨l₁, l₂, [], .inr ⟨rfl, hl⟩, ?_, h₁, h₂⟩
    simp [OrderBook.levels, OrderBook.enqueue, hget, hins]
  | some q =>
    obtain ⟨l₁, l₂, hl⟩ := treeLevels_get? order.side hget
    obtain ⟨h₁, h₂⟩ := treeLevels_split hl
    refine ⟨l₁, l₂, q, .inl hl, ?_, h₁, h₂⟩
    simp [OrderBook.levels, OrderBook.enqueue, hget, treeLevels_insert _ hl]

theorem enqueue_levels_other (book : OrderBook S) (order : Order) :
    (book.enqueue order).levels order.side.opposite = book.levels order.side.opposite := by
  simp [OrderBook.levels, OrderBook.enqueue]

theorem enqueue_get (book : OrderBook S) (order : Order) (k : Nat) :
    SlabLike.get (book.enqueue order).orderStore k =
      if k = SlabLike.vacantKey book.orderStore then some order
      else SlabLike.get book.orderStore k := by
  simp [OrderBook.enqueue, SlabLike.get_insert]

/-- The new key goes into the key list of its side at one place and is not
queued anywhere before. -/
theorem enqueue_keys (book : OrderBook S) (order : Order) :
    ∃ a b, book.keys order.side = a ++ b ∧
      (book.enqueue order).keys order.side =
        a ++ SlabLike.vacantKey book.orderStore :: b := by
  obtain ⟨l₁, l₂, q, hbefore, hafter, -, -⟩ := enqueue_levels book order
  refine ⟨l₁.flatMap Prod.snd ++ q, l₂.flatMap Prod.snd, ?_, ?_⟩
  · rcases hbefore with h | ⟨rfl, h⟩ <;> simp [OrderBook.keys, h]
  · simp [OrderBook.keys, hafter]

/-- A level after the order is stored was there before, or it is the level of the
order with the new key at the end. -/
theorem mem_enqueue_levels {level : Price × List Nat}
    (h : level ∈ (book.enqueue order).levels order.side) :
    level ∈ book.levels order.side ∨ ∃ q,
      level = (order.price, q ++ [SlabLike.vacantKey book.orderStore]) ∧
        (q = [] ∨ (order.price, q) ∈ book.levels order.side) := by
  obtain ⟨l₁, l₂, q, hbefore, hafter, -, -⟩ := enqueue_levels book order
  have hsub : ∀ e, e ∈ l₁ ∨ e ∈ l₂ → e ∈ book.levels order.side := by
    intro e he
    rcases hbefore with hl | ⟨-, hl⟩ <;> rw [hl]
    · exact List.mem_append.mpr (he.imp id (List.mem_cons_of_mem _))
    · exact List.mem_append.mpr he
  rw [hafter, List.mem_append, List.mem_cons] at h
  rcases h with h | rfl | h
  · exact .inl (hsub level (.inl h))
  · refine .inr ⟨q, rfl, ?_⟩
    rcases hbefore with hl | ⟨hq, -⟩
    · exact .inr (by rw [hl]; simp)
    · exact .inl hq
  · exact .inl (hsub level (.inr h))

theorem vacantKey_not_mem (hinv : Inv book) (side : Side) :
    SlabLike.vacantKey book.orderStore ∉ book.keys side := by
  intro hk
  have hlive := (hinv.live _).mpr ⟨side, hk⟩
  rw [SlabLike.get_vacantKey] at hlive
  exact nomatch hlive

theorem enqueue_frame (hinv : Inv book) {side : Side} {k : Nat} (hk : k ∈ book.keys side) :
    SlabLike.get (book.enqueue order).orderStore k = SlabLike.get book.orderStore k := by
  rw [enqueue_get, if_neg]
  rintro rfl
  exact vacantKey_not_mem hinv side hk

theorem enqueue_keys_other (book : OrderBook S) (order : Order) :
    (book.enqueue order).keys order.side.opposite = book.keys order.side.opposite := by
  simp [OrderBook.keys, enqueue_levels_other]

theorem mem_enqueue_keys (book : OrderBook S) (order : Order) (k : Nat) :
    k ∈ (book.enqueue order).keys order.side ↔
      k = SlabLike.vacantKey book.orderStore ∨ k ∈ book.keys order.side := by
  obtain ⟨a, b, hbefore, hafter⟩ := enqueue_keys book order
  rw [hbefore, hafter]
  simp only [List.mem_append, List.mem_cons]
  exact or_left_comm

theorem exists_mem_enqueue_keys (book : OrderBook S) (order : Order) (k : Nat) :
    (∃ side, k ∈ (book.enqueue order).keys side) ↔
      k = SlabLike.vacantKey book.orderStore ∨ ∃ side, k ∈ book.keys side := by
  constructor
  · rintro ⟨side, hk⟩
    cases side using sideCases order.side with
    | same => exact ((mem_enqueue_keys book order k).mp hk).imp id fun h => ⟨_, h⟩
    | other =>
      rw [enqueue_keys_other] at hk
      exact .inr ⟨_, hk⟩
  · rintro (rfl | ⟨side, hk⟩)
    · exact ⟨order.side, (mem_enqueue_keys book order _).mpr (.inl rfl)⟩
    · cases side using sideCases order.side with
      | same => exact ⟨order.side, (mem_enqueue_keys book order k).mpr (.inr hk)⟩
      | other =>
        rw [← enqueue_keys_other book order] at hk
        exact ⟨_, hk⟩

end RepresentationLemmas

theorem Inv.enqueue {book : OrderBook S} (hinv : Inv book) {order : Order}
    (hpos : 0 < order.quantity) : Inv (book.enqueue order) where
  nodup side := by
    cases side using sideCases order.side with
    | same =>
      obtain ⟨a, b, hbefore, hafter⟩ := enqueue_keys book order
      rw [hafter, List.nodup_middle, List.nodup_cons, ← hbefore]
      exact ⟨vacantKey_not_mem hinv _, hinv.nodup _⟩
    | other =>
      rw [enqueue_keys_other]
      exact hinv.nodup _
  disjoint side k hk := by
    cases side using sideCases order.side with
    | same =>
      rw [enqueue_keys_other]
      rcases (mem_enqueue_keys book order k).mp hk with rfl | hk
      · exact vacantKey_not_mem hinv _
      · exact hinv.disjoint _ k hk
    | other =>
      rw [enqueue_keys_other] at hk
      rw [opposite_opposite, mem_enqueue_keys]
      rintro (rfl | hk')
      · exact vacantKey_not_mem hinv _ hk
      · exact hinv.disjoint _ k hk' hk
  live k := by
    rw [exists_mem_enqueue_keys, enqueue_get]
    split
    · next h => simp [h]
    · next h =>
      rw [hinv.live k]
      exact ⟨.inr, fun hk => hk.resolve_left h⟩
  resting side level hlevel k hk := by
    -- a key queued before keeps its order; the new key holds the new order
    have old : ∀ level ∈ book.levels side, k ∈ level.2 →
        Resting (book.enqueue order).orderStore side level.1 k := by
      intro level hlevel hmem
      obtain ⟨o, ho, hrest⟩ := hinv.resting side level hlevel k hmem
      exact ⟨o, (enqueue_frame hinv (mem_keys.mpr ⟨level, hlevel, hmem⟩)).trans ho, hrest⟩
    cases side using sideCases order.side with
    | same =>
      rcases mem_enqueue_levels hlevel with hlevel | ⟨q, rfl, hq⟩
      · exact old level hlevel hk
      · rcases List.mem_append.mp hk with hk | hk
        · rcases hq with rfl | hq
          · exact absurd hk List.not_mem_nil
          · exact old (order.price, q) hq hk
        · rw [List.mem_singleton] at hk
          exact ⟨order, by rw [enqueue_get, if_pos hk], rfl, rfl, hpos⟩
    | other =>
      rw [enqueue_levels_other] at hlevel
      exact old level hlevel hk
  nonempty side level hlevel := by
    cases side using sideCases order.side with
    | same =>
      rcases mem_enqueue_levels hlevel with hlevel | ⟨q, rfl, -⟩
      · exact hinv.nonempty _ level hlevel
      · exact List.concat_ne_nil _ _
    | other =>
      rw [enqueue_levels_other] at hlevel
      exact hinv.nonempty _ level hlevel

theorem Inv.enqueue_flat_other {book : OrderBook S} (hinv : Inv book) (order : Order) :
    (book.enqueue order).flat order.side.opposite = book.flat order.side.opposite := by
  unfold OrderBook.flat
  rw [enqueue_keys_other]
  exact filterMap_get_congr fun k hk => enqueue_frame hinv hk

/-- The new key's place in the key list of its side: the orders before it are
not behind the new order, those after it are. -/
theorem Inv.enqueue_gap {book : OrderBook S} (hinv : Inv book) (order : Order) :
    ∃ front back, book.keys order.side = front ++ back ∧
      (book.enqueue order).keys order.side =
        front ++ SlabLike.vacantKey book.orderStore :: back ∧
      (∀ o ∈ front.filterMap (SlabLike.get book.orderStore),
        (!ahead order.side order.price o.price) = true) ∧
      ∀ o ∈ back.filterMap (SlabLike.get book.orderStore),
        (!ahead order.side order.price o.price) = false := by
  obtain ⟨l₁, l₂, q, hbefore, hafter, h₁, h₂⟩ := enqueue_levels book order
  have hprice : ∀ level ∈ book.levels order.side, ∀ k ∈ level.2, ∀ o,
      SlabLike.get book.orderStore k = some o → o.price = level.1 := by
    intro level hlevel k hk o ho
    obtain ⟨o', ho', -, hp, -⟩ := hinv.resting _ level hlevel k hk
    rw [ho] at ho'
    cases ho'
    exact hp
  refine ⟨l₁.flatMap Prod.snd ++ q, l₂.flatMap Prod.snd, ?_, by simp [OrderBook.keys, hafter],
    ?_, ?_⟩
  · rcases hbefore with h | ⟨rfl, h⟩ <;> simp [OrderBook.keys, h]
  · intro o ho
    obtain ⟨k, hk, hget⟩ := List.mem_filterMap.mp ho
    rcases List.mem_append.mp hk with hk | hk
    · obtain ⟨level, hlevel, hmem⟩ := List.mem_flatMap.mp hk
      have hin : level ∈ book.levels order.side := by
        rcases hbefore with h | ⟨-, h⟩ <;> rw [h] <;> exact List.mem_append_left _ hlevel
      rw [hprice level hin k hmem o hget, ahead_asymm (h₁ level hlevel)]
      rfl
    · rcases hbefore with h | ⟨rfl, -⟩
      · rw [hprice (order.price, q) (by rw [h]; simp) k hk o hget, not_ahead_self]
        rfl
      · exact absurd hk List.not_mem_nil
  · intro o ho
    obtain ⟨k, hk, hget⟩ := List.mem_filterMap.mp ho
    obtain ⟨level, hlevel, hmem⟩ := List.mem_flatMap.mp hk
    have hin : level ∈ book.levels order.side := by
      rcases hbefore with h | ⟨-, h⟩ <;> rw [h]
      · exact List.mem_append_right _ (List.mem_cons_of_mem _ hlevel)
      · exact List.mem_append_right _ hlevel
    rw [hprice level hin k hmem o hget, h₂ level hlevel]
    rfl

/-- In the flat list of its side the new order joins the back of its level. -/
theorem Inv.enqueue_flat {book : OrderBook S} (hinv : Inv book) (order : Order) :
    (book.enqueue order).flat order.side = joinBack order (book.flat order.side) := by
  obtain ⟨front, back, hkeys, hkeys', hfront, hback⟩ := hinv.enqueue_gap order
  have hframe : ∀ k ∈ front ++ back,
      SlabLike.get (book.enqueue order).orderStore k = SlabLike.get book.orderStore k :=
    fun k hk => enqueue_frame hinv (hkeys ▸ hk)
  obtain ⟨htake, hdrop⟩ := takeWhile_append_stop hfront hback
  have hnew : SlabLike.get (book.enqueue order).orderStore
      (SlabLike.vacantKey book.orderStore) = some order := by
    rw [enqueue_get, if_pos rfl]
  unfold joinBack OrderBook.flat
  rw [hkeys, hkeys', List.filterMap_append, List.filterMap_append, htake, hdrop,
    List.filterMap_cons_some hnew]
  rw [filterMap_get_congr fun k hk => hframe k (List.mem_append_left _ hk),
    filterMap_get_congr fun k hk => hframe k (List.mem_append_right _ hk)]

end EviceChain.Engine
