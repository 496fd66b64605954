import EviceChain.Engine.EventStream
import EviceChain.Engine.Ledger
import EviceChain.Foundation.Run

/-!
# One slot for one id

The request that places an order calls its `order_id` the idempotency key, but
`placeLimitOrder` does not look whether the id is in use. The queues take the
order a second time, and `orderIndex`, which has one entry for an id, forgets
the slot of the first. An entry is also left behind when its order is filled or
dropped in a self-trade, so the slot it names may be empty or hold another
order.

`Indexed` is the half of the index that can be relied on: the entry of every
order in the slab names the order's own slot. Matching keeps it, since an order
stays in its slot until it leaves the book. A cancel keeps it, also through a
stale entry. Storing an order keeps it if the id is not resting.

Results:
1. `applyOp_indexed`, `Fresh`: what keeps the index right;
2. `fresh_ids_unique_cancellable`: if no id is placed while it rests, no two
   resting orders share an id and each can be cancelled; `retransmitted_order`
   is the run in which one is;
3. `cancel_resting_order`: what a cancel of a resting order does;
4. `cancel_owner_only`: what any cancel can do, in any book.
-/

namespace EviceChain.Engine

open Foundation RepresentationLemmas MatchingLemmas

variable {S : Type → Type} [SlabLike S]

/-- The entry of every stored order names the slot it is stored in. -/
def Indexed (book : OrderBook S) : Prop :=
  ∀ k order, SlabLike.get book.orderStore k = some order → book.orderIndex order.id = some k

/-- The call does not place an id that rests in the book. -/
def Fresh (book : OrderBook S) : Op → Prop
  | .place orderId _ _ _ _ => orderId ∉ book.flat.resting.map Order.id
  | .cancel _ _ => True

instance Fresh.decidable (book : OrderBook S) (op : Op) : Decidable (Fresh book op) :=
  match op with
  | .place orderId _ _ _ _ => inferInstanceAs (Decidable (orderId ∉ _))
  | .cancel _ _ => inferInstanceAs (Decidable True)

/-- The book after a call that returns. -/
def nextBook (book : OrderBook S) (op : Op) : Option (OrderBook S) :=
  (applyOp book op).toOption.map Prod.snd

/-- One order leaves the book: its side closes the gap, the other side is as it
was. -/
def Removes (flat flat' : Flat) (order : Order) : Prop :=
  ∃ before after, flat order.side = before ++ order :: after ∧
    flat' order.side = before ++ after ∧ flat' order.side.opposite = flat order.side.opposite

theorem Removes.resting_perm {flat flat' : Flat} {order : Order} (h : Removes flat flat' order) :
    flat.resting.Perm (order :: flat'.resting) := by
  obtain ⟨before, after, hflat, hflat', hother⟩ := h
  have hrest := EventStreamLemmas.resting_perm flat order.side
  have hrest' := EventStreamLemmas.resting_perm flat' order.side
  rw [hflat, List.append_assoc] at hrest
  rw [hflat', hother, List.append_assoc] at hrest'
  exact (hrest.trans List.perm_middle).trans (hrest'.symm.cons order)

/-! ## Orders stay in their slots -/

/-- Every order of `store'` stands where an order of that id stood before. -/
def SameSlots (store store' : S Order) : Prop :=
  ∀ k order', SlabLike.get store' k = some order' →
    ∃ order, SlabLike.get store k = some order ∧ order.id = order'.id

namespace SameSlots

variable {store store' store'' : S Order} {k : Nat} {order order' : Order}

theorem refl (store : S Order) : SameSlots store store :=
  fun _ order h => ⟨order, h, rfl⟩

theorem trans (h : SameSlots store store') (h' : SameSlots store' store'') :
    SameSlots store store'' := by
  intro k order'' hget
  obtain ⟨order', hget', hid'⟩ := h' k order'' hget
  obtain ⟨order, hget, hid⟩ := h k order' hget'
  exact ⟨order, hget, hid.trans hid'⟩

theorem remove (hget : SlabLike.get store k = some order) :
    SameSlots store (SlabLike.remove store k) := by
  intro j order' hj
  by_cases hjk : j = k
  · subst hjk
    rw [SlabLike.get_remove_self hget] at hj
    cases hj
  · rw [SlabLike.get_remove_of_ne hget hjk] at hj
    exact ⟨order', hj, rfl⟩

theorem set (hget : SlabLike.get store k = some order) (hid : order'.id = order.id) :
    SameSlots store (SlabLike.set store k order') := by
  intro j order'' hj
  by_cases hjk : j = k
  · subst hjk
    rw [SlabLike.get_set_self hget] at hj
    cases hj
    exact ⟨order, hget, hid.symm⟩
  · rw [SlabLike.get_set_of_ne hget hjk] at hj
    exact ⟨order'', hj, rfl⟩

end SameSlots

namespace OrderIndexLemmas

variable {orderId : OrderId} {userId : UserId} {side : Side} {price bestPrice : Price}

theorem matchFront_sameSlots {s : QueueState S} {r : ForInStep (QueueState S)}
    (h : matchFront orderId userId bestPrice s = .ok r) : SameSlots s.store r.value.store := by
  cases hqueue : s.queue with
  | nil =>
    rw [matchFront_nil hqueue] at h
    cases h
    exact .refl _
  | cons k rest =>
    cases hget : SlabLike.get s.store k with
    | none => simp [matchFront, hqueue, hget] at h
    | some maker =>
      have hset : SameSlots s.store (SlabLike.set s.store k (filled s maker)) := .set hget rfl
      by_cases hu : maker.userId = userId
      · rw [matchFront_self hqueue hget hu] at h
        cases h
        exact .remove hget
      · by_cases hl : maker.quantity - min s.quantity maker.quantity = 0
        · have hgone := hset.trans (.remove (SlabLike.get_set_self hget))
          rw [matchFront_consumed orderId bestPrice hqueue hget hu hl] at h
          split at h <;>
          · cases h
            exact hgone
        · rw [matchFront_outlasted hqueue hget hu hl] at h
          cases h
          exact hset

theorem matchLevel_sameSlots {s : MatchState S} {r : ForInStep (MatchState S)}
    (h : matchLevel orderId userId side price s = .ok r) :
    SameSlots s.book.orderStore r.value.book.orderStore ∧
      r.value.book.orderIndex = s.book.orderIndex := by
  unfold matchLevel at h
  split at h
  · cases h
    exact ⟨.refl _, rfl⟩
  · split at h
    · cases h
      exact ⟨.refl _, rfl⟩
    · next bestPrice queue _ =>
      split at h
      · cases h
        exact ⟨.refl _, rfl⟩
      · obtain ⟨q, hloop, h⟩ := bind_eq_ok.mp h
        cases h
        show SameSlots _ (afterLevel s.book side.opposite bestPrice q).orderStore ∧
          (afterLevel s.book side.opposite bestPrice q).orderIndex = _
        rw [afterLevel_store, afterLevel_index]
        refine ⟨?_, rfl⟩
        exact iterate_keeps (I := fun q => SameSlots s.book.orderStore q.store)
          (fun _ _ hq hbody => hq.trans (matchFront_sameSlots hbody)) (.refl _) hloop

theorem enqueue_index (book : OrderBook S) (order : Order) :
    (book.enqueue order).orderIndex = Function.update book.orderIndex order.id
      (some (SlabLike.vacantKey book.orderStore)) := by
  simp [OrderBook.enqueue]

theorem mem_resting {flat : Flat} {order : Order} :
    order ∈ flat.resting ↔ ∃ side, order ∈ flat side := by
  unfold Flat.resting
  rw [List.mem_append]
  constructor
  · rintro (h | h)
    · exact ⟨.bid, h⟩
    · exact ⟨.ask, h⟩
  · rintro ⟨side, h⟩
    cases side with
    | bid => exact .inl h
    | ask => exact .inr h

/-- What is stored rests. -/
theorem mem_resting_of_get {book : OrderBook S} (hinv : Inv book) {k : Nat} {order : Order}
    (hget : SlabLike.get book.orderStore k = some order) : order ∈ book.flat.resting := by
  obtain ⟨side, hk⟩ := (hinv.live k).mp (by rw [hget]; rfl)
  exact mem_resting.mpr ⟨side, mem_flat.mpr ⟨k, hk, hget⟩⟩

end OrderIndexLemmas

open OrderIndexLemmas

/-! ## The index over a call -/

namespace Indexed

variable {book book' : OrderBook S} {orderId : OrderId} {userId : UserId}
  {events : List EngineEvent}

theorem new : Indexed (OrderBook.new : OrderBook S) := by
  intro k order hget
  rw [show SlabLike.get (OrderBook.new : OrderBook S).orderStore k = none from
    SlabLike.get_empty k] at hget
  cases hget

theorem enqueue (h : Indexed book) {order : Order}
    (hnew : ∀ k o, SlabLike.get book.orderStore k = some o → o.id ≠ order.id) :
    Indexed (book.enqueue order) := by
  intro k o hget
  rw [enqueue_get] at hget
  rw [enqueue_index]
  split at hget
  · next hk =>
    cases hget
    rw [Function.update_self, hk]
  · rw [Function.update_of_ne (hnew k o hget)]
    exact h k o hget

theorem place (h : Indexed book) (hinv : Inv book) {side : Side} {price : Price}
    {quantity : Quantity} (hfresh : orderId ∉ book.flat.resting.map Order.id)
    (hplace : placeLimitOrder book orderId userId side price quantity = .ok (events, book')) :
    Indexed book' := by
  obtain ⟨s, hloop, hplace⟩ := bind_eq_ok.mp hplace
  have hkept : SameSlots book.orderStore s.book.orderStore ∧
      s.book.orderIndex = book.orderIndex := by
    refine iterate_keeps (I := fun s => SameSlots book.orderStore s.book.orderStore ∧
      s.book.orderIndex = book.orderIndex) ?_ ⟨.refl _, rfl⟩ hloop
    intro s r ⟨hslots, hindex⟩ hbody
    obtain ⟨hslots', hindex'⟩ := matchLevel_sameSlots hbody
    exact ⟨hslots.trans hslots', hindex'.trans hindex⟩
  obtain ⟨hslots, hindex⟩ := hkept
  have hmatched : Indexed s.book := by
    intro k order hget
    obtain ⟨maker, hmaker, hid⟩ := hslots k order hget
    rw [hindex, ← hid]
    exact h k maker hmaker
  split at hplace
  · cases hplace
    refine hmatched.enqueue fun k order hget hid => hfresh ?_
    obtain ⟨maker, hmaker, hsame⟩ := hslots k order hget
    exact List.mem_map.mpr ⟨maker, mem_resting_of_get hinv hmaker, hsame.trans hid⟩
  · cases hplace
    exact hmatched

/-- If the slot behind a stale entry is reused, another order goes. The entry
erased is then not that of a stored order, because the entry of a stored order
names its own slot. -/
theorem cancel (h : Indexed book)
    (hcancel : cancelOrder book orderId userId = .ok (events, book')) : Indexed book' := by
  cases htarget : cancelTarget book orderId userId with
  | none =>
    rw [cancelOrder_of_none htarget] at hcancel
    cases hcancel
    exact h
  | some target =>
    obtain ⟨k, order⟩ := target
    obtain ⟨hindex, hget, -⟩ := cancelTarget_eq_some.mp htarget
    rw [cancelOrder_eq htarget] at hcancel
    cases hcancel
    intro j o hj
    have hjk : j ≠ k := by
      rintro rfl
      rw [SlabLike.get_remove_self hget] at hj
      cases hj
    rw [SlabLike.get_remove_of_ne hget hjk] at hj
    have hown := h j o hj
    have hne : o.id ≠ orderId := by
      intro hid
      rw [hid, hindex] at hown
      exact hjk (Option.some.inj hown).symm
    show Function.update book.orderIndex orderId none o.id = some j
    rw [Function.update_of_ne hne]
    exact hown

end Indexed

/-- A call that does not place a resting id keeps the index right. -/
theorem applyOp_indexed {book book' : OrderBook S} (hinv : Inv book) (h : Indexed book) {op : Op}
    (hfresh : Fresh book op) {events : List EngineEvent}
    (happly : applyOp book op = .ok (events, book')) : Indexed book' := by
  cases op with
  | place orderId userId side price quantity => exact h.place hinv hfresh happly
  | cancel orderId userId => exact h.cancel happly

namespace OrderIndexLemmas

theorem nextBook_eq_some {book book' : OrderBook S} {op : Op} :
    nextBook book op = some book' ↔ ∃ events, applyOp book op = .ok (events, book') := by
  unfold nextBook
  rw [toOption_map_eq_some]
  constructor
  · rintro ⟨⟨events, _⟩, happly, rfl⟩
    exact ⟨events, happly⟩
  · rintro ⟨events, happly⟩
    exact ⟨_, happly, rfl⟩

theorem run_reachable {ok : OrderBook S → Op → Prop} {book : OrderBook S}
    (h : Run nextBook ok OrderBook.new book) : Reachable book := by
  refine h.invariant .new fun _ _ hnext hbook => ?_
  obtain ⟨events, happly⟩ := nextBook_eq_some.mp hnext
  exact hbook.step happly

theorem run_indexed {book : OrderBook S} (h : Run nextBook Fresh OrderBook.new book) :
    Indexed book := by
  refine h.invariant .new fun hrun hfresh hnext hindexed => ?_
  obtain ⟨events, happly⟩ := nextBook_eq_some.mp hnext
  exact applyOp_indexed (run_reachable hrun).inv hindexed hfresh happly

/-- Two orders of one id would be in the one slot the index names. -/
theorem indexed_nodup {book : OrderBook S} (hinv : Inv book) (h : Indexed book) :
    (book.flat.resting.map Order.id).Nodup := by
  have hkeys : (book.keys .bid ++ book.keys .ask).Nodup := by
    rw [List.nodup_append]
    refine ⟨hinv.nodup _, hinv.nodup _, ?_⟩
    rintro j hj _ hk rfl
    exact hinv.disjoint .bid j hj hk
  unfold Flat.resting OrderBook.flat
  rw [← List.filterMap_append, List.map_filterMap]
  refine hkeys.filterMap fun j k id hj hk => ?_
  obtain ⟨o, hget, rfl⟩ := Option.map_eq_some_iff.mp hj
  obtain ⟨o', hget', hid⟩ := Option.map_eq_some_iff.mp hk
  have hindex := h j o hget
  rw [← hid, h k o' hget'] at hindex
  exact (Option.some.inj hindex).symm

/-- A cancel with a target removes the target's order. -/
theorem cancelOrder_removes {book : OrderBook S} (hinv : Inv book) {orderId : OrderId}
    {userId : UserId} {k : Nat} {order : Order}
    (h : cancelTarget book orderId userId = some (k, order)) :
    ∃ book', cancelOrder book orderId userId = .ok ([.orderCancelled orderId], book') ∧
      Removes book.flat book'.flat order := by
  obtain ⟨-, hget, -⟩ := cancelTarget_eq_some.mp h
  obtain ⟨book', hcancel, -, hk, hflat⟩ := cancelOrder_of_some hinv h
  obtain ⟨front, back, hkeys⟩ := List.append_of_mem hk
  have hnodup := hinv.nodup order.side
  rw [hkeys, List.nodup_middle, List.nodup_cons, List.mem_append, not_or] at hnodup
  obtain ⟨⟨hfront, hback⟩, -⟩ := hnodup
  refine ⟨book', hcancel, front.filterMap (SlabLike.get book.orderStore),
    back.filterMap (SlabLike.get book.orderStore), ?_, ?_, ?_⟩
  · unfold OrderBook.flat
    rw [hkeys, List.filterMap_append, List.filterMap_cons_some hget]
  · rw [hflat, hkeys, List.filter_append, List.filter_cons_of_neg (by simp),
      filter_ne_self hfront, filter_ne_self hback, List.filterMap_append]
  · rw [hflat, filter_ne_self (hinv.disjoint _ k hk)]
    rfl

/-- A resting order is the target of the cancel by its id and user, and of no
other cancel by its id. -/
theorem cancelTarget_resting {book : OrderBook S} (h : Indexed book) {side : Side} {order : Order}
    (hrests : order ∈ book.flat side) :
    (∃ k, cancelTarget book order.id order.userId = some (k, order)) ∧
      ∀ userId, userId ≠ order.userId → cancelTarget book order.id userId = none := by
  obtain ⟨k, -, hget⟩ := mem_flat.mp hrests
  have hindex := h k order hget
  refine ⟨⟨k, cancelTarget_eq_some.mpr ⟨hindex, hget, rfl⟩⟩, fun userId hne => ?_⟩
  cases htarget : cancelTarget book order.id userId with
  | none => rfl
  | some target =>
    obtain ⟨j, o⟩ := target
    obtain ⟨hj, ho, huser⟩ := cancelTarget_eq_some.mp htarget
    rw [hindex] at hj
    cases hj
    rw [hget] at ho
    cases ho
    exact absurd huser.symm hne

end OrderIndexLemmas

/-! ## Ids that are not placed while they rest -/

/-- In every run that places no id while an order of that id rests, no two
resting orders share an id, and every resting order is removed by the cancel
with its own id and user. -/
theorem fresh_ids_unique_cancellable {book : OrderBook S}
    (hrun : Run nextBook Fresh OrderBook.new book) :
    (book.flat.resting.map Order.id).Nodup ∧
      ∀ order ∈ book.flat.resting, ∃ book',
        cancelOrder book order.id order.userId = .ok ([.orderCancelled order.id], book') ∧
          Removes book.flat book'.flat order := by
  have hinv := (run_reachable hrun).inv
  have hindexed := run_indexed hrun
  refine ⟨indexed_nodup hinv hindexed, fun order hrests => ?_⟩
  obtain ⟨side, hside⟩ := mem_resting.mp hrests
  obtain ⟨⟨k, htarget⟩, -⟩ := cancelTarget_resting hindexed hside
  exact cancelOrder_removes hinv htarget

/-- The id 1 is placed again after its first order was filled, and the slot of
that order is in use by order 3. -/
theorem fresh_ids_reused :
    ∃ book : OrderBook StackSlab, Run nextBook Fresh OrderBook.new book ∧
      book.flat.resting = [⟨3, 7, 200, 5, .ask, 0⟩, ⟨1, 7, 300, 2, .ask, 0⟩] ∧
      (book.flat.resting.map Order.id).Nodup ∧
      ∃ book', cancelOrder book 1 7 = .ok ([.orderCancelled 1], book') ∧
        Removes book.flat book'.flat ⟨1, 7, 300, 2, .ask, 0⟩ := by
  obtain ⟨book, hrun, hflat⟩ : ∃ book : OrderBook StackSlab,
      Run nextBook Fresh OrderBook.new book ∧
        book.flat.resting = [⟨3, 7, 200, 5, .ask, 0⟩, ⟨1, 7, 300, 2, .ask, 0⟩] :=
    exists_run [.place 1 7 .ask 100 10, .place 2 8 .bid 100 10, .place 3 7 .ask 200 5,
      .place 1 7 .ask 300 2] (by decide +kernel)
  obtain ⟨hnodup, hcancel⟩ := fresh_ids_unique_cancellable hrun
  exact ⟨book, hrun, hflat, hnodup, hcancel ⟨1, 7, 300, 2, .ask, 0⟩ (by rw [hflat]; simp)⟩

/-- A retransmitted placement rests a second time. The cancel of the id removes
one of the two; the other then rests and can no longer be cancelled. -/
theorem retransmitted_order :
    ∃ book book' : OrderBook StackSlab,
      runOps OrderBook.new [.place 1 7 .ask 100 10, .place 1 7 .ask 100 10] = .ok book ∧
      ¬ (book.flat.resting.map Order.id).Nodup ∧
      runOps OrderBook.new [.place 1 7 .ask 100 10, .place 1 7 .ask 100 10, .cancel 1 7] =
        .ok book' ∧
      ⟨1, 7, 100, 10, .ask, 0⟩ ∈ book'.flat.resting ∧ cancelOrder book' 1 7 = .ok ([], book') := by
  refine ⟨_, _, rfl, ?_, rfl, ?_, rfl⟩
  · decide
  · decide

/-! ## Runs that place no id twice -/

namespace OrderIndexLemmas

/-- What rests was placed. -/
theorem resting_placed {book book' : OrderBook S} (hinv : Inv book) {op : Op}
    {events : List EngineEvent} (happly : applyOp book op = .ok (events, book')) {id : OrderId}
    (hrests : id ∈ book'.flat.resting.map Order.id) :
    id ∈ book.flat.resting.map Order.id ∨ id ∈ placedIds [op] := by
  obtain ⟨order, horder, rfl⟩ := List.mem_map.mp hrests
  obtain ⟨s, hs⟩ := mem_resting.mp horder
  have hold : ∀ {s}, order.id ∈ (book.flat s).map Order.id →
      order.id ∈ book.flat.resting.map Order.id := by
    intro s hmem
    obtain ⟨o, ho, hid⟩ := List.mem_map.mp hmem
    exact List.mem_map.mpr ⟨o, mem_resting.mpr ⟨s, ho⟩, hid⟩
  cases op with
  | place orderId userId side price quantity =>
    obtain ⟨_, hplace, hflat, -⟩ := placeLimitOrder_spec hinv orderId userId side price quantity
    rw [applyOp, hplace] at happly
    cases happly
    rw [hflat] at hs
    cases s using sideCases side with
    | same =>
      rcases LedgerLemmas.mem_place_own hs with hs | rfl
      · exact .inl (hold (List.mem_map_of_mem hs))
      · exact .inr List.mem_cons_self
    | other => exact .inl (hold (LedgerLemmas.mem_place_opposite hs))
  | cancel orderId userId =>
    exact .inl (hold (List.mem_map_of_mem ((cancelOrder_sublist hinv happly s).subset hs)))

/-- A run that places no id twice places none while it rests. -/
theorem run_of_distinct {ops : List Op} {book : OrderBook S}
    (hrun : runOps OrderBook.new ops = .ok book) (hdistinct : (placedIds ops).Nodup) :
    Run nextBook Fresh OrderBook.new book := by
  refine (foldlM_ok (I := fun done book => (placedIds done).Nodup →
    Run nextBook Fresh OrderBook.new book ∧
      ∀ id ∈ book.flat.resting.map Order.id, id ∈ placedIds done) ?_ ?_ hrun hdistinct).1
  · intro done book op book' ih hstep hdistinct
    have hsnoc : placedIds (done ++ [op]) = placedIds done ++ placedIds [op] :=
      List.filterMap_append
    rw [hsnoc, List.nodup_append] at hdistinct
    obtain ⟨hdone, -, hnew⟩ := hdistinct
    obtain ⟨hbook, hplaced⟩ := ih hdone
    obtain ⟨⟨events, next⟩, happly, rfl⟩ := map_eq_ok.mp hstep
    refine ⟨hbook.tail ?_ (nextBook_eq_some.mpr ⟨events, happly⟩), fun id hid => ?_⟩
    · cases op with
      | place orderId userId side price quantity =>
        exact fun hmem => hnew _ (hplaced _ hmem) _ List.mem_cons_self rfl
      | cancel orderId userId => trivial
    · rw [hsnoc, List.mem_append]
      exact (resting_placed (run_reachable hbook).inv happly hid).imp_left (hplaced id)
  · intro _
    exact ⟨.refl, fun id hid => nomatch hid⟩

end OrderIndexLemmas

/-- In every run that places no id twice, a cancel of a resting order by its
user reports the cancellation and removes exactly that order; the other orders
keep their quantities and their places, and none of them has the id. A cancel
by anybody else does nothing. -/
theorem cancel_resting_order {ops : List Op} {book : OrderBook S}
    (hrun : runOps OrderBook.new ops = .ok book) (hdistinct : (placedIds ops).Nodup)
    (order : Order) (hrests : order ∈ book.flat.resting) :
    (∃ book', cancelOrder book order.id order.userId = .ok ([.orderCancelled order.id], book') ∧
      Removes book.flat book'.flat order ∧ order.id ∉ book'.flat.resting.map Order.id) ∧
    ∀ userId, userId ≠ order.userId → cancelOrder book order.id userId = .ok ([], book) := by
  have hfresh := run_of_distinct hrun hdistinct
  have hinv := (run_reachable hfresh).inv
  have hindexed := run_indexed hfresh
  obtain ⟨side, hside⟩ := mem_resting.mp hrests
  obtain ⟨⟨k, htarget⟩, hothers⟩ := cancelTarget_resting hindexed hside
  obtain ⟨book', hcancel, hremoves⟩ := cancelOrder_removes hinv htarget
  refine ⟨⟨book', hcancel, hremoves, fun hleft => ?_⟩, fun userId hne =>
    cancelOrder_of_none (hothers userId hne)⟩
  have hids := (hremoves.resting_perm.map Order.id).nodup_iff.mp (indexed_nodup hinv hindexed)
  exact (List.nodup_cons.mp hids).1 hleft

/-- Order 2 rests between two orders of its price. -/
theorem cancel_resting_middle :
    ∃ book : OrderBook StackSlab,
      runOps OrderBook.new [.place 1 7 .ask 100 10, .place 2 8 .ask 100 4, .place 3 9 .ask 100 5] =
        .ok book ∧
      (∃ book', cancelOrder book 2 8 = .ok ([.orderCancelled 2], book') ∧
        Removes book.flat book'.flat ⟨2, 8, 100, 4, .ask, 0⟩) ∧
      cancelOrder book 2 7 = .ok ([], book) := by
  refine ⟨_, rfl, ?_⟩
  obtain ⟨⟨book', hcancel, hremoves, -⟩, hothers⟩ := cancel_resting_order (S := StackSlab)
    (show runOps OrderBook.new
      [.place 1 7 .ask 100 10, .place 2 8 .ask 100 4, .place 3 9 .ask 100 5] = _ from rfl)
    (by decide) ⟨2, 8, 100, 4, .ask, 0⟩ (by decide)
  exact ⟨⟨book', hcancel, hremoves⟩, hothers 7 (by decide)⟩

/-- In every reachable book, whatever ids were placed twice and whatever entries
are stale, a cancel returns. It removes nothing, or one order of the calling
user; everything else is unchanged, and no events are returned exactly when
nothing is removed. -/
theorem cancel_owner_only {book : OrderBook S} (h : Reachable book) (orderId : OrderId)
    (userId : UserId) :
    ∃ events book', cancelOrder book orderId userId = .ok (events, book') ∧
      (book'.flat = book.flat ∨
        ∃ order, order.userId = userId ∧ Removes book.flat book'.flat order) ∧
      (events = [] ↔ book'.flat = book.flat) := by
  cases htarget : cancelTarget book orderId userId with
  | none => exact ⟨[], book, cancelOrder_of_none htarget, .inl rfl, by simp⟩
  | some target =>
    obtain ⟨k, order⟩ := target
    obtain ⟨-, -, huser⟩ := cancelTarget_eq_some.mp htarget
    obtain ⟨book', hcancel, hremoves⟩ := cancelOrder_removes h.inv htarget
    refine ⟨_, book', hcancel, .inr ⟨order, huser, hremoves⟩, ⟨fun hnil => ?_, fun hsame => ?_⟩⟩
    · cases hnil
    · have hlength := hremoves.resting_perm.length_eq
      rw [hsame, List.length_cons] at hlength
      omega

/-- The late cancel of the filled order 1 goes through its stale entry and removes
an order of the same user; the same cancel by user 8 does nothing. -/
theorem cancel_owner_only_stale :
    ∃ book : OrderBook StackSlab, Reachable book ∧
      book.flat.resting = [⟨3, 7, 200, 5, .ask, 0⟩] ∧
      (∃ events book', cancelOrder book 1 7 = .ok (events, book') ∧
        (book'.flat = book.flat ∨
          ∃ order, order.userId = 7 ∧ Removes book.flat book'.flat order)) ∧
      ∃ book', cancelOrder book 1 8 = .ok ([], book') ∧ book'.flat = book.flat := by
  obtain ⟨book, hrun, hflat, hcancel⟩ : ∃ book : OrderBook StackSlab,
      Run nextBook Fresh OrderBook.new book ∧
        book.flat.resting = [⟨3, 7, 200, 5, .ask, 0⟩] ∧ cancelTarget book 1 8 = none :=
    exists_run [.place 1 7 .ask 100 10, .place 2 8 .bid 100 10, .place 3 7 .ask 200 5]
      (by decide +kernel)
  have hreach := run_reachable hrun
  obtain ⟨events, book', hown, hremoved, -⟩ := cancel_owner_only hreach 1 7
  exact ⟨book, hreach, hflat, ⟨events, book', hown, hremoved⟩, book, cancelOrder_of_none hcancel,
    rfl⟩

end EviceChain.Engine
