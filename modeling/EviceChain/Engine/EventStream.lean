import EviceChain.Engine.Processor

/-!
# What a subscriber sees

The events of a placement are broadcast. A subscriber who knows the resting orders
by their ids, and the order of arrival at every price, applies them one after the
other: a trade takes from the maker and deletes it at zero, a cancellation deletes,
and a placement is put to the back of its price.

Results:
1. `walk_view`: the events of a walk turn the view of the makers it met into the
   view of what it leaves;
2. `events_rebuild_book`: the events of a placement turn the view of the book into
   the view of the book afterwards;
3. `broadcast_rebuilds_book`: the same for what the processor broadcasts.
-/

namespace EviceChain.Engine

open Foundation RepresentationLemmas

variable {S : Type → Type} [SlabLike S]

/-- What a subscriber knows of a resting order. -/
structure Entry where
  userId : UserId
  side : Side
  price : Price
  quantity : Quantity
deriving DecidableEq, Repr

def Order.entry (order : Order) : Entry :=
  ⟨order.userId, order.side, order.price, order.quantity⟩

/-- The resting orders by id, and the ids at a price of a side in the order in which
they are served. -/
@[ext]
structure View where
  orders : OrderId → Option Entry
  queue : Side → Price → List OrderId

namespace View

def delete (view : View) (id : OrderId) : View where
  orders := Function.update view.orders id none
  queue side price := (view.queue side price).filter (· ≠ id)

def append (view : View) (id : OrderId) (entry : Entry) : View where
  orders := Function.update view.orders id (some entry)
  queue side price :=
    if side = entry.side ∧ price = entry.price then view.queue side price ++ [id]
    else view.queue side price

def replace (view : View) (id : OrderId) (entry : Entry) : View :=
  { view with orders := Function.update view.orders id (some entry) }

/-- What a subscriber makes of an event. -/
def apply (view : View) : EngineEvent → View
  | .orderPlaced id userId price quantity side => view.append id ⟨userId, side, price, quantity⟩
  | .orderCancelled id => view.delete id
  | .tradeExecuted makerId _ _ quantity =>
    match view.orders makerId with
    | none => view
    | some entry =>
      if entry.quantity - quantity = 0 then view.delete makerId
      else view.replace makerId { entry with quantity := entry.quantity - quantity }
  | .intentResolved .. => view

end View

/-- The first order with the id. -/
def lookup (orders : List Order) (id : OrderId) : Option Entry :=
  (orders.find? (·.id = id)).map Order.entry

def Flat.resting (flat : Flat) : List Order := flat .bid ++ flat .ask

/-- The view of a book: who rests in it, and the queues of its trees. -/
def OrderBook.view (book : OrderBook S) : View where
  orders := lookup book.flat.resting
  queue side price := (((book.tree side).get? price).getD []).filterMap fun k =>
    (SlabLike.get book.orderStore k).map Order.id

/-- The view of the two lists of orders. -/
def Flat.view (flat : Flat) : View where
  orders := lookup flat.resting
  queue side price := ((flat side).filter (·.price = price)).map Order.id

/-! ## Looking up orders -/

namespace EventStreamLemmas

theorem lookup_cons (order : Order) (orders : List Order) (id : OrderId) :
    lookup (order :: orders) id =
      if order.id = id then some order.entry else lookup orders id := by
  unfold lookup
  rw [List.find?_cons]
  split
  · next h => rw [if_pos (of_decide_eq_true h), Option.map_some]
  · next h => rw [if_neg (of_decide_eq_false h)]

theorem lookup_eq_none {orders : List Order} {id : OrderId} (h : id ∉ orders.map Order.id) :
    lookup orders id = none := by
  unfold lookup
  rw [Option.map_eq_none_iff, List.find?_eq_none]
  intro order horder hid
  exact h (List.mem_map.mpr ⟨order, horder, of_decide_eq_true hid⟩)

/-- With distinct ids, the order of the list does not matter. -/
theorem lookup_perm {orders orders' : List Order} (h : orders.Perm orders')
    (hdistinct : (orders.map Order.id).Nodup) : lookup orders = lookup orders' := by
  induction h with
  | nil => rfl
  | cons order _ ih =>
    funext id
    rw [List.map_cons, List.nodup_cons] at hdistinct
    rw [lookup_cons, lookup_cons, ih hdistinct.2]
  | swap a b orders =>
    funext id
    simp only [List.map_cons, List.nodup_cons, List.mem_cons, not_or] at hdistinct
    simp only [lookup_cons]
    split
    · next hb => rw [if_neg fun ha => hdistinct.1.1 (hb.trans ha.symm)]
    · rfl
  | trans h _ ih ih' =>
    exact (ih hdistinct).trans (ih' ((h.map Order.id).nodup_iff.mp hdistinct))

theorem resting_perm (flat : Flat) (side : Side) :
    flat.resting.Perm (flat side ++ flat side.opposite) := by
  cases side with
  | bid => exact .refl _
  | ask => exact List.perm_append_comm

theorem resting_update (flat : Flat) (side : Side) (orders : List Order) :
    (Flat.resting (Function.update flat side orders)).Perm (orders ++ flat side.opposite) := by
  have h := resting_perm (Function.update flat side orders) side
  rwa [Function.update_self, Function.update_of_ne (ne_opposite side).symm] at h

/-! ## What the events do to the view of two lists -/

section Head

variable {flat : Flat} {side : Side} {order : Order} {rest : List Order}

/-- The first order of a side apart, the others have distinct ids as well. -/
theorem distinct_head (hhead : flat side = order :: rest)
    (hdistinct : (flat.resting.map Order.id).Nodup) :
    order.id ∉ (rest ++ flat side.opposite).map Order.id ∧
      ((rest ++ flat side.opposite).map Order.id).Nodup := by
  have h := ((resting_perm flat side).map Order.id).nodup_iff.mp hdistinct
  rw [hhead, List.cons_append, List.map_cons, List.nodup_cons] at h
  exact h

theorem distinct_rest (hhead : flat side = order :: rest)
    (hdistinct : (flat.resting.map Order.id).Nodup) :
    ((Flat.resting (Function.update flat side rest)).map Order.id).Nodup :=
  ((resting_update flat side rest).map Order.id).nodup_iff.mpr (distinct_head hhead hdistinct).2

theorem orders_head (hhead : flat side = order :: rest)
    (hdistinct : (flat.resting.map Order.id).Nodup) :
    flat.view.orders = lookup (order :: (rest ++ flat side.opposite)) := by
  have h := lookup_perm (resting_perm flat side) hdistinct
  rwa [hhead] at h

/-- Deleting the first order of a side. -/
theorem delete_view (hhead : flat side = order :: rest)
    (hdistinct : (flat.resting.map Order.id).Nodup) :
    flat.view.delete order.id = Flat.view (Function.update flat side rest) := by
  obtain ⟨hnew, hothers⟩ := distinct_head hhead hdistinct
  refine View.ext ?_ ?_
  · have hafter : lookup (Flat.resting (Function.update flat side rest)) =
        lookup (rest ++ flat side.opposite) :=
      lookup_perm (resting_update flat side rest) (distinct_rest hhead hdistinct)
    show Function.update flat.view.orders order.id none =
      lookup (Flat.resting (Function.update flat side rest))
    rw [hafter, orders_head hhead hdistinct]
    funext id
    rw [Function.update_apply]
    split
    · next hid => rw [hid, lookup_eq_none hnew]
    · next hid => rw [lookup_cons, if_neg (Ne.symm hid)]
  · funext s p
    show (((flat s).filter (·.price = p)).map Order.id).filter (· ≠ order.id) =
      ((Function.update flat side rest s).filter (·.price = p)).map Order.id
    -- nobody else has the id
    have hkeep : ∀ orders : List Order, (∀ o ∈ orders, o ∈ rest ++ flat side.opposite) →
        ((orders.filter (·.price = p)).map Order.id).filter (· ≠ order.id) =
          (orders.filter (·.price = p)).map Order.id := by
      intro orders hmem
      refine List.filter_eq_self.mpr fun id hid => decide_eq_true ?_
      obtain ⟨o, ho, rfl⟩ := List.mem_map.mp hid
      intro he
      exact hnew (he ▸ List.mem_map_of_mem (hmem o (List.mem_of_mem_filter ho)))
    cases s using sideCases side with
    | same =>
      rw [Function.update_self, hhead, List.filter_cons]
      rw [← hkeep rest fun o ho => List.mem_append_left _ ho]
      split
      · rw [List.map_cons, List.filter_cons_of_neg (by simp)]
      · rfl
    | other =>
      rw [Function.update_of_ne (ne_opposite side).symm]
      exact hkeep _ fun o ho => List.mem_append_right _ ho

/-- Taking from the first order of a side. -/
theorem reduce_view (hhead : flat side = order :: rest)
    (hdistinct : (flat.resting.map Order.id).Nodup) (quantity : Quantity) :
    flat.view.replace order.id { order.entry with quantity := quantity } =
      Flat.view (Function.update flat side ({ order with quantity := quantity } :: rest)) := by
  obtain ⟨hnew, hothers⟩ := distinct_head hhead hdistinct
  refine View.ext ?_ ?_
  · have hafter : lookup (Flat.resting (Function.update flat side
        ({ order with quantity := quantity } :: rest))) =
        lookup ({ order with quantity := quantity } :: (rest ++ flat side.opposite)) := by
      refine lookup_perm (resting_update flat side _) ?_
      refine ((resting_update flat side _).map Order.id).nodup_iff.mpr ?_
      exact List.nodup_cons.mpr ⟨hnew, hothers⟩
    show Function.update flat.view.orders order.id
      (some { order.entry with quantity := quantity }) = lookup (Flat.resting _)
    rw [hafter, orders_head hhead hdistinct]
    funext id
    rw [Function.update_apply, lookup_cons, lookup_cons]
    split
    · next hid =>
      rw [if_pos hid.symm]
      rfl
    · next hid => rw [if_neg (Ne.symm hid), if_neg (Ne.symm hid)]
  · funext s p
    show ((flat s).filter (·.price = p)).map Order.id =
      ((Function.update flat side ({ order with quantity := quantity } :: rest) s).filter
        (·.price = p)).map Order.id
    cases s using sideCases side with
    | same =>
      rw [Function.update_self, hhead, List.filter_cons, List.filter_cons]
      split <;> rfl
    | other => rw [Function.update_of_ne (ne_opposite side).symm]

/-- A trade with the first order of a side. -/
theorem trade_view (hhead : flat side = order :: rest)
    (hdistinct : (flat.resting.map Order.id).Nodup) (takerId : OrderId) (price : Price)
    (quantity : Quantity) :
    flat.view.apply (.tradeExecuted order.id takerId price quantity) =
      Flat.view (Function.update flat side (if order.quantity - quantity = 0 then rest
        else { order with quantity := order.quantity - quantity } :: rest)) := by
  have horders : flat.view.orders order.id = some order.entry := by
    rw [orders_head hhead hdistinct, lookup_cons, if_pos rfl]
  rw [View.apply, horders]
  show (if order.quantity - quantity = 0 then flat.view.delete order.id
    else flat.view.replace order.id
      { order.entry with quantity := order.quantity - quantity }) = _
  split
  · exact delete_view hhead hdistinct
  · exact reduce_view hhead hdistinct _

end Head

/-- In a list in priority order, whoever comes after the place of an order is behind
its price. -/
theorem ahead_of_mem_dropWhile {order : Order} {own : List Order}
    (hordered : own.Pairwise fun a b => ahead order.side b.price a.price = false) :
    ∀ o ∈ own.dropWhile (fun o => !ahead order.side order.price o.price),
      ahead order.side order.price o.price = true := by
  induction own with
  | nil => exact fun _ h => by cases h
  | cons first own ih =>
    obtain ⟨hfirst, hrest⟩ := List.pairwise_cons.mp hordered
    rw [List.dropWhile_cons]
    split
    · exact ih hrest
    · next hplace =>
      have hahead : ahead order.side order.price first.price = true := by simpa using hplace
      refine List.forall_mem_cons.mpr ⟨hahead, fun o ho => ?_⟩
      have hbehind := hfirst o ho
      revert hahead hbehind
      cases order.side with
      | ask =>
        simp only [ahead, decide_eq_true_eq, decide_eq_false_iff_not, not_lt]
        exact lt_of_lt_of_le
      | bid =>
        simp only [ahead, decide_eq_true_eq, decide_eq_false_iff_not, not_lt]
        exact fun hahead hbehind => lt_of_le_of_lt hbehind hahead

/-- The order goes to the back of its price, and the other prices stay. -/
theorem filter_joinBack {order : Order} {own : List Order}
    (hordered : own.Pairwise fun a b => ahead order.side b.price a.price = false) (p : Price) :
    (joinBack order own).filter (·.price = p) =
      if p = order.price then own.filter (·.price = p) ++ [order]
      else own.filter (·.price = p) := by
  have hsplit := List.takeWhile_append_dropWhile
    (p := fun o => !ahead order.side order.price o.price) (l := own)
  have hown : own.filter (·.price = p) = _ := (congrArg (List.filter (·.price = p)) hsplit).symm
  rw [List.filter_append] at hown
  rw [joinBack, List.filter_append, List.filter_cons]
  split
  · next hprice =>
    have hprice := of_decide_eq_true hprice
    have hnone : (own.dropWhile fun o => !ahead order.side order.price o.price).filter
        (·.price = p) = [] := by
      refine List.filter_eq_nil_iff.mpr fun o ho hp => ?_
      have hahead := ahead_of_mem_dropWhile hordered o ho
      rw [of_decide_eq_true hp, ← hprice, not_ahead_self] at hahead
      cases hahead
    rw [if_pos hprice.symm, hown, hnone, List.append_nil]
  · next hprice =>
    have hprice := of_decide_eq_false (Bool.eq_false_iff.mpr hprice)
    rw [if_neg (Ne.symm hprice), hown]

theorem append_view {flat : Flat} (order : Order)
    (hordered : (flat order.side).Pairwise fun a b => ahead order.side b.price a.price = false)
    (hdistinct : (flat.resting.map Order.id).Nodup) (hnew : order.id ∉ flat.resting.map Order.id) :
    flat.view.append order.id order.entry =
      Flat.view (Function.update flat order.side (joinBack order (flat order.side))) := by
  refine View.ext ?_ ?_
  · have hresting : (Flat.resting (Function.update flat order.side
        (joinBack order (flat order.side)))).Perm (order :: flat.resting) := by
      refine (resting_update flat order.side _).trans ?_
      refine ((joinBack_perm order (flat order.side)).append_right _).trans ?_
      exact (resting_perm flat order.side).symm.cons order
    have hall : ((order :: flat.resting).map Order.id).Nodup :=
      List.nodup_cons.mpr ⟨hnew, hdistinct⟩
    show Function.update (lookup flat.resting) order.id (some order.entry) = lookup (Flat.resting _)
    rw [lookup_perm hresting ((hresting.map Order.id).nodup_iff.mpr hall)]
    funext id
    rw [Function.update_apply, lookup_cons]
    split
    · next hid => rw [if_pos hid.symm]
    · next hid => rw [if_neg (Ne.symm hid)]
  · funext s p
    show (if s = order.side ∧ p = order.price then
        ((flat s).filter (·.price = p)).map Order.id ++ [order.id]
      else ((flat s).filter (·.price = p)).map Order.id) =
      ((Function.update flat order.side (joinBack order (flat order.side)) s).filter
        (·.price = p)).map Order.id
    cases s using sideCases order.side with
    | same =>
      rw [Function.update_self, filter_joinBack hordered]
      split
      · next h => rw [if_pos h.2, List.map_append, List.map_singleton]
      · next h => rw [if_neg fun hp => h ⟨rfl, hp⟩]
    | other =>
      rw [Function.update_of_ne (ne_opposite order.side).symm, if_neg]
      exact fun h => ne_opposite order.side h.1.symm

end EventStreamLemmas

open EventStreamLemmas

/-- The events of a walk, applied to the view of the book before it. -/
theorem walk_view {orderId : OrderId} {userId : UserId} {side : Side} {price : Price}
    {flat : Flat} (hdistinct : (flat.resting.map Order.id).Nodup) (quantity : Quantity) :
    (walk orderId userId side price quantity (flat side.opposite)).events.foldl View.apply
        flat.view =
      Flat.view (Function.update flat side.opposite
        (walk orderId userId side price quantity (flat side.opposite)).makers) := by
  -- the walk deletes or reduces the first maker and goes on with the others
  refine walk_induction (P := fun _ makers w => ∀ flat : Flat, flat side.opposite = makers →
    (flat.resting.map Order.id).Nodup → w.events.foldl View.apply flat.view =
      Flat.view (Function.update flat side.opposite w.makers))
    ?_ ?_ ?_ ?_ ?_ quantity (flat side.opposite) flat rfl hdistinct
  · intro _ flat hmakers _
    rw [← hmakers, Function.update_eq_self]
    rfl
  · intro _ maker makers _ flat hmakers _
    rw [← hmakers, Function.update_eq_self]
    rfl
  · intro _ maker makers _ _ _ w _ ih flat hmakers hdistinct
    have hrest := ih _ (Function.update_self side.opposite makers flat)
      (distinct_rest hmakers hdistinct)
    rw [List.foldl_cons, View.apply, delete_view hmakers hdistinct, hrest, Function.update_idem]
  · intro quantity maker makers _ _ _ hconsumed w _ ih flat hmakers hdistinct
    have hrest := ih _ (Function.update_self side.opposite makers flat)
      (distinct_rest hmakers hdistinct)
    rw [List.foldl_cons, trade_view hmakers hdistinct, if_pos hconsumed, hrest,
      Function.update_idem]
  · intro quantity maker makers _ _ _ hleft flat hmakers hdistinct
    rw [List.foldl_cons, List.foldl_nil, trade_view hmakers hdistinct, if_neg hleft]

namespace EventStreamLemmas

theorem place_view {flat : Flat} (hordered : flat.Ordered)
    (hdistinct : (flat.resting.map Order.id).Nodup) {orderId : OrderId}
    (hnew : orderId ∉ flat.resting.map Order.id) (userId : UserId) (side : Side) (price : Price)
    (quantity : Quantity) :
    (flat.place orderId userId side price quantity).1.foldl View.apply flat.view =
      Flat.view (flat.place orderId userId side price quantity).2 := by
  -- the ids in the book after the walk are ids that were there before
  have hids : ∃ ids, ((Flat.resting (Function.update flat side.opposite
      (walk orderId userId side price quantity (flat side.opposite)).makers)).map Order.id).Perm
        ids ∧ ids.Sublist ((flat side.opposite ++ flat side).map Order.id) := by
    refine ⟨_, (resting_update flat side.opposite _).map Order.id, ?_⟩
    rw [opposite_opposite, List.map_append, List.map_append]
    exact (walk_map_sublist fun _ _ => rfl).append_right _
  obtain ⟨ids, hperm, hsub⟩ := hids
  have hbefore := (resting_perm flat side.opposite).map Order.id
  rw [opposite_opposite] at hbefore
  have hdistinct' := hperm.nodup_iff.mpr ((hbefore.nodup_iff.mp hdistinct).sublist hsub)
  have hnew' := fun hmem => hnew (hbefore.mem_iff.mpr (hsub.subset (hperm.mem_iff.mp hmem)))
  have hown := Function.update_of_ne (ne_opposite side)
    (walk orderId userId side price quantity (flat side.opposite)).makers flat
  unfold Flat.place
  dsimp only
  split
  · rw [List.foldl_append, walk_view hdistinct, List.foldl_cons, List.foldl_nil]
    refine append_view ⟨orderId, userId, price, _, side, 0⟩ ?_ hdistinct' hnew'
    rw [hown]
    exact hordered side
  · exact walk_view hdistinct quantity

/-- The orders at a price, among all those of a side. -/
theorem filter_flat {book : OrderBook S} (hinv : Inv book) (side : Side) (price : Price) :
    (book.flat side).filter (·.price = price) =
      (((book.tree side).get? price).getD []).filterMap (SlabLike.get book.orderStore) := by
  have hlevel : ∀ level ∈ book.levels side,
      (level.2.filterMap (SlabLike.get book.orderStore)).filter (·.price = price) =
        if level.1 = price then level.2.filterMap (SlabLike.get book.orderStore) else [] := by
    intro level hlevel
    have hprice : ∀ o ∈ level.2.filterMap (SlabLike.get book.orderStore), o.price = level.1 := by
      intro o ho
      obtain ⟨k, hk, hget⟩ := List.mem_filterMap.mp ho
      obtain ⟨o', hget', -, hprice, -⟩ := hinv.resting side level hlevel k hk
      rw [hget] at hget'
      exact Option.some.inj hget' ▸ hprice
    split
    · next he => exact List.filter_eq_self.mpr fun o ho => decide_eq_true ((hprice o ho).trans he)
    · next hne =>
      refine List.filter_eq_nil_iff.mpr fun o ho he => hne ?_
      rw [← hprice o ho, of_decide_eq_true he]
  have hflat : (book.flat side).filter (·.price = price) = (book.levels side).flatMap fun level =>
      if level.1 = price then level.2.filterMap (SlabLike.get book.orderStore) else [] := by
    rw [OrderBook.flat, OrderBook.keys, List.filterMap_flatMap, List.filter_flatMap]
    exact List.flatMap_congr hlevel
  rw [hflat]
  cases hget : (book.tree side).get? price with
  | none =>
    refine List.flatMap_eq_nil_iff.mpr fun level hmem => if_neg fun he => ?_
    have hsome := SortedMap.get?_eq_some_iff.mpr (mem_treeLevels.mp hmem)
    rw [he, hget] at hsome
    cases hsome
  | some queue =>
    obtain ⟨l₁, l₂, hsplit⟩ := treeLevels_get? side hget
    obtain ⟨hbefore, hafter⟩ := treeLevels_split hsplit
    have hother : ∀ l : List (Price × List Nat), (∀ level ∈ l, level.1 ≠ price) →
        (l.flatMap fun level => if level.1 = price then
          level.2.filterMap (SlabLike.get book.orderStore) else []) = [] :=
      fun l hne => List.flatMap_eq_nil_iff.mpr fun level hmem => if_neg (hne level hmem)
    have hne : ∀ {p q : Price}, ahead side p q = true → p ≠ q := by
      rintro p _ hahead rfl
      rw [not_ahead_self] at hahead
      cases hahead
    rw [OrderBook.levels, hsplit, List.flatMap_append, List.flatMap_cons, if_pos rfl,
      hother l₁ fun level hmem => hne (hbefore level hmem),
      hother l₂ fun level hmem => (hne (hafter level hmem)).symm, List.nil_append, List.append_nil,
      Option.getD_some]

theorem view_eq {book : OrderBook S} (hinv : Inv book) : book.view = book.flat.view := by
  refine View.ext rfl ?_
  funext side price
  show (((book.tree side).get? price).getD []).filterMap
      (fun k => (SlabLike.get book.orderStore k).map Order.id) =
    ((book.flat side).filter (·.price = price)).map Order.id
  rw [filter_flat hinv, List.map_filterMap]

theorem placeLimitOrder_view {book : OrderBook S} (hinv : Inv book)
    (hdistinct : (book.flat.resting.map Order.id).Nodup) {orderId : OrderId}
    (hnew : orderId ∉ book.flat.resting.map Order.id) (userId : UserId) (side : Side)
    (price : Price) (quantity : Quantity) :
    ∃ events book', placeLimitOrder book orderId userId side price quantity = .ok (events, book') ∧
      events.foldl View.apply book.view = book'.view := by
  obtain ⟨book', hplace, hflat, hinv'⟩ :=
    placeLimitOrder_spec hinv orderId userId side price quantity
  refine ⟨_, book', hplace, ?_⟩
  rw [view_eq hinv, view_eq hinv', hflat]
  exact place_view hinv.flat_ordered hdistinct hnew userId side price quantity

end EventStreamLemmas

/-- On every reachable book whose resting orders have distinct ids, the events of a
placement under a new id turn the view of the book into the view of the book
afterwards. -/
theorem events_rebuild_book {book : OrderBook S} (hbook : Reachable book)
    (hdistinct : (book.flat.resting.map Order.id).Nodup) {orderId : OrderId}
    (hnew : orderId ∉ book.flat.resting.map Order.id) (userId : UserId) (side : Side)
    (price : Price) (quantity : Quantity) :
    ∃ events book', placeLimitOrder book orderId userId side price quantity = .ok (events, book') ∧
      events.foldl View.apply book.view = book'.view :=
  placeLimitOrder_view hbook.inv hdistinct hnew userId side price quantity

/-- A bid that fills two asks, cancels one of its own user between them, and rests. -/
theorem events_rebuild_book_fills :
    ∃ book : OrderBook StackSlab, Reachable book ∧
      book.flat .ask =
        [⟨1, 7, 100, 10, .ask, 0⟩, ⟨2, 8, 100, 5, .ask, 0⟩, ⟨3, 7, 101, 10, .ask, 0⟩] ∧
      ∃ events book', placeLimitOrder book 4 8 .bid 101 25 = .ok (events, book') ∧
        events.foldl View.apply book.view = book'.view := by
  have h₁ : Reachable (S := StackSlab) _ :=
    .step .new (rfl : applyOp _ (.place 1 7 .ask 100 10) = _)
  have h₂ := h₁.step (rfl : applyOp _ (.place 2 8 .ask 100 5) = _)
  have h₃ := h₂.step (rfl : applyOp _ (.place 3 7 .ask 101 10) = _)
  exact ⟨_, h₃, rfl, events_rebuild_book h₃ (by decide) (by decide) 8 .bid 101 25⟩

/-- What the processor broadcasts for an order rebuilds its book. -/
theorem broadcast_rebuilds_book {profile : Profile} {io : Nat → WriteOutcome} {now : Nat}
    {p : MarketProcessor S} (hbook : Reachable p.book)
    (hdistinct : (p.book.flat.resting.map Order.id).Nodup) {orderId : OrderId}
    (hnew : orderId ∉ p.book.flat.resting.map Order.id) (userId : UserId) (side : Side)
    (price : Price) (quantity : Quantity) :
    ∃ events p', handleCommand profile io now p
        (.placeOrder userId orderId side price quantity) = .ok (.events events, p') ∧
      p'.eventBroadcaster = p.eventBroadcaster ++ events ∧
      events.foldl View.apply p.book.view = p'.book.view := by
  obtain ⟨events, book', hplace, hview⟩ :=
    placeLimitOrder_view hbook.inv hdistinct hnew userId side price quantity
  exact ⟨events, _, by rw [handleCommand, hplace]; rfl, rfl, hview⟩

end EviceChain.Engine
