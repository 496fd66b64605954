import EviceChain.Engine.OrderBook

/-!
# Price-time priority

What the order book is for, stated without its data structures: each side is
one list of resting orders, best price first and first come first served at a
price. A taker walks the opposite list from its head (`walk`) and what is left
of it joins the back of its own price level (`Flat.place`).

Results:
1. `walk_append`: a walk through two stretches of makers, the first of which
   crosses the limit throughout, is a walk through each;
2. `Flat.place_uncrossed`: a placement never lets a bid reach an ask.
-/

namespace EviceChain.Engine

/-- Price `p` comes strictly before price `q` in the queue of a side: the asks
run upwards, the bids downwards. -/
def ahead (side : Side) (p q : Price) : Bool :=
  match side with
  | .ask => p < q
  | .bid => q < p

/-- The outcome of a walk: the events, what is left of the taker and what is
left of the makers. -/
structure Walk where
  events : List EngineEvent
  quantity : Quantity
  makers : List Order
deriving DecidableEq, Repr

/-- A taker meets the makers one after the other while it has quantity left and
the maker's price crosses its limit. A maker of the same user is dropped;
otherwise both trade the smaller quantity at the maker's price. -/
def walk (orderId : OrderId) (userId : UserId) (side : Side) (price : Price) :
    Quantity → List Order → Walk
  | quantity, [] => ⟨[], quantity, []⟩
  | quantity, maker :: makers =>
    if quantity = 0 ∨ isMatchable side maker.price price = false then
      ⟨[], quantity, maker :: makers⟩
    else if maker.userId = userId then
      let rest := walk orderId userId side price quantity makers
      { rest with events := .orderCancelled maker.id :: rest.events }
    else
      let traded := min quantity maker.quantity
      let trade := EngineEvent.tradeExecuted maker.id orderId maker.price traded
      if maker.quantity - traded = 0 then
        let rest := walk orderId userId side price (quantity - traded) makers
        { rest with events := trade :: rest.events }
      else
        -- the maker outlasts the taker, so the walk is over
        ⟨[trade], quantity - traded,
          { maker with quantity := maker.quantity - traded } :: makers⟩

/-- The two sides of a book as lists, best price first. -/
abbrev Flat := Side → List Order

/-- The order goes behind every order that it is not strictly ahead of: on a
list in priority order, to the back of its level. -/
def joinBack (order : Order) (own : List Order) : List Order :=
  own.takeWhile (fun o => !ahead order.side order.price o.price) ++
    order :: own.dropWhile (fun o => !ahead order.side order.price o.price)

def Flat.place (flat : Flat) (orderId : OrderId) (userId : UserId) (side : Side) (price : Price)
    (quantity : Quantity) : List EngineEvent × Flat :=
  let w := walk orderId userId side price quantity (flat side.opposite)
  let flat := Function.update flat side.opposite w.makers
  if 0 < w.quantity then
    let order : Order :=
      { id := orderId, userId, price, quantity := w.quantity, side, timestamp := 0 }
    (w.events ++ [.orderPlaced orderId userId price w.quantity side],
      Function.update flat side (joinBack order (flat side)))
  else (w.events, flat)

/-! ## Walks -/

section Walk

variable {orderId : OrderId} {userId : UserId} {side : Side} {price : Price}
  {quantity : Quantity} {maker : Order} {makers rest : List Order}

theorem min_sub_eq_zero (q m : UInt64) : q - min q m = 0 ∨ m - min q m = 0 := by
  rcases le_total q m with h | h
  · exact .inl (by rw [min_eq_left h, UInt64.sub_self])
  · exact .inr (by rw [min_eq_right h, UInt64.sub_self])

theorem walk_zero : walk orderId userId side price 0 makers = ⟨[], 0, makers⟩ := by
  cases makers with
  | nil => rfl
  | cons maker makers => simp [walk]

theorem walk_blocked (h : isMatchable side maker.price price = false) :
    walk orderId userId side price quantity (maker :: makers) =
      ⟨[], quantity, maker :: makers⟩ := by
  simp [walk, h]

theorem walk_self (hq : quantity ≠ 0) (hm : isMatchable side maker.price price = true)
    (hu : maker.userId = userId) :
    walk orderId userId side price quantity (maker :: makers) =
      { walk orderId userId side price quantity makers with
        events := .orderCancelled maker.id ::
          (walk orderId userId side price quantity makers).events } := by
  simp [walk, hq, hm, hu]

theorem walk_consumed (hq : quantity ≠ 0) (hm : isMatchable side maker.price price = true)
    (hu : maker.userId ≠ userId) (hl : maker.quantity - min quantity maker.quantity = 0) :
    walk orderId userId side price quantity (maker :: makers) =
      { walk orderId userId side price (quantity - min quantity maker.quantity) makers with
        events := .tradeExecuted maker.id orderId maker.price (min quantity maker.quantity) ::
          (walk orderId userId side price (quantity - min quantity maker.quantity)
            makers).events } := by
  simp only [walk, hq, hm, hu, hl, false_or, Bool.true_eq_false, if_false, if_true]

theorem walk_outlasted (hq : quantity ≠ 0) (hm : isMatchable side maker.price price = true)
    (hu : maker.userId ≠ userId) (hl : maker.quantity - min quantity maker.quantity ≠ 0) :
    walk orderId userId side price quantity (maker :: makers) =
      ⟨[.tradeExecuted maker.id orderId maker.price (min quantity maker.quantity)], 0,
        { maker with quantity := maker.quantity - min quantity maker.quantity } :: makers⟩ := by
  have hz : quantity - min quantity maker.quantity = 0 :=
    (min_sub_eq_zero quantity maker.quantity).resolve_right hl
  simp only [walk, hq, hm, hu, hl, hz, false_or, Bool.true_eq_false, if_false]

/-- The cases of a walk that meets a maker, as an induction principle: what
holds of the three ways to stop and passes through the two ways to go on holds
of every walk. -/
theorem walk_induction {P : Quantity → List Order → Walk → Prop}
    (nil : ∀ quantity, P quantity [] ⟨[], quantity, []⟩)
    (stop : ∀ quantity maker makers,
      quantity = 0 ∨ isMatchable side maker.price price = false →
      P quantity (maker :: makers) ⟨[], quantity, maker :: makers⟩)
    (self : ∀ quantity maker makers, quantity ≠ 0 →
      isMatchable side maker.price price = true → maker.userId = userId →
      ∀ w, w = walk orderId userId side price quantity makers → P quantity makers w →
      P quantity (maker :: makers) { w with events := .orderCancelled maker.id :: w.events })
    (consumed : ∀ quantity maker makers, quantity ≠ 0 →
      isMatchable side maker.price price = true → maker.userId ≠ userId →
      maker.quantity - min quantity maker.quantity = 0 →
      ∀ w, w = walk orderId userId side price (quantity - min quantity maker.quantity) makers →
      P (quantity - min quantity maker.quantity) makers w →
      P quantity (maker :: makers) { w with
        events := .tradeExecuted maker.id orderId maker.price (min quantity maker.quantity) ::
          w.events })
    (outlasted : ∀ quantity maker makers, quantity ≠ 0 →
      isMatchable side maker.price price = true → maker.userId ≠ userId →
      maker.quantity - min quantity maker.quantity ≠ 0 →
      P quantity (maker :: makers)
        ⟨[.tradeExecuted maker.id orderId maker.price (min quantity maker.quantity)], 0,
          { maker with quantity := maker.quantity - min quantity maker.quantity } :: makers⟩)
    (quantity : Quantity) (makers : List Order) :
    P quantity makers (walk orderId userId side price quantity makers) := by
  induction makers generalizing quantity with
  | nil => exact nil quantity
  | cons maker makers ih =>
    by_cases hstop : quantity = 0 ∨ isMatchable side maker.price price = false
    · rw [walk, if_pos hstop]
      exact stop quantity maker makers hstop
    · obtain ⟨hq, hm⟩ := not_or.mp hstop
      rw [Bool.not_eq_false] at hm
      by_cases hu : maker.userId = userId
      · rw [walk_self hq hm hu]
        exact self quantity maker makers hq hm hu _ rfl (ih quantity)
      · by_cases hl : maker.quantity - min quantity maker.quantity = 0
        · rw [walk_consumed hq hm hu hl]
          exact consumed quantity maker makers hq hm hu hl _ rfl (ih _)
        · rw [walk_outlasted hq hm hu hl]
          exact outlasted quantity maker makers hq hm hu hl

theorem walk_unreached (h : ∀ maker ∈ makers, isMatchable side maker.price price = false) :
    walk orderId userId side price quantity makers = ⟨[], quantity, makers⟩ := by
  cases makers with
  | nil => rfl
  | cons maker makers => exact walk_blocked (h maker List.mem_cons_self)

/-- A walk drops makers from the front and lowers the quantity of one; what does
not look at quantities sees a sublist. -/
theorem walk_map_sublist {β : Type} {f : Order → β}
    (hf : ∀ (o : Order) q, f { o with quantity := q } = f o) :
    ((walk orderId userId side price quantity makers).makers.map f).Sublist (makers.map f) := by
  refine walk_induction (P := fun _ makers w => (w.makers.map f).Sublist (makers.map f))
    ?_ ?_ ?_ ?_ ?_ quantity makers
  · exact fun _ => .refl _
  · exact fun _ _ _ _ => .refl _
  · exact fun _ _ _ _ _ _ _ _ ih => ih.cons _
  · exact fun _ _ _ _ _ _ _ _ _ ih => ih.cons _
  · intro _ maker makers _ _ _ _
    simp only [List.map_cons, hf]
    exact .refl _

/-- If the makers are in priority order and the taker outlasts the walk, what is
left of them is out of its reach. -/
theorem walk_leftover (hordered : makers.Pairwise fun a b =>
      isMatchable side b.price price = true → isMatchable side a.price price = true)
    (hleft : (walk orderId userId side price quantity makers).quantity ≠ 0) :
    ∀ maker ∈ (walk orderId userId side price quantity makers).makers,
      isMatchable side maker.price price = false := by
  revert hordered hleft
  refine walk_induction (P := fun _ makers w =>
    makers.Pairwise (fun a b =>
      isMatchable side b.price price = true → isMatchable side a.price price = true) →
    w.quantity ≠ 0 → ∀ maker ∈ w.makers, isMatchable side maker.price price = false)
    ?_ ?_ ?_ ?_ ?_ quantity makers
  · intro _ _ _ maker hmaker
    cases hmaker
  · rintro q maker makers (rfl | hblocked) hordered hleft m hm
    · exact absurd rfl hleft
    · rcases List.mem_cons.mp hm with rfl | hm
      · exact hblocked
      · -- a later maker in reach would put the first one in reach
        have hfirst := (List.pairwise_cons.mp hordered).1 m hm
        rw [← Bool.not_eq_true]
        intro hmatch
        rw [hfirst hmatch] at hblocked
        cases hblocked
  · exact fun _ _ _ _ _ _ _ _ ih hordered => ih (List.pairwise_cons.mp hordered).2
  · exact fun _ _ _ _ _ _ _ _ _ ih hordered => ih (List.pairwise_cons.mp hordered).2
  · exact fun _ _ _ _ _ _ _ _ hleft => absurd rfl hleft

theorem walk_append (h : ∀ maker ∈ makers, isMatchable side maker.price price = true) :
    walk orderId userId side price quantity (makers ++ rest) =
      let first := walk orderId userId side price quantity makers
      let second := walk orderId userId side price first.quantity rest
      ⟨first.events ++ second.events, second.quantity, first.makers ++ second.makers⟩ := by
  induction makers generalizing quantity with
  | nil => rfl
  | cons maker makers ih =>
    have hm := h maker List.mem_cons_self
    have hall : ∀ m ∈ makers, isMatchable side m.price price = true :=
      fun m hm => h m (List.mem_cons_of_mem _ hm)
    rw [List.cons_append]
    by_cases hq : quantity = 0
    · subst hq
      simp only [walk_zero, List.nil_append, List.cons_append]
    · by_cases hu : maker.userId = userId
      · simp only [walk_self hq hm hu, ih hall, List.cons_append]
      · by_cases hl : maker.quantity - min quantity maker.quantity = 0
        · simp only [walk_consumed hq hm hu hl, ih hall, List.cons_append]
        · simp only [walk_outlasted hq hm hu hl, walk_zero, List.append_nil, List.cons_append]

end Walk

/-! ## Priority order and crossing -/

/-- Each side lists its orders best price first. -/
def Flat.Ordered (flat : Flat) : Prop :=
  ∀ side, (flat side).Pairwise fun a b => ahead side b.price a.price = false

/-- Every bid is below every ask. -/
def Flat.Uncrossed (flat : Flat) : Prop :=
  ∀ bid ∈ flat .bid, ∀ ask ∈ flat .ask, bid.price < ask.price

theorem joinBack_perm (order : Order) (own : List Order) :
    (joinBack order own).Perm (order :: own) := by
  refine List.perm_middle.trans (.cons order ?_)
  rw [List.takeWhile_append_dropWhile]

/-- Seen from either side, an uncrossed book has no order in reach of another. -/
theorem Flat.uncrossed_iff {flat : Flat} (side : Side) :
    flat.Uncrossed ↔ ∀ own ∈ flat side, ∀ maker ∈ flat side.opposite,
      isMatchable side maker.price own.price = false := by
  cases side with
  | bid => simp [Flat.Uncrossed, Side.opposite, isMatchable]
  | ask =>
    simp only [Flat.Uncrossed, Side.opposite, isMatchable, decide_eq_false_iff_not, ge_iff_le,
      not_le]
    exact ⟨fun h a ha b hb => h b hb a ha, fun h b hb a ha => h a ha b hb⟩

theorem isMatchable_of_behind {side : Side} {p q price : Price}
    (h : ahead side.opposite q p = false) (hq : isMatchable side q price = true) :
    isMatchable side p price = true := by
  cases side with
  | bid =>
    simp only [ahead, Side.opposite, isMatchable, decide_eq_false_iff_not, not_lt,
      decide_eq_true_eq] at h hq ⊢
    exact le_trans h hq
  | ask =>
    simp only [ahead, Side.opposite, isMatchable, decide_eq_false_iff_not, not_lt,
      decide_eq_true_eq] at h hq ⊢
    exact le_trans hq h

section Place

variable (flat : Flat) (orderId : OrderId) (userId : UserId) (side : Side) (price : Price)
  (quantity : Quantity)

theorem Flat.place_opposite : (flat.place orderId userId side price quantity).2 side.opposite =
    (walk orderId userId side price quantity (flat side.opposite)).makers := by
  have hne : side.opposite ≠ side := by cases side <;> decide
  unfold Flat.place
  dsimp only
  split
  · dsimp only
    rw [Function.update_of_ne hne, Function.update_self]
  · dsimp only
    rw [Function.update_self]

theorem Flat.place_own : (flat.place orderId userId side price quantity).2 side =
    let left := (walk orderId userId side price quantity (flat side.opposite)).quantity
    if 0 < left then joinBack ⟨orderId, userId, price, left, side, 0⟩ (flat side)
    else flat side := by
  have hne : side ≠ side.opposite := by cases side <;> decide
  unfold Flat.place
  dsimp only
  split
  · dsimp only
    rw [Function.update_self, Function.update_of_ne hne]
  · dsimp only
    rw [Function.update_of_ne hne]

end Place

theorem Flat.place_uncrossed {flat : Flat} (hordered : flat.Ordered) (hflat : flat.Uncrossed)
    (orderId : OrderId) (userId : UserId) (side : Side) (price : Price) (quantity : Quantity) :
    (flat.place orderId userId side price quantity).2.Uncrossed := by
  rw [Flat.uncrossed_iff side] at hflat ⊢
  -- what is left of a maker has the price it had
  have hold : ∀ own ∈ flat side,
      ∀ maker ∈ (walk orderId userId side price quantity (flat side.opposite)).makers,
        isMatchable side maker.price own.price = false := by
    intro own hown maker hmaker
    have hprice := (walk_map_sublist (f := Order.price) fun _ _ => rfl).subset
      (List.mem_map_of_mem hmaker)
    obtain ⟨maker₀, hmaker₀, heq⟩ := List.mem_map.mp hprice
    rw [← heq]
    exact hflat own hown maker₀ hmaker₀
  intro own hown maker hmaker
  rw [Flat.place_opposite] at hmaker
  rw [Flat.place_own] at hown
  dsimp only at hown
  split at hown
  · next hleft =>
    rcases List.mem_cons.mp ((joinBack_perm _ _).mem_iff.mp hown) with rfl | hown
    · refine walk_leftover ?_ (UInt64.pos_iff_ne_zero.mp hleft) maker hmaker
      exact (hordered side.opposite).imp fun h => isMatchable_of_behind h
    · exact hold own hown maker hmaker
  · exact hold own hown maker hmaker

end EviceChain.Engine
