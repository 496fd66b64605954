import EviceChain.Engine.Ledger
import EviceChain.Engine.OrderEntry

/-!
# How orders are executed

What the users of the book may rely on, whatever is placed and cancelled, also where
order ids are used again:

1. `trades_fair`: every trade of a run is one between an order that is being placed
   and one that was placed before, on opposite sides and by different users, at the
   limit price of the earlier one and within the limit of the later one, and when it
   is done nobody at a better price is left waiting;
2. `place_reported`: the response to a placement says whether the order had a quantity
   at all, and lists its trades; their quantities and what rests of the order make up
   the quantity that was asked for.
-/

namespace EviceChain.Engine

open Foundation RepresentationLemmas MatchingLemmas LedgerLemmas

variable {S : Type → Type} [SlabLike S]

/-! ## The trades of a walk -/

/-- The event is a trade of the taker with the maker: at the maker's price, which is
within the limit, and for no more than either has. -/
structure TradesWith (takerId : OrderId) (userId : UserId) (side : Side) (limit : Price)
    (quantity : Quantity) (maker : Order) (event : EngineEvent) (amount : Quantity) : Prop where
  trade : event = .tradeExecuted maker.id takerId maker.price amount
  otherUser : maker.userId ≠ userId
  withinLimit : isMatchable side maker.price limit = true
  ofTaker : amount ≤ quantity
  ofMaker : amount ≤ maker.quantity
  positive : 0 < maker.quantity → 0 < amount

namespace ExecutionLemmas

variable {takerId : OrderId} {userId : UserId} {side : Side} {limit : Price} {quantity : Quantity}
  {makers : List Order}

theorem sub_min_le (q m : Quantity) : q - min q m ≤ q := by
  rw [UInt64.le_iff_toNat_le, UInt64.toNat_sub_of_le _ _ (min_le_left q m)]
  exact Nat.sub_le _ _

theorem tradesWith_min {maker : Order} (hq : quantity ≠ 0)
    (hmatch : isMatchable side maker.price limit = true) (huser : maker.userId ≠ userId) :
    TradesWith takerId userId side limit quantity maker
      (.tradeExecuted maker.id takerId maker.price (min quantity maker.quantity))
      (min quantity maker.quantity) where
  trade := rfl
  otherUser := huser
  withinLimit := hmatch
  ofTaker := min_le_left _ _
  ofMaker := min_le_right _ _
  positive hmaker := lt_min (UInt64.pos_iff_ne_zero.mpr hq) hmaker

/-- Every event of a walk is a trade with one of the makers, or drops one. -/
theorem walk_events (takerId : OrderId) (userId : UserId) (side : Side) (limit : Price)
    (quantity : Quantity) (makers : List Order) :
    ∀ event ∈ (walk takerId userId side limit quantity makers).events,
      (∃ maker ∈ makers, ∃ amount,
        TradesWith takerId userId side limit quantity maker event amount) ∨
      ∃ id, event = .orderCancelled id := by
  refine walk_induction (P := fun quantity makers w => ∀ event ∈ w.events,
    (∃ maker ∈ makers, ∃ amount,
      TradesWith takerId userId side limit quantity maker event amount) ∨
    ∃ id, event = .orderCancelled id) ?_ ?_ ?_ ?_ ?_ quantity makers
  · exact fun _ _ h => nomatch h
  · exact fun _ _ _ _ _ h => nomatch h
  · intro quantity maker makers _ _ _ w _ ih
    refine List.forall_mem_cons.mpr ⟨.inr ⟨_, rfl⟩, fun event hevent => ?_⟩
    rcases ih event hevent with ⟨other, hother, htrade⟩ | hcancel
    · exact .inl ⟨other, List.mem_cons_of_mem _ hother, htrade⟩
    · exact .inr hcancel
  · intro quantity maker makers hq hmatch huser _ w _ ih
    refine List.forall_mem_cons.mpr
      ⟨.inl ⟨maker, List.mem_cons_self, _, tradesWith_min hq hmatch huser⟩, fun event hevent => ?_⟩
    rcases ih event hevent with ⟨other, hother, amount, htrade⟩ | hcancel
    · -- what the taker has left is less than what it came with
      exact .inl ⟨other, List.mem_cons_of_mem _ hother, amount,
        { htrade with ofTaker := le_trans htrade.ofTaker (sub_min_le _ _) }⟩
    · exact .inr hcancel
  · intro quantity maker makers hq hmatch huser _
    exact List.forall_mem_singleton.mpr
      (.inl ⟨maker, List.mem_cons_self, _, tradesWith_min hq hmatch huser⟩)

/-- What a walk leaves of a maker is the maker, with no more than it had. -/
theorem walk_left (takerId : OrderId) (userId : UserId) (side : Side) (limit : Price)
    (quantity : Quantity) (makers : List Order) :
    ∀ left ∈ (walk takerId userId side limit quantity makers).makers, ∃ maker ∈ makers,
      left = { maker with quantity := left.quantity } ∧ left.quantity ≤ maker.quantity := by
  refine walk_induction (P := fun _ makers w => ∀ left ∈ w.makers, ∃ maker ∈ makers,
    left = { maker with quantity := left.quantity } ∧ left.quantity ≤ maker.quantity)
    ?_ ?_ ?_ ?_ ?_ quantity makers
  · exact fun _ _ h => nomatch h
  · exact fun _ _ _ _ left hleft => ⟨left, hleft, rfl, le_refl _⟩
  · intro _ maker makers _ _ _ w _ ih left hleft
    obtain ⟨other, hother, h⟩ := ih left hleft
    exact ⟨other, List.mem_cons_of_mem _ hother, h⟩
  · intro _ maker makers _ _ _ _ w _ ih left hleft
    obtain ⟨other, hother, h⟩ := ih left hleft
    exact ⟨other, List.mem_cons_of_mem _ hother, h⟩
  · intro quantity maker makers _ _ _ _ left hleft
    rcases List.mem_cons.mp hleft with rfl | hleft
    · refine ⟨maker, List.mem_cons_self, rfl, ?_⟩
      rw [min_comm]
      exact sub_min_le _ _
    · exact ⟨left, List.mem_cons_of_mem _ hleft, rfl, le_refl _⟩

theorem walk_quantity_le (takerId : OrderId) (userId : UserId) (side : Side) (limit : Price)
    (quantity : Quantity) (makers : List Order) :
    (walk takerId userId side limit quantity makers).quantity ≤ quantity := by
  rw [UInt64.le_iff_toNat_le, ← walk_taker takerId userId side limit quantity makers]
  exact Nat.le_add_left _ _

theorem ahead_self (side : Side) (price : Price) : ahead side price price = false := by
  cases side <;> simp [ahead]

/-- Nobody at a better price than that of a trade is left. -/
theorem walk_best {own : Side}
    (hordered : makers.Pairwise fun a b => ahead own b.price a.price = false) :
    ∀ makerId price amount, .tradeExecuted makerId takerId price amount ∈
        (walk takerId userId side limit quantity makers).events →
      ∀ left ∈ (walk takerId userId side limit quantity makers).makers,
        ahead own left.price price = false := by
  revert hordered
  refine walk_induction (P := fun _ makers w =>
    makers.Pairwise (fun a b => ahead own b.price a.price = false) →
    ∀ makerId price amount, .tradeExecuted makerId takerId price amount ∈ w.events →
      ∀ left ∈ w.makers, ahead own left.price price = false) ?_ ?_ ?_ ?_ ?_ quantity makers
  · exact fun _ _ _ _ _ h => nomatch h
  · exact fun _ _ _ _ _ _ _ _ h => nomatch h
  · intro _ maker makers _ _ _ w _ ih hordered makerId price amount hmem
    refine ih (List.pairwise_cons.mp hordered).2 makerId price amount ?_
    exact (List.mem_cons.mp hmem).resolve_left fun h => by cases h
  · intro quantity maker makers _ _ _ _ w hw ih hordered makerId price amount hmem left hleft
    obtain ⟨hfirst, hrest⟩ := List.pairwise_cons.mp hordered
    rcases List.mem_cons.mp hmem with hmem | hmem
    · -- the maker that is consumed stood in front of all that are left
      cases hmem
      rw [hw] at hleft
      obtain ⟨other, hother, heq, -⟩ := walk_left _ _ _ _ _ _ left hleft
      rw [heq]
      exact hfirst other hother
    · exact ih hrest makerId price amount hmem left hleft
  · intro quantity maker makers _ _ _ _ hordered makerId price amount hmem left hleft
    cases List.mem_singleton.mp hmem
    rcases List.mem_cons.mp hleft with rfl | hleft
    · exact ahead_self _ _
    · exact (List.pairwise_cons.mp hordered).1 left hleft

end ExecutionLemmas

open ExecutionLemmas

/-! ## The trades of a run -/

/-- The order goes back to a call that placed it. -/
def Sourced (ops : List Op) (side : Side) (order : Order) : Prop :=
  ∃ quantity, .place order.id order.userId side order.price quantity ∈ ops ∧
    order.quantity ≤ quantity

/-- The trade that an order makes which is placed after the calls `before`. -/
structure FairTrade (S : Type → Type) [SlabLike S] (before : List Op) (takerId : OrderId)
    (userId : UserId) (side : Side) (limit : Price) (quantity : Quantity) (makerId : OrderId)
    (price : Price) (amount : Quantity) : Prop where
  maker : ∃ makerUser placed, .place makerId makerUser side.opposite price placed ∈ before ∧
    makerUser ≠ userId ∧ amount ≤ placed
  withinLimit : isMatchable side price limit = true
  positive : 0 < amount
  atMost : amount ≤ quantity
  best : ∃ events, ∃ book : OrderBook S,
    runLog .new (before ++ [.place takerId userId side limit quantity]) = .ok (events, book) ∧
      ∀ order ∈ book.flat side.opposite, ahead side.opposite order.price price = false

/-- What is known of a run. -/
structure Executed (ops : List Op) (events : List EngineEvent) (book : OrderBook S) : Prop where
  sourced : ∀ side, ∀ order ∈ book.flat side, Sourced ops side order
  fair : ∀ makerId takerId price amount, .tradeExecuted makerId takerId price amount ∈ events →
    ∃ before userId side limit quantity after,
      ops = before ++ .place takerId userId side limit quantity :: after ∧
      FairTrade S before takerId userId side limit quantity makerId price amount

namespace ExecutionLemmas

theorem runLog_snoc {book book' : OrderBook S} {ops : List Op} {op : Op}
    {events : List EngineEvent} (h : runLog book (ops ++ [op]) = .ok (events, book')) :
    ∃ earlier next new, runLog book ops = .ok (earlier, next) ∧
      applyOp next op = .ok (new, book') ∧ events = earlier ++ new := by
  induction ops generalizing book events with
  | nil =>
    obtain ⟨new, next, rest, happly, hrest, rfl⟩ := runLog_cons h
    cases hrest
    exact ⟨[], book, new, rfl, happly, List.append_nil _⟩
  | cons first ops ih =>
    obtain ⟨new, next, rest, happly, hrest, rfl⟩ := runLog_cons h
    obtain ⟨earlier, mid, last, hmid, hlast, rfl⟩ := ih hrest
    refine ⟨new ++ earlier, mid, last, ?_, hlast, (List.append_assoc ..).symm⟩
    rw [runLog, happly]
    show (runLog next ops >>= fun r => .ok (new ++ r.1, r.2)) = _
    rw [hmid]
    rfl

theorem positive_of_mem {book : OrderBook S} (hinv : Inv book) {side : Side} {order : Order}
    (h : order ∈ book.flat side) : 0 < order.quantity := by
  obtain ⟨k, hk, hget⟩ := mem_flat.mp h
  obtain ⟨level, -, -, resting, hresting, -, -, hpositive⟩ := hinv.resting_of_mem hk
  rw [hget] at hresting
  cases hresting
  exact hpositive

theorem sourced_snoc {ops : List Op} {side : Side} {order : Order} (h : Sourced ops side order)
    (op : Op) : Sourced (ops ++ [op]) side order := by
  obtain ⟨quantity, hplaced, hle⟩ := h
  exact ⟨quantity, List.mem_append_left _ hplaced, hle⟩

end ExecutionLemmas

namespace Executed

variable {ops : List Op} {events : List EngineEvent} {book book' : OrderBook S}

/-- Trades that are known stay known, and those of the last call are added. -/
theorem fair_snoc (h : Executed ops events book) {op : Op} {new : List EngineEvent}
    (hnew : ∀ makerId takerId price amount, .tradeExecuted makerId takerId price amount ∈ new →
      ∃ userId side limit quantity, op = .place takerId userId side limit quantity ∧
        FairTrade S ops takerId userId side limit quantity makerId price amount) :
    ∀ makerId takerId price amount,
      .tradeExecuted makerId takerId price amount ∈ events ++ new →
      ∃ before userId side limit quantity after,
        ops ++ [op] = before ++ .place takerId userId side limit quantity :: after ∧
        FairTrade S before takerId userId side limit quantity makerId price amount := by
  intro makerId takerId price amount hmem
  rcases List.mem_append.mp hmem with hold | hlast
  · obtain ⟨before, userId, side, limit, quantity, after, rfl, hfair⟩ := h.fair _ _ _ _ hold
    exact ⟨before, userId, side, limit, quantity, after ++ [op], by simp, hfair⟩
  · obtain ⟨userId, side, limit, quantity, rfl, hfair⟩ := hnew _ _ _ _ hlast
    exact ⟨ops, userId, side, limit, quantity, [], rfl, hfair⟩

theorem place (h : Executed ops events book) (hinv : Inv book) {orderId : OrderId}
    {userId : UserId} {side : Side} {price : Price} {quantity : Quantity}
    (hflat : book'.flat = (book.flat.place orderId userId side price quantity).2)
    (hrun : runLog .new (ops ++ [.place orderId userId side price quantity]) =
      .ok (events ++ (book.flat.place orderId userId side price quantity).1, book')) :
    Executed (ops ++ [.place orderId userId side price quantity])
      (events ++ (book.flat.place orderId userId side price quantity).1) book' where
  sourced s order horder := by
    rw [hflat] at horder
    cases s using sideCases side with
    | same =>
      rcases mem_place_own horder with hold | rfl
      · exact sourced_snoc (h.sourced side order hold) _
      · exact ⟨quantity, List.mem_concat_self, walk_quantity_le ..⟩
    | other =>
      rw [Flat.place_opposite] at horder
      obtain ⟨maker, hmaker, heq, hle⟩ := walk_left _ _ _ _ _ _ order horder
      obtain ⟨placed, hplaced, hbound⟩ := h.sourced side.opposite maker hmaker
      rw [heq]
      exact ⟨placed, List.mem_append_left _ hplaced, le_trans hle hbound⟩
  fair := by
    refine h.fair_snoc fun makerId takerId tradePrice amount hmem => ?_
    have htrade := (place_events hmem).resolve_right (not_not.mpr (.inl rfl))
    rcases walk_events _ _ _ _ _ _ _ htrade with ⟨maker, hmaker, _, hwith⟩ | ⟨id, hcancel⟩
    · cases hwith.trade
      obtain ⟨placed, hplaced, hbound⟩ := h.sourced side.opposite maker hmaker
      refine ⟨userId, side, price, quantity, rfl, ?_, hwith.withinLimit,
        hwith.positive (positive_of_mem hinv hmaker), hwith.ofTaker, _, book', hrun, ?_⟩
      · exact ⟨maker.userId, placed, hplaced, hwith.otherUser, le_trans hwith.ofMaker hbound⟩
      · rw [hflat, Flat.place_opposite]
        exact walk_best (hinv.flat_ordered side.opposite) _ _ _ htrade
    · cases hcancel

theorem step (h : Executed ops events book) (hinv : Inv book) {op : Op}
    {new : List EngineEvent} (happly : applyOp book op = .ok (new, book'))
    (hrun : runLog .new (ops ++ [op]) = .ok (events ++ new, book')) :
    Executed (ops ++ [op]) (events ++ new) book' := by
  cases op with
  | place orderId userId side price quantity =>
    obtain ⟨_, hplace, hflat, -⟩ := placeLimitOrder_spec hinv orderId userId side price quantity
    rw [applyOp, hplace] at happly
    cases happly
    exact h.place hinv hflat hrun
  | cancel orderId userId =>
    refine ⟨fun side order horder => ?_, h.fair_snoc fun makerId _ _ _ hmem => ?_⟩
    · exact sourced_snoc (h.sourced side order
        ((cancelOrder_sublist hinv happly side).subset horder)) _
    · exact absurd (.inl rfl) (cancelOrder_untraded hinv happly _ hmem makerId)

/-- A whole run. -/
theorem run (hrun : runLog .new ops = .ok (events, book)) : Executed ops events book := by
  induction ops using List.reverseRecOn generalizing events book with
  | nil =>
    cases hrun
    refine ⟨fun side order horder => ?_, (fun _ _ _ _ h => nomatch h)⟩
    cases side <;> cases horder
  | append_singleton ops op ih =>
    obtain ⟨earlier, next, new, hearlier, happly, rfl⟩ := runLog_snoc hrun
    exact (ih hearlier).step (reachable_runLog .new hearlier).inv happly hrun

end Executed

/-- Every trade of every run, repeated ids included, is a trade of an order that is
placed with one that was placed before by another user on the other side, at the price
of that one, which is within the limit, for no more than either of them was placed
with; and when the call is done, nobody at a better price is left on the other side. -/
theorem trades_fair {ops : List Op} {events : List EngineEvent} {book : OrderBook S}
    (hrun : runLog .new ops = .ok (events, book)) {makerId takerId : OrderId} {price : Price}
    {amount : Quantity} (htrade : .tradeExecuted makerId takerId price amount ∈ events) :
    ∃ before userId side limit quantity after,
      ops = before ++ .place takerId userId side limit quantity :: after ∧
      FairTrade S before takerId userId side limit quantity makerId price amount :=
  (Executed.run hrun).fair makerId takerId price amount htrade

/-- User 7 has an ask of its own in front when it buys, and the id 1 is in use twice. -/
def throughOwnOrder : List Op :=
  [.place 1 7 .ask 99 5, .place 2 8 .ask 100 4, .place 1 9 .ask 101 6, .place 3 7 .bid 101 7]

theorem trades_fair_throughOwnOrder :
    ∃ (events : List EngineEvent) (book : OrderBook StackSlab),
      runLog .new throughOwnOrder = .ok (events, book) ∧
      .tradeExecuted 1 3 101 3 ∈ events ∧
      ∃ before userId side limit quantity after,
        throughOwnOrder = before ++ .place 3 userId side limit quantity :: after ∧
        FairTrade StackSlab before 3 userId side limit quantity 1 101 3 := by
  have hplay : ∃ (events : List EngineEvent) (book : OrderBook StackSlab),
      runLog .new throughOwnOrder = .ok (events, book) ∧ .tradeExecuted 1 3 101 3 ∈ events :=
    ⟨_, _, rfl, by decide⟩
  obtain ⟨events, book, hrun, htrade⟩ := hplay
  exact ⟨events, book, hrun, htrade, trades_fair hrun htrade⟩

/-! ## What the placer is told -/

namespace ExecutionLemmas

variable {orderId : OrderId} {userId : UserId} {side : Side} {limit : Price} {quantity : Quantity}
  {makers : List Order} {flat : Flat}

/-- Every trade among the events is one of the taker. -/
def TakenBy (orderId : OrderId) (event : EngineEvent) : Prop :=
  ∀ makerId takerId price amount, event = .tradeExecuted makerId takerId price amount →
    takerId = orderId

theorem place_takenBy (flat : Flat) (orderId : OrderId) (userId : UserId) (side : Side)
    (limit : Price) (quantity : Quantity) :
    ∀ event ∈ (flat.place orderId userId side limit quantity).1, TakenBy orderId event := by
  intro event hevent makerId takerId price amount he
  subst he
  have htrade := (place_events hevent).resolve_right (not_not.mpr (.inl rfl))
  rcases walk_events _ _ _ _ _ _ _ htrade with ⟨maker, -, _, hwith⟩ | ⟨id, hcancel⟩
  · cases hwith.trade
    rfl
  · cases hcancel

/-- The trades that are listed are all that the order has traded. -/
theorem sum_fills {events : List EngineEvent} (h : ∀ event ∈ events, TakenBy orderId event) :
    ((events.filterMap (EngineEvent.fill (· == orderId))).map (·.quantity.toNat)).sum =
      traded orderId events := by
  induction events with
  | nil => rfl
  | cons event events ih =>
    obtain ⟨hfirst, hrest⟩ := List.forall_mem_cons.mp h
    rw [traded_cons, ← ih hrest]
    cases event with
    | tradeExecuted makerId takerId price amount =>
      obtain rfl := hfirst _ _ _ _ rfl
      simp [EngineEvent.fill, EngineEvent.share]
    | _ =>
      rw [List.filterMap_cons_none rfl]
      exact (Nat.zero_add _).symm

/-- An order with a quantity trades or rests. -/
theorem place_acknowledged (flat : Flat) (orderId : OrderId) (userId : UserId) (side : Side)
    (limit : Price) (quantity : Quantity) :
    (flat.place orderId userId side limit quantity).1.any (EngineEvent.acknowledges orderId) =
      decide (quantity ≠ 0) := by
  have htaker := walk_taker orderId userId side limit quantity (flat side.opposite)
  rw [← traded_place] at htaker
  by_cases hq : quantity = 0
  · subst hq
    simp [Flat.place, walk_zero]
  · rw [decide_eq_true hq, List.any_eq_true]
    by_contra hunheard
    have hnone : ∀ event ∈ (flat.place orderId userId side limit quantity).1,
        ¬ event.acknowledges orderId = true := fun event hevent hack =>
      hunheard ⟨event, hevent, hack⟩
    -- without a trade of the order all of its quantity is left, and it is placed
    have hzero : traded orderId (flat.place orderId userId side limit quantity).1 = 0 := by
      refine traded_eq_zero fun event hevent htrades => ?_
      cases event with
      | tradeExecuted makerId takerId price amount =>
        obtain rfl := place_takenBy _ _ _ _ _ _ _ hevent _ _ _ _ rfl
        exact hnone _ hevent (beq_self_eq_true _)
      | _ => exact htrades
    have hleft : 0 < (walk orderId userId side limit quantity (flat side.opposite)).quantity := by
      rw [hzero, Nat.zero_add] at htaker
      rw [UInt64.toNat_inj.mp htaker]
      exact UInt64.pos_iff_ne_zero.mpr hq
    refine hnone (.orderPlaced orderId userId limit
      (walk orderId userId side limit quantity (flat side.opposite)).quantity side) ?_
      (beq_self_eq_true _)
    simp only [Flat.place, hleft, if_true]
    exact List.mem_concat_self

end ExecutionLemmas

/-- What a fill says about the book in which the order met it. -/
structure FillOf (flat : Flat) (userId : UserId) (side : Side) (limit : Price)
    (fill : TradeExecution) (maker : Order) : Prop where
  id : fill.makerOrderId = maker.id
  price : fill.price = maker.price
  resting : maker ∈ flat side.opposite
  otherUser : maker.userId ≠ userId
  withinLimit : isMatchable side fill.price limit = true
  positive : 0 < fill.quantity
  atMost : fill.quantity ≤ maker.quantity

namespace ExecutionLemmas

/-- The fills of the response are trades with resting orders. -/
theorem fills_of_place {book : OrderBook S} (hinv : Inv book) (orderId : OrderId)
    (userId : UserId) (side : Side) (limit : Price) (quantity : Quantity) :
    ∀ fill ∈ (book.flat.place orderId userId side limit quantity).1.filterMap
        (EngineEvent.fill (· == orderId)),
      ∃ maker, FillOf book.flat userId side limit fill maker := by
  intro fill hfill
  obtain ⟨event, hevent, hfill⟩ := List.mem_filterMap.mp hfill
  cases event with
  | tradeExecuted makerId takerId price amount =>
    obtain rfl := place_takenBy _ _ _ _ _ _ _ hevent _ _ _ _ rfl
    have htrade := (place_events hevent).resolve_right (not_not.mpr (.inl rfl))
    rcases walk_events _ _ _ _ _ _ _ htrade with ⟨maker, hmaker, _, hwith⟩ | ⟨id, hcancel⟩
    · cases hwith.trade
      rw [EngineEvent.fill, if_pos (beq_self_eq_true _)] at hfill
      cases hfill
      exact ⟨maker, rfl, rfl, hmaker, hwith.otherUser, hwith.withinLimit,
        hwith.positive (positive_of_mem hinv hmaker), hwith.ofMaker⟩
    · cases hcancel
  | _ => cases hfill

theorem serveRequest_place (profile : Profile) (io : Nat → WriteOutcome) (now : Nat)
    {p : MarketProcessor S} {req : PlaceOrderRequest} {side : Side}
    (hside : engineSide req.side = some side) {events : List EngineEvent} {book : OrderBook S}
    (hplace : placeLimitOrder p.book req.orderId req.userId side req.price req.quantity =
      .ok (events, book)) :
    ∃ p', serveRequest profile io now p (.placeLimitOrder req) =
      .ok (.ok ((Request.placeLimitOrder req).reply (.events events)), p') ∧ p'.book = book := by
  simp only [serveRequest, Request.command, hside, handleCommand, hplace]
  exact ⟨_, rfl, rfl⟩

end ExecutionLemmas

/-- Whether or not the log can be written: a placement in a book that can be reached is
answered. Without a side it is refused and changes nothing. Otherwise the response says that
the order is processed just if its quantity is not 0, every fill is a trade with an order
that was resting, and the quantities of the fills and what joins the book make up the
quantity of the order. -/
theorem place_reported (profile : Profile) (io : Nat → WriteOutcome) (now : Nat)
    {p : MarketProcessor S} (hbook : Reachable p.book) (req : PlaceOrderRequest) :
    (engineSide req.side = none →
      serveRequest profile io now p (.placeLimitOrder req) =
        .ok (.error (.invalidArgument "Side is required"), p)) ∧
    ∀ side, engineSide req.side = some side → ∃ fills p' rest,
      serveRequest profile io now p (.placeLimitOrder req) =
        .ok (.ok (some (.placeOrder (decide (req.quantity ≠ 0))
          (if req.quantity ≠ 0 then "Order Processed" else "Order Rejected") fills)), p') ∧
      (fills.map (·.quantity.toNat)).sum + rest.toNat = req.quantity.toNat ∧
      p'.book.flat side =
        (if 0 < rest then
          joinBack ⟨req.orderId, req.userId, req.price, rest, side, 0⟩ (p.book.flat side)
        else p.book.flat side) ∧
      ∀ fill ∈ fills, ∃ maker, FillOf p.book.flat req.userId side req.price fill maker := by
  refine ⟨fun hnone => ?_, fun side hside => ?_⟩
  · rw [serveRequest, Request.command, hnone]
  · obtain ⟨book', hplace, hflat, -⟩ := placeLimitOrder_spec hbook.inv req.orderId req.userId
      side req.price req.quantity
    obtain ⟨p', hserve, rfl⟩ := serveRequest_place profile io now hside hplace
    refine ⟨_, p', (walk req.orderId req.userId side req.price req.quantity
      (p.book.flat side.opposite)).quantity, ?_, ?_, ?_,
      fills_of_place hbook.inv req.orderId req.userId side req.price req.quantity⟩
    · rw [hserve, Request.reply, place_acknowledged]
      simp only [decide_eq_true_eq]
    · rw [sum_fills (place_takenBy _ _ _ _ _ _), traded_place]
      exact walk_taker ..
    · rw [hflat, Flat.place_own]

/-- The order takes what rests of another one and rests with what is left, while the log
cannot be written; the same order without a side is refused. -/
theorem place_reported_partly :
    ∃ (p p' : MarketProcessor StackSlab) (fills : List TradeExecution) (rest : Quantity),
      p.book.flat .ask = [⟨2, 8, 100, 4, .ask, 0⟩] ∧
      serveRequest .checked (fun _ => .err 0 0) 0 p (.placeLimitOrder ⟨7, 3, 0, 101, 20⟩) =
        .ok (.error (.invalidArgument "Side is required"), p) ∧
      serveRequest .checked (fun _ => .err 0 0) 0 p (.placeLimitOrder ⟨7, 3, 1, 101, 20⟩) =
        .ok (.ok (some (.placeOrder true "Order Processed" fills)), p') ∧
      (fills.map (·.quantity.toNat)).sum + rest.toNat = 20 ∧
      ∀ fill ∈ fills, ∃ maker, FillOf p.book.flat 7 .bid 101 fill maker := by
  have hplay : ∃ (events : List EngineEvent) (book : OrderBook StackSlab),
      runLog .new [.place 2 8 .ask 100 4] = .ok (events, book) ∧
      book.flat .ask = [⟨2, 8, 100, 4, .ask, 0⟩] := ⟨_, _, rfl, rfl⟩
  obtain ⟨events, book, hrun, hask⟩ := hplay
  have hbook : Reachable (⟨book, .new none, [], [], []⟩ : MarketProcessor StackSlab).book :=
    reachable_runLog .new hrun
  have hreported := place_reported .checked (fun _ => .err 0 0) 0 hbook
  obtain ⟨fills, p', rest, hserve, hsum, -, hfills⟩ :=
    (hreported ⟨7, 3, 1, 101, 20⟩).2 .bid rfl
  exact ⟨_, p', fills, rest, hask, (hreported ⟨7, 3, 0, 101, 20⟩).1 rfl, hserve, hsum, hfills⟩

end EviceChain.Engine
