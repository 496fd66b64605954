import EviceChain.Engine.Cancel

/-!
# What an order has traded

The events of a run are the only account of what was traded. An order trades as
taker in the call that places it and as maker in later calls, each time with
another order. For runs that do not repeat an id, what the events say adds up:
what an order has traded and what is left of it in the book is what it was placed
with (`order_conserved`).

Results:
1. `walk_taker`, `walk_maker`: what one placement takes from the taker and from
   each maker is what its events say;
2. `Ledger.step`, `Ledger.run`: the account is right after every call;
3. `untraded_run`: an order that does not rest is not traded.
-/

namespace EviceChain.Engine

open Foundation RepresentationLemmas MatchingLemmas

variable {S : Type → Type} [SlabLike S]

/-- The events of a sequence of calls, and the book after it. -/
def runLog (book : OrderBook S) : List Op → Except Fault (List EngineEvent × OrderBook S)
  | [] => .ok ([], book)
  | op :: ops => do
    let (events, book) ← applyOp book op
    let (rest, book) ← runLog book ops
    return (events ++ rest, book)

/-- The event is a trade of the order, as maker or as taker. -/
def EngineEvent.Trades (orderId : OrderId) : EngineEvent → Prop
  | .tradeExecuted makerId takerId _ _ => makerId = orderId ∨ takerId = orderId
  | _ => False

/-- How much of the order the event trades. -/
def EngineEvent.share (orderId : OrderId) : EngineEvent → Nat
  | .tradeExecuted makerId takerId _ quantity =>
    if makerId = orderId ∨ takerId = orderId then quantity.toNat else 0
  | _ => 0

/-- How much of the order the events trade altogether. -/
def traded (orderId : OrderId) (events : List EngineEvent) : Nat :=
  (events.map (EngineEvent.share orderId)).sum

/-! ## One placement -/

namespace LedgerLemmas

variable {orderId takerId : OrderId} {userId : UserId} {side : Side} {price : Price}
  {quantity : Quantity} {makers : List Order}

theorem traded_append (events events' : List EngineEvent) :
    traded orderId (events ++ events') = traded orderId events + traded orderId events' := by
  rw [traded, List.map_append, List.sum_append]
  rfl

theorem traded_cons (event : EngineEvent) (events : List EngineEvent) :
    traded orderId (event :: events) = event.share orderId + traded orderId events :=
  List.sum_cons

theorem share_of_not_trades {event : EngineEvent} (h : ¬ event.Trades orderId) :
    event.share orderId = 0 := by
  cases event with
  | tradeExecuted => exact if_neg h
  | _ => rfl

theorem traded_eq_zero {events : List EngineEvent}
    (h : ∀ event ∈ events, ¬ event.Trades orderId) : traded orderId events = 0 := by
  refine List.sum_eq_zero fun share hmem => ?_
  obtain ⟨event, hevent, rfl⟩ := List.mem_map.mp hmem
  exact share_of_not_trades (h event hevent)

theorem toNat_sub_min_add (q m : Quantity) : (q - min q m).toNat + (min q m).toNat = q.toNat := by
  rw [UInt64.toNat_sub_of_le _ _ (min_le_left q m)]
  exact Nat.sub_add_cancel (UInt64.le_iff_toNat_le.mp (min_le_left q m))

/-- A walk trades nobody but the taker and the makers. -/
theorem walk_untraded (htaker : orderId ≠ takerId) (hmakers : orderId ∉ makers.map Order.id) :
    ∀ event ∈ (walk takerId userId side price quantity makers).events,
      ¬ event.Trades orderId := by
  revert hmakers
  refine walk_induction (P := fun _ makers w => orderId ∉ makers.map Order.id →
    ∀ event ∈ w.events, ¬ event.Trades orderId) ?_ ?_ ?_ ?_ ?_ quantity makers
  · exact fun _ _ _ h => nomatch h
  · exact fun _ _ _ _ _ _ h => nomatch h
  · intro _ maker makers _ _ _ w _ ih hmakers event hevent
    rcases List.mem_cons.mp hevent with rfl | hevent
    · exact id
    · exact ih (fun h => hmakers (List.mem_cons_of_mem _ h)) event hevent
  · intro _ maker makers _ _ _ _ w _ ih hmakers event hevent
    rcases List.mem_cons.mp hevent with rfl | hevent
    · rintro (rfl | rfl)
      · exact hmakers List.mem_cons_self
      · exact htaker rfl
    · exact ih (fun h => hmakers (List.mem_cons_of_mem _ h)) event hevent
  · intro _ maker makers _ _ _ _ hmakers event hevent
    rw [List.mem_singleton.mp hevent]
    rintro (rfl | rfl)
    · exact hmakers List.mem_cons_self
    · exact htaker rfl

/-- What the taker has traded and what is left of it is what it came with. -/
theorem walk_taker (takerId : OrderId) (userId : UserId) (side : Side) (price : Price)
    (quantity : Quantity) (makers : List Order) :
    traded takerId (walk takerId userId side price quantity makers).events +
      (walk takerId userId side price quantity makers).quantity.toNat = quantity.toNat := by
  refine walk_induction (P := fun quantity _ w =>
    traded takerId w.events + w.quantity.toNat = quantity.toNat) ?_ ?_ ?_ ?_ ?_ quantity makers
  · exact fun _ => Nat.zero_add _
  · exact fun _ _ _ _ => Nat.zero_add _
  · intro _ _ _ _ _ _ w _ ih
    rw [traded_cons]
    exact (Nat.zero_add _).symm ▸ ih
  · intro quantity maker _ _ _ _ _ w _ ih
    have hshare : (EngineEvent.tradeExecuted maker.id takerId maker.price
        (min quantity maker.quantity)).share takerId = (min quantity maker.quantity).toNat :=
      if_pos (.inr rfl)
    have hsub := toNat_sub_min_add quantity maker.quantity
    dsimp only
    rw [traded_cons, hshare]
    omega
  · intro quantity maker _ _ _ _ hlasts
    have hshare : (EngineEvent.tradeExecuted maker.id takerId maker.price
        (min quantity maker.quantity)).share takerId = (min quantity maker.quantity).toNat :=
      if_pos (.inr rfl)
    have hsub := toNat_sub_min_add quantity maker.quantity
    rw [(min_sub_eq_zero quantity maker.quantity).resolve_right hlasts] at hsub
    dsimp only
    rw [traded_cons, hshare]
    change _ + 0 + 0 = _
    rw [← hsub]
    exact (Nat.zero_add _).symm

/-- What a trade takes from the maker is what the event says. -/
theorem share_maker (maker : Order) :
    (EngineEvent.tradeExecuted maker.id takerId maker.price quantity).share maker.id =
      quantity.toNat :=
  if_pos (.inl rfl)

/-- It takes nothing from the makers behind. -/
theorem share_tail {maker : Order} (hnew : maker.id ∉ makers.map Order.id)
    (htaker : takerId ∉ (maker :: makers).map Order.id) (hmem : orderId ∈ makers.map Order.id) :
    (EngineEvent.tradeExecuted maker.id takerId maker.price quantity).share orderId = 0 := by
  refine if_neg ?_
  rintro (rfl | rfl)
  · exact hnew hmem
  · exact htaker (List.mem_cons_of_mem _ hmem)

/-- What a maker that is left has traded and what is left of it is what it had. -/
theorem walk_maker (hdistinct : (makers.map Order.id).Nodup)
    (htaker : takerId ∉ makers.map Order.id) :
    ∀ left ∈ (walk takerId userId side price quantity makers).makers, ∃ maker ∈ makers,
      maker.id = left.id ∧
      traded left.id (walk takerId userId side price quantity makers).events +
        left.quantity.toNat = maker.quantity.toNat := by
  revert hdistinct htaker
  refine walk_induction (P := fun _ makers w => (makers.map Order.id).Nodup →
    takerId ∉ makers.map Order.id → ∀ left ∈ w.makers, ∃ maker ∈ makers, maker.id = left.id ∧
      traded left.id w.events + left.quantity.toNat = maker.quantity.toNat)
    ?_ ?_ ?_ ?_ ?_ quantity makers
  · exact fun _ _ _ _ h => nomatch h
  · exact fun _ _ _ _ _ _ left hleft => ⟨left, hleft, rfl, Nat.zero_add _⟩
  · intro _ maker makers _ _ _ w _ ih hdistinct htaker left hleft
    obtain ⟨found, hfound, hid, hsum⟩ := ih (List.nodup_cons.mp hdistinct).2
      (fun h => htaker (List.mem_cons_of_mem _ h)) left hleft
    refine ⟨found, List.mem_cons_of_mem _ hfound, hid, ?_⟩
    dsimp only
    rw [traded_cons]
    exact (Nat.zero_add _).symm ▸ hsum
  · intro quantity maker makers _ _ _ _ w _ ih hdistinct htaker left hleft
    obtain ⟨hnew, hdistinct⟩ := List.nodup_cons.mp hdistinct
    obtain ⟨found, hfound, hid, hsum⟩ := ih hdistinct
      (fun h => htaker (List.mem_cons_of_mem _ h)) left hleft
    refine ⟨found, List.mem_cons_of_mem _ hfound, hid, ?_⟩
    dsimp only
    rw [traded_cons, share_tail hnew htaker (hid ▸ List.mem_map_of_mem hfound), Nat.zero_add]
    exact hsum
  · intro quantity maker makers _ _ _ _ hdistinct htaker left hleft
    obtain ⟨hnew, -⟩ := List.nodup_cons.mp hdistinct
    rcases List.mem_cons.mp hleft with rfl | hleft
    · refine ⟨maker, List.mem_cons_self, rfl, ?_⟩
      dsimp only
      rw [traded_cons, share_maker, min_comm]
      change _ + 0 + _ = _
      have hsub := toNat_sub_min_add maker.quantity quantity
      omega
    · refine ⟨left, List.mem_cons_of_mem _ hleft, rfl, ?_⟩
      dsimp only
      rw [traded_cons, share_tail hnew htaker (List.mem_map_of_mem hleft)]
      exact Nat.zero_add _

theorem ne_taker {maker : Order} (htaker : takerId ∉ (maker :: makers).map Order.id) :
    maker.id ≠ takerId := by
  rintro rfl
  exact htaker List.mem_cons_self

/-- No maker trades more than it has. -/
theorem walk_maker_le (userId : UserId) (side : Side) (price : Price) (quantity : Quantity)
    (hdistinct : (makers.map Order.id).Nodup) (htaker : takerId ∉ makers.map Order.id) :
    ∀ maker ∈ makers, traded maker.id (walk takerId userId side price quantity makers).events ≤
      maker.quantity.toNat := by
  revert hdistinct htaker
  refine walk_induction (P := fun _ makers w => (makers.map Order.id).Nodup →
    takerId ∉ makers.map Order.id → ∀ maker ∈ makers,
      traded maker.id w.events ≤ maker.quantity.toNat) ?_ ?_ ?_ ?_ ?_ quantity makers
  · exact fun _ _ _ _ h => nomatch h
  · exact fun _ _ _ _ _ _ _ _ => Nat.zero_le _
  · intro _ first makers _ _ _ w hw ih hdistinct htaker maker hmaker
    obtain ⟨hnew, hdistinct⟩ := List.nodup_cons.mp hdistinct
    dsimp only
    rw [traded_cons, share_of_not_trades id, Nat.zero_add]
    rcases List.mem_cons.mp hmaker with rfl | hmaker
    · rw [hw, traded_eq_zero (walk_untraded (ne_taker htaker) hnew)]
      exact Nat.zero_le _
    · exact ih hdistinct (fun h => htaker (List.mem_cons_of_mem _ h)) maker hmaker
  · intro quantity first makers _ _ _ _ w hw ih hdistinct htaker maker hmaker
    obtain ⟨hnew, hdistinct⟩ := List.nodup_cons.mp hdistinct
    dsimp only
    rw [traded_cons]
    rcases List.mem_cons.mp hmaker with rfl | hmaker
    · rw [share_maker, hw, traded_eq_zero (walk_untraded (ne_taker htaker) hnew)]
      exact UInt64.le_iff_toNat_le.mp (min_le_right quantity maker.quantity)
    · rw [share_tail hnew htaker (List.mem_map_of_mem hmaker), Nat.zero_add]
      exact ih hdistinct (fun h => htaker (List.mem_cons_of_mem _ h)) maker hmaker
  · intro quantity first makers _ _ _ _ hdistinct htaker maker hmaker
    obtain ⟨hnew, -⟩ := List.nodup_cons.mp hdistinct
    dsimp only
    rw [traded_cons]
    rcases List.mem_cons.mp hmaker with rfl | hmaker
    · rw [share_maker]
      exact UInt64.le_iff_toNat_le.mp (min_le_right quantity maker.quantity)
    · rw [share_tail hnew htaker (List.mem_map_of_mem hmaker)]
      exact Nat.zero_le _

variable {flat : Flat}

/-- The events of a placement are trades of its walk, or no trades. -/
theorem place_events {event : EngineEvent}
    (h : event ∈ (flat.place takerId userId side price quantity).1) :
    event ∈ (walk takerId userId side price quantity (flat side.opposite)).events ∨
      ¬ event.Trades orderId := by
  unfold Flat.place at h
  dsimp only at h
  split at h
  · rcases List.mem_append.mp h with h | h
    · exact .inl h
    · rw [List.mem_singleton.mp h]
      exact .inr id
  · exact .inl h

theorem traded_place :
    traded orderId (flat.place takerId userId side price quantity).1 =
      traded orderId (walk takerId userId side price quantity (flat side.opposite)).events := by
  unfold Flat.place
  dsimp only
  split
  · rw [traded_append]
    rfl
  · rfl

/-- On the own side of a placement there is at most the taker besides. -/
theorem mem_place_own {order : Order}
    (h : order ∈ (flat.place takerId userId side price quantity).2 side) :
    order ∈ flat side ∨ order = ⟨takerId, userId, price,
      (walk takerId userId side price quantity (flat side.opposite)).quantity, side, 0⟩ := by
  rw [Flat.place_own] at h
  dsimp only at h
  split at h
  · exact (List.mem_cons.mp ((joinBack_perm _ _).mem_iff.mp h)).symm
  · exact .inl h

theorem mem_place_opposite {order : Order}
    (h : order ∈ (flat.place takerId userId side price quantity).2 side.opposite) :
    order.id ∈ (flat side.opposite).map Order.id := by
  rw [Flat.place_opposite] at h
  exact (walk_map_sublist (f := Order.id) fun _ _ => rfl).subset (List.mem_map_of_mem h)

/-- Seen from either side, no two sides share an id. -/
theorem apart_of (side : Side) (h : ∀ a ∈ flat side, ∀ b ∈ flat side.opposite, a.id ≠ b.id)
    (s : Side) : ∀ a ∈ flat s, ∀ b ∈ flat s.opposite, a.id ≠ b.id := by
  cases s using sideCases side with
  | same => exact h
  | other =>
    rw [opposite_opposite]
    exact fun a ha b hb => (h b hb a ha).symm

/-- A cancel trades nothing. -/
theorem cancelOrder_untraded {book book' : OrderBook S} (hinv : Inv book) {orderId : OrderId}
    {userId : UserId} {events : List EngineEvent}
    (h : cancelOrder book orderId userId = .ok (events, book')) :
    ∀ event ∈ events, ∀ id, ¬ event.Trades id := by
  cases htarget : cancelTarget book orderId userId with
  | none =>
    rw [cancelOrder_of_none htarget] at h
    cases h
    exact fun _ h => nomatch h
  | some target =>
    obtain ⟨_, hcancel, -⟩ := cancelOrder_of_some hinv htarget
    rw [hcancel] at h
    cases h
    intro event hevent id
    rw [List.mem_singleton.mp hevent]
    exact not_false

theorem runLog_cons {book book' : OrderBook S} {op : Op} {ops : List Op}
    {events : List EngineEvent} (h : runLog book (op :: ops) = .ok (events, book')) :
    ∃ new next rest, applyOp book op = .ok (new, next) ∧
      runLog next ops = .ok (rest, book') ∧ events = new ++ rest := by
  obtain ⟨⟨new, next⟩, happly, h⟩ := bind_eq_ok.mp h
  obtain ⟨⟨rest, last⟩, hrest, h⟩ := bind_eq_ok.mp h
  cases h
  exact ⟨new, next, rest, happly, hrest, rfl⟩

theorem reachable_runLog {book book' : OrderBook S} (hbook : Reachable book) {ops : List Op}
    {events : List EngineEvent} (h : runLog book ops = .ok (events, book')) : Reachable book' := by
  induction ops generalizing book events with
  | nil =>
    cases h
    exact hbook
  | cons op ops ih =>
    obtain ⟨new, next, rest, happly, hrest, -⟩ := runLog_cons h
    exact ih (hbook.step happly) hrest

/-- A call does not trade an order that neither rests nor is placed by it, and the
order does not rest afterwards. -/
theorem untraded_step {book book' : OrderBook S} (hinv : Inv book) {orderId : OrderId}
    (habsent : ∀ side, ∀ order ∈ book.flat side, order.id ≠ orderId) {op : Op}
    (hop : orderId ∉ placedIds [op]) {events : List EngineEvent}
    (happly : applyOp book op = .ok (events, book')) :
    (∀ event ∈ events, ¬ event.Trades orderId) ∧
      ∀ side, ∀ order ∈ book'.flat side, order.id ≠ orderId := by
  cases op with
  | place takerId userId side price quantity =>
    obtain ⟨_, hplace, hflat, -⟩ := placeLimitOrder_spec hinv takerId userId side price quantity
    rw [applyOp, hplace] at happly
    cases happly
    have htaker : orderId ≠ takerId := fun he => hop (he ▸ List.mem_cons_self)
    have hmakers : ∀ s, orderId ∉ (book.flat s).map Order.id := by
      intro s hmem
      obtain ⟨maker, hmaker, hid⟩ := List.mem_map.mp hmem
      exact habsent s maker hmaker hid
    refine ⟨fun event hevent => ?_, fun s order horder hid => ?_⟩
    · rcases place_events hevent with hevent | hother
      · exact walk_untraded htaker (hmakers side.opposite) event hevent
      · exact hother
    · rw [hflat] at horder
      cases s using sideCases side with
      | same =>
        rcases mem_place_own horder with hold | rfl
        · exact habsent side order hold hid
        · exact htaker hid.symm
      | other => exact hmakers side.opposite (hid ▸ mem_place_opposite horder)
  | cancel cancelId userId =>
    refine ⟨fun event hevent => cancelOrder_untraded hinv happly event hevent orderId,
      fun s order horder => ?_⟩
    exact habsent s order ((cancelOrder_sublist hinv happly s).subset horder)

end LedgerLemmas

/-! ## The account of a run -/

/-- The account that the events give of the orders placed in a sequence of calls. -/
structure Ledger (ops : List Op) (events : List EngineEvent) (flat : Flat) : Prop where
  distinct : ∀ side, ((flat side).map Order.id).Nodup
  apart : ∀ side, ∀ a ∈ flat side, ∀ b ∈ flat side.opposite, a.id ≠ b.id
  placed : ∀ side, ∀ order ∈ flat side, order.id ∈ placedIds ops
  conserved : ∀ side, ∀ order ∈ flat side, ∀ userId side' price quantity,
    .place order.id userId side' price quantity ∈ ops →
    traded order.id events + order.quantity.toNat = quantity.toNat
  bounded : ∀ orderId userId side price quantity, .place orderId userId side price quantity ∈ ops →
    traded orderId events ≤ quantity.toNat
  unplaced : ∀ orderId ∉ placedIds ops, traded orderId events = 0

namespace Ledger

open LedgerLemmas

variable {ops : List Op} {events : List EngineEvent} {flat : Flat}

theorem nil : Ledger [] [] (OrderBook.new (S := S)).flat := by
  have hempty : ∀ side, (OrderBook.new (S := S)).flat side = [] := by
    intro side
    cases side <;> rfl
  refine ⟨fun side => ?_, fun side a ha => ?_, fun side order ho => ?_, fun side order ho => ?_,
    (fun _ _ _ _ _ h => nomatch h), fun _ _ => rfl⟩
  · rw [hempty]
    exact List.nodup_nil
  · rw [hempty] at ha
    cases ha
  · rw [hempty] at ho
    cases ho
  · rw [hempty] at ho
    cases ho

section Place

variable {orderId : OrderId} (hnew : orderId ∉ placedIds ops) (userId : UserId) (side : Side)
  (price : Price) (quantity : Quantity)

/-- The account of an order that the call does not touch. -/
theorem traded_untouched {id : OrderId} (htaker : id ≠ orderId)
    (hmakers : id ∉ (flat side.opposite).map Order.id) :
    traded id (events ++ (flat.place orderId userId side price quantity).1) = traded id events := by
  rw [traded_append, traded_place, traded_eq_zero (walk_untraded htaker hmakers)]
  rfl

include hnew

/-- A new id is placed by the call at hand, any other one by an earlier call. -/
theorem placed_cases {id : OrderId} {u : UserId} {s : Side} {p : Price} {q : Quantity}
    (h : .place id u s p q ∈ ops ++ [.place orderId userId side price quantity]) :
    (id = orderId ∧ q = quantity) ∨ (id ≠ orderId ∧ .place id u s p q ∈ ops) := by
  rcases List.mem_append.mp h with hold | hlast
  · refine .inr ⟨?_, hold⟩
    rintro rfl
    exact hnew (List.mem_filterMap.mpr ⟨.place id u s p q, hold, rfl⟩)
  · cases List.mem_singleton.mp hlast
    exact .inl ⟨rfl, rfl⟩

variable (h : Ledger ops events flat)

include h

theorem not_resting (s : Side) : orderId ∉ (flat s).map Order.id := by
  intro hmem
  obtain ⟨order, horder, rfl⟩ := List.mem_map.mp hmem
  exact hnew (h.placed s order horder)

/-- The account of the order that the call places. -/
theorem traded_taker :
    traded orderId (events ++ (flat.place orderId userId side price quantity).1) +
      (walk orderId userId side price quantity (flat side.opposite)).quantity.toNat =
        quantity.toNat := by
  rw [traded_append, traded_place, h.unplaced orderId hnew, Nat.zero_add]
  exact walk_taker orderId userId side price quantity (flat side.opposite)

theorem place_conserved (s : Side) :
    ∀ order ∈ (flat.place orderId userId side price quantity).2 s, ∀ u s' p q,
      .place order.id u s' p q ∈ ops ++ [.place orderId userId side price quantity] →
      traded order.id (events ++ (flat.place orderId userId side price quantity).1) +
        order.quantity.toNat = q.toNat := by
  intro order horder u s' p q hplace
  cases s using sideCases side with
  | same =>
    rcases mem_place_own horder with hold | rfl
    · have hne : order.id ≠ orderId := by
        rintro rfl
        exact not_resting hnew h side (List.mem_map_of_mem hold)
      have hmakers : order.id ∉ (flat side.opposite).map Order.id := by
        intro hmem
        obtain ⟨maker, hmaker, hid⟩ := List.mem_map.mp hmem
        exact h.apart side order hold maker hmaker hid.symm
      rw [traded_untouched userId side price quantity hne hmakers]
      rcases placed_cases hnew userId side price quantity hplace with ⟨hid, -⟩ | ⟨-, hplace⟩
      · exact (hne hid).elim
      · exact h.conserved side order hold u s' p q hplace
    · rcases placed_cases hnew userId side price quantity hplace with ⟨-, rfl⟩ | ⟨hne, -⟩
      · exact traded_taker hnew userId side price q h
      · exact (hne rfl).elim
  | other =>
    rw [Flat.place_opposite] at horder
    obtain ⟨maker, hmaker, hid, hsum⟩ :=
      walk_maker (h.distinct side.opposite) (not_resting hnew h side.opposite) order horder
    rcases placed_cases hnew userId side price quantity hplace with ⟨he, -⟩ | ⟨-, hplace⟩
    · exact (not_resting hnew h side.opposite
        (he ▸ hid ▸ List.mem_map_of_mem hmaker)).elim
    · have hbefore := h.conserved side.opposite maker hmaker u s' p q (hid ▸ hplace)
      rw [hid] at hbefore
      rw [traded_append, traded_place]
      omega

theorem place_bounded (id : OrderId) (u : UserId) (s : Side) (p : Price) (q : Quantity)
    (hplace : .place id u s p q ∈ ops ++ [.place orderId userId side price quantity]) :
    traded id (events ++ (flat.place orderId userId side price quantity).1) ≤ q.toNat := by
  rcases placed_cases hnew userId side price quantity hplace with ⟨rfl, rfl⟩ | ⟨hne, hplace⟩
  · exact (traded_taker hnew userId side price q h).le.trans' (Nat.le_add_right _ _)
  · by_cases hmem : id ∈ (flat side.opposite).map Order.id
    · obtain ⟨maker, hmaker, rfl⟩ := List.mem_map.mp hmem
      have hbefore := h.conserved side.opposite maker hmaker u s p q hplace
      have hmore := walk_maker_le userId side price quantity (h.distinct side.opposite)
        (not_resting hnew h side.opposite) maker hmaker
      rw [traded_append, traded_place]
      omega
    · rw [traded_untouched userId side price quantity hne hmem]
      exact h.bounded id u s p q hplace

/-- A placement of a new id: the taker trades what it no longer has, and so does each
maker. -/
theorem place : Ledger (ops ++ [.place orderId userId side price quantity])
    (events ++ (flat.place orderId userId side price quantity).1)
    (flat.place orderId userId side price quantity).2 where
  distinct s := by
    cases s using sideCases side with
    | same =>
      rw [Flat.place_own]
      dsimp only
      split
      · refine ((joinBack_perm _ _).map Order.id).nodup_iff.mpr ?_
        exact List.nodup_cons.mpr ⟨not_resting hnew h side, h.distinct side⟩
      · exact h.distinct side
    | other =>
      rw [Flat.place_opposite]
      exact (h.distinct side.opposite).sublist (walk_map_sublist fun _ _ => rfl)
  apart := by
    refine apart_of side fun a ha b hb hid => ?_
    obtain ⟨maker, hmaker, hmakerId⟩ := List.mem_map.mp (mem_place_opposite hb)
    rcases mem_place_own ha with ha | rfl
    · exact h.apart side a ha maker hmaker (hid.trans hmakerId.symm)
    · have htaker : maker.id = orderId := hmakerId.trans hid.symm
      exact not_resting hnew h side.opposite (htaker ▸ List.mem_map_of_mem hmaker)
  placed s order ho := by
    rw [placedIds, List.filterMap_append]
    cases s using sideCases side with
    | same =>
      rcases mem_place_own ho with ho | rfl
      · exact List.mem_append_left _ (h.placed side order ho)
      · exact List.mem_append_right _ List.mem_cons_self
    | other =>
      obtain ⟨maker, hmaker, hid⟩ := List.mem_map.mp (mem_place_opposite ho)
      exact List.mem_append_left _ (hid ▸ h.placed side.opposite maker hmaker)
  conserved := place_conserved hnew userId side price quantity h
  bounded := place_bounded hnew userId side price quantity h
  unplaced id hid := by
    rw [placedIds, List.filterMap_append, List.mem_append, not_or] at hid
    have hne : id ≠ orderId := fun he => hid.2 (he ▸ List.mem_cons_self)
    have hmakers : id ∉ (flat side.opposite).map Order.id := by
      intro hmem
      obtain ⟨maker, hmaker, rfl⟩ := List.mem_map.mp hmem
      exact hid.1 (h.placed side.opposite maker hmaker)
    rw [traded_untouched userId side price quantity hne hmakers]
    exact h.unplaced id hid.1

end Place

/-- A cancel leaves some of the orders, and trades nothing. -/
theorem cancel (h : Ledger ops events flat) {flat' : Flat}
    (hsub : ∀ side, (flat' side).Sublist (flat side)) {events' : List EngineEvent}
    (hevents : ∀ event ∈ events', ∀ orderId, ¬ event.Trades orderId) (orderId : OrderId)
    (userId : UserId) : Ledger (ops ++ [.cancel orderId userId]) (events ++ events') flat' := by
  have hids : placedIds (ops ++ [.cancel orderId userId]) = placedIds ops := by
    rw [placedIds, List.filterMap_append]
    exact List.append_nil _
  have htotal : ∀ id, traded id (events ++ events') = traded id events := by
    intro id
    rw [traded_append, traded_eq_zero fun event hevent => hevents event hevent id]
    rfl
  have hearlier : ∀ id userId' side' price' quantity',
      .place id userId' side' price' quantity' ∈ ops ++ [.cancel orderId userId] →
      .place id userId' side' price' quantity' ∈ ops := by
    intro id userId' side' price' quantity' hmem
    rcases List.mem_append.mp hmem with hmem | hmem
    · exact hmem
    · cases List.mem_singleton.mp hmem
  refine ⟨fun side => ?_, fun side a ha b hb => ?_, fun side order ho => ?_,
    fun side order ho _ _ _ _ hplace => ?_, fun _ _ _ _ _ hplace => ?_, fun id hid => ?_⟩
  · exact (h.distinct side).sublist ((hsub side).map _)
  · exact h.apart side a ((hsub side).subset ha) b ((hsub side.opposite).subset hb)
  · rw [hids]
    exact h.placed side order ((hsub side).subset ho)
  · rw [htotal]
    exact h.conserved side order ((hsub side).subset ho) _ _ _ _ (hearlier _ _ _ _ _ hplace)
  · rw [htotal]
    exact h.bounded _ _ _ _ _ (hearlier _ _ _ _ _ hplace)
  · rw [htotal]
    exact h.unplaced id (hids ▸ hid)

/-- One call. -/
theorem step {book book' : OrderBook S} (hinv : Inv book) (h : Ledger ops events book.flat)
    {op : Op} (hdistinct : (placedIds (ops ++ [op])).Nodup) {events' : List EngineEvent}
    (happly : applyOp book op = .ok (events', book')) :
    Ledger (ops ++ [op]) (events ++ events') book'.flat := by
  cases op with
  | place orderId userId side price quantity =>
    obtain ⟨_, hplace, hflat, -⟩ := placeLimitOrder_spec hinv orderId userId side price quantity
    rw [applyOp, hplace] at happly
    cases happly
    rw [hflat]
    refine Ledger.place (fun hmem => ?_) userId side price quantity h
    rw [placedIds, List.filterMap_append] at hdistinct
    exact List.disjoint_of_nodup_append hdistinct hmem List.mem_cons_self
  | cancel orderId userId =>
    exact h.cancel (cancelOrder_sublist hinv happly) (cancelOrder_untraded hinv happly) orderId
      userId

/-- A whole run. -/
theorem run {book book' : OrderBook S} (hbook : Reachable book) (h : Ledger ops events book.flat)
    {later : List Op} (hdistinct : (placedIds (ops ++ later)).Nodup) {events' : List EngineEvent}
    (hrun : runLog book later = .ok (events', book')) :
    Ledger (ops ++ later) (events ++ events') book'.flat := by
  induction later generalizing ops events events' book with
  | nil =>
    cases hrun
    rwa [List.append_nil, List.append_nil]
  | cons op later ih =>
    obtain ⟨new, next, rest, happly, hrest, rfl⟩ := runLog_cons hrun
    have hsplit : ops ++ op :: later = (ops ++ [op]) ++ later := by simp
    rw [hsplit] at hdistinct ⊢
    have hprefix : (placedIds (ops ++ [op])).Nodup := by
      rw [placedIds, List.filterMap_append] at hdistinct
      exact (List.nodup_append.mp hdistinct).1
    rw [← List.append_assoc]
    exact ih (hbook.step happly) (h.step hbook.inv hprefix happly) hdistinct hrest

end Ledger

open LedgerLemmas

/-- An order that does not rest and is not placed is not traded. -/
theorem untraded_run {book book' : OrderBook S} (hbook : Reachable book) {orderId : OrderId}
    (habsent : ∀ side, ∀ order ∈ book.flat side, order.id ≠ orderId) {ops : List Op}
    (hops : orderId ∉ placedIds ops) {events : List EngineEvent}
    (hrun : runLog book ops = .ok (events, book')) :
    ∀ event ∈ events, ¬ event.Trades orderId := by
  induction ops generalizing book events with
  | nil =>
    cases hrun
    exact fun _ h => nomatch h
  | cons op ops ih =>
    obtain ⟨new, next, rest, happly, hrest, rfl⟩ := runLog_cons hrun
    have hsplit : placedIds (op :: ops) = placedIds [op] ++ placedIds ops :=
      List.filterMap_append (l := [op])
    rw [hsplit, List.mem_append, not_or] at hops
    obtain ⟨hnew, hnext⟩ := untraded_step hbook.inv habsent hops.1 happly
    exact List.forall_mem_append.mpr ⟨hnew, ih (hbook.step happly) hnext hops.2 hrest⟩

/-- In every run that places no id twice, what an order has traded is at most what
it was placed with; while it rests, what it has traded and what is left of it is
just that; and when it has left the book, no later event trades it. -/
theorem order_conserved {ops : List Op} (hdistinct : (placedIds ops).Nodup)
    {events : List EngineEvent} {book : OrderBook S}
    (hrun : runLog OrderBook.new ops = .ok (events, book)) {orderId : OrderId} {userId : UserId}
    {side : Side} {price : Price} {quantity : Quantity}
    (hplaced : .place orderId userId side price quantity ∈ ops) :
    traded orderId events ≤ quantity.toNat ∧
      (∀ s, ∀ order ∈ book.flat s, order.id = orderId →
        traded orderId events + order.quantity.toNat = quantity.toNat) ∧
      ((∀ s, ∀ order ∈ book.flat s, order.id ≠ orderId) →
        ∀ later events' book', (placedIds (ops ++ later)).Nodup →
          runLog book later = .ok (events', book') →
          ∀ event ∈ events', ¬ event.Trades orderId) := by
  have hledger := Ledger.run .new Ledger.nil hdistinct hrun
  refine ⟨hledger.bounded _ _ _ _ _ hplaced, ?_, fun habsent later events' book' hlater hrun' => ?_⟩
  · rintro s order horder rfl
    exact hledger.conserved s order horder _ _ _ _ hplaced
  · refine untraded_run (reachable_runLog .new hrun) habsent (fun hmem => ?_) hrun'
    rw [placedIds, List.filterMap_append] at hlater
    exact List.disjoint_of_nodup_append hlater
      (List.mem_filterMap.mpr ⟨.place orderId userId side price quantity, hplaced, rfl⟩) hmem

/-- Order 1 is filled in part by order 2 and by order 3. -/
def twoFills : List Op :=
  [.place 1 7 .ask 100 10, .place 2 8 .bid 100 4, .place 3 9 .bid 100 3]

/-- Order 4 takes what is left of order 1, and does not trade order 2, which is
gone. -/
theorem order_conserved_twoFills :
    ∃ (events events' : List EngineEvent) (book book' : OrderBook StackSlab),
      runLog OrderBook.new twoFills = .ok (events, book) ∧
      book.flat .ask = [⟨1, 7, 100, 3, .ask, 0⟩] ∧ book.flat .bid = [] ∧
      traded 1 events + (3 : Quantity).toNat = (10 : Quantity).toNat ∧
      traded 2 events ≤ (4 : Quantity).toNat ∧
      runLog book [.place 4 8 .bid 100 5] = .ok (events', book') ∧ traded 1 events' = 3 ∧
      ∀ event ∈ events', ¬ event.Trades 2 := by
  have hplay : ∃ (events events' : List EngineEvent) (book book' : OrderBook StackSlab),
      runLog OrderBook.new twoFills = .ok (events, book) ∧
      book.flat .ask = [⟨1, 7, 100, 3, .ask, 0⟩] ∧ book.flat .bid = [] ∧
      runLog book [.place 4 8 .bid 100 5] = .ok (events', book') ∧ traded 1 events' = 3 :=
    ⟨_, _, _, _, rfl, rfl, rfl, rfl, rfl⟩
  obtain ⟨events, events', book, book', hrun, hask, hbid, hlater, htraded⟩ := hplay
  have hmaker : Op.place 1 7 .ask 100 10 ∈ twoFills := by decide
  have htaker : Op.place 2 8 .bid 100 4 ∈ twoFills := by decide
  obtain ⟨-, hrests, -⟩ := order_conserved (by decide) hrun hmaker
  obtain ⟨hle, -, hgone⟩ := order_conserved (by decide) hrun htaker
  refine ⟨events, events', book, book', hrun, hask, hbid,
    hrests .ask ⟨1, 7, 100, 3, .ask, 0⟩ ?_ rfl, hle, hlater, htraded,
    hgone (fun s order horder => ?_) _ events' book' (by decide) hlater⟩
  · rw [hask]
    exact List.mem_cons_self
  · cases s with
    | bid =>
      rw [hbid] at horder
      cases horder
    | ask =>
      rw [hask] at horder
      rw [List.mem_singleton.mp horder]
      decide

end EviceChain.Engine
