import EviceChain.Engine.OrderIndex

/-!
# Market depth

`getDepth` reads the first levels of both trees and adds up the slots queued at
each; a slot without an order counts as zero, and the additions are those of
`u64`. What it should report is said of the resting orders alone: the best
prices in their order, and at each the volume that rests there.

Results:
1. `depthLevel_exact`: a level whose volume fits into 64 bits is reported with it;
2. `getDepth_faithful`: the report of a reachable book in which every volume fits;
3. `Flat.place_volume`, `applyOp_volume`: a placement adds to the volume at its own
   price only, at most its quantity; a cancel adds to none.
-/

namespace EviceChain.Engine

open Foundation RepresentationLemmas EventStreamLemmas OrderIndexLemmas

variable {S : Type → Type} [SlabLike S]

/-! ## What rests at a price -/

/-- The prices at which orders of a side rest. -/
def Flat.prices (flat : Flat) (side : Side) : Finset Price :=
  ((flat side).map Order.price).toFinset

/-- The exact sum of the quantities in a list of orders. -/
def volumeOf (orders : List Order) : Nat :=
  (orders.map fun order => order.quantity.toNat).sum

/-- What rests at a price of a side. -/
def Flat.volume (flat : Flat) (side : Side) (price : Price) : Nat :=
  volumeOf ((flat side).filter (·.price = price))

/-- The level a report should have for a price whose volume fits into 64 bits. -/
def Flat.levelAt (flat : Flat) (side : Side) (price : Price) : OrderLevel :=
  ⟨price, UInt64.ofNat (flat.volume side price)⟩

/-- A report of the best prices of a side, at most `limit` of them, with what
rests at each. -/
structure DepthOf (flat : Flat) (side : Side) (limit : Nat) (levels : List OrderLevel) : Prop where
  length : levels.length = min limit (flat.prices side).card
  sorted : levels.Pairwise fun a b => ahead side a.price b.price = true
  resting : ∀ level ∈ levels, level.price ∈ flat.prices side
  best : ∀ level ∈ levels, ∀ price ∈ flat.prices side, price ∉ levels.map OrderLevel.price →
    ahead side level.price price = true
  total : ∀ level ∈ levels, level.quantity.toNat = flat.volume side level.price
  positive : ∀ level ∈ levels, 0 < level.quantity

namespace DepthLemmas

theorem volumeOf_cons (order : Order) (orders : List Order) :
    volumeOf (order :: orders) = order.quantity.toNat + volumeOf orders :=
  List.sum_cons

theorem volumeOf_sublist {orders orders' : List Order} (h : orders'.Sublist orders) :
    volumeOf orders' ≤ volumeOf orders :=
  (h.map _).sum_le_sum fun _ _ => Nat.zero_le _

theorem volumeOf_perm {orders orders' : List Order} (h : orders'.Perm orders) :
    volumeOf orders' = volumeOf orders :=
  (h.map _).sum_eq

theorem volume_le (flat : Flat) (side : Side) (price : Price) :
    flat.volume side price ≤ volumeOf (flat side) :=
  volumeOf_sublist List.filter_sublist

theorem mem_prices {flat : Flat} {side : Side} {price : Price} :
    price ∈ flat.prices side ↔ ∃ order ∈ flat side, order.price = price := by
  simp [Flat.prices]

/-! ## One level -/

theorem addU64_exact (profile : Profile) {a b : UInt64} (h : a.toNat + b.toNat < 2 ^ 64) :
    addU64 profile a b = .ok (a + b) ∧ (a + b).toNat = a.toNat + b.toNat := by
  refine ⟨if_pos h, ?_⟩
  rw [UInt64.toNat_add, Nat.mod_eq_of_lt h]

/-- Without an overflow the two builds agree, and the sum is the exact one. -/
theorem sumU64_exact (profile : Profile) {xs : List UInt64}
    (h : (xs.map UInt64.toNat).sum < 2 ^ 64) :
    sumU64 profile xs = .ok (UInt64.ofNat (xs.map UInt64.toNat).sum) := by
  -- generalised over what has been added up so far
  suffices ∀ acc : UInt64, acc.toNat + (xs.map UInt64.toNat).sum < 2 ^ 64 →
      xs.foldlM (addU64 profile) acc =
        .ok (UInt64.ofNat (acc.toNat + (xs.map UInt64.toNat).sum)) by
    have hsum := this 0 (by simpa using h)
    simpa [sumU64] using hsum
  induction xs with
  | nil =>
    intro acc _
    simp [pure, Except.pure]
  | cons x xs ih =>
    intro acc hacc
    rw [List.map_cons, List.sum_cons, ← Nat.add_assoc] at hacc
    obtain ⟨hadd, hnat⟩ := addU64_exact profile (show acc.toNat + x.toNat < 2 ^ 64 by omega)
    rw [List.map_cons, List.sum_cons] at h
    rw [List.foldlM_cons, hadd, List.map_cons, List.sum_cons, ← Nat.add_assoc, ← hnat]
    exact ih (by omega) (acc + x) (by omega)

/-- Slots without an order add nothing. -/
theorem quantities_sum (store : S Order) (queue : List Nat) :
    ((queue.map fun idx => ((SlabLike.get store idx).map Order.quantity).getD 0).map
      UInt64.toNat).sum = volumeOf (queue.filterMap (SlabLike.get store)) := by
  induction queue with
  | nil => rfl
  | cons k queue ih =>
    cases hget : SlabLike.get store k with
    | none => simpa [hget] using ih
    | some order =>
      rw [List.filterMap_cons_some hget, volumeOf_cons, ← ih]
      simp [hget]

end DepthLemmas

open DepthLemmas

theorem depthLevel_exact (profile : Profile) {book : OrderBook S} (hinv : Inv book) {side : Side}
    {level : Price × List Nat} (hlevel : level ∈ book.levels side)
    (hfits : book.flat.volume side level.1 < 2 ^ 64) :
    depthLevel profile book.orderStore level = .ok (book.flat.levelAt side level.1) := by
  have hqueue : (book.tree side).get? level.1 = some level.2 :=
    SortedMap.get?_eq_some_iff.mpr (mem_treeLevels.mp hlevel)
  have hvolume : book.flat.volume side level.1 =
      volumeOf (level.2.filterMap (SlabLike.get book.orderStore)) := by
    unfold Flat.volume
    rw [filter_flat hinv, hqueue, Option.getD_some]
  have hsum := quantities_sum book.orderStore level.2
  unfold depthLevel Flat.levelAt
  dsimp only
  rw [sumU64_exact profile (by rw [hsum, ← hvolume]; exact hfits), hsum, hvolume]
  rfl

/-! ## A side of the report -/

namespace DepthLemmas

variable {book : OrderBook S}

theorem mem_prices_levels (hinv : Inv book) {side : Side} {price : Price} :
    price ∈ book.flat.prices side ↔ ∃ level ∈ book.levels side, level.1 = price := by
  rw [mem_prices]
  constructor
  · rintro ⟨order, horder, rfl⟩
    obtain ⟨k, hk, hget⟩ := mem_flat.mp horder
    obtain ⟨level, hlevel, -, order', hget', -, hprice, -⟩ := hinv.resting_of_mem hk
    rw [hget] at hget'
    cases hget'
    exact ⟨level, hlevel, hprice.symm⟩
  · rintro ⟨level, hlevel, rfl⟩
    exact hinv.exists_resting hlevel

/-- Every level of a tree is one price of its side. -/
theorem prices_card (hinv : Inv book) (side : Side) :
    (book.flat.prices side).card = (book.levels side).length := by
  have hnodup : ((book.levels side).map Prod.fst).Nodup := by
    refine List.pairwise_map.mpr ((treeLevels_sorted side _).imp fun hahead heq => ?_)
    rw [heq, not_ahead_self] at hahead
    cases hahead
  have hprices : book.flat.prices side = ((book.levels side).map Prod.fst).toFinset := by
    ext price
    rw [mem_prices_levels hinv, List.mem_toFinset, List.mem_map]
  rw [hprices, List.toFinset_card_of_nodup hnodup, List.length_map]

theorem volume_pos (hinv : Inv book) {side : Side} {level : Price × List Nat}
    (hlevel : level ∈ book.levels side) : 0 < book.flat.volume side level.1 := by
  obtain ⟨order, horder, hprice⟩ := hinv.exists_resting hlevel
  obtain ⟨k, hk, hget⟩ := mem_flat.mp horder
  obtain ⟨-, -, -, order', hget', -, -, hpos⟩ := hinv.resting_of_mem hk
  rw [hget] at hget'
  cases hget'
  have hone : volumeOf [order] ≤ book.flat.volume side level.1 :=
    volumeOf_sublist (List.singleton_sublist.mpr
      (List.mem_filter.mpr ⟨horder, decide_eq_true hprice⟩))
  have hquantity : 0 < order.quantity.toNat := UInt64.lt_iff_toNat_lt.mp hpos
  simp only [volumeOf, List.map_cons, List.map_nil, List.sum_cons, List.sum_nil] at hone
  omega

/-- The first levels of a tree, each with its volume, are the report of the side. -/
theorem depthOf_levels (hinv : Inv book) (side : Side)
    (hfits : ∀ price, book.flat.volume side price < 2 ^ 64) (limit : Nat) :
    DepthOf book.flat side limit
      (((book.levels side).take limit).map fun level => book.flat.levelAt side level.1) := by
  have hsorted := treeLevels_sorted side (book.tree side)
  have hexact : ∀ price, (book.flat.levelAt side price).quantity.toNat =
      book.flat.volume side price := fun price => UInt64.toNat_ofNat_of_lt' (hfits price)
  have hmem : ∀ {level}, level ∈ (book.levels side).take limit → level ∈ book.levels side :=
    fun h => List.mem_of_mem_take h
  refine ⟨?_, ?_, ?_, ?_, ?_, ?_⟩
  · rw [List.length_map, List.length_take, prices_card hinv]
  · exact List.pairwise_map.mpr (hsorted.sublist (List.take_sublist _ _))
  · rintro _ h
    obtain ⟨level, hlevel, rfl⟩ := List.mem_map.mp h
    exact (mem_prices_levels hinv).mpr ⟨level, hmem hlevel, rfl⟩
  · -- a price that is not reported has its level behind the limit
    rintro _ h price hprice hunreported
    obtain ⟨level, hlevel, rfl⟩ := List.mem_map.mp h
    obtain ⟨other, hother, rfl⟩ := (mem_prices_levels hinv).mp hprice
    have hdrop : other ∈ (book.levels side).drop limit := by
      rw [← List.take_append_drop limit (book.levels side), List.mem_append] at hother
      refine hother.resolve_left fun htake => hunreported ?_
      rw [List.map_map]
      exact List.mem_map_of_mem (f := fun level => level.1) htake
    rw [OrderBook.levels] at hlevel hdrop
    rw [← List.take_append_drop limit (treeLevels side (book.tree side)),
      List.pairwise_append] at hsorted
    exact hsorted.2.2 level hlevel other hdrop
  · rintro _ h
    obtain ⟨level, -, rfl⟩ := List.mem_map.mp h
    exact hexact level.1
  · rintro _ h
    obtain ⟨level, hlevel, rfl⟩ := List.mem_map.mp h
    rw [UInt64.lt_iff_toNat_lt, hexact]
    exact volume_pos hinv (hmem hlevel)

/-- What `getDepth` returns if every volume fits. -/
theorem getDepth_exact (profile : Profile) (hinv : Inv book)
    (hfits : ∀ side price, book.flat.volume side price < 2 ^ 64) (limit : Nat) :
    getDepth profile book limit =
      .ok (((book.levels .ask).take limit).map fun level => book.flat.levelAt .ask level.1,
        ((book.levels .bid).take limit).map fun level => book.flat.levelAt .bid level.1) := by
  have hside : ∀ side, ((book.levels side).take limit).mapM (depthLevel profile book.orderStore) =
      .ok (((book.levels side).take limit).map fun level => book.flat.levelAt side level.1) :=
    fun side => mapM_ok fun level hlevel =>
      depthLevel_exact profile hinv (List.mem_of_mem_take hlevel) (hfits side level.1)
  have hasks := hside .ask
  have hbids := hside .bid
  unfold getDepth
  simp only [OrderBook.levels, treeLevels, OrderBook.tree] at hasks hbids ⊢
  rw [hasks, hbids]
  rfl

end DepthLemmas

/-- For every reachable book in which each price's quantities sum to less than
2^64, every limit and either build: `getDepth` returns, both sides are reports of
the resting orders, and the first ask is above the first bid. -/
theorem getDepth_faithful {book : OrderBook S} (h : Reachable book)
    (hfits : ∀ side price, book.flat.volume side price < 2 ^ 64) (profile : Profile)
    (limit : Nat) :
    ∃ asks bids, getDepth profile book limit = .ok (asks, bids) ∧
      DepthOf book.flat .ask limit asks ∧ DepthOf book.flat .bid limit bids ∧
      ∀ ask ∈ asks.head?, ∀ bid ∈ bids.head?, bid.price < ask.price := by
  have hask := depthOf_levels h.inv .ask (hfits .ask) limit
  have hbid := depthOf_levels h.inv .bid (hfits .bid) limit
  refine ⟨_, _, getDepth_exact profile h.inv hfits limit, hask, hbid, fun ask ha bid hb => ?_⟩
  obtain ⟨sell, hsell, hsellPrice⟩ := mem_prices.mp (hask.resting ask (List.mem_of_mem_head? ha))
  obtain ⟨buy, hbuy, hbuyPrice⟩ := mem_prices.mp (hbid.resting bid (List.mem_of_mem_head? hb))
  rw [← hsellPrice, ← hbuyPrice]
  exact h.uncrossed buy hbuy sell hsell

/-- Three asks at two prices and a bid: with one level a side, the volume of the
cheapest ask. -/
theorem getDepth_faithful_threeAsks :
    ∃ book : OrderBook StackSlab, Reachable book ∧
      getDepth .checked book 1 = .ok ([⟨100, 14⟩], [⟨90, 3⟩]) ∧
      ∃ asks bids, getDepth .checked book 1 = .ok (asks, bids) ∧
        DepthOf book.flat .ask 1 asks ∧ DepthOf book.flat .bid 1 bids := by
  have h : Reachable (S := StackSlab) _ :=
    .step (.step (.step (.step .new (rfl : applyOp _ (.place 1 7 .ask 100 10) = _))
      (rfl : applyOp _ (.place 2 8 .ask 100 4) = _)) (rfl : applyOp _ (.place 3 7 .ask 101 5) = _))
      (rfl : applyOp _ (.place 4 9 .bid 90 3) = _)
  obtain ⟨asks, bids, hdepth, hask, hbid, -⟩ := getDepth_faithful h (fun side price =>
    (volume_le _ side price).trans_lt (by cases side <;> decide)) .checked 1
  exact ⟨_, h, rfl, asks, bids, hdepth, hask, hbid⟩

/-! ## How the volume at a price grows -/

namespace DepthLemmas

/-- A walk takes from the makers. -/
theorem walk_volume (orderId : OrderId) (userId : UserId) (side : Side) (price : Price)
    (quantity : Quantity) (makers : List Order) (p : Price) :
    volumeOf ((walk orderId userId side price quantity makers).makers.filter (·.price = p)) ≤
      volumeOf (makers.filter (·.price = p)) := by
  have hcons : ∀ (maker : Order) (makers : List Order),
      volumeOf (makers.filter (·.price = p)) ≤ volumeOf ((maker :: makers).filter (·.price = p)) :=
    fun maker makers => volumeOf_sublist ((List.sublist_cons_self maker makers).filter _)
  refine walk_induction (P := fun _ makers w => volumeOf (w.makers.filter (·.price = p)) ≤
    volumeOf (makers.filter (·.price = p))) ?_ ?_ ?_ ?_ ?_ quantity makers
  · exact fun _ => le_rfl
  · exact fun _ _ _ _ => le_rfl
  · exact fun _ maker makers _ _ _ _ _ ih => ih.trans (hcons maker makers)
  · exact fun _ maker makers _ _ _ _ _ _ ih => ih.trans (hcons maker makers)
  · intro quantity maker makers _ _ _ _
    have hless : (maker.quantity - min quantity maker.quantity).toNat ≤ maker.quantity.toNat := by
      rw [UInt64.toNat_sub_of_le _ _ (min_le_right _ _)]
      exact Nat.sub_le _ _
    by_cases hp : maker.price = p
    · rw [List.filter_cons_of_pos (by simpa using hp), List.filter_cons_of_pos (by simpa using hp),
        volumeOf_cons, volumeOf_cons]
      exact Nat.add_le_add_right hless _
    · rw [List.filter_cons_of_neg (by simpa using hp), List.filter_cons_of_neg (by simpa using hp)]

/-- What is left of a taker is not more than it came with. -/
theorem walk_left_le (orderId : OrderId) (userId : UserId) (side : Side) (price : Price)
    (quantity : Quantity) (makers : List Order) :
    (walk orderId userId side price quantity makers).quantity.toNat ≤ quantity.toNat :=
  (LedgerLemmas.walk_taker orderId userId side price quantity makers) ▸ Nat.le_add_left _ _

theorem joinBack_volume (order : Order) (own : List Order) (p : Price) :
    volumeOf ((joinBack order own).filter (·.price = p)) =
      volumeOf (own.filter (·.price = p)) +
        if order.price = p then order.quantity.toNat else 0 := by
  rw [volumeOf_perm ((joinBack_perm order own).filter _)]
  split
  · next hp =>
    rw [List.filter_cons_of_pos (by simpa using hp), volumeOf_cons, Nat.add_comm]
  · next hp => rw [List.filter_cons_of_neg (by simpa using hp), Nat.add_zero]

end DepthLemmas

/-- A placement adds to the volume at its own price only, and not more than its
quantity. -/
theorem Flat.place_volume (flat : Flat) (orderId : OrderId) (userId : UserId) (side : Side)
    (price : Price) (quantity : Quantity) (s : Side) (p : Price) :
    Flat.volume (flat.place orderId userId side price quantity).2 s p ≤
      flat.volume s p + if s = side ∧ p = price then quantity.toNat else 0 := by
  unfold Flat.volume
  cases s using sideCases side with
  | same =>
    rw [Flat.place_own]
    dsimp only
    split
    · have hleft := walk_left_le orderId userId side price quantity (flat side.opposite)
      rw [joinBack_volume]
      by_cases hp : price = p
      · rw [if_pos hp, if_pos ⟨rfl, hp.symm⟩]
        exact Nat.add_le_add_left hleft _
      · rw [if_neg hp]
        exact Nat.add_le_add_left (Nat.zero_le _) _
    · exact Nat.le_add_right _ _
  | other =>
    rw [Flat.place_opposite]
    exact (walk_volume ..).trans (Nat.le_add_right _ _)

/-- The call leaves the volume it adds to below 2^64: what rests at the price of
a placement and what it brings fit into 64 bits together. -/
def Fits (book : OrderBook S) : Op → Prop
  | .place _ _ side price quantity => book.flat.volume side price + quantity.toNat < 2 ^ 64
  | .cancel _ _ => True

instance Fits.decidable (book : OrderBook S) (op : Op) : Decidable (Fits book op) :=
  match op with
  | .place _ _ _ _ _ => inferInstanceAs (Decidable (_ < _))
  | .cancel _ _ => inferInstanceAs (Decidable True)

theorem applyOp_volume {book book' : OrderBook S} (hinv : Inv book)
    (hbook : ∀ side price, book.flat.volume side price < 2 ^ 64) {op : Op} (hfits : Fits book op)
    {events : List EngineEvent} (happly : applyOp book op = .ok (events, book')) (s : Side)
    (p : Price) : book'.flat.volume s p < 2 ^ 64 := by
  cases op with
  | place orderId userId side price quantity =>
    obtain ⟨_, hplace, hflat, -⟩ := placeLimitOrder_spec hinv orderId userId side price quantity
    rw [applyOp, hplace] at happly
    cases happly
    have hgrows := book.flat.place_volume orderId userId side price quantity s p
    rw [← hflat] at hgrows
    split at hgrows
    · next hsame =>
      obtain ⟨rfl, rfl⟩ := hsame
      exact hgrows.trans_lt hfits
    · exact hgrows.trans_lt (hbook s p)
  | cancel orderId userId =>
    exact (volumeOf_sublist ((cancelOrder_sublist hinv happly s).filter _)).trans_lt (hbook s p)

end EviceChain.Engine
