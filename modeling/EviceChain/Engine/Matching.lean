import EviceChain.Engine.Representation

/-!
# The matching loops refine price-time priority

The nested loop of `placeLimitOrder` runs over slab keys queued in trees. Its
inner loop treats one level, and `QueueRun` is what it keeps: which slots it
may touch, and that the walk still to be done continues the walk from the
start. The outer loop goes from level to level under `MatchRun`.

Results:
1. `placeLimitOrder_spec`, `cancelOrder_spec`: the two operations return, keep
   `Inv`, and do to the flat lists what they should;
2. `Reachable.inv`: `Inv` holds in every reachable book;
3. `placeLimitOrder_refines_priceTime`, `reachable_wellFormed`: the refinement
   and the representation invariant, for every reachable book;
4. `reachable_uncrossed`: every bid of a reachable book is below every ask.
-/

namespace EviceChain.Engine

open Foundation RepresentationLemmas

variable {S : Type → Type} [SlabLike S]

/-! ## One level -/

section Level

variable (orderId : OrderId) (userId : UserId) (side : Side) (price : Price)

/-- The walk through the level's queue that is left to do in a state of the
inner loop, with the events of the loop so far in front. -/
def QueueState.pending (s : QueueState S) : Walk :=
  let w := walk orderId userId side price s.quantity
    (s.queue.filterMap (SlabLike.get s.store))
  { w with events := s.events ++ w.events }

/-- What the inner loop keeps, from its first state `s₀` on the level at
`bestPrice`: the queue is a suffix of the first one, popped slots are free,
other levels' slots are untouched, and the pending walk stays the same. -/
structure QueueRun (bestPrice : Price) (s₀ s : QueueState S) : Prop where
  suffix : s.queue <:+ s₀.queue
  frame : ∀ k, k ∉ s₀.queue → SlabLike.get s.store k = SlabLike.get s₀.store k
  freed : ∀ k ∈ s₀.queue, k ∉ s.queue → SlabLike.get s.store k = none
  kept : ∀ k ∈ s.queue, Resting s.store side.opposite bestPrice k
  walked : s.pending orderId userId side price = s₀.pending orderId userId side price

end Level

section

variable {orderId : OrderId} {userId : UserId} {side : Side} {price bestPrice : Price}
  {s₀ s : QueueState S} {k : Nat} {rest : List Nat} {maker : Order}

namespace MatchingLemmas

theorem removeSlot_live {store : S Order} {order : Order}
    (h : SlabLike.get store k = some order) :
    removeSlot store k = .ok (SlabLike.remove store k) := by
  simp [removeSlot, h]

/-! The iterations of the inner loop: the queue is empty, the maker belongs to
the taker's user, the maker is used up, or the maker outlasts the taker. -/

theorem matchFront_nil (hqueue : s.queue = []) :
    matchFront orderId userId bestPrice s = .ok (.done s) := by
  simp [matchFront, hqueue]

theorem matchFront_self (hqueue : s.queue = k :: rest)
    (hget : SlabLike.get s.store k = some maker) (hu : maker.userId = userId) :
    matchFront orderId userId bestPrice s = .ok (.yield
      ⟨SlabLike.remove s.store k, rest, s.quantity,
        s.events ++ [.orderCancelled maker.id]⟩) := by
  simp only [matchFront, hqueue, hget, if_pos hu, removeSlot_live hget]
  rfl

/-- The maker after the trade. -/
def filled (s : QueueState S) (maker : Order) : Order :=
  { maker with quantity := maker.quantity - min s.quantity maker.quantity }

/-- The state after a trade that uses up the maker. -/
def consume (orderId : OrderId) (bestPrice : Price) (s : QueueState S) (k : Nat)
    (rest : List Nat) (maker : Order) : QueueState S :=
  ⟨SlabLike.remove (SlabLike.set s.store k (filled s maker)) k, rest,
    s.quantity - min s.quantity maker.quantity,
    s.events ++
      [.tradeExecuted maker.id orderId bestPrice (min s.quantity maker.quantity)]⟩

theorem matchFront_consumed (orderId : OrderId) (bestPrice : Price) (hqueue : s.queue = k :: rest)
    (hget : SlabLike.get s.store k = some maker) (hu : maker.userId ≠ userId)
    (hl : maker.quantity - min s.quantity maker.quantity = 0) :
    matchFront orderId userId bestPrice s =
      .ok (if s.quantity - min s.quantity maker.quantity = 0
        then .done (consume orderId bestPrice s k rest maker)
        else .yield (consume orderId bestPrice s k rest maker)) := by
  have hset : SlabLike.get (SlabLike.set s.store k (filled s maker)) k = some (filled s maker) :=
    SlabLike.get_set_self hget
  unfold filled at hset
  simp only [matchFront, hqueue, hget, if_neg hu, if_pos hl, removeSlot_live hset, consume,
    filled]
  show (if _ then _ else _ : Except Fault (ForInStep (QueueState S))) = _
  split <;> rfl

theorem matchFront_outlasted (hqueue : s.queue = k :: rest)
    (hget : SlabLike.get s.store k = some maker) (hu : maker.userId ≠ userId)
    (hl : maker.quantity - min s.quantity maker.quantity ≠ 0) :
    matchFront orderId userId bestPrice s = .ok (.done
      ⟨SlabLike.set s.store k (filled s maker), k :: rest, 0,
        s.events ++
          [.tradeExecuted maker.id orderId bestPrice (min s.quantity maker.quantity)]⟩) := by
  have hz : s.quantity - min s.quantity maker.quantity = 0 :=
    (min_sub_eq_zero s.quantity maker.quantity).resolve_right hl
  simp only [matchFront, hqueue, hget, if_neg hu, if_neg hl, hz, filled]
  rfl

/-- The orders of a queue without its front key do not depend on its slot. -/
theorem filterMap_rest {store store' : S Order}
    (hk : k ∉ rest) (h : ∀ j, j ≠ k → SlabLike.get store' j = SlabLike.get store j) :
    rest.filterMap (SlabLike.get store') = rest.filterMap (SlabLike.get store) :=
  filterMap_get_congr fun j hj => h j fun he => hk (he ▸ hj)

end MatchingLemmas

open MatchingLemmas

namespace QueueRun

theorem front_not_mem (hrun : QueueRun orderId userId side price bestPrice s₀ s)
    (hnodup : s₀.queue.Nodup) (hqueue : s.queue = k :: rest) : k ∉ rest :=
  (List.nodup_cons.mp (hnodup.sublist (hqueue ▸ hrun.suffix).sublist)).1

/-- The front order leaves the queue and its slot is freed. -/
theorem pop {s' : QueueState S} {store : S Order} {order : Order}
    (hrun : QueueRun orderId userId side price bestPrice s₀ s)
    (hnodup : s₀.queue.Nodup) (hqueue : s.queue = k :: rest)
    (hget : SlabLike.get store k = some order)
    (hstore : ∀ j, j ≠ k → SlabLike.get store j = SlabLike.get s.store j)
    (hs' : s'.store = SlabLike.remove store k) (hq' : s'.queue = rest)
    (hwalk : s'.pending orderId userId side price = s.pending orderId userId side price) :
    QueueRun orderId userId side price bestPrice s₀ s' := by
  have hsuffix : k :: rest <:+ s₀.queue := hqueue ▸ hrun.suffix
  have hk := hrun.front_not_mem hnodup hqueue
  have hother : ∀ j, j ≠ k → SlabLike.get s'.store j = SlabLike.get s.store j := by
    intro j hj
    rw [hs', SlabLike.get_remove_of_ne hget hj, hstore j hj]
  refine ⟨?_, ?_, ?_, ?_, hwalk.trans hrun.walked⟩
  · rw [hq']
    exact (List.suffix_cons k rest).trans hsuffix
  · intro j hj
    have hne : j ≠ k := by
      rintro rfl
      exact hj (hsuffix.subset List.mem_cons_self)
    rw [hother j hne]
    exact hrun.frame j hj
  · intro j hj hgone
    by_cases hne : j = k
    · subst hne
      rw [hs', SlabLike.get_remove_self hget]
    · rw [hother j hne]
      refine hrun.freed j hj ?_
      rw [hqueue, List.mem_cons, not_or]
      exact ⟨hne, hq' ▸ hgone⟩
  · intro j hj
    rw [hq'] at hj
    have hne : j ≠ k := by
      rintro rfl
      exact hk hj
    obtain ⟨o, ho, hrest⟩ := hrun.kept j (by rw [hqueue]; exact List.mem_cons_of_mem _ hj)
    exact ⟨o, (hother j hne).trans ho, hrest⟩

/-- The front order is rewritten in place. -/
theorem rewrite {s' : QueueState S} {order : Order}
    (hrun : QueueRun orderId userId side price bestPrice s₀ s) (hqueue : s.queue = k :: rest)
    (hget : SlabLike.get s'.store k = some order) (hside : order.side = side.opposite)
    (hprice : order.price = bestPrice) (hpos : 0 < order.quantity)
    (hother : ∀ j, j ≠ k → SlabLike.get s'.store j = SlabLike.get s.store j)
    (hq' : s'.queue = k :: rest)
    (hwalk : s'.pending orderId userId side price = s.pending orderId userId side price) :
    QueueRun orderId userId side price bestPrice s₀ s' := by
  rw [← hqueue] at hq'
  have hmem : k ∈ s.queue := by
    rw [hqueue]
    exact List.mem_cons_self
  refine ⟨hq' ▸ hrun.suffix, ?_, ?_, ?_,
    hwalk.trans hrun.walked⟩
  · intro j hj
    have hne : j ≠ k := by
      rintro rfl
      exact hj (hrun.suffix.subset hmem)
    exact (hother j hne).trans (hrun.frame j hj)
  · intro j hj hgone
    rw [hq'] at hgone
    have hne : j ≠ k := by
      rintro rfl
      exact hgone hmem
    exact (hother j hne).trans (hrun.freed j hj hgone)
  · intro j hj
    rw [hq'] at hj
    by_cases hne : j = k
    · subst hne
      exact ⟨order, hget, hside, hprice, hpos⟩
    · obtain ⟨o, ho, hrest⟩ := hrun.kept j hj
      exact ⟨o, (hother j hne).trans ho, hrest⟩

end QueueRun

/-- One iteration of the inner loop keeps `QueueRun`, and leaves the loop only
with an empty queue or a used-up taker. -/
theorem matchFront_step (hnodup : s₀.queue.Nodup)
    (hmatch : isMatchable side bestPrice price = true)
    (hs : QueueRun orderId userId side price bestPrice s₀ s ∧ s.quantity ≠ 0) :
    StepOk (matchFront orderId userId bestPrice)
      (fun s => QueueRun orderId userId side price bestPrice s₀ s ∧ s.quantity ≠ 0)
      (fun s => QueueRun orderId userId side price bestPrice s₀ s ∧
        (s.queue = [] ∨ s.quantity = 0))
      (fun s => s.queue.length) s := by
  obtain ⟨hrun, hq⟩ := hs
  cases hqueue : s.queue with
  | nil => exact .inr ⟨s, matchFront_nil hqueue, hrun, .inl hqueue⟩
  | cons k rest =>
    obtain ⟨maker, hget, hside, hprice, -⟩ := hrun.kept k (by rw [hqueue]; simp)
    have hk := hrun.front_not_mem hnodup hqueue
    subst hprice
    have hhead : s.queue.filterMap (SlabLike.get s.store) =
        maker :: rest.filterMap (SlabLike.get s.store) := by
      rw [hqueue, List.filterMap_cons_some hget]
    have hset : SlabLike.get (SlabLike.set s.store k (filled s maker)) k = some (filled s maker) :=
      SlabLike.get_set_self hget
    have hother : ∀ j, j ≠ k →
        SlabLike.get (SlabLike.set s.store k (filled s maker)) j = SlabLike.get s.store j :=
      fun j hj => SlabLike.get_set_of_ne hget hj
    by_cases hu : maker.userId = userId
    · refine .inl ⟨_, matchFront_self hqueue hget hu,
        ⟨hrun.pop hnodup hqueue hget (fun _ _ => rfl) rfl rfl ?_, hq⟩,
        by simp only [hqueue, List.length_cons]; omega⟩
      simp only [QueueState.pending, hhead, walk_self hq hmatch hu,
        filterMap_rest hk fun j hj => SlabLike.get_remove_of_ne hget hj,
        List.append_assoc, List.singleton_append]
    · by_cases hl : maker.quantity - min s.quantity maker.quantity = 0
      · have hrest :
            rest.filterMap (SlabLike.get (consume orderId maker.price s k rest maker).store) =
              rest.filterMap (SlabLike.get s.store) :=
          filterMap_rest hk fun j hj =>
            (SlabLike.get_remove_of_ne hset hj).trans (hother j hj)
        have hnext : QueueRun orderId userId side price maker.price s₀
            (consume orderId maker.price s k rest maker) := by
          refine hrun.pop hnodup hqueue hset hother rfl rfl ?_
          unfold QueueState.pending
          rw [hhead, walk_consumed hq hmatch hu hl]
          show (⟨_, _, _⟩ : Walk) = _
          rw [show (consume orderId maker.price s k rest maker).queue = rest from rfl, hrest]
          simp only [consume, List.append_assoc, List.singleton_append]
        have hstep := matchFront_consumed orderId maker.price hqueue hget hu hl
        by_cases hz : s.quantity - min s.quantity maker.quantity = 0
        · rw [if_pos hz] at hstep
          exact .inr ⟨_, hstep, hnext, .inr hz⟩
        · rw [if_neg hz] at hstep
          refine .inl ⟨_, hstep, ⟨hnext, hz⟩, ?_⟩
          show rest.length < s.queue.length
          rw [hqueue, List.length_cons]
          omega
      · refine .inr ⟨_, matchFront_outlasted hqueue hget hu hl,
          hrun.rewrite hqueue hset hside rfl (UInt64.pos_iff_ne_zero.mpr hl) hother rfl ?_,
          .inr rfl⟩
        simp only [QueueState.pending, hhead, walk_outlasted hq hmatch hu hl, walk_zero,
          List.filterMap_cons_some hset, filterMap_rest hk hother, List.append_nil]
        rfl

/-- The inner loop on a level returns, and its pending walk is then over. -/
theorem matchQueue_spec (orderId : OrderId) (userId : UserId) (s₀ : QueueState S)
    (hnodup : s₀.queue.Nodup)
    (hmatch : isMatchable side bestPrice price = true)
    (hrest : ∀ k ∈ s₀.queue, Resting s₀.store side.opposite bestPrice k)
    (hq : s₀.quantity ≠ 0) :
    ∃ s, iterate .outOfFuel (matchFront orderId userId bestPrice) (s₀.queue.length + 1) s₀ =
        .ok s ∧
      QueueRun orderId userId side price bestPrice s₀ s ∧
      (s.queue = [] ∨ s.quantity = 0) := by
  have hstart : QueueRun orderId userId side price bestPrice s₀ s₀ :=
    ⟨List.suffix_refl _, fun _ _ => rfl, fun _ hk hgone => absurd hk hgone, hrest, rfl⟩
  exact iterate_total Fault.outOfFuel
    (I := fun s => QueueRun orderId userId side price bestPrice s₀ s ∧ s.quantity ≠ 0)
    (fun s => s.queue.length) (fun s hs => matchFront_step hnodup hmatch hs) ⟨hstart, hq⟩
    (Nat.lt_succ_self _)

theorem QueueRun.pending_of_exit (hexit : s.queue = [] ∨ s.quantity = 0) :
    s.pending orderId userId side price =
      ⟨s.events, s.quantity, s.queue.filterMap (SlabLike.get s.store)⟩ := by
  unfold QueueState.pending
  rcases hexit with h | h
  · simp [h, walk]
  · simp [h, walk_zero]

end

/-! ## From level to level -/

section Book

variable (orderId : OrderId) (userId : UserId) (side : Side) (price : Price)

/-- The walk through the opposite side that is left to do in a state of the
outer loop, with the events of the loop so far in front. -/
def MatchState.pending (s : MatchState S) : Walk :=
  let w := walk orderId userId side price s.quantity (s.book.flat side.opposite)
  { w with events := s.events ++ w.events }

/-- What the outer loop keeps, from its first state `s₀`. -/
structure MatchRun (s₀ s : MatchState S) : Prop where
  inv : Inv s.book
  own : s.book.flat side = s₀.book.flat side
  index : s.book.orderIndex = s₀.book.orderIndex
  walked : s.pending orderId userId side price = s₀.pending orderId userId side price

end Book

section

variable {orderId : OrderId} {userId : UserId} {side : Side} {price : Price}
  {s₀ s : MatchState S}

namespace MatchingLemmas

omit [SlabLike S]

/-- The book after the inner loop on the best level. -/
def afterLevel (book : OrderBook S) (side : Side) (p : Price) (q : QueueState S) : OrderBook S :=
  let book := { book with orderStore := q.store }
  if q.queue.isEmpty then book.setTree side ((book.tree side).erase p)
  else book.setTree side ((book.tree side).insert p q.queue)

theorem afterLevel_store (book : OrderBook S) (side : Side) (p : Price) (q : QueueState S) :
    (afterLevel book side p q).orderStore = q.store := by
  unfold afterLevel
  split <;> simp

theorem afterLevel_index (book : OrderBook S) (side : Side) (p : Price) (q : QueueState S) :
    (afterLevel book side p q).orderIndex = book.orderIndex := by
  unfold afterLevel
  split <;> simp

/-- The levels of the treated side after the inner loop. -/
theorem afterLevel_levels {book : OrderBook S} {side : Side} {p : Price} {queue : List Nat}
    {rest : List (Price × List Nat)} (hlevels : book.levels side = (p, queue) :: rest)
    (q : QueueState S) :
    (afterLevel book side p q).levels side =
      if q.queue = [] then rest else (p, q.queue) :: rest := by
  have hsplit : treeLevels side (book.tree side) = [] ++ (p, queue) :: rest := hlevels
  unfold afterLevel OrderBook.levels
  cases hq : q.queue with
  | nil => simpa using treeLevels_erase hsplit
  | cons k ks =>
    have hinsert := treeLevels_insert (k :: ks) hsplit
    simpa using hinsert

theorem afterLevel_levels_opposite (book : OrderBook S) (side : Side) (p : Price)
    (q : QueueState S) :
    (afterLevel book side p q).levels side.opposite = book.levels side.opposite := by
  unfold afterLevel OrderBook.levels
  split <;> simp

variable [SlabLike S]

theorem afterLevel_update {book : OrderBook S} {p : Price} {queue : List Nat}
    {rest : List (Price × List Nat)} {q : QueueState S} {quantity : Quantity}
    {events : List EngineEvent} (hlevels : book.levels side.opposite = (p, queue) :: rest)
    (hrun : QueueRun orderId userId side price p
      ⟨book.orderStore, queue, quantity, events⟩ q) :
    LevelUpdate book (afterLevel book side.opposite p q) side.opposite p queue q.queue [] rest where
  before := hlevels
  after := afterLevel_levels hlevels q
  other := afterLevel_levels_opposite book side.opposite p q
  sublist := hrun.suffix.sublist
  frame k hk := by
    rw [afterLevel_store]
    exact hrun.frame k hk
  freed k hk hgone := by
    rw [afterLevel_store]
    exact hrun.freed k hk hgone
  kept k hk := by
    rw [afterLevel_store]
    exact hrun.kept k hk

theorem matchLevel_next {p : Price} {queue : List Nat} {rest : List (Price × List Nat)}
    {q : QueueState S} (hq : s.quantity ≠ 0)
    (hlevels : s.book.levels side.opposite = (p, queue) :: rest)
    (hmatch : isMatchable side p price = true)
    (hloop : iterate .outOfFuel (matchFront orderId userId p) (queue.length + 1)
      ⟨s.book.orderStore, queue, s.quantity, s.events⟩ = .ok q) :
    matchLevel orderId userId side price s =
      .ok (.yield ⟨afterLevel s.book side.opposite p q, q.quantity, q.events⟩) := by
  have hbest : s.book.bestMatch side = some (p, queue) := by
    rw [bestMatch_eq, hlevels]
    rfl
  simp only [matchLevel, if_neg hq, hbest, hmatch, hloop]
  rfl

end MatchingLemmas

open MatchingLemmas

theorem MatchState.pending_of_zero (hq : s.quantity = 0) :
    s.pending orderId userId side price =
      ⟨s.events, s.quantity, s.book.flat side.opposite⟩ := by
  simp [MatchState.pending, hq, walk_zero]

theorem MatchState.pending_of_empty (hlevels : s.book.levels side.opposite = []) :
    s.pending orderId userId side price =
      ⟨s.events, s.quantity, s.book.flat side.opposite⟩ := by
  have hflat : s.book.flat side.opposite = [] := by simp [OrderBook.flat, OrderBook.keys, hlevels]
  simp [MatchState.pending, hflat, walk]

/-- The best level is nonempty and holds orders of its own price only, so a
price that does not cross blocks the walk at its first maker. -/
theorem MatchState.pending_of_blocked (hinv : Inv s.book) {p : Price} {queue : List Nat}
    {rest : List (Price × List Nat)}
    (hlevels : s.book.levels side.opposite = (p, queue) :: rest)
    (hblocked : isMatchable side p price = false) :
    s.pending orderId userId side price =
      ⟨s.events, s.quantity, s.book.flat side.opposite⟩ := by
  have hmem : (p, queue) ∈ s.book.levels side.opposite := by
    rw [hlevels]
    exact List.mem_cons_self
  cases hqueue : queue with
  | nil => exact absurd hqueue (hinv.nonempty _ _ hmem)
  | cons k ks =>
    obtain ⟨maker, hget, -, hprice, -⟩ := hinv.resting _ _ hmem k (by simp [hqueue])
    have hflat : s.book.flat side.opposite = maker ::
        (ks ++ rest.flatMap Prod.snd).filterMap (SlabLike.get s.book.orderStore) := by
      unfold OrderBook.flat OrderBook.keys
      rw [hlevels, hqueue, List.flatMap_cons, List.cons_append, List.filterMap_cons_some hget]
    unfold MatchState.pending
    rw [hflat, walk_blocked (by rw [hprice]; exact hblocked)]
    simp

/-- Treating the best level leaves the pending walk as it is. -/
theorem MatchState.pending_afterLevel (hinv : Inv s.book) {p : Price} {queue : List Nat}
    {rest : List (Price × List Nat)} {q : QueueState S}
    (hlevels : s.book.levels side.opposite = (p, queue) :: rest)
    (hmatch : isMatchable side p price = true)
    (hrun : QueueRun orderId userId side price p
      ⟨s.book.orderStore, queue, s.quantity, s.events⟩ q)
    (hexit : q.queue = [] ∨ q.quantity = 0) :
    (⟨afterLevel s.book side.opposite p q, q.quantity, q.events⟩ : MatchState S).pending
        orderId userId side price = s.pending orderId userId side price := by
  have hupdate := afterLevel_update hlevels hrun
  have hbefore := hupdate.flat_before
  have hafter := hupdate.flat_after hinv
  have hdone := hrun.walked
  rw [QueueRun.pending_of_exit hexit] at hdone
  rw [afterLevel_store] at hafter
  simp only [List.flatMap_nil, List.filterMap_nil, List.nil_append] at hbefore hafter
  simp only [QueueState.pending, Walk.mk.injEq] at hdone
  obtain ⟨hevents, hquantity, hmakers⟩ := hdone
  have hcross : ∀ maker ∈ queue.filterMap (SlabLike.get s.book.orderStore),
      isMatchable side maker.price price = true := by
    intro maker hmaker
    obtain ⟨k, hk, hget⟩ := List.mem_filterMap.mp hmaker
    obtain ⟨o, ho, -, hprice, -⟩ := hinv.resting _ (p, queue) (by rw [hlevels]; simp) k hk
    rw [hget] at ho
    cases ho
    rw [hprice]
    exact hmatch
  unfold MatchState.pending
  rw [hbefore, walk_append hcross]
  simp only [hafter, hevents, hquantity, ← hmakers, ← List.append_assoc]
  rw [← hquantity]
  rcases hexit with hnil | hzero
  · simp [hnil]
  · simp [hzero, walk_zero]

/-- One iteration of the outer loop: it removes a level or uses up the taker. -/
theorem matchLevel_step (hs : MatchRun orderId userId side price s₀ s) :
    StepOk (matchLevel orderId userId side price) (MatchRun orderId userId side price s₀)
      (fun s => MatchRun orderId userId side price s₀ s ∧
        s.pending orderId userId side price =
          ⟨s.events, s.quantity, s.book.flat side.opposite⟩)
      (fun s => (s.book.levels side.opposite).length + if s.quantity = 0 then 0 else 1) s := by
  by_cases hq : s.quantity = 0
  · exact .inr ⟨s, by simp [matchLevel, hq], hs, MatchState.pending_of_zero hq⟩
  · cases hlevels : s.book.levels side.opposite with
    | nil =>
      have hbest : s.book.bestMatch side = none := by
        rw [bestMatch_eq, hlevels]
        rfl
      exact .inr ⟨s, by simp [matchLevel, hq, hbest], hs, MatchState.pending_of_empty hlevels⟩
    | cons level rest =>
      obtain ⟨p, queue⟩ := level
      have hbest : s.book.bestMatch side = some (p, queue) := by
        rw [bestMatch_eq, hlevels]
        rfl
      cases hmatch : isMatchable side p price with
      | false =>
        exact .inr ⟨s, by simp [matchLevel, hq, hbest, hmatch], hs,
          MatchState.pending_of_blocked hs.inv hlevels hmatch⟩
      | true =>
        have hmem : (p, queue) ∈ s.book.levels side.opposite := by
          rw [hlevels]
          exact List.mem_cons_self
        have hnodup : queue.Nodup := by
          have := hs.inv.nodup side.opposite
          rw [OrderBook.keys, hlevels, List.flatMap_cons] at this
          exact (List.nodup_append.mp this).1
        obtain ⟨q, hloop, hrun, hexit⟩ := matchQueue_spec orderId userId
          ⟨s.book.orderStore, queue, s.quantity, s.events⟩ hnodup hmatch
          (hs.inv.resting _ _ hmem) hq
        have hupdate := afterLevel_update hlevels hrun
        refine .inl ⟨_, matchLevel_next hq hlevels hmatch hloop,
          ⟨hupdate.inv hs.inv, ?_, ?_, ?_⟩, ?_⟩
        · have hother := hupdate.flat_other hs.inv
          rw [opposite_opposite] at hother
          exact hother.trans hs.own
        · exact (afterLevel_index _ _ _ _).trans hs.index
        · exact (MatchState.pending_afterLevel hs.inv hlevels hmatch hrun hexit).trans hs.walked
        · simp only [hupdate.after, hlevels, List.nil_append, List.length_cons, if_neg hq]
          rcases hexit with hnil | hzero
          · rw [if_pos hnil]
            split <;> omega
          · rw [if_pos hzero]
            split
            · omega
            · rw [List.length_cons]
              omega

end

/-! ## The operations -/

/-- What a placement must do to a book: the flat lists and the events of the
reference, and the invariant. -/
theorem placeLimitOrder_spec {book : OrderBook S} (hinv : Inv book) (orderId : OrderId)
    (userId : UserId) (side : Side) (price : Price) (quantity : Quantity) :
    ∃ book', placeLimitOrder book orderId userId side price quantity =
        .ok ((book.flat.place orderId userId side price quantity).1, book') ∧
      book'.flat = (book.flat.place orderId userId side price quantity).2 ∧ Inv book' := by
  have hstart : MatchRun orderId userId side price ⟨book, quantity, []⟩ ⟨book, quantity, []⟩ :=
    ⟨hinv, rfl, rfl, rfl⟩
  have hfuel : (book.levels side.opposite).length + (if quantity = 0 then 0 else 1) <
      (book.tree side.opposite).size + 2 := by
    rw [OrderBook.levels, treeLevels_length]
    split <;> omega
  obtain ⟨s, hloop, hrun, hdone⟩ := iterate_total Fault.outOfFuel _
    (fun _ hs => matchLevel_step hs) hstart hfuel
  have hwalked := hrun.walked
  rw [hdone] at hwalked
  simp only [MatchState.pending, List.nil_append, Walk.mk.injEq] at hwalked
  obtain ⟨hevents, hquantity, hmakers⟩ := hwalked
  have hflat : s.book.flat = Function.update book.flat side.opposite
      (walk orderId userId side price quantity (book.flat side.opposite)).makers := by
    funext s'
    cases s' using sideCases side with
    | same =>
      rw [Function.update_of_ne (ne_opposite side)]
      exact hrun.own
    | other => rw [Function.update_self, hmakers]
  unfold placeLimitOrder Flat.place
  rw [hloop]
  simp only [← hevents, ← hquantity, ← hflat, bind, Except.bind]
  by_cases hpos : 0 < s.quantity
  · simp only [if_pos hpos]
    let order : Order :=
      { id := orderId, userId, price, quantity := s.quantity, side, timestamp := 0 }
    refine ⟨s.book.enqueue order, rfl, ?_, hrun.inv.enqueue hpos⟩
    funext s'
    cases s' using sideCases side with
    | same =>
      rw [Function.update_self]
      exact hrun.inv.enqueue_flat order
    | other =>
      rw [Function.update_of_ne (ne_opposite side).symm]
      exact hrun.inv.enqueue_flat_other order
  · simp only [if_neg hpos]
    exact ⟨s.book, rfl, rfl, hrun.inv⟩

/-- The live slot that `cancelOrder` acts through: the one the index still
names for the id, if its order belongs to the user. -/
def cancelTarget (book : OrderBook S) (orderId : OrderId) (userId : UserId) :
    Option (Nat × Order) :=
  (book.orderIndex orderId).bind fun k =>
    (SlabLike.get book.orderStore k).bind fun order =>
      if order.userId = userId then some (k, order) else none

namespace MatchingLemmas

theorem cancelTarget_eq_some {book : OrderBook S} {orderId : OrderId} {userId : UserId} {k : Nat}
    {order : Order} : cancelTarget book orderId userId = some (k, order) ↔
      book.orderIndex orderId = some k ∧ SlabLike.get book.orderStore k = some order ∧
        order.userId = userId := by
  unfold cancelTarget
  constructor
  · intro h
    obtain ⟨j, hj, h⟩ := Option.bind_eq_some_iff.mp h
    obtain ⟨o, ho, h⟩ := Option.bind_eq_some_iff.mp h
    split at h
    · next hu =>
      cases h
      exact ⟨hj, ho, hu⟩
    · exact nomatch h
  · rintro ⟨hj, ho, hu⟩
    simp [hj, ho, hu]

theorem filter_ne_self {k : Nat} {keys : List Nat} (h : k ∉ keys) :
    keys.filter (· ≠ k) = keys := by
  refine List.filter_eq_self.mpr fun j hj => ?_
  simp only [decide_eq_true_eq]
  rintro rfl
  exact h hj

/-- Removing a key from the queue of its level and freeing its slot. -/
theorem unqueue_update {book : OrderBook S} (hinv : Inv book) {k : Nat} {order : Order}
    (hget : SlabLike.get book.orderStore k = some order) (index : OrderId → Option Nat) :
    ∃ q l₁ l₂, k ∈ q ∧
      LevelUpdate book
        { book.unqueue order.side order.price k with
          orderStore := SlabLike.remove book.orderStore k, orderIndex := index }
        order.side order.price q (q.filter (· ≠ k)) l₁ l₂ := by
  obtain ⟨side, hk⟩ := (hinv.live k).mp (by rw [hget]; rfl)
  obtain ⟨level, hlevel, hmem, o, ho, hside, hprice, -⟩ := hinv.resting_of_mem hk
  rw [hget] at ho
  cases ho
  subst hside
  obtain ⟨p, q⟩ := level
  simp only at hprice hmem
  subst hprice
  obtain ⟨l₁, l₂, hl⟩ := List.append_of_mem hlevel
  have hq : (book.tree order.side).get? order.price = some q :=
    SortedMap.get?_eq_some_iff.mpr (mem_treeLevels.mp hlevel)
  refine ⟨q, l₁, l₂, hmem, ⟨hl, ?_, ?_, List.filter_sublist, ?_, ?_, ?_⟩⟩
  · unfold OrderBook.levels OrderBook.unqueue
    simp only [hq, tree_with_store_index]
    by_cases hnil : q.filter (· ≠ k) = []
    · rw [if_pos hnil, if_pos (by rw [hnil]; rfl), tree_setTree_self]
      exact treeLevels_erase hl
    · rw [if_neg hnil, if_neg (by simpa using hnil), tree_setTree_self]
      exact treeLevels_insert _ hl
  · unfold OrderBook.levels OrderBook.unqueue
    simp only [hq, tree_with_store_index]
    split <;> simp
  · intro j hj
    exact SlabLike.get_remove_of_ne hget fun he => hj (he ▸ hmem)
  · intro j hj hgone
    have hjk : j = k := by
      by_contra hne
      exact hgone (List.mem_filter.mpr ⟨hj, by simpa using hne⟩)
    subst hjk
    exact SlabLike.get_remove_self hget
  · intro j hj
    obtain ⟨hj, hne⟩ := List.mem_filter.mp hj
    obtain ⟨o, ho, hrest⟩ := hinv.resting _ _ hlevel j hj
    exact ⟨o, (SlabLike.get_remove_of_ne hget (by simpa using hne)).trans ho, hrest⟩

end MatchingLemmas

open MatchingLemmas

/-- A cancel without a target changes nothing. -/
theorem cancelOrder_of_none {book : OrderBook S} {orderId : OrderId} {userId : UserId}
    (h : cancelTarget book orderId userId = none) :
    cancelOrder book orderId userId = .ok ([], book) := by
  unfold cancelOrder
  cases hk : book.orderIndex orderId with
  | none => rfl
  | some k =>
    cases hget : SlabLike.get book.orderStore k with
    | none => simp [hget]
    | some order =>
      have hu : order.userId ≠ userId := by
        intro hu
        rw [cancelTarget_eq_some.mpr ⟨hk, hget, hu⟩] at h
        exact nomatch h
      simp [hget, hu]

/-- A cancel with a target: the key leaves its queue, the id the index and the
order the slab. -/
theorem cancelOrder_eq {book : OrderBook S} {orderId : OrderId} {userId : UserId} {k : Nat}
    {order : Order} (h : cancelTarget book orderId userId = some (k, order)) :
    cancelOrder book orderId userId = .ok ([.orderCancelled orderId],
      { book.unqueue order.side order.price k with
        orderStore := SlabLike.remove book.orderStore k
        orderIndex := Function.update book.orderIndex orderId none }) := by
  obtain ⟨hindex, hget, hu⟩ := cancelTarget_eq_some.mp h
  unfold cancelOrder
  simp only [hindex, hget, hu, unqueue_store, unqueue_index, removeSlot_live hget, ne_eq,
    not_true_eq_false, if_false]
  rfl

/-- A cancel with a target removes exactly the target's key. -/
theorem cancelOrder_of_some {book : OrderBook S} (hinv : Inv book) {orderId : OrderId}
    {userId : UserId} {k : Nat} {order : Order}
    (h : cancelTarget book orderId userId = some (k, order)) :
    ∃ book', cancelOrder book orderId userId = .ok ([.orderCancelled orderId], book') ∧
      Inv book' ∧ k ∈ book.keys order.side ∧
      ∀ side, book'.flat side =
        ((book.keys side).filter (· ≠ k)).filterMap (SlabLike.get book.orderStore) := by
  obtain ⟨-, hget, -⟩ := cancelTarget_eq_some.mp h
  obtain ⟨q, l₁, l₂, hk, hupdate⟩ := unqueue_update hinv hget
    (Function.update book.orderIndex orderId none)
  have hmem := hupdate.mem_queue hk
  refine ⟨_, cancelOrder_eq h, hupdate.inv hinv, hmem, fun side => ?_⟩
  -- the key is queued once, so filtering all keys is filtering its level
  have hfree : ∀ j ∈ (book.keys side).filter (· ≠ k),
      SlabLike.get (SlabLike.remove book.orderStore k) j = SlabLike.get book.orderStore j :=
    fun j hj => SlabLike.get_remove_of_ne hget (by simpa using (List.mem_filter.mp hj).2)
  rw [← filterMap_get_congr hfree]
  unfold OrderBook.flat
  congr 1
  cases side using sideCases order.side with
  | same =>
    have hbefore : k ∉ l₁.flatMap Prod.snd := fun hk' => hupdate.not_mem_queue hinv (.inl hk') hk
    have hafter : k ∉ l₂.flatMap Prod.snd := fun hk' => hupdate.not_mem_queue hinv (.inr hk') hk
    rw [hupdate.keys_before, hupdate.keys_after, List.filter_append, List.filter_append,
      filter_ne_self hbefore, filter_ne_self hafter]
  | other =>
    rw [hupdate.keys_other]
    exact (filter_ne_self (hinv.disjoint _ k hmem)).symm

theorem cancelOrder_spec {book : OrderBook S} (hinv : Inv book) (orderId : OrderId)
    (userId : UserId) :
    ∃ events book', cancelOrder book orderId userId = .ok (events, book') ∧ Inv book' := by
  cases h : cancelTarget book orderId userId with
  | none => exact ⟨[], book, cancelOrder_of_none h, hinv⟩
  | some target =>
    obtain ⟨book', hcancel, hinv', -⟩ := cancelOrder_of_some hinv h
    exact ⟨_, book', hcancel, hinv'⟩

/-- A cancel leaves a sublist of each side. -/
theorem cancelOrder_sublist {book book' : OrderBook S} (hinv : Inv book) {orderId : OrderId}
    {userId : UserId} {events : List EngineEvent}
    (h : cancelOrder book orderId userId = .ok (events, book')) (side : Side) :
    (book'.flat side).Sublist (book.flat side) := by
  cases htarget : cancelTarget book orderId userId with
  | none =>
    rw [cancelOrder_of_none htarget] at h
    cases h
    exact .refl _
  | some target =>
    obtain ⟨_, hcancel, -, -, hflat⟩ := cancelOrder_of_some hinv htarget
    rw [hcancel] at h
    cases h
    rw [hflat]
    exact (List.filter_sublist).filterMap _

/-! ## Reachable books -/

theorem applyOp_spec {book : OrderBook S} (hinv : Inv book) (op : Op) :
    ∃ events book', applyOp book op = .ok (events, book') ∧ Inv book' := by
  cases op with
  | place orderId userId side price quantity =>
    obtain ⟨book', h, -, hinv'⟩ := placeLimitOrder_spec hinv orderId userId side price quantity
    exact ⟨_, book', h, hinv'⟩
  | cancel orderId userId => exact cancelOrder_spec hinv orderId userId

theorem Reachable.inv {book : OrderBook S} (h : Reachable book) : Inv book := by
  induction h with
  | new => exact Inv.new
  | @step book book' op events _ happly ih =>
    obtain ⟨_, _, happly', hinv⟩ := applyOp_spec ih op
    rw [happly] at happly'
    cases happly'
    exact hinv

/-- No reachable book is crossed. -/
theorem Reachable.uncrossed {book : OrderBook S} (h : Reachable book) : book.flat.Uncrossed := by
  induction h with
  | new => exact fun bid hbid => nomatch hbid
  | @step book book' op events hbook happly ih =>
    cases op with
    | place orderId userId side price quantity =>
      obtain ⟨_, hplace, hflat, -⟩ :=
        placeLimitOrder_spec hbook.inv orderId userId side price quantity
      rw [applyOp, hplace] at happly
      cases happly
      rw [hflat]
      exact Flat.place_uncrossed hbook.inv.flat_ordered ih orderId userId side price quantity
    | cancel orderId userId =>
      have hsub := cancelOrder_sublist hbook.inv happly
      exact fun bid hbid ask hask => ih bid ((hsub .bid).subset hbid) ask ((hsub .ask).subset hask)

/-- A sequence of calls on a reachable book returns a reachable book. -/
theorem Reachable.runOps {book : OrderBook S} (h : Reachable book) (ops : List Op) :
    ∃ book', Engine.runOps book ops = .ok book' ∧ Reachable book' := by
  have hstep : ∀ (_ : List Op) (book : OrderBook S) op, Reachable book →
      (∃ book', Prod.snd <$> applyOp book op = .ok book' ∧ Reachable book') ∨
        ∃ e, Prod.snd <$> applyOp book op = .error e ∧ False := by
    intro _ book op hbook
    obtain ⟨events, book', happly, -⟩ := applyOp_spec hbook.inv op
    exact .inl ⟨book', by rw [happly]; rfl, hbook.step happly⟩
  obtain hrun | ⟨_, _, ⟨⟩⟩ := foldlM_run hstep h ops
  exact hrun

/-- On every reachable book, a placement behaves like the price-time-priority
reference: same events, same resting orders in the same order on both sides. -/
theorem placeLimitOrder_refines_priceTime {book : OrderBook S} (h : Reachable book)
    (orderId : OrderId) (userId : UserId) (side : Side) (price : Price) (quantity : Quantity) :
    ∃ events book', placeLimitOrder book orderId userId side price quantity =
        .ok (events, book') ∧
      (events, book'.flat) = book.flat.place orderId userId side price quantity := by
  obtain ⟨book', hplace, hflat, -⟩ :=
    placeLimitOrder_spec h.inv orderId userId side price quantity
  exact ⟨_, book', hplace, by rw [hflat]⟩

/-- A crossing placement against one resting ask. -/
theorem placeLimitOrder_refines_cross :
    ∃ book : OrderBook StackSlab, Reachable book ∧
      book.flat .ask = [⟨1, 7, 100, 10, .ask, 0⟩] ∧
      ∃ events book', placeLimitOrder book 2 8 .bid 100 4 = .ok (events, book') ∧
        (events, book'.flat) = book.flat.place 2 8 .bid 100 4 := by
  have h : Reachable (S := StackSlab) _ :=
    .step .new (rfl : applyOp _ (.place 1 7 .ask 100 10) = _)
  exact ⟨_, h, rfl, placeLimitOrder_refines_priceTime h 2 8 .bid 100 4⟩

/-- The structure of every reachable book: the queued slab keys are pairwise
distinct and are exactly the live slots, every queued order has the side of its
tree, the price of its level and a positive quantity, and no queue is empty.
No call on such a book panics. -/
theorem reachable_wellFormed {book : OrderBook S} (h : Reachable book) :
    (book.keys .bid ++ book.keys .ask).Nodup ∧
    (∀ k, (SlabLike.get book.orderStore k).isSome ↔ k ∈ book.keys .bid ++ book.keys .ask) ∧
    (∀ side, ∀ level ∈ (book.tree side).entries, level.2 ≠ [] ∧
      ∀ k ∈ level.2, ∃ order, SlabLike.get book.orderStore k = some order ∧
        order.side = side ∧ order.price = level.1 ∧ 0 < order.quantity) ∧
    ∀ op, ∃ events book', applyOp book op = .ok (events, book') := by
  have hinv := h.inv
  refine ⟨?_, ?_, ?_, ?_⟩
  · rw [List.nodup_append]
    refine ⟨hinv.nodup _, hinv.nodup _, ?_⟩
    rintro j hj _ hk rfl
    exact hinv.disjoint .bid j hj hk
  · intro k
    rw [hinv.live, List.mem_append]
    constructor
    · rintro ⟨side, hk⟩
      cases side with
      | bid => exact .inl hk
      | ask => exact .inr hk
    · rintro (hk | hk)
      · exact ⟨.bid, hk⟩
      · exact ⟨.ask, hk⟩
  · intro side level hlevel
    have hmem : level ∈ book.levels side := mem_treeLevels.mpr hlevel
    exact ⟨hinv.nonempty side level hmem, hinv.resting side level hmem⟩
  · intro op
    obtain ⟨events, book', happly, -⟩ := applyOp_spec hinv op
    exact ⟨events, book', happly⟩

/-- A book with one resting ask. -/
theorem reachable_wellFormed_ask :
    ∃ book : OrderBook StackSlab, Reachable book ∧ book.keys .ask = [0] ∧
      (book.keys .bid ++ book.keys .ask).Nodup ∧
      ∀ op, ∃ events book', applyOp book op = .ok (events, book') := by
  have h : Reachable (S := StackSlab) _ :=
    .step .new (rfl : applyOp _ (.place 1 7 .ask 100 10) = _)
  obtain ⟨hnodup, -, -, hcalls⟩ := reachable_wellFormed h
  exact ⟨_, h, rfl, hnodup, hcalls⟩

/-- In every reachable book every bid is strictly below every ask, order by order and
level by level. -/
theorem reachable_uncrossed {book : OrderBook S} (h : Reachable book) :
    (∀ bid ∈ book.flat .bid, ∀ ask ∈ book.flat .ask, bid.price < ask.price) ∧
      ∀ bid ∈ book.bids.entries, ∀ ask ∈ book.asks.entries, bid.1 < ask.1 := by
  refine ⟨h.uncrossed, fun bid hbid ask hask => ?_⟩
  have hbid' : bid ∈ book.levels .bid := mem_treeLevels.mpr hbid
  have hask' : ask ∈ book.levels .ask := mem_treeLevels.mpr hask
  obtain ⟨buy, hbuy, hbuyPrice⟩ := h.inv.exists_resting hbid'
  obtain ⟨sell, hsell, hsellPrice⟩ := h.inv.exists_resting hask'
  rw [← hbuyPrice, ← hsellPrice]
  exact h.uncrossed buy hbuy sell hsell

/-- The bid meets an ask of its own user, which is dropped, and rests below the
next one. -/
theorem reachable_uncrossed_ownAsk :
    ∃ book : OrderBook StackSlab, Reachable book ∧
      book.flat .bid = [⟨3, 7, 100, 4, .bid, 0⟩] ∧ book.flat .ask = [⟨2, 8, 101, 5, .ask, 0⟩] ∧
      ∀ bid ∈ book.flat .bid, ∀ ask ∈ book.flat .ask, bid.price < ask.price := by
  have h : Reachable (S := StackSlab) _ :=
    .step (.step (.step .new (rfl : applyOp _ (.place 1 7 .ask 100 10) = _))
      (rfl : applyOp _ (.place 2 8 .ask 101 5) = _)) (rfl : applyOp _ (.place 3 7 .bid 100 4) = _)
  exact ⟨_, h, rfl, rfl, (reachable_uncrossed h).1⟩

end EviceChain.Engine
