import EviceChain.Engine.Matching

/-!
# The matching loops come to their end

The nested loop of `place_limit_order` has no counter. Here it is followed on
any book whose queued slab keys are live, queued once and of positive quantity
(`Queued`): nothing is assumed about the sides and prices of the orders, and
levels may be empty.

An iteration of the inner loop that goes on removes the maker at the front
(`FrontProgress`); one of the outer loop removes the level or uses up the taker
(`LevelProgress`). So the open makers bound the inner loop, and the levels and
the taker the outer one.

Result: `matching_terminates`.
-/

namespace EviceChain.Engine

open Foundation RepresentationLemmas MatchingLemmas

variable {S : Type → Type} [SlabLike S]

/-- A slab key behind which an order with an open quantity is stored. -/
def Open (store : S Order) (k : Nat) : Prop :=
  ∃ order, SlabLike.get store k = some order ∧ 0 < order.quantity

/-- Every queued slab key is live and queued once, and every queued order has a
positive quantity. -/
structure Queued (book : OrderBook S) : Prop where
  once : (book.keys .bid ++ book.keys .ask).Nodup
  live : ∀ side, ∀ k ∈ book.keys side, Open book.orderStore k

/-- An iteration of the inner loop finds the queue empty, or uses up the taker,
or goes on with the maker at the front removed from queue and slab. -/
def FrontProgress (orderId : OrderId) (userId : UserId) (bestPrice : Price)
    (s : QueueState S) : Prop :=
  (s.queue = [] ∧ matchFront orderId userId bestPrice s = .ok (.done s)) ∨
  (∃ s', matchFront orderId userId bestPrice s = .ok (.done s') ∧ s'.quantity = 0) ∨
  ∃ s' k, matchFront orderId userId bestPrice s = .ok (.yield s') ∧
    s.queue = k :: s'.queue ∧ SlabLike.get s'.store k = none

/-- An iteration of the outer loop leaves it, or goes on with one level less or
with the taker used up. -/
def LevelProgress (orderId : OrderId) (userId : UserId) (side : Side) (price : Price)
    (s : MatchState S) : Prop :=
  matchLevel orderId userId side price s = .ok (.done s) ∨
  ∃ s', matchLevel orderId userId side price s = .ok (.yield s') ∧
    ((s'.book.tree side.opposite).size + 1 = (s.book.tree side.opposite).size ∨ s'.quantity = 0)

namespace TerminationLemmas

/-! ## The inner loop -/

section Queue

variable {orderId : OrderId} {userId : UserId} {bestPrice : Price} {s₀ s s' : QueueState S}
  {store : S Order} {order : Order} {k : Nat} {rest : List Nat}

/-- What the inner loop keeps, from its first state `s₀`. -/
structure Front (s₀ s : QueueState S) : Prop where
  suffix : s.queue <:+ s₀.queue
  frame : ∀ k, k ∉ s₀.queue → SlabLike.get s.store k = SlabLike.get s₀.store k
  live : ∀ k ∈ s.queue, Open s.store k

/-- Only the slot of the front key is written. -/
theorem Front.touch (h : Front s₀ s) (hqueue : s.queue = k :: rest)
    (hsuffix : s'.queue <:+ s.queue)
    (hother : ∀ j, j ≠ k → SlabLike.get s'.store j = SlabLike.get s.store j)
    (hk : k ∈ s'.queue → Open s'.store k) : Front s₀ s' where
  suffix := hsuffix.trans h.suffix
  frame j hj := by
    have hne : j ≠ k := by
      rintro rfl
      exact hj (h.suffix.subset (hqueue ▸ List.mem_cons_self))
    exact (hother j hne).trans (h.frame j hj)
  live j hj := by
    by_cases hne : j = k
    · subst hne
      exact hk hj
    · obtain ⟨maker, hget, hpos⟩ := h.live j (hsuffix.subset hj)
      exact ⟨maker, (hother j hne).trans hget, hpos⟩

/-- The front maker is removed. -/
theorem Front.pop (h : Front s₀ s) (hnodup : s₀.queue.Nodup) (hqueue : s.queue = k :: rest)
    (hget : SlabLike.get store k = some order)
    (hstore : ∀ j, j ≠ k → SlabLike.get store j = SlabLike.get s.store j)
    (hs' : s'.store = SlabLike.remove store k) (hq' : s'.queue = rest) :
    Front s₀ s' ∧ s.queue = k :: s'.queue ∧ SlabLike.get s'.store k = none := by
  have hk : k ∉ rest := (List.nodup_cons.mp (hnodup.sublist (hqueue ▸ h.suffix).sublist)).1
  refine ⟨h.touch hqueue ?_ ?_ ?_, hqueue.trans (by rw [hq']), ?_⟩
  · rw [hq', hqueue]
    exact List.suffix_cons k rest
  · intro j hj
    rw [hs', SlabLike.get_remove_of_ne hget hj, hstore j hj]
  · intro hmem
    rw [hq'] at hmem
    exact absurd hmem hk
  · rw [hs', SlabLike.get_remove_self hget]

/-- One iteration of the inner loop, and what it keeps. -/
theorem matchFront_cases (orderId : OrderId) (userId : UserId) (bestPrice : Price)
    (hnodup : s₀.queue.Nodup) (h : Front s₀ s) (hq : s.quantity ≠ 0) :
    (s.queue = [] ∧ matchFront orderId userId bestPrice s = .ok (.done s)) ∨
    (∃ s', matchFront orderId userId bestPrice s = .ok (.done s') ∧ Front s₀ s' ∧
      s'.quantity = 0) ∨
    ∃ s' k, matchFront orderId userId bestPrice s = .ok (.yield s') ∧ Front s₀ s' ∧
      s'.quantity ≠ 0 ∧ s.queue = k :: s'.queue ∧ SlabLike.get s'.store k = none := by
  cases hqueue : s.queue with
  | nil => exact .inl ⟨rfl, matchFront_nil hqueue⟩
  | cons k rest =>
    obtain ⟨maker, hget, -⟩ := h.live k (hqueue ▸ List.mem_cons_self)
    have hset : SlabLike.get (SlabLike.set s.store k (filled s maker)) k = some (filled s maker) :=
      SlabLike.get_set_self hget
    have hother : ∀ j, j ≠ k →
        SlabLike.get (SlabLike.set s.store k (filled s maker)) j = SlabLike.get s.store j :=
      fun j hj => SlabLike.get_set_of_ne hget hj
    by_cases hu : maker.userId = userId
    · obtain ⟨hfront, hpop, hfree⟩ : Front s₀ ⟨SlabLike.remove s.store k, rest, s.quantity,
          s.events ++ [.orderCancelled maker.id]⟩ ∧ _ :=
        h.pop hnodup hqueue hget (fun _ _ => rfl) rfl rfl
      exact .inr (.inr ⟨_, k, matchFront_self hqueue hget hu, hfront, hq, hqueue ▸ hpop, hfree⟩)
    · by_cases hl : maker.quantity - min s.quantity maker.quantity = 0
      · have hstep := matchFront_consumed orderId bestPrice hqueue hget hu hl
        obtain ⟨hfront, hpop, hfree⟩ : Front s₀ (consume orderId bestPrice s k rest maker) ∧ _ :=
          h.pop hnodup hqueue hset hother rfl rfl
        by_cases hz : s.quantity - min s.quantity maker.quantity = 0
        · rw [if_pos hz] at hstep
          exact .inr (.inl ⟨_, hstep, hfront, hz⟩)
        · rw [if_neg hz] at hstep
          exact .inr (.inr ⟨_, k, hstep, hfront, hz, hqueue ▸ hpop, hfree⟩)
      · -- the maker stays at the front with what is left of it
        refine .inr (.inl ⟨_, matchFront_outlasted hqueue hget hu hl, ?_, rfl⟩)
        refine h.touch hqueue (hqueue ▸ List.suffix_refl _) hother fun _ => ?_
        exact ⟨_, hset, UInt64.pos_iff_ne_zero.mpr hl⟩

theorem frontProgress (hnodup : s₀.queue.Nodup) (h : Front s₀ s) (hq : s.quantity ≠ 0) :
    FrontProgress orderId userId bestPrice s := by
  rcases matchFront_cases orderId userId bestPrice hnodup h hq with
    hnil | ⟨s', hdone, -, hzero⟩ | ⟨s', k, hyield, -, -, hk⟩
  · exact .inl hnil
  · exact .inr (.inl ⟨s', hdone, hzero⟩)
  · exact .inr (.inr ⟨s', k, hyield, hk⟩)

theorem matchFront_stepOk (orderId : OrderId) (userId : UserId) (bestPrice : Price)
    (hnodup : s₀.queue.Nodup) (s : QueueState S) (hs : Front s₀ s ∧ s.quantity ≠ 0) :
    StepOk (matchFront orderId userId bestPrice) (fun s => Front s₀ s ∧ s.quantity ≠ 0)
      (fun s => Front s₀ s ∧ (s.queue = [] ∨ s.quantity = 0)) (fun s => s.queue.length) s := by
  obtain ⟨h, hq⟩ := hs
  rcases matchFront_cases orderId userId bestPrice hnodup h hq with
    ⟨hnil, hdone⟩ | ⟨s', hdone, hs', hzero⟩ | ⟨s', k, hyield, hs', hq', hk, -⟩
  · exact .inr ⟨s, hdone, h, .inl hnil⟩
  · exact .inr ⟨s', hdone, hs', .inr hzero⟩
  · refine .inl ⟨s', hyield, ⟨hs', hq'⟩, ?_⟩
    show s'.queue.length < s.queue.length
    rw [hk]
    exact Nat.lt_succ_self _

end Queue

end TerminationLemmas

open TerminationLemmas

/-! ## The outer loop -/

section Levels

variable {orderId : OrderId} {userId : UserId} {side : Side} {price p : Price}
  {s : MatchState S} {book : OrderBook S} {queue : List Nat} {rest : List (Price × List Nat)}
  {q : QueueState S}

theorem Queued.disjoint (h : Queued book) (side : Side) {k : Nat} (hk : k ∈ book.keys side) :
    k ∉ book.keys side.opposite := by
  intro hk'
  have hboth := (List.nodup_append.mp h.once).2.2
  cases side with
  | bid => exact hboth k hk k hk' rfl
  | ask => exact hboth k hk' k hk rfl

theorem Queued.nodup (h : Queued book) (side : Side) : (book.keys side).Nodup := by
  cases side with
  | bid => exact (List.nodup_append.mp h.once).1
  | ask => exact (List.nodup_append.mp h.once).2.1

/-- A book whose keys are part of those of a queued book, and as live, is queued. -/
theorem Queued.sublist {book' : OrderBook S} (h : Queued book)
    (hkeys : ∀ side, (book'.keys side).Sublist (book.keys side))
    (hlive : ∀ side, ∀ k ∈ book'.keys side, Open book'.orderStore k) : Queued book' :=
  ⟨h.once.sublist ((hkeys .bid).append (hkeys .ask)), hlive⟩

omit [SlabLike S] in
theorem afterLevel_keys (hlevels : book.levels side = (p, queue) :: rest) (q : QueueState S) :
    (afterLevel book side p q).keys side = q.queue ++ rest.flatMap Prod.snd := by
  rw [OrderBook.keys, afterLevel_levels hlevels]
  split
  · next hnil => rw [hnil, List.nil_append]
  · rw [List.flatMap_cons]

/-- The book stays queued over the inner loop on its best level. -/
theorem Queued.update {events : List EngineEvent} {quantity : Quantity} (h : Queued book)
    (hlevels : book.levels side = (p, queue) :: rest)
    (hq : Front ⟨book.orderStore, queue, quantity, events⟩ q) :
    Queued (afterLevel book side p q) := by
  have hbefore : book.keys side = queue ++ rest.flatMap Prod.snd := by
    rw [OrderBook.keys, hlevels, List.flatMap_cons]
  have hopposite : (afterLevel book side p q).keys side.opposite =
      book.keys side.opposite := by
    rw [OrderBook.keys, afterLevel_levels_opposite]
    rfl
  -- a key of another level has kept its slot
  have hframe : ∀ s', ∀ k ∈ book.keys s', k ∉ queue →
      Open (afterLevel book side p q).orderStore k := by
    intro s' k hk hout
    obtain ⟨order, hget, hpos⟩ := h.live s' k hk
    rw [afterLevel_store]
    exact ⟨order, (hq.frame k hout).trans hget, hpos⟩
  refine h.sublist (fun s' => ?_) fun s' k hk => ?_
  · cases s' using sideCases side with
    | same =>
      rw [afterLevel_keys hlevels, hbefore]
      exact hq.suffix.sublist.append_right _
    | other => rw [hopposite]
  · cases s' using sideCases side with
    | same =>
      rw [afterLevel_keys hlevels, List.mem_append] at hk
      rcases hk with hk | hk
      · rw [afterLevel_store]
        exact hq.live k hk
      · have hnodup := h.nodup side
        rw [hbefore] at hnodup
        refine hframe side k (by rw [hbefore]; exact List.mem_append_right _ hk) fun hin => ?_
        exact (List.nodup_append.mp hnodup).2.2 k hin k hk rfl
    | other =>
      rw [hopposite] at hk
      refine hframe _ k hk fun hin => ?_
      exact h.disjoint side (by rw [hbefore]; exact List.mem_append_left _ hin) hk

/-- What is met at the best level. -/
theorem Queued.best (h : Queued s.book) (hbest : s.book.bestMatch side = some (p, queue)) :
    (∃ rest, s.book.levels side.opposite = (p, queue) :: rest) ∧ queue.Nodup ∧
      Front ⟨s.book.orderStore, queue, s.quantity, s.events⟩
        ⟨s.book.orderStore, queue, s.quantity, s.events⟩ := by
  rw [bestMatch_eq] at hbest
  obtain ⟨rest, hlevels⟩ := List.head?_eq_some_iff.mp hbest
  have hkeys : s.book.keys side.opposite = queue ++ rest.flatMap Prod.snd := by
    rw [OrderBook.keys, hlevels, List.flatMap_cons]
  have hnodup := h.nodup side.opposite
  rw [hkeys] at hnodup
  refine ⟨⟨rest, hlevels⟩, (List.nodup_append.mp hnodup).1, List.suffix_refl _, fun _ _ => rfl, ?_⟩
  intro k hk
  exact h.live side.opposite k (by rw [hkeys]; exact List.mem_append_left _ hk)

/-- One iteration of the outer loop, and what it keeps. -/
theorem matchLevel_cases (orderId : OrderId) (userId : UserId) (side : Side) (price : Price)
    (h : Queued s.book) :
    matchLevel orderId userId side price s = .ok (.done s) ∨
    ∃ s', matchLevel orderId userId side price s = .ok (.yield s') ∧ Queued s'.book ∧
      s.quantity ≠ 0 ∧
      ((s'.book.tree side.opposite).size + 1 = (s.book.tree side.opposite).size ∨
        s'.quantity = 0 ∧
          (s'.book.tree side.opposite).size = (s.book.tree side.opposite).size) := by
  by_cases hq : s.quantity = 0
  · exact .inl (by simp [matchLevel, hq])
  · cases hbest : s.book.bestMatch side with
    | none => exact .inl (by simp [matchLevel, hq, hbest])
    | some level =>
      obtain ⟨p, queue⟩ := level
      cases hmatch : isMatchable side p price with
      | false => exact .inl (by simp [matchLevel, hq, hbest, hmatch])
      | true =>
        obtain ⟨⟨rest, hlevels⟩, hnodup, hstart⟩ := h.best hbest
        obtain ⟨q, hloop, hfront, hexit⟩ := iterate_total Fault.outOfFuel _
          (matchFront_stepOk orderId userId p hnodup)
          ⟨hstart, hq⟩ (Nat.lt_succ_self _)
        refine .inr ⟨_, matchLevel_next hq hlevels hmatch hloop, h.update hlevels hfront, hq, ?_⟩
        have hafter := congrArg List.length (afterLevel_levels hlevels q)
        have hbefore := congrArg List.length hlevels
        rw [OrderBook.levels, treeLevels_length] at hafter hbefore
        rw [hafter, hbefore, List.length_cons]
        by_cases hnil : q.queue = []
        · rw [if_pos hnil]
          exact .inl rfl
        · rw [if_neg hnil]
          exact .inr ⟨hexit.resolve_left hnil, rfl⟩

theorem matchLevel_stepOk (orderId : OrderId) (userId : UserId) (side : Side) (price : Price)
    (s : MatchState S) (h : Queued s.book) :
    StepOk (matchLevel orderId userId side price) (fun s => Queued s.book) (fun _ => True)
      (fun s => (s.book.tree side.opposite).size + if s.quantity = 0 then 0 else 1) s := by
  rcases matchLevel_cases orderId userId side price h with hdone | ⟨s', hyield, hs', hq, hless⟩
  · exact .inr ⟨s, hdone, trivial⟩
  · refine .inl ⟨s', hyield, hs', ?_⟩
    dsimp only
    rw [if_neg hq]
    rcases hless with hsize | ⟨hzero, hsize⟩
    · split <;> omega
    · rw [if_pos hzero, hsize]
      exact Nat.lt_succ_self _

theorem Inv.queued (h : Inv book) : Queued book := by
  refine ⟨List.nodup_append.mpr ⟨h.nodup _, h.nodup _, ?_⟩, fun side k hk => ?_⟩
  · rintro j hj _ hk rfl
    exact h.disjoint .bid j hj hk
  · obtain ⟨_, -, -, order, hget, -, -, hpos⟩ := h.resting_of_mem hk
    exact ⟨order, hget, hpos⟩

end Levels

/-! ## Placing an order -/

/-- On every queued book and for all arguments, a placement returns. Every state
in which the outer loop begins an iteration is reached after at most one more
iteration than there are levels, and its iteration makes progress. The inner
loop on the best level reaches every state after at most as many iterations as
makers are queued there, and each of these makes progress. -/
theorem matching_terminates {book : OrderBook S} (h : Queued book) (orderId : OrderId)
    (userId : UserId) (side : Side) (price : Price) (quantity : Quantity) :
    (∃ events book', placeLimitOrder book orderId userId side price quantity =
      .ok (events, book')) ∧
    ∀ n s, Continues (matchLevel orderId userId side price) ⟨book, quantity, []⟩ n s →
      n ≤ (book.tree side.opposite).size + 1 ∧
      LevelProgress orderId userId side price s ∧
      ∀ p queue, s.quantity ≠ 0 → s.book.bestMatch side = some (p, queue) →
        isMatchable side p price = true →
        ∀ m q, Continues (matchFront orderId userId p)
            ⟨s.book.orderStore, queue, s.quantity, s.events⟩ m q →
          m ≤ queue.length ∧ FrontProgress orderId userId p q := by
  have hstep := matchLevel_stepOk (S := S) orderId userId side price
  refine ⟨?_, fun n s hs => ?_⟩
  · have hfuel : (book.tree side.opposite).size + (if quantity = 0 then 0 else 1) <
        (book.tree side.opposite).size + 2 := by
      split <;> omega
    obtain ⟨s, hloop, -⟩ : ∃ s, iterate .outOfFuel (matchLevel orderId userId side price)
        ((book.tree side.opposite).size + 2) ⟨book, quantity, []⟩ = .ok s ∧ True :=
      iterate_total Fault.outOfFuel _ hstep h hfuel
    unfold placeLimitOrder
    rw [hloop]
    simp only [bind, Except.bind]
    split
    · exact ⟨_, _, rfl⟩
    · exact ⟨_, _, rfl⟩
  · obtain ⟨hqueued, hbound⟩ := hs.bounded hstep h
    refine ⟨?_, ?_, fun p queue hq hbest _ m q hm => ?_⟩
    · dsimp only at hbound
      split at hbound <;> split at hbound <;> omega
    · rcases matchLevel_cases orderId userId side price hqueued with
        hdone | ⟨s', hyield, -, -, hless⟩
      · exact .inl hdone
      · exact .inr ⟨s', hyield, hless.imp_right And.left⟩
    · obtain ⟨-, hnodup, hstart⟩ := hqueued.best hbest
      obtain ⟨⟨hfront, hopen⟩, hle⟩ :=
        hm.bounded (matchFront_stepOk orderId userId p hnodup) ⟨hstart, hq⟩
      exact ⟨Nat.le_trans (Nat.le_add_right _ _) hle, frontProgress hnodup hfront hopen⟩

/-- Two levels of asks. -/
def twoAsks : OrderBook StackSlab :=
  (OrderBook.new.enqueue ⟨1, 7, 100, 10, .ask, 0⟩).enqueue ⟨2, 8, 101, 5, .ask, 0⟩

/-- The first ask is the taker's own and the second outlasts the taker: the outer
loop goes on twice. -/
theorem matching_terminates_twoAsks :
    Queued twoAsks ∧ (twoAsks.tree .ask).size = 2 ∧
      (∃ events book', placeLimitOrder twoAsks 3 7 .bid 101 4 = .ok (events, book')) ∧
      ∃ s, Continues (matchLevel 3 7 .bid 101) ⟨twoAsks, 4, []⟩ 2 s ∧ s.quantity = 0 ∧
        LevelProgress 3 7 .bid 101 s := by
  have hreach : Reachable twoAsks :=
    .step (.step .new (rfl : applyOp _ (.place 1 7 .ask 100 10) = _))
      (rfl : applyOp _ (.place 2 8 .ask 101 5) = _)
  obtain ⟨hreturns, hall⟩ := matching_terminates hreach.inv.queued 3 7 .bid 101 4
  obtain ⟨s, t, hs, ht, hzero⟩ : ∃ s t, matchLevel 3 7 .bid 101 ⟨twoAsks, 4, []⟩ =
      .ok (.yield s) ∧ matchLevel 3 7 .bid 101 s = .ok (.yield t) ∧ t.quantity = 0 :=
    ⟨_, _, rfl, rfl, rfl⟩
  have hrun : Continues (matchLevel 3 7 .bid 101) ⟨twoAsks, 4, []⟩ 2 t := .next (.next .start hs) ht
  exact ⟨hreach.inv.queued, rfl, hreturns, t, hrun, hzero, (hall 2 t hrun).2.1⟩

end EviceChain.Engine
