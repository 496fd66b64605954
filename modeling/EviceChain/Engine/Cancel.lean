import EviceChain.Engine.Matching

/-!
# Cancelling through the order index

`orderIndex` is written when an order is placed and erased when it is cancelled
through it, but neither a fill nor a self-trade removal erases the entry. An id
that no longer rests can therefore still name a slot, and the slab may have
given that slot to another order. `cancelOrder` checks the user of the order in
the slot, not its id.

Results:
1. `cancel_absent_iff`: for an id that does not rest, the cancel is without
   effect exactly when the slot the index names for it holds no order of the
   caller;
2. `cancel_absent_removes_other`: a run in which it does hold one.
-/

namespace EviceChain.Engine

open Foundation RepresentationLemmas MatchingLemmas

/-- The ids placed in a sequence of calls, in order. -/
def placedIds (ops : List Op) : List OrderId :=
  ops.filterMap fun op =>
    match op with
    | .place orderId _ _ _ _ => some orderId
    | .cancel _ _ => none

/-- The index names a live slot for the id, and in it rests another order of
the same user. -/
def SlotReused {S : Type → Type} [SlabLike S] (book : OrderBook S) (orderId : OrderId)
    (userId : UserId) : Prop :=
  ∃ k order, book.orderIndex orderId = some k ∧
    SlabLike.get book.orderStore k = some order ∧ order.id ≠ orderId ∧ order.userId = userId

/-- In every run, whether or not it repeats an id, a cancel of an id that does
not rest returns no events and leaves every resting order as it is, if and only
if the slot recorded for the id has not been reused by an order of the same
user. -/
theorem cancel_absent_iff {S : Type → Type} [SlabLike S] {ops : List Op} {book : OrderBook S}
    (hrun : runOps OrderBook.new ops = .ok book) {orderId : OrderId} (userId : UserId)
    (habsent : ∀ side, ∀ order ∈ book.flat side, order.id ≠ orderId) :
    (∃ book', cancelOrder book orderId userId = .ok ([], book') ∧ book'.flat = book.flat) ↔
      ¬ SlotReused book orderId userId := by
  have hreach : Reachable book := by
    obtain ⟨_, hrun', hreach⟩ := Reachable.new.runOps (S := S) ops
    rw [hrun] at hrun'
    cases hrun'
    exact hreach
  constructor
  · rintro ⟨book', hcancel, -⟩ ⟨k, order, hindex, hget, -, huser⟩
    obtain ⟨_, hcancel', -⟩ := cancelOrder_of_some hreach.inv
      (cancelTarget_eq_some.mpr ⟨hindex, hget, huser⟩)
    rw [hcancel] at hcancel'
    exact nomatch hcancel'
  · intro hfree
    refine ⟨book, cancelOrder_of_none ?_, rfl⟩
    cases htarget : cancelTarget book orderId userId with
    | none => rfl
    | some target =>
      obtain ⟨hindex, hget, huser⟩ := cancelTarget_eq_some.mp htarget
      -- a live slot holds a resting order, so it cannot be the absent one
      obtain ⟨side, hk⟩ := (hreach.inv.live target.1).mp (by rw [hget]; rfl)
      have hother := habsent side target.2 (mem_flat.mpr ⟨_, hk, hget⟩)
      exact absurd ⟨_, _, hindex, hget, hother, huser⟩ hfree

/-- Order 1 of user 7 is filled and its slot freed; order 3 of the same user
takes the slot. A late cancel of order 1 removes order 3, under the id 1. -/
theorem cancel_absent_removes_other :
    ∃ book book' : OrderBook StackSlab,
      runOps OrderBook.new
        [.place 1 7 .ask 100 10, .place 2 8 .bid 100 10, .place 3 7 .ask 200 5] = .ok book ∧
      (placedIds [.place 1 7 .ask 100 10, .place 2 8 .bid 100 10, .place 3 7 .ask 200 5]).Nodup ∧
      (∀ side, ∀ order ∈ book.flat side, order.id ≠ 1) ∧
      cancelOrder book 1 7 = .ok ([.orderCancelled 1], book') ∧
      book.flat .ask = [⟨3, 7, 200, 5, .ask, 0⟩] ∧ book'.flat .ask = [] := by
  refine ⟨_, _, rfl, by decide, fun side => ?_, rfl, rfl, rfl⟩
  cases side <;> decide

/-- Without the third order the slot of order 1 stays free, and its late cancel
is without effect. -/
theorem cancel_absent_filled :
    ∃ book : OrderBook StackSlab,
      runOps OrderBook.new [.place 1 7 .ask 100 10, .place 2 8 .bid 100 10] = .ok book ∧
      ¬ SlotReused book 1 7 ∧
      ∃ book', cancelOrder book 1 7 = .ok ([], book') ∧ book'.flat = book.flat := by
  have hfree : ∀ book : OrderBook StackSlab,
      runOps OrderBook.new [.place 1 7 .ask 100 10, .place 2 8 .bid 100 10] = .ok book →
      ¬ SlotReused book 1 7 := by
    rintro book hrun ⟨k, order, hindex, hget, -⟩
    cases hrun
    cases hindex
    cases hget
  have hrun : ∃ book : OrderBook StackSlab,
      runOps OrderBook.new [.place 1 7 .ask 100 10, .place 2 8 .bid 100 10] = .ok book ∧
      ∀ side, book.flat side = [] := ⟨_, rfl, fun side => by cases side <;> rfl⟩
  obtain ⟨book, hrun, hempty⟩ := hrun
  refine ⟨book, hrun, hfree book hrun, (cancel_absent_iff hrun 7 fun side order h => ?_).mpr
    (hfree book hrun)⟩
  rw [hempty] at h
  exact nomatch h

end EviceChain.Engine
