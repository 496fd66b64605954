import EviceChain.Foundation.Loop
import EviceChain.Foundation.Slab
import EviceChain.Foundation.SortedMap

/-!
# The order book (`zkapp/engine/src/lib.rs`)

The in-memory limit order book: a slab of resting orders, two price trees whose
levels are FIFO queues of slab keys, and an index from order ids to slab keys.
The operations are `placeLimitOrder`, `cancelOrder` and `getDepth`.

The book is generic in its slab: what the crate `slab` promises is the class
`SlabLike`, and the slot it picks for an insertion is left open. `HashMap` is a
function to `Option`, `VecDeque` a list with its front first, and `BTreeMap` a
`SortedMap`. A panic is a `Fault`; a loop runs on fuel, and running out of it
is a `Fault` of its own. The dead field `sequence` is left out.
-/

namespace EviceChain.Engine

open Foundation

abbrev OrderId := UInt64
abbrev UserId := UInt64
abbrev Price := UInt64
abbrev Quantity := UInt64

scoped instance instLinearOrderUInt64 : LinearOrder UInt64 where
  le_refl _ := UInt64.le_refl _
  le_trans _ _ _ := UInt64.le_trans
  le_antisymm _ _ := UInt64.le_antisymm
  le_total := UInt64.le_total
  lt_iff_le_not_ge a b := by
    simp only [UInt64.lt_iff_toNat_lt, UInt64.le_iff_toNat_le]
    omega
  toDecidableLE := inferInstance
  toDecidableEq := inferInstance
  toDecidableLT := inferInstance

/-! ## Data model -/

inductive Side
  | bid
  | ask
deriving DecidableEq, Repr

def Side.opposite : Side → Side
  | .bid => .ask
  | .ask => .bid

structure Order where
  id : OrderId
  userId : UserId
  price : Price
  quantity : Quantity
  side : Side
  timestamp : UInt64
deriving DecidableEq, Repr

inductive EngineEvent
  | orderPlaced (id : OrderId) (userId : UserId) (price : Price) (quantity : Quantity)
      (side : Side)
  | orderCancelled (id : OrderId)
  | tradeExecuted (makerId takerId : OrderId) (price : Price) (quantity : Quantity)
  | intentResolved (intentId winningSolver : String) (winningAmount : UInt64)
deriving DecidableEq, Repr

structure OrderLevel where
  price : Price
  quantity : Quantity
deriving DecidableEq, Repr

/-- How a call can fail to return: the `expect("Stale index in queue")`,
`Slab::remove` on a vacant key, an overflowing addition in a build with
overflow checks, and a loop that does not end within the model's fuel. -/
inductive Fault
  | staleIndex
  | invalidKey
  | overflow
  | outOfFuel
deriving DecidableEq, Repr

structure OrderBook (S : Type → Type) where
  orderStore : S Order
  bids : SortedMap Price (List Nat)
  asks : SortedMap Price (List Nat)
  orderIndex : OrderId → Option Nat

variable {S : Type → Type} [SlabLike S]

namespace OrderBook

def new : OrderBook S := ⟨SlabLike.empty, .empty, .empty, fun _ => none⟩

/-- The tree in which orders of a side rest. -/
def tree (book : OrderBook S) : Side → SortedMap Price (List Nat)
  | .bid => book.bids
  | .ask => book.asks

def setTree (book : OrderBook S) (side : Side) (t : SortedMap Price (List Nat)) : OrderBook S :=
  match side with
  | .bid => { book with bids := t }
  | .ask => { book with asks := t }

/-- The level a taker of the given side meets first: `asks.iter_mut().next()`
for a bid, `bids.iter_mut().next_back()` for an ask. -/
def bestMatch (book : OrderBook S) : Side → Option (Price × List Nat)
  | .bid => book.asks.first?
  | .ask => book.bids.last?

end OrderBook

/-! ## Placing an order -/

/-- Whether a level at `bestPrice` crosses the limit `price` of a taker. -/
def isMatchable (side : Side) (bestPrice price : Price) : Bool :=
  match side with
  | .bid => bestPrice ≤ price
  | .ask => bestPrice ≥ price

/-- `Slab::remove`, which panics on a vacant key. -/
def removeSlot (store : S Order) (k : Nat) : Except Fault (S Order) :=
  match SlabLike.get store k with
  | some _ => .ok (SlabLike.remove store k)
  | none => .error .invalidKey

/-- What the inner matching loop works on: the slab, the queue of the level at
hand, the taker's open quantity and the events so far. -/
structure QueueState (S : Type → Type) where
  store : S Order
  queue : List Nat
  quantity : Quantity
  events : List EngineEvent

/-- One iteration of `while let Some(&maker_idx) = order_queue.front()`. -/
def matchFront (orderId : OrderId) (userId : UserId) (bestPrice : Price) (s : QueueState S) :
    Except Fault (ForInStep (QueueState S)) :=
  match s.queue with
  | [] => .ok (.done s)
  | makerIdx :: rest =>
    match SlabLike.get s.store makerIdx with
    | none => .error .staleIndex
    | some maker =>
      if maker.userId = userId then do
        let store ← removeSlot s.store makerIdx
        return .yield
          { s with store, queue := rest, events := s.events ++ [.orderCancelled maker.id] }
      else do
        let tradeQty := min s.quantity maker.quantity
        let events := s.events ++ [.tradeExecuted maker.id orderId bestPrice tradeQty]
        let quantity := s.quantity - tradeQty
        -- `maker_order` is a mutable reference into the slab
        let maker := { maker with quantity := maker.quantity - tradeQty }
        let store := SlabLike.set s.store makerIdx maker
        let (store, queue) ←
          if maker.quantity = 0 then do
            let store ← removeSlot store makerIdx
            pure (store, rest)
          else pure (store, s.queue)
        if quantity = 0 then return .done { store, queue, quantity, events }
        else return .yield { store, queue, quantity, events }

/-- What the outer matching loop works on. -/
structure MatchState (S : Type → Type) where
  book : OrderBook S
  quantity : Quantity
  events : List EngineEvent

/-- One iteration of the outer matching loop: the best opposite level. Its
queue is updated in place and the level is removed once the queue is empty. -/
def matchLevel (orderId : OrderId) (userId : UserId) (side : Side) (price : Price)
    (s : MatchState S) : Except Fault (ForInStep (MatchState S)) :=
  if s.quantity = 0 then .ok (.done s)
  else
    match s.book.bestMatch side with
    | none => .ok (.done s)
    | some (bestPrice, queue) =>
      if !isMatchable side bestPrice price then .ok (.done s)
      else do
        let q ← iterate .outOfFuel (matchFront orderId userId bestPrice) (queue.length + 1)
          ⟨s.book.orderStore, queue, s.quantity, s.events⟩
        let book := { s.book with orderStore := q.store }
        let levels := book.tree side.opposite
        let book :=
          if q.queue.isEmpty then book.setTree side.opposite (levels.erase bestPrice)
          else book.setTree side.opposite (levels.insert bestPrice q.queue)
        return .yield ⟨book, q.quantity, q.events⟩

/-- The maker phase: the order is stored, indexed and queued at the back of its
level. -/
def OrderBook.enqueue (book : OrderBook S) (order : Order) : OrderBook S :=
  let idx := SlabLike.vacantKey book.orderStore
  let levels := book.tree order.side
  let queue := (levels.get? order.price).getD []
  { book with
    orderStore := SlabLike.insert book.orderStore order
    orderIndex := Function.update book.orderIndex order.id (some idx) }.setTree order.side
      (levels.insert order.price (queue ++ [idx]))

def placeLimitOrder (book : OrderBook S) (orderId : OrderId) (userId : UserId) (side : Side)
    (price : Price) (quantity : Quantity) : Except Fault (List EngineEvent × OrderBook S) := do
  let s ← iterate .outOfFuel (matchLevel orderId userId side price)
    ((book.tree side.opposite).size + 2) ⟨book, quantity, []⟩
  if 0 < s.quantity then
    let newOrder : Order :=
      { id := orderId, userId, price, quantity := s.quantity, side, timestamp := 0 }
    return (s.events ++ [.orderPlaced orderId userId price s.quantity side],
      s.book.enqueue newOrder)
  else return (s.events, s.book)

/-! ## Cancelling an order -/

/-- `q.retain(|&idx| idx != internal_idx)` on the level of the order, if it is
there, and removal of a level left empty. -/
def OrderBook.unqueue (book : OrderBook S) (side : Side) (price : Price) (idx : Nat) :
    OrderBook S :=
  let levels := book.tree side
  match levels.get? price with
  | none => book
  | some queue =>
    let queue := queue.filter (· ≠ idx)
    if queue.isEmpty then book.setTree side (levels.erase price)
    else book.setTree side (levels.insert price queue)

def cancelOrder (book : OrderBook S) (orderId : OrderId) (userId : UserId) :
    Except Fault (List EngineEvent × OrderBook S) :=
  match book.orderIndex orderId with
  | none => .ok ([], book)
  | some internalIdx =>
    match SlabLike.get book.orderStore internalIdx with
    | none => .ok ([], book)
    | some order =>
      if order.userId ≠ userId then .ok ([], book)
      else do
        let book := book.unqueue order.side order.price internalIdx
        let book := { book with orderIndex := Function.update book.orderIndex orderId none }
        let store ← removeSlot book.orderStore internalIdx
        return ([.orderCancelled orderId], { book with orderStore := store })

/-! ## Market depth -/

/-- Whether the build has overflow checks: `+` on `u64` panics with them and
wraps without. -/
inductive Profile
  | checked
  | wrapping
deriving DecidableEq, Repr

def addU64 (profile : Profile) (a b : UInt64) : Except Fault UInt64 :=
  if a.toNat + b.toNat < 2 ^ 64 then .ok (a + b)
  else
    match profile with
    | .checked => .error .overflow
    | .wrapping => .ok (a + b)

/-- `Iterator::sum::<u64>`. -/
def sumU64 (profile : Profile) (xs : List UInt64) : Except Fault UInt64 :=
  xs.foldlM (addU64 profile) 0

def depthLevel (profile : Profile) (store : S Order) (level : Price × List Nat) :
    Except Fault OrderLevel := do
  let quantities := level.2.map fun idx => ((SlabLike.get store idx).map Order.quantity).getD 0
  let totalQty ← sumU64 profile quantities
  return ⟨level.1, totalQty⟩

/-- The asks from the cheapest, the bids from the dearest, at most `limit`
levels of each. -/
def getDepth (profile : Profile) (book : OrderBook S) (limit : Nat) :
    Except Fault (List OrderLevel × List OrderLevel) := do
  let asks ← (book.asks.entries.take limit).mapM (depthLevel profile book.orderStore)
  let bids ← (book.bids.entries.reverse.take limit).mapM (depthLevel profile book.orderStore)
  return (asks, bids)

/-! ## Runs of the book -/

/-- A call of one of the two mutating operations. -/
inductive Op
  | place (orderId : OrderId) (userId : UserId) (side : Side) (price : Price)
      (quantity : Quantity)
  | cancel (orderId : OrderId) (userId : UserId)
deriving DecidableEq, Repr

def applyOp (book : OrderBook S) : Op → Except Fault (List EngineEvent × OrderBook S)
  | .place orderId userId side price quantity =>
    placeLimitOrder book orderId userId side price quantity
  | .cancel orderId userId => cancelOrder book orderId userId

/-- The book after a sequence of calls. -/
def runOps (book : OrderBook S) (ops : List Op) : Except Fault (OrderBook S) :=
  ops.foldlM (fun book op => Prod.snd <$> applyOp book op) book

/-- The books that calls starting from `OrderBook::new()` can lead to. -/
inductive Reachable : OrderBook S → Prop
  | new : Reachable OrderBook.new
  | step {book book' : OrderBook S} {op : Op} {events : List EngineEvent} :
      Reachable book → applyOp book op = .ok (events, book') → Reachable book'

end EviceChain.Engine
