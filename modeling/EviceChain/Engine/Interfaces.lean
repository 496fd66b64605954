import EviceChain.Engine.Execution

/-!
# The C interface and the trading service are one engine

A call of the C interface that gets to the book asks for what some request of the
trading service asks for (`FfiCall.request?`). Here both are asked, call by call, and the
service has its log, its auctions and whatever it is asked that does not change the book
besides (`Twin`).

`interfaces_agree`: at every point of every run both have the same book, and they agree
on what they answer next: the same fills, the same cancels, the same levels, and the same
panic. Two things set them apart. The C interface refuses a price or a quantity of 0, and
it takes a depth of 0 as it is, where the service takes it for 10.
-/

namespace EviceChain.Engine

open Foundation RepresentationLemmas OrderEntryLemmas ExecutionLemmas

variable {S : Type → Type} [SlabLike S]

def Side.toProto : Side → Int32
  | .bid => 1
  | .ask => 2

/-- The request for a parsed order. -/
def OrderJson.request (parsed : OrderJson) : PlaceOrderRequest where
  userId := parsed.userId.getD 0
  orderId := parsed.orderId.getD 0
  side := (sideOfText (parsed.side.getD "bid")).toProto
  price := parsed.price.getD 0
  quantity := parsed.quantity.getD 0

def OrderJson.request? (parsed : OrderJson) : Option Request :=
  if parsed.price.getD 0 = 0 ∨ parsed.quantity.getD 0 = 0 then none
  else some (.placeLimitOrder parsed.request)

def FfiCall.request? (parse : String → Option OrderJson) : FfiCall → Option Request
  | .evicePlaceOrder orderJson => (orderJson.bind parse).bind OrderJson.request?
  | .eviceCancelOrder orderId userId => some (.cancelOrder userId orderId)
  | .eviceGetDepth levels => some (.getOrderBookDepth levels)
  | .eviceEngineInit => none
  | .eviceEngineDestroy => none
  | .eviceGetStatus => none

/-- The library and a node that are asked for the same. -/
structure Twin (S : Type → Type) where
  engine : Option (OrderBook S)
  processor : MarketProcessor S

inductive TwinMove
  | both (now : Nat) (call : FfiCall)
  /-- Something that happens at the node only. -/
  | own (arrival : Arrival)

def Twin.step (profile : Profile) (io : Nat → WriteOutcome) (parse : String → Option OrderJson)
    (twin : Twin S) : TwinMove → Option (Twin S)
  | .both now call =>
    match call.request? parse with
    | none => (ffiStep profile parse twin.engine call).map fun engine => { twin with engine }
    | some req => do
      let engine ← ffiStep profile parse twin.engine call
      let processor ← serve profile io twin.processor (.request now req)
      return ⟨engine, processor⟩
  | .own arrival =>
    (serve profile io twin.processor arrival).map fun processor => { twin with processor }

/-- What happens at the node only leaves the book alone. -/
def TwinMove.Apart : TwinMove → Prop
  | .both _ _ => True
  | .own arrival => arrival.ops = []

instance TwinMove.decidableApart : DecidablePred TwinMove.Apart
  | .both _ _ => inferInstanceAs (Decidable True)
  | .own arrival => inferInstanceAs (Decidable (arrival.ops = []))

def FfiFill.execution (fill : FfiFill) : TradeExecution :=
  ⟨fill.makerOrderId, fill.price, fill.quantity⟩

/-- Two answers say the same. -/
inductive Agree : FfiReply → Reply → Prop
  | placed {orderId : OrderId} {fills : List FfiFill} :
      (∀ fill ∈ fills, fill.takerOrderId = orderId) →
      Agree (.placed orderId fills fills.length)
        (.placeOrder true "Order Processed" (fills.map FfiFill.execution))
  | cancelled {success : Bool} {orderId : OrderId} {message : String} :
      Agree (.cancelled success orderId message) (.cancelOrder success 0)
  | depth {bids asks : List OrderLevel} : Agree (.depth bids asks) (.depth bids asks 0)

/-- Both panic, or both answer the same and have the same book. -/
def Together : Except Fault (FfiReply × Option (OrderBook S)) →
    Except Fault (Except Status (Option Reply) × MarketProcessor S) → Prop
  | .ok (reply, engine), .ok (.ok (some answer), p) => Agree reply answer ∧ engine = some p.book
  | .error fault, .error fault' => fault = fault'
  | _, _ => False

namespace InterfacesLemmas

variable {profile : Profile} {io : Nat → WriteOutcome} {parse : String → Option OrderJson}
  {p p' : MarketProcessor S} {now : Nat}

theorem engineSide_toProto (side : Side) : engineSide side.toProto = some side := by
  cases side <;> rfl

/-! ## One call -/

theorem fills_takenBy {orderId : OrderId} {events : List EngineEvent}
    (h : ∀ event ∈ events, TakenBy orderId event) :
    ∀ fill ∈ eventsToFillsJson events, fill.takerOrderId = orderId := by
  intro fill hfill
  obtain ⟨event, hevent, hfill⟩ := List.mem_filterMap.mp hfill
  cases event with
  | tradeExecuted makerId takerId price quantity =>
    cases hfill
    exact h _ hevent _ _ _ _ rfl
  | _ => cases hfill

theorem fills_execution {orderId : OrderId} {events : List EngineEvent}
    (h : ∀ event ∈ events, TakenBy orderId event) :
    (eventsToFillsJson events).map FfiFill.execution =
      events.filterMap (EngineEvent.fill (· == orderId)) := by
  unfold eventsToFillsJson
  rw [List.map_filterMap]
  refine List.filterMap_congr fun event hevent => ?_
  cases event with
  | tradeExecuted makerId takerId price quantity =>
    obtain rfl := h _ hevent _ _ _ _ rfl
    rw [EngineEvent.fill, if_pos (beq_self_eq_true _)]
    rfl
  | _ => rfl

theorem together_place (hbook : Reachable p.book) {text : String} {parsed : OrderJson}
    (hparse : parse text = some parsed)
    (hsize : ¬(parsed.price.getD 0 = 0 ∨ parsed.quantity.getD 0 = 0)) :
    Together (ffiCall profile parse (some p.book) (.evicePlaceOrder (some text)))
      (serveRequest profile io now p (.placeLimitOrder parsed.request)) := by
  obtain ⟨book', hplace, -⟩ := placeLimitOrder_spec hbook.inv parsed.request.orderId
    parsed.request.userId (sideOfText (parsed.side.getD "bid")) parsed.request.price
    parsed.request.quantity
  have htaken := place_takenBy p.book.flat parsed.request.orderId parsed.request.userId
    (sideOfText (parsed.side.getD "bid")) parsed.request.price parsed.request.quantity
  have hffi : ffiCall profile parse (some p.book) (.evicePlaceOrder (some text)) =
      (placeLimitOrder p.book parsed.request.orderId parsed.request.userId
        (sideOfText (parsed.side.getD "bid")) parsed.request.price parsed.request.quantity >>=
        fun r => pure (.placed parsed.request.orderId (eventsToFillsJson r.1)
          (eventsToFillsJson r.1).length, some r.2)) := by
    simp only [ffiCall, hparse, if_neg hsize]
    rfl
  obtain ⟨p', hserve, rfl⟩ := serveRequest_place profile io now (engineSide_toProto _) hplace
  have hquantity : decide (parsed.request.quantity ≠ 0) = true :=
    decide_eq_true fun hzero => hsize (.inr hzero)
  rw [hffi, hplace, hserve, Request.reply, place_acknowledged, hquantity,
    ← fills_execution htaken]
  exact ⟨.placed (fills_takenBy htaken), rfl⟩

theorem together_cancel (hbook : Reachable p.book) (orderId : OrderId) (userId : UserId) :
    Together (ffiCall profile parse (some p.book) (.eviceCancelOrder orderId userId))
      (serveRequest profile io now p (.cancelOrder userId orderId)) := by
  obtain ⟨events, book', hcancel, -⟩ := cancelOrder_spec hbook.inv orderId userId
  simp only [ffiCall, serveRequest, Request.command, handleCommand, hcancel]
  exact ⟨.cancelled, rfl⟩

theorem together_depth (p : MarketProcessor S) {levels : UInt32} (hlevels : levels ≠ 0) :
    Together (ffiCall profile parse (some p.book) (.eviceGetDepth levels))
      (serveRequest profile io now p (.getOrderBookDepth levels)) := by
  simp only [ffiCall, serveRequest, Request.command, handleCommand, if_neg hlevels]
  cases getDepth profile p.book levels.toNat with
  | error fault => exact rfl
  | ok depth => exact ⟨.depth, rfl⟩

/-- The calls that ask for what a request asks for. -/
theorem request?_eq_some {call : FfiCall} {req : Request} (h : call.request? parse = some req) :
    (∃ text parsed, call = .evicePlaceOrder (some text) ∧ parse text = some parsed ∧
        ¬(parsed.price.getD 0 = 0 ∨ parsed.quantity.getD 0 = 0) ∧
        req = .placeLimitOrder parsed.request) ∨
      (∃ orderId userId, call = .eviceCancelOrder orderId userId ∧
        req = .cancelOrder userId orderId) ∨
      ∃ levels, call = .eviceGetDepth levels ∧ req = .getOrderBookDepth levels := by
  cases call with
  | evicePlaceOrder orderJson =>
    obtain ⟨parsed, hparsed, hreq⟩ := Option.bind_eq_some_iff.mp h
    obtain ⟨text, rfl, hparse⟩ := Option.bind_eq_some_iff.mp hparsed
    unfold OrderJson.request? at hreq
    split at hreq
    · cases hreq
    · next hsize =>
      cases hreq
      exact .inl ⟨text, parsed, rfl, hparse, hsize, rfl⟩
  | eviceCancelOrder orderId userId =>
    cases h
    exact .inr (.inl ⟨orderId, userId, rfl, rfl⟩)
  | eviceGetDepth levels =>
    cases h
    exact .inr (.inr ⟨levels, rfl, rfl⟩)
  | _ => cases h

theorem together_of_request (hbook : Reachable p.book) {call : FfiCall} {req : Request}
    (hreq : call.request? parse = some req) (hdepth : call ≠ .eviceGetDepth 0) :
    Together (ffiCall profile parse (some p.book) call) (serveRequest profile io now p req) := by
  rcases request?_eq_some hreq with
    ⟨text, parsed, rfl, hparse, hsize, rfl⟩ | ⟨orderId, userId, rfl, rfl⟩ | ⟨levels, rfl, rfl⟩
  · exact together_place hbook hparse hsize
  · exact together_cancel hbook orderId userId
  · exact together_depth p fun hzero => hdepth (hzero ▸ rfl)

/-- A call and its request do the same to the book. -/
theorem ops_of_request {call : FfiCall} {req : Request} (hreq : call.request? parse = some req)
    (now : Nat) : (Arrival.request now req).ops = call.ops parse := by
  rcases request?_eq_some hreq with
    ⟨text, parsed, rfl, hparse, hsize, rfl⟩ | ⟨orderId, userId, rfl, rfl⟩ | ⟨levels, rfl, rfl⟩
  · have hcommand : (Request.placeLimitOrder parsed.request).command =
        .ok (.placeOrder (parsed.userId.getD 0) (parsed.orderId.getD 0)
          (sideOfText (parsed.side.getD "bid")) (parsed.price.getD 0)
          (parsed.quantity.getD 0)) := by
      unfold Request.command
      simp only [OrderJson.request, engineSide_toProto]
    have hops : FfiCall.ops parse (.evicePlaceOrder (some text)) = parsed.ops := by
      simp only [FfiCall.ops, Option.bind_some, hparse, Option.map_some, Option.getD_some]
    rw [hops, OrderJson.ops, if_neg hsize, Arrival.ops, hcommand]
    rfl
  · rfl
  · rfl

/-- Any other call leaves the book alone. -/
theorem ops_of_no_request {call : FfiCall} (h : call.request? parse = none) :
    call.ops parse = [] := by
  cases call with
  | evicePlaceOrder orderJson =>
    show ((orderJson.bind parse).map OrderJson.ops).getD [] = []
    cases hparsed : orderJson.bind parse with
    | none => rfl
    | some parsed =>
      have hrefused : parsed.request? = none := by
        simpa only [FfiCall.request?, hparsed, Option.bind_some] using h
      unfold OrderJson.request? at hrefused
      split at hrefused
      · next hsize => exact if_pos hsize
      · cases hrefused
  | eviceCancelOrder | eviceGetDepth => cases h
  | _ => rfl

/-! ## Every run -/

theorem runOps_nil {book book' : OrderBook S} (h : runOps book [] = .ok book') : book' = book :=
  (Except.ok.inj h).symm

/-- One step of both keeps their books the same. -/
theorem twin_step {twin twin' : Twin S} {move : TwinMove}
    (hsame : twin.engine = some twin.processor.book) (hbook : Reachable twin.processor.book)
    (hapart : move.Apart) (hstep : twin.step profile io parse move = some twin') :
    twin'.engine = some twin'.processor.book ∧ Reachable twin'.processor.book := by
  cases move with
  | own arrival =>
    obtain ⟨p', hserve, rfl⟩ := Option.map_eq_some_iff.mp hstep
    have hops := serve_runOps hbook hserve
    have hempty : arrival.ops = [] := hapart
    rw [hempty] at hops
    have hkept : p'.book = twin.processor.book := runOps_nil hops
    exact ⟨hkept ▸ hsame, hkept ▸ hbook⟩
  | both now call =>
    unfold Twin.step at hstep
    rw [hsame] at hstep
    dsimp only at hstep
    split at hstep
    · next hreq =>
      obtain ⟨engine, hffi, rfl⟩ := Option.map_eq_some_iff.mp hstep
      obtain ⟨book', rfl, hops⟩ := ffiStep_runOps hffi
      rw [ops_of_no_request hreq] at hops
      rw [runOps_nil hops]
      exact ⟨rfl, hbook⟩
    · next req hreq =>
      obtain ⟨engine, hffi, hstep⟩ := Option.bind_eq_some_iff.mp hstep
      obtain ⟨p', hserve, hstep⟩ := Option.bind_eq_some_iff.mp hstep
      cases hstep
      obtain ⟨book', rfl, hops⟩ := ffiStep_runOps hffi
      have hops' := serve_runOps hbook hserve
      rw [ops_of_request hreq, hops] at hops'
      cases hops'
      obtain ⟨_, hruns, hreachable⟩ := hbook.runOps (call.ops parse)
      rw [hops] at hruns
      cases hruns
      exact ⟨rfl, hreachable⟩

end InterfacesLemmas

open InterfacesLemmas

/-- However the library and a node with the same book are used together, their books stay the
same. A call that gets to the book is answered by both of them alike, and any other call
of the library leaves its book alone. -/
theorem interfaces_agree {profile : Profile} {io : Nat → WriteOutcome}
    {parse : String → Option OrderJson} {p : MarketProcessor S} {twin : Twin S}
    (hp : Reachable p.book)
    (hrun : Run (Twin.step profile io parse) (fun _ move => move.Apart) ⟨some p.book, p⟩ twin)
    (now : Nat) (call : FfiCall) :
    twin.engine = some twin.processor.book ∧
      match call.request? parse with
      | some req => call ≠ .eviceGetDepth 0 →
        Together (ffiCall profile parse twin.engine call)
          (serveRequest profile io now twin.processor req)
      | none => ∀ reply engine, ffiCall profile parse twin.engine call = .ok (reply, engine) →
        engine = twin.engine := by
  obtain ⟨hsame, hbook⟩ : twin.engine = some twin.processor.book ∧
      Reachable twin.processor.book :=
    hrun.invariant (I := fun twin => twin.engine = some twin.processor.book ∧
      Reachable twin.processor.book) ⟨rfl, hp⟩
      fun _ hapart hstep ⟨hsame, hbook⟩ => twin_step hsame hbook hapart hstep
  refine ⟨hsame, ?_⟩
  rw [hsame]
  split
  · next req hreq => exact together_of_request hbook hreq
  · next hreq =>
    intro reply engine hcall
    have hstep : ffiStep profile parse (some twin.processor.book) call = some engine := by
      unfold ffiStep
      rw [hcall]
      rfl
    obtain ⟨book', rfl, hops⟩ := ffiStep_runOps hstep
    rw [ops_of_no_request hreq] at hops
    rw [runOps_nil hops]

/-- A node that cannot write its log and has an auction going on, next to the library: both
have taken in an ask, and both cancel it. -/
theorem interfaces_agree_cancel :
    ∃ twin : Twin StackSlab,
      twin.engine = some twin.processor.book ∧
      twin.processor.book.flat .ask = [⟨1, 7, 100, 18446744073709551615, .ask, 0⟩] ∧
      Together (ffiCall .checked oneOrder twin.engine (.eviceCancelOrder 1 7))
        (serveRequest .checked (fun _ => .err 0 0) 3 twin.processor (.cancelOrder 7 1)) := by
  have hruns : ∃ twin : Twin StackSlab,
      Run (Twin.step .checked (fun _ => .err 0 0) oneOrder) (fun _ move => move.Apart)
        ⟨some OrderBook.new, ⟨OrderBook.new, WalHandler.new none, [], [], []⟩⟩ twin ∧
      twin.processor.book.flat .ask = [⟨1, 7, 100, 18446744073709551615, .ask, 0⟩] :=
    exists_run [.own (.request 0 (.submitIntentBid "a" "x" 5 [1])),
      .both 1 (.evicePlaceOrder (some largestText)), .both 2 .eviceGetStatus] (by decide +kernel)
  obtain ⟨twin, hrun, hask⟩ := hruns
  have hnew : Reachable
      (⟨OrderBook.new, WalHandler.new none, [], [], []⟩ : MarketProcessor StackSlab).book := .new
  have hagree := interfaces_agree hnew hrun 3 (.eviceCancelOrder 1 7)
  exact ⟨twin, hagree.1, hask, hagree.2 (by decide)⟩

end EviceChain.Engine
