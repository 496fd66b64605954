import EviceChain.Engine.Depth

/-!
# Order entry: the trading service and the C interface
(`zkapp/node/src/main.rs`, `zkapp/ffi/src/lib.rs`)

Orders come in two ways. The trading service takes requests over the network,
checks the side of an order and sends the processor one command, whose answer it
turns into the response. The C interface has a book of its own behind a mutex; it
parses a JSON text and refuses a price or a quantity of zero. Neither bounds a
quantity from above, and neither looks at what already rests at the price.

A panic of the processor or behind the mutex ends a run. What the JSON library
makes of a text is a parameter. The version text of `evice_get_status` is left
out, and so is the stream of `subscribe_intent_mempool`, which does nothing.

Results:
1. `serve_runOps`, `ffiStep_runOps`: what a request does to the book is a sequence
   of placements and cancels;
2. `entry_depth_exact`: if every order that comes in fits together with what rests
   at its price, the depth of every book reached is exact; `entry_depth_overflows`
   is two requests after which it is not.
-/

namespace EviceChain.Engine

open Foundation RepresentationLemmas OrderIndexLemmas DepthLemmas ProcessorLemmas

variable {S : Type → Type} [SlabLike S]

/-! ## The trading service -/

/-- The enumeration `Side` of the protocol. -/
inductive ProtoSide
  | unspecified
  | bid
  | ask
deriving DecidableEq, Repr

def ProtoSide.tryFrom (value : Int32) : Option ProtoSide :=
  if value = 0 then some .unspecified
  else if value = 1 then some .bid
  else if value = 2 then some .ask
  else none

/-- The side of an order; an unknown number counts as unspecified. -/
def engineSide (value : Int32) : Option Side :=
  match (ProtoSide.tryFrom value).getD .unspecified with
  | .bid => some .bid
  | .ask => some .ask
  | .unspecified => none

structure PlaceOrderRequest where
  userId : UserId
  orderId : OrderId
  side : Int32
  price : Price
  quantity : Quantity
deriving DecidableEq, Repr

/-- The requests that send the processor a command. -/
inductive Request
  | placeLimitOrder (req : PlaceOrderRequest)
  | executeSolverBundle (orders : List PlaceOrderRequest)
  | cancelOrder (userId : UserId) (orderId : OrderId)
  | getOrderBookDepth (limit : UInt32)
  | submitIntentBid (solverId intentId : String) (proposedOutputAmount : UInt64)
      (solverSignature : List UInt8)
deriving DecidableEq, Repr

inductive Status
  | invalidArgument (message : String)
deriving DecidableEq, Repr

structure TradeExecution where
  makerOrderId : OrderId
  price : Price
  quantity : Quantity
deriving DecidableEq, Repr

inductive Reply
  | placeOrder (success : Bool) (message : String) (fills : List TradeExecution)
  | execution (success : Bool) (message : String) (fills : List TradeExecution)
  | cancelOrder (success : Bool) (remainingQty : UInt64)
  | depth (bids asks : List OrderLevel) (sequenceId : UInt64)
  | intentBid (accepted : Bool) (message auctionId : String)
deriving DecidableEq, Repr

def bundleRequest (order : PlaceOrderRequest) : Except Status BundleRequest :=
  match engineSide order.side with
  | none => .error (.invalidArgument "Side Invalid")
  | some side => .ok ⟨order.userId, order.orderId, side, order.price, order.quantity⟩

/-- The command a request is turned into, or the status it is refused with. -/
def Request.command : Request → Except Status Command
  | .placeLimitOrder req =>
    match engineSide req.side with
    | none => .error (.invalidArgument "Side is required")
    | some side => .ok (.placeOrder req.userId req.orderId side req.price req.quantity)
  | .executeSolverBundle orders => do
    let bundle ← orders.mapM bundleRequest
    return .executeBundle bundle
  | .cancelOrder userId orderId => .ok (.cancelOrder userId orderId)
  | .getOrderBookDepth limit => .ok (.getDepth (if limit = 0 then 10 else limit.toNat))
  | .submitIntentBid solverId intentId amount solverSignature =>
    if solverSignature.isEmpty then .error (.invalidArgument "Signature required")
    else .ok (.submitBid solverId intentId amount)

def EngineEvent.isCancellation : EngineEvent → Bool
  | .orderCancelled _ => true
  | _ => false

/-- The event tells the placer of the order that it rests or has traded. -/
def EngineEvent.acknowledges (orderId : OrderId) : EngineEvent → Bool
  | .orderPlaced id _ _ _ _ => id == orderId
  | .tradeExecuted _ takerId _ _ => takerId == orderId
  | _ => false

/-- The trade of an event, for the takers of which `counts` holds. -/
def EngineEvent.fill (counts : OrderId → Bool) : EngineEvent → Option TradeExecution
  | .tradeExecuted makerId takerId price quantity =>
    if counts takerId then some ⟨makerId, price, quantity⟩ else none
  | _ => none

/-- What the processor's answer is turned into. -/
def Request.reply : Request → Response → Option Reply
  | .placeLimitOrder req, .events events =>
    let success := events.any (EngineEvent.acknowledges req.orderId)
    some (.placeOrder success (if success then "Order Processed" else "Order Rejected")
      (events.filterMap (EngineEvent.fill (· == req.orderId))))
  | .executeSolverBundle _, .events events =>
    some (.execution true ("Bundle Executed. Total Events: " ++ toString events.length)
      (events.filterMap (EngineEvent.fill fun _ => true)))
  | .cancelOrder _ _, .events events =>
    some (.cancelOrder (events.any EngineEvent.isCancellation) 0)
  | .getOrderBookDepth _, .depth asks bids => some (.depth bids asks 0)
  | .submitIntentBid _ intentId _ _, .none =>
    -- the answer is not waited for
    some (.intentBid true "Bid queued for OFA evaluation" ("auc-" ++ intentId))
  | _, _ => none

/-- A request from its arrival to the response. -/
def serveRequest (profile : Profile) (io : Nat → WriteOutcome) (now : Nat)
    (p : MarketProcessor S) (req : Request) :
    Except Fault (Except Status (Option Reply) × MarketProcessor S) :=
  match req.command with
  | .error status => .ok (.error status, p)
  | .ok cmd => do
    let (response, p) ← handleCommand profile io now p cmd
    return (.ok (req.reply response), p)

/-- What happens at a node: a request is served, or the timer of the auctions
ticks. -/
inductive Arrival
  | request (now : Nat) (req : Request)
  | tick (now : Nat) (order : IterOrder)

def serve (profile : Profile) (io : Nat → WriteOutcome) (p : MarketProcessor S) :
    Arrival → Option (MarketProcessor S)
  | .request now req => (serveRequest profile io now p req).toOption.map Prod.snd
  | .tick now order => some (resolveAuctions now order p)

/-! ## The C interface -/

/-- The members of a parsed order that are read. A member that is missing or not
of its type is `none`. -/
structure OrderJson where
  orderId : Option UInt64
  userId : Option UInt64
  side : Option String
  price : Option UInt64
  quantity : Option UInt64
deriving DecidableEq, Repr

/-- A text is absent if its pointer is null or its bytes are not UTF-8. -/
inductive FfiCall
  | eviceEngineInit
  | eviceEngineDestroy
  | evicePlaceOrder (orderJson : Option String)
  | eviceCancelOrder (orderId : OrderId) (userId : UserId)
  | eviceGetDepth (levels : UInt32)
  | eviceGetStatus
deriving DecidableEq, Repr

structure FfiFill where
  makerOrderId : OrderId
  takerOrderId : OrderId
  price : Price
  quantity : Quantity
deriving DecidableEq, Repr

/-- The JSON texts that are handed out, or a null pointer. -/
inductive FfiReply
  | success
  | null
  | placed (orderId : OrderId) (fills : List FfiFill) (fillCount : Nat)
  | cancelled (success : Bool) (orderId : OrderId) (message : String)
  | depth (bids asks : List OrderLevel)
  | uninitialized (error : String)
  | status (bestBid bestAsk : Option Price)
deriving DecidableEq, Repr

def eventsToFillsJson (events : List EngineEvent) : List FfiFill :=
  events.filterMap fun event =>
    match event with
    | .tradeExecuted makerId takerId price quantity => some ⟨makerId, takerId, price, quantity⟩
    | _ => none

def sideOfText (text : String) : Side :=
  if text = "ask" ∨ text = "Ask" ∨ text = "ASK" then .ask else .bid

/-- A call of the library. The engine is there from the first `evice_engine_init`
on; `evice_engine_destroy` leaves it there. -/
def ffiCall (profile : Profile) (parse : String → Option OrderJson)
    (engine : Option (OrderBook S)) : FfiCall → Except Fault (FfiReply × Option (OrderBook S))
  | .eviceEngineInit => .ok (.success, some (engine.getD OrderBook.new))
  | .eviceEngineDestroy => .ok (.success, engine)
  | .evicePlaceOrder orderJson =>
    match orderJson with
    | none => .ok (.null, engine)
    | some text =>
      match engine with
      | none => .ok (.null, none)
      | some book =>
        match parse text with
        | none => .ok (.null, some book)
        | some parsed =>
          let orderId := parsed.orderId.getD 0
          let userId := parsed.userId.getD 0
          let side := sideOfText (parsed.side.getD "bid")
          let price := parsed.price.getD 0
          let quantity := parsed.quantity.getD 0
          if price = 0 ∨ quantity = 0 then .ok (.null, some book)
          else do
            let (events, book) ← placeLimitOrder book orderId userId side price quantity
            let fills := eventsToFillsJson events
            return (.placed orderId fills fills.length, some book)
  | .eviceCancelOrder orderId userId =>
    match engine with
    | none => .ok (.null, none)
    | some book => do
      let (events, book) ← cancelOrder book orderId userId
      let cancelled := events.any EngineEvent.isCancellation
      return (.cancelled cancelled orderId
        (if cancelled then "Order cancelled" else "Order not found or unauthorized"), some book)
  | .eviceGetDepth levels =>
    match engine with
    | none => .ok (.null, none)
    | some book => do
      let (asks, bids) ← getDepth profile book levels.toNat
      return (.depth bids asks, some book)
  | .eviceGetStatus =>
    match engine with
    | none => .ok (.uninitialized "Engine not initialized", none)
    | some book => do
      let (asks, bids) ← getDepth profile book 1
      return (.status (bids.head?.map OrderLevel.price) (asks.head?.map OrderLevel.price),
        some book)

def ffiStep (profile : Profile) (parse : String → Option OrderJson)
    (engine : Option (OrderBook S)) (call : FfiCall) : Option (Option (OrderBook S)) :=
  (ffiCall profile parse engine call).toOption.map Prod.snd

/-! ## What comes in, as calls of the book -/

def LogEntry.op : LogEntry → Op
  | .place orderId userId side price quantity => .place orderId userId side price quantity
  | .cancel orderId userId => .cancel orderId userId

/-- The placements and cancels an arrival stands for. A refused request stands for
none. -/
def Arrival.ops : Arrival → List Op
  | .request _ req =>
    match req.command with
    | .ok cmd => cmd.entries.map LogEntry.op
    | .error _ => []
  | .tick _ _ => []

def OrderJson.ops (parsed : OrderJson) : List Op :=
  if parsed.price.getD 0 = 0 ∨ parsed.quantity.getD 0 = 0 then []
  else [.place (parsed.orderId.getD 0) (parsed.userId.getD 0)
    (sideOfText (parsed.side.getD "bid")) (parsed.price.getD 0) (parsed.quantity.getD 0)]

/-- The placements and cancels a call of the library stands for, once the engine
is there. -/
def FfiCall.ops (parse : String → Option OrderJson) : FfiCall → List Op
  | .evicePlaceOrder orderJson => ((orderJson.bind parse).map OrderJson.ops).getD []
  | .eviceCancelOrder orderId userId => [.cancel orderId userId]
  | _ => []

/-- Each of the calls fits when its turn comes. -/
def AllFit (book : OrderBook S) : List Op → Prop
  | [] => True
  | op :: ops => Fits book op ∧ ∀ book' ∈ nextBook book op, AllFit book' ops

instance AllFit.decidable : (book : OrderBook S) → (ops : List Op) → Decidable (AllFit book ops)
  | _, [] => inferInstanceAs (Decidable True)
  | book, op :: ops =>
    have : DecidablePred fun book' => AllFit book' ops := fun book' => AllFit.decidable book' ops
    inferInstanceAs (Decidable (Fits book op ∧ ∀ book' ∈ nextBook book op, AllFit book' ops))

/-- Every depth query returns, in either build, and every total it reports is the
exact one. -/
def DepthExact (book : OrderBook S) : Prop :=
  ∀ profile limit, ∃ asks bids, getDepth profile book limit = .ok (asks, bids) ∧
    (∀ level ∈ asks, level.quantity.toNat = book.flat.volume .ask level.price) ∧
    ∀ level ∈ bids, level.quantity.toNat = book.flat.volume .bid level.price

/-- A book in which every volume fits, reached by calls. -/
structure VolumesFit (book : OrderBook S) : Prop where
  reachable : Reachable book
  fits : ∀ side price, book.flat.volume side price < 2 ^ 64

namespace VolumesFit

variable {book book' : OrderBook S}

theorem new : VolumesFit (OrderBook.new : OrderBook S) := by
  refine ⟨.new, fun side price => ?_⟩
  cases side <;> exact Nat.two_pow_pos 64

theorem runOps (h : VolumesFit book) {ops : List Op} (hfit : AllFit book ops)
    (hrun : Engine.runOps book ops = .ok book') : VolumesFit book' := by
  induction ops generalizing book with
  | nil =>
    cases hrun
    exact h
  | cons op ops ih =>
    obtain ⟨hop, hops⟩ := hfit
    obtain ⟨next, hnext, hrest⟩ := bind_eq_ok.mp hrun
    obtain ⟨⟨events, after⟩, happly, rfl⟩ := map_eq_ok.mp hnext
    have hafter : VolumesFit after :=
      ⟨h.reachable.step happly, applyOp_volume h.reachable.inv h.fits hop happly⟩
    exact ih hafter (hops after (nextBook_eq_some.mpr ⟨events, happly⟩)) hrest

theorem depthExact (h : VolumesFit book) : DepthExact book := by
  intro profile limit
  have hask := depthOf_levels h.reachable.inv .ask (h.fits .ask) limit
  have hbid := depthOf_levels h.reachable.inv .bid (h.fits .bid) limit
  exact ⟨_, _, getDepth_exact profile h.reachable.inv h.fits limit, hask.total, hbid.total⟩

end VolumesFit

namespace OrderEntryLemmas

variable {book book' : OrderBook S}

theorem runOps_single {op : Op} {events : List EngineEvent}
    (h : applyOp book op = .ok (events, book')) : runOps book [op] = .ok book' := by
  unfold runOps
  rw [List.foldlM_cons, h]
  rfl

theorem replayEntry_eq (book : OrderBook S) (entry : LogEntry) :
    replayEntry book entry = Prod.snd <$> applyOp book entry.op := by
  cases entry with
  | place orderId userId side price quantity =>
    show (placeLimitOrder book orderId userId side price quantity >>= fun r => pure r.2) =
      Prod.snd <$> placeLimitOrder book orderId userId side price quantity
    cases placeLimitOrder book orderId userId side price quantity <;> rfl
  | cancel orderId userId =>
    show (cancelOrder book orderId userId >>= fun r => pure r.2) =
      Prod.snd <$> cancelOrder book orderId userId
    cases cancelOrder book orderId userId <;> rfl

theorem replay_runOps (entries : List LogEntry) :
    replay (S := S) entries = runOps OrderBook.new (entries.map LogEntry.op) := by
  unfold replay runOps
  rw [List.foldlM_map]
  congr 1
  funext book entry
  exact replayEntry_eq book entry

theorem execute_runOps {io : Nat → WriteOutcome} {entries : List LogEntry}
    {s s' : WalHandler × OrderBook S} (h : entries.foldlM (execute io) s = .ok s') :
    runOps s.2 (entries.map LogEntry.op) = .ok s'.2 := by
  induction entries generalizing s with
  | nil =>
    cases h
    rfl
  | cons entry entries ih =>
    rw [List.foldlM_cons] at h
    obtain ⟨t, hentry, hrest⟩ := bind_eq_ok.mp h
    obtain ⟨book, hbook, ht⟩ := bind_eq_ok.mp hentry
    cases ht
    rw [List.map_cons, runOps, List.foldlM_cons, ← replayEntry_eq, hbook]
    exact ih hrest

end OrderEntryLemmas

open OrderEntryLemmas

theorem serve_runOps {profile : Profile} {io : Nat → WriteOutcome} {p p' : MarketProcessor S}
    (hbook : Reachable p.book) {arrival : Arrival} (h : serve profile io p arrival = some p') :
    runOps p.book arrival.ops = .ok p'.book := by
  cases arrival with
  | tick now order =>
    cases h
    rfl
  | request now req =>
    obtain ⟨⟨reply, p''⟩, hserve, rfl⟩ := toOption_map_eq_some.mp h
    unfold serveRequest at hserve
    dsimp only [Arrival.ops]
    cases hcmd : req.command with
    | error status =>
      rw [hcmd] at hserve
      cases hserve
      rfl
    | ok cmd =>
      rw [hcmd] at hserve
      obtain ⟨⟨response, q⟩, hcall, hq⟩ := bind_eq_ok.mp hserve
      cases hq
      rcases command_executes profile io now hbook cmd with ⟨_, _, hcall', hentries⟩ | hfault
      · rw [hcall] at hcall'
        cases hcall'
        exact execute_runOps hentries
      · rw [hcall] at hfault
        cases hfault.2

theorem ffiStep_runOps {profile : Profile} {parse : String → Option OrderJson}
    {book : OrderBook S} {engine : Option (OrderBook S)} {call : FfiCall}
    (h : ffiStep profile parse (some book) call = some engine) :
    ∃ book', engine = some book' ∧ runOps book (call.ops parse) = .ok book' := by
  obtain ⟨⟨reply, engine⟩, hcall, rfl⟩ := toOption_map_eq_some.mp h
  cases call with
  | eviceEngineInit | eviceEngineDestroy =>
    cases hcall
    exact ⟨book, rfl, rfl⟩
  | evicePlaceOrder orderJson =>
    cases orderJson with
    | none =>
      cases hcall
      exact ⟨book, rfl, rfl⟩
    | some text =>
      unfold ffiCall at hcall
      unfold FfiCall.ops
      simp only [Option.bind_some]
      cases hparse : parse text with
      | none =>
        simp only [hparse] at hcall
        cases hcall
        exact ⟨book, rfl, rfl⟩
      | some parsed =>
        simp only [hparse] at hcall
        show ∃ book', _ ∧ runOps book parsed.ops = .ok book'
        unfold OrderJson.ops
        split at hcall
        · next hzero =>
          rw [if_pos hzero]
          cases hcall
          exact ⟨book, rfl, rfl⟩
        · next hzero =>
          rw [if_neg hzero]
          obtain ⟨⟨events, book'⟩, hplace, hreply⟩ := bind_eq_ok.mp hcall
          cases hreply
          exact ⟨book', rfl, runOps_single hplace⟩
  | eviceCancelOrder orderId userId =>
    obtain ⟨⟨events, book'⟩, hcancel, hreply⟩ := bind_eq_ok.mp hcall
    cases hreply
    exact ⟨book', rfl, runOps_single hcancel⟩
  | eviceGetDepth levels =>
    obtain ⟨depth, -, hreply⟩ := bind_eq_ok.mp hcall
    cases hreply
    exact ⟨book, rfl, rfl⟩
  | eviceGetStatus =>
    obtain ⟨depth, -, hreply⟩ := bind_eq_ok.mp hcall
    cases hreply
    exact ⟨book, rfl, rfl⟩

/-- Before the first `evice_engine_init` no call does anything. -/
theorem ffiStep_none {profile : Profile} {parse : String → Option OrderJson}
    {engine : Option (OrderBook S)} {call : FfiCall}
    (h : ffiStep profile parse none call = some engine) :
    engine = none ∨ engine = some OrderBook.new := by
  obtain ⟨⟨reply, engine⟩, hcall, rfl⟩ := toOption_map_eq_some.mp h
  cases call with
  | eviceEngineInit =>
    cases hcall
    exact .inr rfl
  | evicePlaceOrder orderJson =>
    cases orderJson <;>
    · cases hcall
      exact .inl rfl
  | _ =>
    cases hcall
    exact .inl rfl

/-! ## The depth of what is reached -/

/-- Over the trading service, started on any log, and over the C interface: in
every run in which each order that comes in, and each in the log, fits into 64 bits
together with what rests at its side and price when its turn comes, the depth of
the book reached is exact for every limit. -/
theorem entry_depth_exact :
    (∀ (profile : Profile) (io : Nat → WriteOutcome) (disk : Option (List UInt8))
      (p₀ p : MarketProcessor S), MarketProcessor.new disk = .ok p₀ →
      AllFit (S := S) OrderBook.new ((WalHandler.readAll disk).map LogEntry.op) →
      Run (serve profile io) (fun p arrival => AllFit p.book arrival.ops) p₀ p →
      DepthExact p.book) ∧
    ∀ (profile : Profile) (parse : String → Option OrderJson) (book : OrderBook S),
      Run (ffiStep profile parse)
        (fun engine call => ∀ book ∈ engine, AllFit book (call.ops parse)) none (some book) →
      DepthExact book := by
  constructor
  · intro profile io disk p₀ p hnew hlog hrun
    have hstart : VolumesFit p₀.book := by
      obtain ⟨book, hreplay, hp₀⟩ := bind_eq_ok.mp hnew
      cases hp₀
      rw [replay_runOps] at hreplay
      exact VolumesFit.new.runOps hlog hreplay
    have hend : VolumesFit p.book := by
      refine hrun.invariant (I := fun p => VolumesFit p.book) hstart ?_
      intro p p' arrival _ hfit hserve hbook
      exact hbook.runOps hfit (serve_runOps hbook.reachable hserve)
    exact hend.depthExact
  · intro profile parse book hrun
    have hend : ∀ book' ∈ some book, VolumesFit book' := by
      refine hrun.invariant (I := fun engine => ∀ book ∈ engine, VolumesFit book) ?_ ?_
      · exact fun _ h => nomatch h
      · intro engine engine' call _ hfit hstep hengine
        cases engine with
        | none =>
          rcases ffiStep_none hstep with rfl | rfl
          · exact fun _ h => nomatch h
          · rintro _ ⟨⟩
            exact .new
        | some book₀ =>
          obtain ⟨book', rfl, hops⟩ := ffiStep_runOps hstep
          rintro _ ⟨⟩
          exact (hengine book₀ rfl).runOps (hfit book₀ rfl) hops
    exact (hend book rfl).depthExact

def largestText : String :=
  "\x7b\"order_id\":1,\"user_id\":7,\"side\":\"ask\",\"price\":100," ++
    "\"quantity\":18446744073709551615\x7d"

/-- What `serde_json` reads in the text; it is the only one that is used. -/
def oneOrder (text : String) : Option OrderJson :=
  if text = largestText then
    some ⟨some 1, some 7, some "ask", some 100, some 18446744073709551615⟩
  else none

/-- One ask of the largest quantity, and a second order at another price. -/
theorem entry_depth_exact_largest :
    (∃ p : MarketProcessor StackSlab,
      p.book.flat.resting = [⟨1, 7, 100, 18446744073709551615, .ask, 0⟩, ⟨2, 8, 101, 5, .ask, 0⟩] ∧
      DepthExact p.book) ∧
    ∃ book : OrderBook StackSlab,
      book.flat.resting = [⟨1, 7, 100, 18446744073709551615, .ask, 0⟩] ∧ DepthExact book := by
  obtain ⟨p, hserve, hp⟩ : ∃ p : MarketProcessor StackSlab,
      Run (serve .checked fun _ => .ok) (fun p arrival => AllFit p.book arrival.ops)
        ⟨OrderBook.new, WalHandler.new none, [], [], []⟩ p ∧
      p.book.flat.resting =
        [⟨1, 7, 100, 18446744073709551615, .ask, 0⟩, ⟨2, 8, 101, 5, .ask, 0⟩] :=
    exists_run [.request 0 (.placeLimitOrder ⟨7, 1, 2, 100, 18446744073709551615⟩),
      .request 1 (.executeSolverBundle [⟨8, 2, 2, 101, 5⟩]), .request 2 (.getOrderBookDepth 0)]
      (by decide +kernel)
  obtain ⟨engine, hffi, hengine⟩ : ∃ engine : Option (OrderBook StackSlab),
      Run (ffiStep .checked oneOrder)
        (fun engine call => ∀ book ∈ engine, AllFit book (call.ops oneOrder)) none engine ∧
      engine.map (fun book => book.flat.resting) =
        some [⟨1, 7, 100, 18446744073709551615, .ask, 0⟩] :=
    exists_run [.eviceEngineInit, .evicePlaceOrder (some largestText)] (by decide +kernel)
  obtain ⟨book, rfl, hbook⟩ := Option.map_eq_some_iff.mp hengine
  exact ⟨⟨p, hp, entry_depth_exact.1 .checked (fun _ => .ok) none _ p rfl trivial hserve⟩,
    book, hbook, entry_depth_exact.2 .checked oneOrder book hffi⟩

/-- Two asks of the largest quantity at one price, over either entry. A build with
overflow checks panics on every depth query, one without reports 2^64 - 2 where
2^65 - 2 rest. -/
theorem entry_depth_overflows :
    (∃ p : MarketProcessor StackSlab,
      Run (serve .checked fun _ => .ok) (fun _ _ => True)
        ⟨OrderBook.new, WalHandler.new none, [], [], []⟩ p ∧
      p.book.flat.volume .ask 100 = 36893488147419103230 ∧
      getDepth .checked p.book 1 = .error .overflow ∧
      getDepth .wrapping p.book 1 = .ok ([⟨100, 18446744073709551614⟩], [])) ∧
    ∃ book : OrderBook StackSlab,
      Run (ffiStep .checked oneOrder) (fun _ _ => True) none (some book) ∧
      book.flat.volume .ask 100 = 36893488147419103230 ∧
      getDepth .checked book 1 = .error .overflow ∧
      getDepth .wrapping book 1 = .ok ([⟨100, 18446744073709551614⟩], []) := by
  constructor
  · exact exists_run [.request 0 (.placeLimitOrder ⟨7, 1, 2, 100, 18446744073709551615⟩),
      .request 1 (.placeLimitOrder ⟨8, 2, 2, 100, 18446744073709551615⟩)] (by decide +kernel)
  · obtain ⟨engine, hrun, book, hengine, h⟩ : ∃ engine : Option (OrderBook StackSlab),
        Run (ffiStep .checked oneOrder) (fun _ _ => True) none engine ∧
        ∃ book ∈ engine, book.flat.volume .ask 100 = 36893488147419103230 ∧
          getDepth .checked book 1 = .error .overflow ∧
          getDepth .wrapping book 1 = .ok ([⟨100, 18446744073709551614⟩], []) :=
      exists_run [.eviceEngineInit, .evicePlaceOrder (some largestText),
        .evicePlaceOrder (some largestText)] (by decide +kernel)
    cases hengine
    exact ⟨book, hrun, h⟩

end EviceChain.Engine
