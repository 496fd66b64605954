import EviceChain.Engine.Matching
import EviceChain.Engine.Wal

/-!
# The market processor (`zkapp/engine/src/processor.rs`)

One actor owns the book, the log and the open auctions. It takes commands from
a channel and resolves auctions on a timer. Each order and each cancel is
logged before it is executed. An error of the log is reported and otherwise
ignored. Starting up replays the log into an empty book.

`HashMap` iteration visits the open auctions in an order of its own, so each
tick is given one. Sending on a channel is appending to the list of what was
sent. An instant is a number of nanoseconds.

Results:
1. `run_executes`: a run executes the entries its commands stand for, whether
   they are written or not;
2. `run_faithful`: if every write succeeds, a run appends to the log the
   entries its commands stand for, and the book is the replay of them;
3. `restart_rebuilds_book`: a processor started on the log of a run has the
   book of the run.
-/

namespace EviceChain.Engine

open Foundation

/-! ## Commands -/

structure BundleRequest where
  userId : UserId
  orderId : OrderId
  side : Side
  price : Price
  quantity : Quantity
deriving DecidableEq, Repr

inductive Command
  | submitBid (solverId intentId : String) (proposedOutputAmount : UInt64)
  | placeOrder (userId : UserId) (orderId : OrderId) (side : Side) (price : Price)
      (quantity : Quantity)
  | executeBundle (orders : List BundleRequest)
  | cancelOrder (userId : UserId) (orderId : OrderId)
  | getDepth (limit : Nat)
deriving DecidableEq, Repr

/-- What a command sends to its responder. `SubmitBid` sends nothing. -/
inductive Response
  | none
  | events (events : List EngineEvent)
  | depth (asks bids : List OrderLevel)
deriving DecidableEq, Repr

/-- The bids of an auction, by amount: of two bids of one amount the later
solver stays. -/
structure Auction where
  intentId : String
  bids : SortedMap UInt64 String
  endTime : Nat

/-- The order in which a hash map hands out its entries. -/
structure IterOrder where
  visit : List (String × Auction) → List (String × Auction)
  perm : ∀ entries, (visit entries).Perm entries

structure MarketProcessor (S : Type → Type) where
  book : OrderBook S
  wal : WalHandler
  activeAuctions : List (String × Auction)
  outboundEvents : List EngineEvent
  eventBroadcaster : List EngineEvent

variable {S : Type → Type} [SlabLike S]

/-! ## Starting up -/

/-- The recovery phase of `MarketProcessor::new`. -/
def replayEntry (book : OrderBook S) : LogEntry → Except Fault (OrderBook S)
  | .place orderId userId side price quantity => do
    let (_, book) ← placeLimitOrder book orderId userId side price quantity
    return book
  | .cancel orderId userId => do
    let (_, book) ← cancelOrder book orderId userId
    return book

def replay (entries : List LogEntry) : Except Fault (OrderBook S) :=
  entries.foldlM replayEntry OrderBook.new

def MarketProcessor.new (disk : Option (List UInt8)) : Except Fault (MarketProcessor S) := do
  let book ← replay (WalHandler.readAll disk)
  return ⟨book, WalHandler.new disk, [], [], []⟩

/-! ## Handling commands -/

/-- How long an auction is open, in nanoseconds. -/
def auctionDuration : Nat := 500000000

/-- The entry is replaced where it stands. A new entry may go anywhere: the
order of the list is read through an `IterOrder` only. -/
def submitBid (auctions : List (String × Auction)) (now : Nat) (solverId intentId : String)
    (proposedOutputAmount : UInt64) : List (String × Auction) :=
  if auctions.any (·.1 = intentId) then
    auctions.map fun entry =>
      if entry.1 = intentId then
        (entry.1, { entry.2 with bids := entry.2.bids.insert proposedOutputAmount solverId })
      else entry
  else
    (intentId, ⟨intentId, SortedMap.empty.insert proposedOutputAmount solverId,
      now + auctionDuration⟩) :: auctions

/-- The state of the loop over the orders of a bundle. -/
structure BundleState (S : Type → Type) where
  book : OrderBook S
  wal : WalHandler
  events : List EngineEvent

def executeRequest (io : Nat → WriteOutcome) (s : BundleState S) (req : BundleRequest) :
    Except Fault (BundleState S) := do
  let logEntry := LogEntry.place req.orderId req.userId req.side req.price req.quantity
  let (_, wal) := s.wal.writeEntry io logEntry
  let (events, book) ←
    placeLimitOrder s.book req.orderId req.userId req.side req.price req.quantity
  return ⟨book, wal, s.events ++ events⟩

def handleCommand (profile : Profile) (io : Nat → WriteOutcome) (now : Nat)
    (p : MarketProcessor S) : Command → Except Fault (Response × MarketProcessor S)
  | .submitBid solverId intentId amount =>
    return (.none,
      { p with activeAuctions := submitBid p.activeAuctions now solverId intentId amount })
  | .placeOrder userId orderId side price quantity => do
    let logEntry := LogEntry.place orderId userId side price quantity
    -- a failed write is reported and the order executed all the same
    let (_, wal) := p.wal.writeEntry io logEntry
    let (events, book) ← placeLimitOrder p.book orderId userId side price quantity
    return (.events events, { p with book, wal, eventBroadcaster := p.eventBroadcaster ++ events })
  | .executeBundle orders => do
    let s ← orders.foldlM (executeRequest io) ⟨p.book, p.wal, []⟩
    return (.events s.events,
      { p with
        book := s.book, wal := s.wal, eventBroadcaster := p.eventBroadcaster ++ s.events })
  | .cancelOrder userId orderId => do
    let logEntry := LogEntry.cancel orderId userId
    let (_, wal) := p.wal.writeEntry io logEntry
    let (events, book) ← cancelOrder p.book orderId userId
    return (.events events, { p with book, wal, eventBroadcaster := p.eventBroadcaster ++ events })
  | .getDepth limit => do
    let (asks, bids) ← getDepth profile p.book limit
    return (.depth asks bids, p)

/-! ## Resolving auctions -/

/-- The event of a completed auction: the largest amount wins. -/
def settle (auction : Auction) : Option EngineEvent :=
  auction.bids.last?.map fun (winningAmount, winningSolver) =>
    .intentResolved auction.intentId winningSolver winningAmount

def resolveAuctions (now : Nat) (order : IterOrder) (p : MarketProcessor S) :
    MarketProcessor S :=
  let auctions := order.visit p.activeAuctions
  let completed := (auctions.filter fun entry => entry.2.endTime ≤ now).map Prod.snd
  { p with
    activeAuctions := auctions.filter fun entry => !(entry.2.endTime ≤ now)
    outboundEvents := p.outboundEvents ++ completed.filterMap settle }

/-! ## Runs -/

/-- What `run` selects next: a command or the timer. -/
inductive Input
  | command (now : Nat) (cmd : Command)
  | tick (now : Nat) (order : IterOrder)

def MarketProcessor.step (profile : Profile) (io : Nat → WriteOutcome) (p : MarketProcessor S) :
    Input → Except Fault (MarketProcessor S)
  | .command now cmd => do
    let (_, p) ← handleCommand profile io now p cmd
    return p
  | .tick now order => return resolveAuctions now order p

def MarketProcessor.run (profile : Profile) (io : Nat → WriteOutcome) (p : MarketProcessor S)
    (inputs : List Input) : Except Fault (MarketProcessor S) :=
  inputs.foldlM (MarketProcessor.step profile io) p

/-- The log entries a command stands for. -/
def Command.entries : Command → List LogEntry
  | .submitBid .. => []
  | .placeOrder userId orderId side price quantity => [.place orderId userId side price quantity]
  | .executeBundle orders =>
    orders.map fun req => .place req.orderId req.userId req.side req.price req.quantity
  | .cancelOrder userId orderId => [.cancel orderId userId]
  | .getDepth _ => []

def Input.entries : Input → List LogEntry
  | .command _ cmd => cmd.entries
  | .tick .. => []

/-- The log entries that the commands of a run stand for. -/
def logged (inputs : List Input) : List LogEntry := inputs.flatMap Input.entries

/-! ## Commands as sequences of entries -/

/-- Logging an entry and executing it, in whichever command this happens. -/
def execute (io : Nat → WriteOutcome) (s : WalHandler × OrderBook S) (entry : LogEntry) :
    Except Fault (WalHandler × OrderBook S) := do
  let book ← replayEntry s.2 entry
  return ((s.1.writeEntry io entry).2, book)

/-! ## The log and the book stay in step -/

/-- The log holds `disk` followed by the entries `es`, nothing is left in its
buffer, and the book is what replaying the readable part of `disk` and then
`es` leads to. -/
structure Logged (disk : List UInt8) (es : List LogEntry) (wal : WalHandler)
    (book : OrderBook S) : Prop where
  file : wal.file = disk ++ entryCodec.encodeAll es
  flushed : wal.buffer = []
  replayed : replay (entryCodec.readAll disk ++ es) = .ok book

namespace ProcessorLemmas

omit [SlabLike S] in
theorem writeEntry_ok {io : Nat → WriteOutcome} {wal : WalHandler} (hio : io wal.calls = .ok)
    (hbuffer : wal.buffer = []) (entry : LogEntry) :
    (wal.writeEntry io entry).2 = ⟨wal.file ++ encodeEntry entry, [], wal.calls + 1⟩ := by
  simp [WalHandler.writeEntry, hio, hbuffer]

/-- A computation that can fail with an overflow only, and only in a build with
overflow checks. -/
def OnlyOverflows {α : Type} (profile : Profile) (x : Except Fault α) : Prop :=
  ∀ e, x = .error e → profile = .checked ∧ e = .overflow

theorem OnlyOverflows.bind {α β : Type} {profile : Profile} {x : Except Fault α}
    {f : α → Except Fault β} (hx : OnlyOverflows profile x)
    (hf : ∀ a, OnlyOverflows profile (f a)) : OnlyOverflows profile (x >>= f) := by
  intro e h
  cases x with
  | error e' =>
    cases h
    exact hx _ rfl
  | ok a => exact hf a e h

theorem OnlyOverflows.ok {α : Type} {profile : Profile} (a : α) :
    OnlyOverflows profile (.ok a) := by
  intro e h
  cases h

theorem addU64_onlyOverflows (profile : Profile) (a b : UInt64) :
    OnlyOverflows profile (addU64 profile a b) := by
  unfold addU64
  split
  · exact .ok _
  · cases profile with
    | checked =>
      intro e h
      cases h
      exact ⟨rfl, rfl⟩
    | wrapping => exact .ok _

theorem sumU64_onlyOverflows (profile : Profile) (xs : List UInt64) :
    OnlyOverflows profile (sumU64 profile xs) := by
  suffices ∀ sum, OnlyOverflows profile (xs.foldlM (addU64 profile) sum) from this 0
  induction xs with
  | nil => exact fun sum => .ok sum
  | cons x xs ih => exact fun sum => (addU64_onlyOverflows profile sum x).bind ih

theorem mapM_onlyOverflows {α β : Type} {profile : Profile} {f : α → Except Fault β}
    (hf : ∀ a, OnlyOverflows profile (f a)) (as : List α) :
    OnlyOverflows profile (as.mapM f) := by
  induction as with
  | nil => exact .ok []
  | cons a as ih =>
    rw [List.mapM_cons]
    exact (hf a).bind fun b => ih.bind fun bs => .ok (b :: bs)

theorem getDepth_onlyOverflows (profile : Profile) (book : OrderBook S) (limit : Nat) :
    OnlyOverflows profile (getDepth profile book limit) := by
  have hlevel : ∀ level, OnlyOverflows profile (depthLevel profile book.orderStore level) :=
    fun level => (sumU64_onlyOverflows profile _).bind fun total => .ok _
  exact (mapM_onlyOverflows hlevel _).bind fun asks =>
    (mapM_onlyOverflows hlevel _).bind fun bids => .ok (asks, bids)

theorem replayEntry_reachable {book : OrderBook S} (h : Reachable book) (entry : LogEntry) :
    ∃ book', replayEntry book entry = .ok book' ∧ Reachable book' := by
  cases entry with
  | place orderId userId side price quantity =>
    obtain ⟨events, book', happly, -⟩ :=
      applyOp_spec h.inv (.place orderId userId side price quantity)
    refine ⟨book', ?_, h.step happly⟩
    simp only [applyOp] at happly
    simp [replayEntry, happly, bind, Except.bind, pure, Except.pure]
  | cancel orderId userId =>
    obtain ⟨events, book', happly, -⟩ := applyOp_spec h.inv (.cancel orderId userId)
    refine ⟨book', ?_, h.step happly⟩
    simp only [applyOp] at happly
    simp [replayEntry, happly, bind, Except.bind, pure, Except.pure]

theorem replay_append (es : List LogEntry) (entry : LogEntry) :
    (replay (es ++ [entry]) : Except Fault (OrderBook S)) =
      replay es >>= fun book => replayEntry book entry := by
  simp [replay, List.foldlM_append]

/-- A replay never fails. -/
theorem replay_reachable (es : List LogEntry) :
    ∃ book : OrderBook S, replay es = .ok book ∧ Reachable book := by
  induction es using List.reverseRecOn with
  | nil => exact ⟨_, rfl, .new⟩
  | append_singleton es entry ih =>
    obtain ⟨book, hbook, hreach⟩ := ih
    obtain ⟨book', hentry, hreach'⟩ := replayEntry_reachable hreach entry
    exact ⟨book', by rw [replay_append, hbook]; exact hentry, hreach'⟩

variable {io : Nat → WriteOutcome} {s s' : WalHandler × OrderBook S}

theorem execute_reachable (io : Nat → WriteOutcome) (h : Reachable s.2) (entry : LogEntry) :
    ∃ s', execute io s entry = .ok s' ∧ Reachable s'.2 := by
  obtain ⟨book, hentry, hreach⟩ := replayEntry_reachable h entry
  refine ⟨((s.1.writeEntry io entry).2, book), ?_, hreach⟩
  rw [execute, hentry]
  rfl

/-- However the writes go, the entries of a list are all executed. -/
theorem executeAll_reachable (io : Nat → WriteOutcome) (h : Reachable s.2)
    (entries : List LogEntry) :
    ∃ s', entries.foldlM (execute io) s = .ok s' ∧ Reachable s'.2 := by
  have hstep : ∀ (_ : List LogEntry) (s : WalHandler × OrderBook S) entry, Reachable s.2 →
      (∃ s', execute io s entry = .ok s' ∧ Reachable s'.2) ∨
        ∃ e, execute io s entry = .error e ∧ False :=
    fun _ _ entry hreach => .inl (execute_reachable io hreach entry)
  obtain hrun | ⟨_, _, ⟨⟩⟩ := foldlM_run hstep h entries
  exact hrun

theorem place_of_execute {orderId : OrderId} {userId : UserId} {side : Side} {price : Price}
    {quantity : Quantity}
    (h : execute io s (.place orderId userId side price quantity) = .ok s') :
    s'.1 = (s.1.writeEntry io (.place orderId userId side price quantity)).2 ∧
      ∃ events, placeLimitOrder s.2 orderId userId side price quantity = .ok (events, s'.2) := by
  obtain ⟨book, hentry, heq⟩ := bind_eq_ok.mp h
  obtain ⟨⟨events, _⟩, hplace, heq'⟩ := bind_eq_ok.mp hentry
  cases heq
  cases heq'
  exact ⟨rfl, events, hplace⟩

theorem cancel_of_execute {orderId : OrderId} {userId : UserId}
    (h : execute io s (.cancel orderId userId) = .ok s') :
    s'.1 = (s.1.writeEntry io (.cancel orderId userId)).2 ∧
      ∃ events, cancelOrder s.2 orderId userId = .ok (events, s'.2) := by
  obtain ⟨book, hentry, heq⟩ := bind_eq_ok.mp h
  obtain ⟨⟨events, _⟩, hcancel, heq'⟩ := bind_eq_ok.mp hentry
  cases heq
  cases heq'
  exact ⟨rfl, events, hcancel⟩

/-- The loop over the orders of a bundle executes their entries. -/
theorem bundle_executes (orders : List BundleRequest) {wal : WalHandler} {book : OrderBook S}
    (events : List EngineEvent)
    (h : (Command.executeBundle orders).entries.foldlM (execute io) (wal, book) = .ok s') :
    ∃ events', orders.foldlM (executeRequest io) ⟨book, wal, events⟩ =
      .ok ⟨s'.2, s'.1, events'⟩ := by
  induction orders generalizing wal book events with
  | nil =>
    cases h
    exact ⟨events, rfl⟩
  | cons req orders ih =>
    rw [Command.entries, List.map_cons, List.foldlM_cons] at h
    obtain ⟨⟨wal', book'⟩, hreq, hrest⟩ := bind_eq_ok.mp h
    obtain ⟨rfl, new, hplace⟩ := place_of_execute hreq
    rw [List.foldlM_cons, executeRequest, hplace]
    exact ih (events ++ new) hrest

/-- Handling a command is executing its entries one after the other. Only reading the
depth can fail, in a build with overflow checks. -/
theorem command_executes (profile : Profile) (io : Nat → WriteOutcome) (now : Nat)
    {p : MarketProcessor S} (h : Reachable p.book) (cmd : Command) :
    (∃ response p', handleCommand profile io now p cmd = .ok (response, p') ∧
      cmd.entries.foldlM (execute io) (p.wal, p.book) = .ok (p'.wal, p'.book)) ∨
    profile = .checked ∧ handleCommand profile io now p cmd = .error .overflow := by
  obtain ⟨s', hs', -⟩ := executeAll_reachable (s := (p.wal, p.book)) io h cmd.entries
  cases cmd with
  | submitBid solverId intentId amount => exact .inl ⟨_, _, rfl, rfl⟩
  | placeOrder userId orderId side price quantity =>
    rw [Command.entries, List.foldlM_cons] at hs'
    obtain ⟨_, hentry, heq⟩ := bind_eq_ok.mp hs'
    cases heq
    obtain ⟨hwal, events, hplace⟩ := place_of_execute hentry
    refine .inl ⟨.events events, ⟨s'.2, s'.1, p.activeAuctions, p.outboundEvents,
      p.eventBroadcaster ++ events⟩, ?_, ?_⟩
    · rw [handleCommand, hplace, hwal]
      rfl
    · rw [Command.entries, List.foldlM_cons, hentry]
      rfl
  | executeBundle orders =>
    obtain ⟨events, hloop⟩ := bundle_executes orders [] hs'
    refine .inl ⟨.events events, ⟨s'.2, s'.1, p.activeAuctions, p.outboundEvents,
      p.eventBroadcaster ++ events⟩, ?_, hs'⟩
    rw [handleCommand, hloop]
    rfl
  | cancelOrder userId orderId =>
    rw [Command.entries, List.foldlM_cons] at hs'
    obtain ⟨_, hentry, heq⟩ := bind_eq_ok.mp hs'
    cases heq
    obtain ⟨hwal, events, hcancel⟩ := cancel_of_execute hentry
    refine .inl ⟨.events events, ⟨s'.2, s'.1, p.activeAuctions, p.outboundEvents,
      p.eventBroadcaster ++ events⟩, ?_, ?_⟩
    · rw [handleCommand, hcancel, hwal]
      rfl
    · rw [Command.entries, List.foldlM_cons, hentry]
      rfl
  | getDepth limit =>
    cases hdepth : getDepth profile p.book limit with
    | ok depth => exact .inl ⟨.depth depth.1 depth.2, p, by rw [handleCommand, hdepth]; rfl, rfl⟩
    | error e =>
      obtain ⟨hprofile, rfl⟩ := getDepth_onlyOverflows profile p.book limit e hdepth
      exact .inr ⟨hprofile, by rw [handleCommand, hdepth]; rfl⟩

theorem logged_snoc (inputs : List Input) (input : Input) :
    logged (inputs ++ [input]) = logged inputs ++ input.entries := by
  unfold logged
  rw [List.flatMap_append, List.flatMap_singleton]

end ProcessorLemmas

open ProcessorLemmas

/-- A run executes the entries that its commands stand for, however the writes go. -/
theorem run_executes (profile : Profile) (io : Nat → WriteOutcome) {p : MarketProcessor S}
    (h : Reachable p.book) (inputs : List Input) :
    (∃ p', p.run profile io inputs = .ok p' ∧
      (logged inputs).foldlM (execute io) (p.wal, p.book) = .ok (p'.wal, p'.book)) ∨
    profile = .checked ∧ p.run profile io inputs = .error .overflow := by
  have hstep : ∀ done (q : MarketProcessor S) input,
      (logged done).foldlM (execute io) (p.wal, p.book) = .ok (q.wal, q.book) →
      (∃ q', q.step profile io input = .ok q' ∧
        (logged (done ++ [input])).foldlM (execute io) (p.wal, p.book) = .ok (q'.wal, q'.book)) ∨
      ∃ e, q.step profile io input = .error e ∧ profile = .checked ∧ e = .overflow := by
    intro done q input hq
    rw [logged_snoc, List.foldlM_append, hq]
    cases input with
    | command now cmd =>
      have hreach : Reachable q.book := by
        obtain ⟨_, hall, hreach⟩ := executeAll_reachable (s := (p.wal, p.book)) io h (logged done)
        rw [hq] at hall
        cases hall
        exact hreach
      rcases command_executes profile io now hreach cmd with ⟨response, q', hcmd, hq'⟩ | hfault
      · exact .inl ⟨q', by rw [MarketProcessor.step, hcmd]; rfl, hq'⟩
      · exact .inr ⟨_, by rw [MarketProcessor.step, hfault.2]; rfl, hfault.1, rfl⟩
    | tick now order => exact .inl ⟨resolveAuctions now order q, rfl, rfl⟩
  obtain hrun | ⟨e, hrun, hprofile, rfl⟩ := foldlM_run hstep (s := p) rfl inputs
  · exact .inl hrun
  · exact .inr ⟨hprofile, hrun⟩

theorem Logged.reachable {disk : List UInt8} {es : List LogEntry} {wal : WalHandler}
    {book : OrderBook S} (h : Logged disk es wal book) : Reachable book := by
  obtain ⟨book', hbook, hreach⟩ := replay_reachable (S := S) (entryCodec.readAll disk ++ es)
  rw [h.replayed] at hbook
  cases hbook
  exact hreach

/-- A processor that has just started on a log. -/
theorem Logged.new (disk : Option (List UInt8)) :
    ∃ p : MarketProcessor S, MarketProcessor.new disk = .ok p ∧
      Logged (disk.getD []) [] p.wal p.book := by
  have hread : WalHandler.readAll disk = entryCodec.readAll (disk.getD []) := by
    cases disk <;> rfl
  obtain ⟨book, hbook, -⟩ := replay_reachable (S := S) (WalHandler.readAll disk)
  refine ⟨⟨book, WalHandler.new disk, [], [], []⟩, ?_, ?_, rfl, ?_⟩
  · rw [MarketProcessor.new, hbook]
    rfl
  · exact (List.append_nil _).symm
  · rw [List.append_nil, ← hread]
    exact hbook

theorem Logged.of_new {disk : Option (List UInt8)} {p : MarketProcessor S}
    (h : MarketProcessor.new disk = .ok p) : Logged (disk.getD []) [] p.wal p.book := by
  obtain ⟨_, hp, hlogged⟩ := Logged.new (S := S) disk
  rw [h] at hp
  cases hp
  exact hlogged

/-- A processor started on the log has the book, if the log was well formed at first. -/
theorem Logged.restart {disk : List UInt8} {es es' : List LogEntry} {wal : WalHandler}
    {book : OrderBook S} (h : Logged disk es' wal book) (hdisk : disk = entryCodec.encodeAll es) :
    ∃ q : MarketProcessor S, MarketProcessor.new (some wal.file) = .ok q ∧ q.book = book := by
  obtain ⟨q, hq, hrestart⟩ := Logged.new (S := S) (some wal.file)
  refine ⟨q, hq, ?_⟩
  -- both books are the replay of the entries of the log
  have hread : entryCodec.readAll wal.file = entryCodec.readAll disk ++ es' := by
    rw [h.file, hdisk, entryCodec.readAll_encodeAll, entryCodec.readAll_whole,
      entryCodec.readAll_whole]
  have hbook := hrestart.replayed
  rw [List.append_nil, Option.getD_some, hread, h.replayed] at hbook
  exact (Except.ok.inj hbook).symm

section Run

variable {io : Nat → WriteOutcome} (hio : ∀ n, io n = .ok) {disk : List UInt8}
  {es : List LogEntry}
include hio

theorem Logged.execute {s s' : WalHandler × OrderBook S} (h : Logged disk es s.1 s.2)
    {entry : LogEntry} (hentry : execute io s entry = .ok s') :
    Logged disk (es ++ [entry]) s'.1 s'.2 := by
  obtain ⟨book', hbook, heq⟩ := bind_eq_ok.mp hentry
  cases heq
  rw [writeEntry_ok (hio _) h.flushed]
  refine ⟨?_, rfl, ?_⟩
  · simp [h.file, Codec.encodeAll, entryCodec]
  · rw [← List.append_assoc, replay_append, h.replayed]
    exact hbook

theorem Logged.executeAll {s s' : WalHandler × OrderBook S} (h : Logged disk es s.1 s.2)
    {entries : List LogEntry} (hall : entries.foldlM (EviceChain.Engine.execute io) s = .ok s') :
    Logged disk (es ++ entries) s'.1 s'.2 := by
  induction entries generalizing es s with
  | nil =>
    cases hall
    rwa [List.append_nil]
  | cons entry entries ih =>
    rw [List.foldlM_cons] at hall
    obtain ⟨mid, hentry, hrest⟩ := bind_eq_ok.mp hall
    have hmid := ih (h.execute hio hentry) hrest
    rwa [List.append_assoc, List.singleton_append] at hmid

/-- A run of which every write succeeds appends the entries of its commands to
the log, and its book is the replay of them. -/
theorem run_faithful (profile : Profile) {p : MarketProcessor S}
    (h : Logged disk es p.wal p.book) (inputs : List Input) :
    (∃ p', p.run profile io inputs = .ok p' ∧
      Logged disk (es ++ logged inputs) p'.wal p'.book) ∨
    profile = .checked ∧ p.run profile io inputs = .error .overflow := by
  rcases run_executes profile io h.reachable inputs with ⟨p', hrun, hall⟩ | hfault
  · exact .inl ⟨p', hrun, h.executeAll hio hall⟩
  · exact .inr hfault

theorem Logged.run {profile : Profile} {p p' : MarketProcessor S}
    (h : Logged disk es p.wal p.book) {inputs : List Input}
    (hrun : p.run profile io inputs = .ok p') :
    Logged disk (es ++ logged inputs) p'.wal p'.book := by
  obtain ⟨_, hrun', hlogged⟩ | ⟨-, hfault⟩ := run_faithful hio profile h inputs
  · rw [hrun] at hrun'
    cases hrun'
    exact hlogged
  · rw [hrun] at hfault
    cases hfault

/-- Start on a well-formed log (or none), handle any commands and ticks with every
write succeeding, and start again on the log that results: the book is the
live one. The only way for the run not to get there is an overflow check
hitting while the depth is summed. -/
theorem restart_rebuilds_book (profile : Profile) {disk : Option (List UInt8)}
    (hdisk : disk.getD [] = entryCodec.encodeAll es) (inputs : List Input) :
    ∃ p : MarketProcessor S, MarketProcessor.new disk = .ok p ∧
      ((∃ p', p.run profile io inputs = .ok p' ∧
        ∃ q, MarketProcessor.new (some p'.wal.file) = .ok q ∧ q.book = p'.book) ∨
      profile = .checked ∧ p.run profile io inputs = .error .overflow) := by
  obtain ⟨p, hp, hlogged⟩ := Logged.new (S := S) disk
  refine ⟨p, hp, ?_⟩
  obtain ⟨p', hrun, hlogged'⟩ | hfault := run_faithful hio profile hlogged inputs
  · exact .inl ⟨p', hrun, hlogged'.restart hdisk⟩
  · exact .inr hfault

end Run

/-- A fresh start, a bundle that trades with itself, a cancel and a depth query
in a build without overflow checks. -/
theorem restart_rebuilds_bundle :
    ∃ p : MarketProcessor StackSlab, MarketProcessor.new none = .ok p ∧
      ∃ p', p.run .wrapping (fun _ => .ok)
          [.command 0 (.executeBundle [⟨7, 1, .ask, 100, 10⟩, ⟨8, 2, .bid, 100, 4⟩]),
            .command 1 (.cancelOrder 7 5), .command 2 (.getDepth 3)] = .ok p' ∧
        ∃ q, MarketProcessor.new (some p'.wal.file) = .ok q ∧ q.book = p'.book := by
  have hdisk : (none : Option (List UInt8)).getD [] = entryCodec.encodeAll [] := rfl
  obtain ⟨p, hp, hrun | ⟨hprofile, -⟩⟩ := restart_rebuilds_book (S := StackSlab) (fun _ => rfl)
    .wrapping hdisk
    [.command 0 (.executeBundle [⟨7, 1, .ask, 100, 10⟩, ⟨8, 2, .bid, 100, 4⟩]),
      .command 1 (.cancelOrder 7 5), .command 2 (.getDepth 3)]
  · exact ⟨p, hp, hrun⟩
  · cases hprofile

end EviceChain.Engine
