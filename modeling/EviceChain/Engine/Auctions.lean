import EviceChain.Engine.Processor

/-!
# Auctions over a run

The processor holds the open auctions in one map and closes them on a timer. For
one intent this is a small machine of its own, a `Desk`: the first bid opens a
lot, further bids join it, and the first tick at or after the lot's end closes
it with its winner. `Tracks` says that the processor is the family of these
desks, whichever order the map is visited in, and `run_tracks` that it stays so
in every run.

Results:
1. `run_tracks`: the processor and the desks agree in every run;
2. `tick_outcome`: a tick resolves the intents whose auction has ended, each once
   and for the latest of the largest bids, and leaves the other auctions alone.
-/

namespace EviceChain.Engine

open Foundation

/-! ## The desk of one intent -/

/-- An amount and the solver who bid it. -/
abbrev Bid := UInt64 × String

/-- An open auction: the bids it was sent, of which there is a first. -/
structure Lot where
  opened : Nat
  first : Bid
  raises : List Bid

namespace Lot

def bids (lot : Lot) : List Bid := lot.first :: lot.raises

def closes (lot : Lot) : Nat := lot.opened + auctionDuration

def raise (lot : Lot) (bid : Bid) : Lot := { lot with raises := lot.raises ++ [bid] }

/-- A bid takes the lead from a smaller one and from an equal one. -/
def better (best bid : Bid) : Bid := if best.1 ≤ bid.1 then bid else best

def winner (lot : Lot) : Bid := lot.raises.foldl better lot.first

/-- The auction that a processor which was sent these bids holds. -/
def auction (intent : String) (lot : Lot) : Auction where
  intentId := intent
  bids := lot.raises.foldl (fun bids bid => bids.insert bid.1 bid.2)
    (SortedMap.empty.insert lot.first.1 lot.first.2)
  endTime := lot.closes

end Lot

/-- What there is to know about one intent: the open lot and the winners so far. -/
structure Desk where
  lot : Option Lot
  winners : List Bid

namespace Desk

def new : Desk := ⟨none, []⟩

def bid (desk : Desk) (now : Nat) (bid : Bid) : Desk :=
  { desk with lot := some (desk.lot.elim ⟨now, bid, []⟩ (·.raise bid)) }

def close (desk : Desk) (now : Nat) : Desk :=
  match desk.lot with
  | some lot => if lot.closes ≤ now then ⟨none, desk.winners ++ [lot.winner]⟩ else desk
  | none => desk

def step (intent : String) (desk : Desk) : Input → Desk
  | .command now (.submitBid solverId intentId amount) =>
    if intentId = intent then desk.bid now (amount, solverId) else desk
  | .command .. => desk
  | .tick now _ => desk.close now

end Desk

def deskAfter (intent : String) (inputs : List Input) : Desk :=
  inputs.foldl (Desk.step intent) Desk.new

/-- `bid` wins among `bids`: none is larger, and those after it are smaller. -/
def Leads (bids : List Bid) (bid : Bid) : Prop :=
  ∃ earlier later, bids = earlier ++ bid :: later ∧
    (∀ b ∈ earlier, b.1 ≤ bid.1) ∧ ∀ b ∈ later, b.1 < bid.1

/-! ## The processor as a family of desks -/

def EngineEvent.resolves (intent : String) : EngineEvent → Bool
  | .intentResolved intentId _ _ => intentId = intent
  | _ => false

/-- The event that announces a winner. -/
def resolution (intent : String) (bid : Bid) : EngineEvent := .intentResolved intent bid.2 bid.1

structure Tracks {S : Type → Type} (desks : String → Desk) (p : MarketProcessor S) : Prop where
  keys : (p.activeAuctions.map Prod.fst).Nodup
  listed : ∀ intent auction, (intent, auction) ∈ p.activeAuctions ↔
    ∃ lot, (desks intent).lot = some lot ∧ auction = lot.auction intent
  resolved : ∀ intent, p.outboundEvents.filter (EngineEvent.resolves intent) =
    (desks intent).winners.map (resolution intent)

namespace AuctionLemmas

/-! ### Lots -/

theorem leads_winner (lot : Lot) : Leads lot.bids lot.winner := by
  obtain ⟨opened, first, raises⟩ := lot
  show Leads (first :: raises) (raises.foldl Lot.better first)
  induction raises using List.reverseRecOn with
  | nil => exact ⟨[], [], rfl, by simp, by simp⟩
  | append_singleton raises bid ih =>
    rw [List.foldl_append, List.foldl_cons, List.foldl_nil, Lot.better]
    obtain ⟨earlier, later, hbids, hearlier, hlater⟩ := ih
    split
    · next hle =>
      refine ⟨first :: raises, [], rfl, fun b hb => ?_, by simp⟩
      rw [hbids, List.mem_append, List.mem_cons] at hb
      rcases hb with hb | rfl | hb
      · exact (hearlier b hb).trans hle
      · exact hle
      · exact (hlater b hb).le.trans hle
    · next hlt =>
      refine ⟨earlier, later ++ [bid], ?_, hearlier, fun b hb => ?_⟩
      · rw [← List.cons_append, hbids, List.append_assoc, List.cons_append]
      · rcases List.mem_append.mp hb with hb | hb
        · exact hlater b hb
        · rw [List.mem_singleton.mp hb]
          exact not_le.mp hlt

theorem auction_raise (intent : String) (lot : Lot) (bid : Bid) :
    (lot.raise bid).auction intent =
      { lot.auction intent with bids := (lot.auction intent).bids.insert bid.1 bid.2 } := by
  unfold Lot.auction Lot.raise
  simp only [List.foldl_append, List.foldl_cons, List.foldl_nil]
  rfl

theorem winner_raise (lot : Lot) (bid : Bid) :
    (lot.raise bid).winner = Lot.better lot.winner bid := by
  unfold Lot.winner Lot.raise
  rw [List.foldl_append, List.foldl_cons, List.foldl_nil]

/-- The map hands out the winner last. -/
theorem last?_auction (intent : String) (lot : Lot) :
    (lot.auction intent).bids.last? = some lot.winner := by
  obtain ⟨opened, first, raises⟩ := lot
  induction raises using List.reverseRecOn with
  | nil => rfl
  | append_singleton raises bid ih =>
    have hbids := congrArg Auction.bids (auction_raise intent ⟨opened, first, raises⟩ bid)
    have hwinner := winner_raise ⟨opened, first, raises⟩ bid
    rw [Lot.raise] at hbids hwinner
    rw [hbids, hwinner, SortedMap.last?_insert, ih, Option.all_some, Lot.better]
    simp only [decide_eq_true_eq]
    split <;> rfl

theorem settle_auction (intent : String) (lot : Lot) :
    settle (lot.auction intent) = some (resolution intent lot.winner) := by
  rw [settle, last?_auction]
  rfl

theorem resolves_resolution {intent intent' : String} {bid : Bid} :
    (resolution intent' bid).resolves intent = true ↔ intent' = intent := by
  show decide (intent' = intent) = true ↔ _
  exact decide_eq_true_iff

/-! ### Desks -/

theorem deskAfter_append (intent : String) (before after : List Input) :
    deskAfter intent (before ++ after) =
      after.foldl (Desk.step intent) (deskAfter intent before) :=
  List.foldl_append

theorem deskAfter_snoc (intent : String) (inputs : List Input) (input : Input) :
    deskAfter intent (inputs ++ [input]) = (deskAfter intent inputs).step intent input :=
  deskAfter_append intent inputs [input]

/-- An input is a bid for the intent, a tick, or nothing to it. -/
theorem step_cases (intent : String) (input : Input) :
    (∃ now solverId amount, input = .command now (.submitBid solverId intent amount) ∧
      ∀ desk : Desk, desk.step intent input = desk.bid now (amount, solverId)) ∨
    (∃ now order, input = .tick now order) ∨
    ∀ desk : Desk, desk.step intent input = desk := by
  cases input with
  | tick now order => exact .inr (.inl ⟨now, order, rfl⟩)
  | command now cmd =>
    cases cmd with
    | submitBid solverId intentId amount =>
      rcases eq_or_ne intentId intent with rfl | hne
      · exact .inl ⟨now, solverId, amount, rfl, fun desk => if_pos rfl⟩
      · exact .inr (.inr fun desk => if_neg hne)
    | _ => exact .inr (.inr fun desk => rfl)

theorem lot_close (desk : Desk) (now : Nat) :
    (desk.close now).lot = desk.lot.filter fun lot => now < lot.closes := by
  unfold Desk.close
  split
  · next lot hlot =>
    rw [hlot, Option.filter_some]
    split
    · next hend => exact (if_neg (by simpa using hend)).symm
    · next hopen => rw [hlot, if_pos (decide_eq_true (not_le.mp hopen))]
  · next hlot => rw [hlot, Option.filter_none]

theorem winners_close (desk : Desk) (now : Nat) :
    (desk.close now).winners = desk.winners ++
      ((desk.lot.filter fun lot => lot.closes ≤ now).map Lot.winner).toList := by
  unfold Desk.close
  split
  · next lot hlot =>
    rw [hlot, Option.filter_some]
    split
    · next hend => rw [if_pos (decide_eq_true hend), Option.map_some, Option.toList_some]
    · next hopen =>
      rw [if_neg (mt of_decide_eq_true hopen), Option.map_none, Option.toList_none,
        List.append_nil]
  · next hlot => rw [hlot, Option.filter_none, Option.map_none, Option.toList_none, List.append_nil]

theorem winners_close_ended {desk : Desk} {lot : Lot} {now : Nat} (hlot : desk.lot = some lot)
    (hend : lot.closes ≤ now) : (desk.close now).winners = desk.winners ++ [lot.winner] := by
  rw [winners_close, hlot, Option.filter_some, if_pos (decide_eq_true hend)]
  rfl

/-! ### Bids and ticks -/

variable {S : Type → Type} {desks : String → Desk} {p p' : MarketProcessor S}

theorem not_open (h : Tracks desks p) {intent : String} (hlot : (desks intent).lot = none)
    (auction : Auction) : (intent, auction) ∉ p.activeAuctions := by
  intro hmem
  obtain ⟨lot, hsome, -⟩ := (h.listed intent auction).mp hmem
  rw [hlot] at hsome
  cases hsome

/-- A bid for an intent whose lot is open joins it. -/
theorem submitBid_raise (h : Tracks desks p) (now : Nat) (bid : Bid) {intent : String} {lot : Lot}
    (hlot : (desks intent).lot = some lot) :
    submitBid p.activeAuctions now bid.2 intent bid.1 = p.activeAuctions.map fun entry =>
      if entry.1 = intent then
        (entry.1, { entry.2 with bids := entry.2.bids.insert bid.1 bid.2 })
      else entry :=
  if_pos (List.any_eq_true.mpr
    ⟨_, (h.listed intent _).mpr ⟨lot, hlot, rfl⟩, decide_eq_true rfl⟩)

/-- A bid for an intent with no lot opens one. -/
theorem submitBid_open (h : Tracks desks p) (now : Nat) (bid : Bid) {intent : String}
    (hlot : (desks intent).lot = none) :
    submitBid p.activeAuctions now bid.2 intent bid.1 =
      (intent, (Lot.mk now bid []).auction intent) :: p.activeAuctions := by
  refine if_neg fun hany => ?_
  obtain ⟨⟨intent', auction⟩, hmem, hkey⟩ := List.any_eq_true.mp hany
  obtain rfl : intent' = intent := of_decide_eq_true hkey
  exact not_open h hlot auction hmem

theorem keys_submitBid (h : Tracks desks p) (now : Nat) (bid : Bid) (intent : String) :
    ((submitBid p.activeAuctions now bid.2 intent bid.1).map Prod.fst).Nodup := by
  cases hlot : (desks intent).lot with
  | some lot =>
    rw [submitBid_raise h now bid hlot, List.map_map]
    have hkey : ∀ entry ∈ p.activeAuctions, (Prod.fst ∘ fun entry : String × Auction =>
        if entry.1 = intent then
          (entry.1, { entry.2 with bids := entry.2.bids.insert bid.1 bid.2 })
        else entry) entry = entry.1 := by
      intro entry _
      dsimp only [Function.comp_apply]
      split <;> rfl
    rw [List.map_congr_left hkey]
    exact h.keys
  | none =>
    rw [submitBid_open h now bid hlot]
    refine List.nodup_cons.mpr ⟨fun hmem => ?_, h.keys⟩
    obtain ⟨⟨intent', auction⟩, hentry, hkey⟩ := List.mem_map.mp hmem
    obtain rfl : intent' = intent := hkey
    exact not_open h hlot auction hentry

theorem mem_submitBid (h : Tracks desks p) (now : Nat) (bid : Bid) {intent i : String}
    {auction : Auction} :
    (i, auction) ∈ submitBid p.activeAuctions now bid.2 intent bid.1 ↔
      i = intent ∧ (∃ lot, ((desks intent).bid now bid).lot = some lot ∧
        auction = lot.auction intent) ∨
      i ≠ intent ∧ (i, auction) ∈ p.activeAuctions := by
  unfold Desk.bid
  cases hlot : (desks intent).lot with
  | some lot =>
    rw [submitBid_raise h now bid hlot, List.mem_map]
    constructor
    · rintro ⟨⟨i', auction'⟩, hmem, heq⟩
      split at heq
      · next hkey =>
        obtain rfl : i' = intent := hkey
        obtain ⟨lot', hlot', rfl⟩ := (h.listed i' auction').mp hmem
        rw [hlot] at hlot'
        cases hlot'
        cases heq
        exact .inl ⟨rfl, lot.raise bid, rfl, (auction_raise i' lot bid).symm⟩
      · next hkey =>
        cases heq
        exact .inr ⟨hkey, hmem⟩
    · rintro (⟨rfl, _, heq, rfl⟩ | ⟨hne, hmem⟩)
      · cases heq
        refine ⟨_, (h.listed i _).mpr ⟨lot, hlot, rfl⟩, ?_⟩
        rw [if_pos rfl, Option.elim_some, auction_raise]
      · exact ⟨_, hmem, if_neg hne⟩
  | none =>
    rw [submitBid_open h now bid hlot, List.mem_cons]
    constructor
    · rintro (heq | hmem)
      · cases heq
        exact .inl ⟨rfl, _, rfl, rfl⟩
      · refine .inr ⟨?_, hmem⟩
        rintro rfl
        exact not_open h hlot auction hmem
    · rintro (⟨rfl, _, heq, rfl⟩ | ⟨-, hmem⟩)
      · cases heq
        exact .inl rfl
      · exact .inr hmem

theorem tracks_bid (h : Tracks desks p) {now : Nat} (bid : Bid) {intent : String}
    (hauctions : p'.activeAuctions = submitBid p.activeAuctions now bid.2 intent bid.1)
    (hevents : p'.outboundEvents = p.outboundEvents) :
    Tracks (fun i => (desks i).step i (.command now (.submitBid bid.2 intent bid.1))) p' := by
  have hself : (desks intent).step intent (.command now (.submitBid bid.2 intent bid.1)) =
      (desks intent).bid now bid := if_pos rfl
  have hother : ∀ {i}, intent ≠ i →
      (desks i).step i (.command now (.submitBid bid.2 intent bid.1)) = desks i :=
    fun hne => if_neg hne
  refine ⟨?_, fun i auction => ?_, fun i => ?_⟩
  · rw [hauctions]
    exact keys_submitBid h now bid intent
  · rw [hauctions, mem_submitBid h]
    rcases eq_or_ne intent i with rfl | hne
    · rw [hself]
      simp
    · rw [hother hne, ← h.listed]
      simp [hne.symm]
  · rw [hevents, h.resolved]
    rcases eq_or_ne intent i with rfl | hne
    · rw [hself, Desk.bid]
    · rw [hother hne]

/-- What closing `done` announces for an intent: its winner, once, if it is in `done`. -/
theorem announced (intent : String) {done : List (String × Auction)}
    (hkeys : (done.map Prod.fst).Nodup)
    (hlots : ∀ i auction, (i, auction) ∈ done →
      ∃ lot, (desks i).lot = some lot ∧ auction = lot.auction i) :
    ((done.map Prod.snd).filterMap settle).filter (EngineEvent.resolves intent) =
      (((desks intent).lot.filter fun _ => intent ∈ done.map Prod.fst).map Lot.winner).toList.map
        (resolution intent) := by
  induction done with
  | nil => cases (desks intent).lot <;> rfl
  | cons entry done ih =>
    obtain ⟨i, auction⟩ := entry
    obtain ⟨hnew, hrest⟩ : i ∉ done.map Prod.fst ∧ (done.map Prod.fst).Nodup :=
      List.nodup_cons.mp hkeys
    obtain ⟨lot, hlot, rfl⟩ := hlots i auction List.mem_cons_self
    have ih := ih hrest fun i auction hentry => hlots i auction (List.mem_cons_of_mem _ hentry)
    rw [List.map_cons, List.filterMap_cons_some (settle_auction i lot), List.filter_cons, ih,
      List.map_cons]
    rcases eq_or_ne i intent with rfl | hne
    · rw [if_pos (resolves_resolution.mpr rfl), hlot]
      simp only [hnew, List.mem_cons_self, decide_true, decide_false]
      rfl
    · rw [if_neg (mt resolves_resolution.mp hne)]
      simp only [List.mem_cons, hne.symm, false_or]

theorem mem_visit (h : Tracks desks p) (order : IterOrder) {i : String} {auction : Auction} :
    (i, auction) ∈ order.visit p.activeAuctions ↔
      ∃ lot, (desks i).lot = some lot ∧ auction = lot.auction i :=
  (order.perm _).mem_iff.trans (h.listed i auction)

/-- The lots that a tick closes are those of which the end has come. -/
theorem mem_ended (h : Tracks desks p) (now : Nat) (order : IterOrder) {i : String} {lot : Lot}
    (hlot : (desks i).lot = some lot) :
    i ∈ ((order.visit p.activeAuctions).filter fun entry => entry.2.endTime ≤ now).map Prod.fst ↔
      lot.closes ≤ now := by
  rw [List.mem_map]
  constructor
  · rintro ⟨⟨i, auction⟩, hentry, rfl⟩
    obtain ⟨hentry, hend⟩ := List.mem_filter.mp hentry
    obtain ⟨lot', hlot', rfl⟩ := (mem_visit h order).mp hentry
    rw [hlot] at hlot'
    cases hlot'
    exact decide_eq_true_iff.mp hend
  · intro hend
    have hentry : (i, lot.auction i) ∈ order.visit p.activeAuctions :=
      (mem_visit h order).mpr ⟨lot, hlot, rfl⟩
    refine ⟨(i, lot.auction i), List.mem_filter.mpr ⟨hentry, ?_⟩, rfl⟩
    exact decide_eq_true_iff.mpr hend

theorem tracks_tick (h : Tracks desks p) (now : Nat) (order : IterOrder) :
    Tracks (fun i => (desks i).close now) (resolveAuctions now order p) := by
  have hkeys : ((order.visit p.activeAuctions).map Prod.fst).Nodup :=
    ((order.perm _).map Prod.fst).nodup_iff.mpr h.keys
  refine ⟨hkeys.sublist (List.filter_sublist.map Prod.fst), fun i auction => ?_, fun i => ?_⟩
  · show (i, auction) ∈ (order.visit p.activeAuctions).filter _ ↔ _
    rw [List.mem_filter, mem_visit h order, lot_close]
    simp only [Option.filter_eq_some_iff, decide_eq_true_eq, Bool.not_eq_true',
      decide_eq_false_iff_not, not_le]
    constructor
    · rintro ⟨⟨lot, hlot, rfl⟩, hopen⟩
      exact ⟨lot, ⟨hlot, hopen⟩, rfl⟩
    · rintro ⟨lot, ⟨hlot, hopen⟩, rfl⟩
      exact ⟨⟨lot, hlot, rfl⟩, hopen⟩
  · show (p.outboundEvents ++ (List.map Prod.snd _).filterMap settle).filter _ = _
    rw [List.filter_append, h.resolved, winners_close, List.map_append,
      announced i (hkeys.sublist (List.filter_sublist.map Prod.fst)) fun i auction hentry =>
        (mem_visit h order).mp (List.mem_of_mem_filter hentry)]
    cases hlot : (desks i).lot with
    | none => simp only [Option.filter_none]
    | some lot => simp only [mem_ended h now order hlot, Option.filter_some]

/-! ### One step of the processor -/

variable [SlabLike S] {profile : Profile} {io : Nat → WriteOutcome}

/-- What a step does to the auctions and to what was announced. -/
inductive AuctionStep (p p' : MarketProcessor S) : Input → Prop
  | bid {now : Nat} {solverId intentId : String} {amount : UInt64}
      (auctions : p'.activeAuctions = submitBid p.activeAuctions now solverId intentId amount)
      (events : p'.outboundEvents = p.outboundEvents) :
      AuctionStep p p' (.command now (.submitBid solverId intentId amount))
  | other {input : Input} (step : ∀ intent desk, Desk.step intent desk input = desk)
      (auctions : p'.activeAuctions = p.activeAuctions)
      (events : p'.outboundEvents = p.outboundEvents) : AuctionStep p p' input
  | tick {now : Nat} {order : IterOrder} (resolve : p' = resolveAuctions now order p) :
      AuctionStep p p' (.tick now order)

theorem auctionStep {p p' : MarketProcessor S} {input : Input}
    (h : p.step profile io input = .ok p') : AuctionStep p p' input := by
  cases input with
  | tick now order =>
    cases h
    exact .tick rfl
  | command now cmd =>
    obtain ⟨⟨response, q⟩, hcmd, heq⟩ := bind_eq_ok.mp h
    cases heq
    cases cmd with
    | submitBid solverId intentId amount =>
      cases hcmd
      exact .bid rfl rfl
    | placeOrder userId orderId side price quantity =>
      obtain ⟨_, -, heq⟩ := bind_eq_ok.mp hcmd
      cases heq
      exact .other (fun _ _ => rfl) rfl rfl
    | executeBundle orders =>
      obtain ⟨_, -, heq⟩ := bind_eq_ok.mp hcmd
      cases heq
      exact .other (fun _ _ => rfl) rfl rfl
    | cancelOrder userId orderId =>
      obtain ⟨_, -, heq⟩ := bind_eq_ok.mp hcmd
      cases heq
      exact .other (fun _ _ => rfl) rfl rfl
    | getDepth limit =>
      obtain ⟨_, -, heq⟩ := bind_eq_ok.mp hcmd
      cases heq
      exact .other (fun _ _ => rfl) rfl rfl

theorem tracks_step (h : Tracks desks p) {input : Input}
    (hstep : p.step profile io input = .ok p') :
    Tracks (fun intent => (desks intent).step intent input) p' := by
  cases auctionStep hstep with
  | bid hauctions hevents => exact tracks_bid h (_, _) hauctions hevents
  | other hdesks hauctions hevents =>
    simp only [hdesks]
    exact ⟨hauctions ▸ h.keys, hauctions ▸ h.listed, hevents ▸ h.resolved⟩
  | tick hresolve =>
    rw [hresolve]
    exact tracks_tick h _ _

theorem run_append {inputs later : List Input} {q : MarketProcessor S}
    (hinputs : p.run profile io inputs = .ok p') (hlater : p'.run profile io later = .ok q) :
    p.run profile io (inputs ++ later) = .ok q := by
  unfold MarketProcessor.run at *
  rw [List.foldlM_append, hinputs]
  exact hlater

end AuctionLemmas

open AuctionLemmas

section Runs

variable {S : Type → Type} [SlabLike S] {profile : Profile} {io : Nat → WriteOutcome}
  {disk : Option (List UInt8)} {p p' : MarketProcessor S} {inputs : List Input}

/-- In every run the processor is the family of the desks. -/
theorem run_tracks (hnew : MarketProcessor.new disk = .ok p)
    (hrun : p.run profile io inputs = .ok p') :
    Tracks (fun intent => deskAfter intent inputs) p' := by
  have hstart : Tracks (fun intent => deskAfter intent []) p := by
    obtain ⟨book, -, heq⟩ := bind_eq_ok.mp hnew
    cases heq
    refine ⟨List.nodup_nil, fun intent auction => ⟨fun hmem => ?_, ?_⟩, fun intent => rfl⟩
    · cases hmem
    · rintro ⟨lot, hlot, -⟩
      cases hlot
  refine foldlM_ok (I := fun done q => Tracks (fun intent => deskAfter intent done) q)
    (fun done q input q' hq hstep => ?_) hstart hrun
  simp only [deskAfter_snoc]
  exact tracks_step hq hstep

/-! ## The outcome of a tick -/

/-- After any run, a tick at `now` announces one winner for each intent whose auction
has come to its end, the latest of the largest bids since the auction was opened, and
nothing else. The auctions that have not ended stay with the bids they were sent. -/
theorem tick_outcome (hnew : MarketProcessor.new disk = .ok p)
    (hrun : p.run profile io inputs = .ok p') (now : Nat) (order : IterOrder) :
    ∃ events, (resolveAuctions now order p').outboundEvents = p'.outboundEvents ++ events ∧
      (∀ intent lot, (deskAfter intent inputs).lot = some lot → lot.closes ≤ now →
        ∃ bid, Leads lot.bids bid ∧
          events.filter (EngineEvent.resolves intent) = [resolution intent bid]) ∧
      (∀ intent, (∀ lot, (deskAfter intent inputs).lot = some lot → now < lot.closes) →
        events.filter (EngineEvent.resolves intent) = []) ∧
      ∀ intent lot, (deskAfter intent inputs).lot = some lot →
        (intent, lot.auction intent) ∈ p'.activeAuctions ∧
        ((intent, lot.auction intent) ∈ (resolveAuctions now order p').activeAuctions ↔
          now < lot.closes) := by
  have htracks := run_tracks hnew hrun
  have htick := tracks_tick htracks now order
  obtain ⟨events, hevents⟩ : ∃ events,
      (resolveAuctions now order p').outboundEvents = p'.outboundEvents ++ events := ⟨_, rfl⟩
  have hfilter : ∀ intent, events.filter (EngineEvent.resolves intent) =
      (((deskAfter intent inputs).lot.filter fun lot => lot.closes ≤ now).map
        Lot.winner).toList.map (resolution intent) := by
    intro intent
    have hresolved := htick.resolved intent
    rw [hevents, List.filter_append, htracks.resolved, winners_close, List.map_append] at hresolved
    exact List.append_cancel_left hresolved
  refine ⟨events, hevents, fun intent lot hlot hend => ?_, fun intent hopen => ?_,
    fun intent lot hlot => ⟨(htracks.listed intent _).mpr ⟨lot, hlot, rfl⟩, ?_⟩⟩
  · refine ⟨lot.winner, leads_winner lot, ?_⟩
    rw [hfilter, hlot, Option.filter_some, if_pos (decide_eq_true hend)]
    rfl
  · rw [hfilter]
    cases hlot : (deskAfter intent inputs).lot with
    | none => rfl
    | some lot =>
      rw [Option.filter_some, if_neg (mt of_decide_eq_true (not_le.mpr (hopen lot hlot)))]
      rfl
  · rw [htick.listed, lot_close, hlot]
    constructor
    · rintro ⟨lot', hlot', -⟩
      obtain ⟨heq, hopen⟩ := Option.filter_eq_some_iff.mp hlot'
      cases heq
      exact of_decide_eq_true hopen
    · exact fun hopen => ⟨lot, Option.filter_eq_some_iff.mpr ⟨rfl, decide_eq_true hopen⟩, rfl⟩

end Runs

/-- A processor that has just started without a log. -/
def fresh : MarketProcessor StackSlab := ⟨OrderBook.new, WalHandler.new none, [], [], []⟩

theorem new_fresh : MarketProcessor.new none = .ok fresh := rfl

/-- A visit in the order of the list. -/
def IterOrder.listed : IterOrder := ⟨id, fun _ => .refl _⟩

/-- Two solvers bid the same for one intent, the other intent was opened later. -/
def bidding : List Input :=
  [.command 0 (.submitBid "a" "x" 10), .command 1 (.submitBid "b" "x" 10),
    .command 400000000 (.submitBid "a" "y" 7)]

/-- The tick half a second after the first bid resolves the first intent for the later of
the two solvers. -/
theorem tick_outcome_bidding :
    ∃ p p' : MarketProcessor StackSlab, MarketProcessor.new none = .ok p ∧
      p.run .checked (fun _ => .ok) bidding = .ok p' ∧
      ∃ events, (resolveAuctions 500000000 .listed p').outboundEvents =
          p'.outboundEvents ++ events ∧
        ∃ bid, Leads [(10, "a"), (10, "b")] bid ∧
          events.filter (EngineEvent.resolves "x") = [resolution "x" bid] := by
  have hrun : fresh.run .checked (fun _ => .ok) bidding = .ok _ := rfl
  obtain ⟨events, hevents, hended, -, -⟩ := tick_outcome new_fresh hrun 500000000 .listed
  exact ⟨fresh, _, new_fresh, hrun, events, hevents,
    hended "x" ⟨0, (10, "a"), [(10, "b")]⟩ rfl le_rfl⟩

end EviceChain.Engine
