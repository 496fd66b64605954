import EviceChain.Engine.Auctions

/-!
# Who wins an intent, and how often

A bid is put into the auction that is open for its intent or opens one. Nothing
remembers that an intent was resolved, and nothing compares a bid with the end
of the auction it joins. Both are visible in what is announced.

Results:
1. `resolved_once_iff`: an intent is resolved once if and only if it is sent no
   bid after that; `resolved_twice` is an intent with two winners. What an intent
   has at stake, its winners and its open lot, is kept by a tick, and a bid
   leaves it one above the winners;
2. `late_bid_iff`: a bid that comes between the end of an auction and the tick
   that closes it is without effect if and only if it is below the leading bid or
   repeats it; `late_bid_wins` is one that takes the auction. The outcome depends
   on a desk through its `view` only.
-/

namespace EviceChain.Engine

open Foundation AuctionLemmas

/-! ## One winner for an intent -/

namespace ResolutionLemmas

theorem foldl_tick (intent : String) (desk : Desk) (now : Nat) (order : IterOrder) :
    [Input.tick now order].foldl (Desk.step intent) desk = desk.close now := rfl

/-- The winners an intent has or is to have. -/
def stake (desk : Desk) : Nat := desk.winners.length + desk.lot.toList.length

theorem stake_bid (desk : Desk) (now : Nat) (bid : Bid) :
    stake (desk.bid now bid) = desk.winners.length + 1 := rfl

theorem stake_close (desk : Desk) (now : Nat) : stake (desk.close now) = stake desk := by
  unfold stake Desk.close
  split
  · next lot hlot =>
    split
    · rw [hlot, List.length_append]
      rfl
    · rfl
  · rfl

theorem stake_step (intent : String) (desk : Desk) (input : Input) :
    stake desk ≤ stake (desk.step intent input) := by
  rcases step_cases intent input with
    ⟨now, solverId, amount, rfl, hstep⟩ | ⟨now, order, rfl⟩ | hstep
  · rw [hstep, stake_bid, stake]
    cases desk.lot with
    | none => exact Nat.le_succ _
    | some lot => exact le_rfl
  · exact (stake_close desk now).ge
  · rw [hstep]

theorem stake_foldl (intent : String) (desk : Desk) (inputs : List Input) :
    stake desk ≤ stake (inputs.foldl (Desk.step intent) desk) := by
  induction inputs generalizing desk with
  | nil => exact le_rfl
  | cons input inputs ih => exact (stake_step intent desk input).trans (ih _)

theorem stake_ticks (intent : String) (desk : Desk) (ticks : List (Nat × IterOrder)) :
    stake ((ticks.map fun t => .tick t.1 t.2).foldl (Desk.step intent) desk) = stake desk := by
  induction ticks generalizing desk with
  | nil => rfl
  | cons t ticks ih => exact (ih _).trans (stake_close desk t.1)

/-- There is a time by which all that is at stake is won. -/
theorem exists_winners_eq_stake (desk : Desk) :
    ∃ now, (desk.close now).winners.length = stake desk := by
  cases hlot : desk.lot with
  | none => exact ⟨0, by rw [winners_close, stake, hlot, List.length_append]; rfl⟩
  | some lot =>
    refine ⟨lot.closes, ?_⟩
    rw [winners_close_ended hlot le_rfl, stake, hlot, List.length_append]
    rfl

/-- An intent has one winner at most if and only if it is sent no bid after it. -/
theorem stake_le_one_iff (inputs : List Input) :
    (∀ intent, stake (deskAfter intent inputs) ≤ 1) ↔
      ∀ before now solverId intentId amount,
        before ++ [.command now (.submitBid solverId intentId amount)] <+: inputs →
        (deskAfter intentId before).winners = [] := by
  constructor
  · rintro hstake before now solverId intentId amount ⟨after, rfl⟩
    have hafter := stake_foldl intentId (deskAfter intentId
      (before ++ [.command now (.submitBid solverId intentId amount)])) after
    rw [← deskAfter_append, deskAfter_snoc, Desk.step, if_pos rfl, stake_bid] at hafter
    exact List.eq_nil_of_length_eq_zero (by have := hstake intentId; omega)
  · intro hbids intent
    induction inputs using List.reverseRecOn with
    | nil => exact Nat.zero_le 1
    | append_singleton inputs input ih =>
      have ih := ih fun before now solverId intentId amount hbefore =>
        hbids before now solverId intentId amount (hbefore.trans (List.prefix_append _ _))
      rw [deskAfter_snoc]
      rcases step_cases intent input with
        ⟨now, solverId, amount, rfl, hstep⟩ | ⟨now, order, rfl⟩ | hstep
      · rw [hstep, stake_bid, hbids inputs now solverId intent amount List.prefix_rfl]
        exact le_rfl
      · exact (stake_close _ now).trans_le ih
      · rw [hstep]
        exact ih

variable {S : Type → Type} [SlabLike S] {profile : Profile} {io : Nat → WriteOutcome}
  {disk : Option (List UInt8)} {p p' : MarketProcessor S} {inputs : List Input}

theorem run_before {before : List Input} (hbefore : before <+: inputs)
    (hrun : p.run profile io inputs = .ok p') : ∃ q, p.run profile io before = .ok q := by
  obtain ⟨after, rfl⟩ := hbefore
  unfold MarketProcessor.run at *
  rw [List.foldlM_append] at hrun
  obtain ⟨q, hq, -⟩ := bind_eq_ok.mp hrun
  exact ⟨q, hq⟩

theorem countP_resolves (hnew : MarketProcessor.new disk = .ok p)
    (hrun : p.run profile io inputs = .ok p') (intent : String) :
    p'.outboundEvents.countP (EngineEvent.resolves intent) =
      (deskAfter intent inputs).winners.length := by
  rw [List.countP_eq_length_filter, (run_tracks hnew hrun).resolved, List.length_map]

/-- What is at stake after a run is what will be announced, if only the timer goes on. -/
theorem once_iff_stake (hnew : MarketProcessor.new disk = .ok p)
    (hrun : p.run profile io inputs = .ok p') :
    (∀ (ticks : List (Nat × IterOrder)) r,
      p'.run profile io (ticks.map fun t => .tick t.1 t.2) = .ok r →
      ∀ intent, r.outboundEvents.countP (EngineEvent.resolves intent) ≤ 1) ↔
    ∀ intent, stake (deskAfter intent inputs) ≤ 1 := by
  constructor
  · intro hticks intent
    obtain ⟨now, hnow⟩ := exists_winners_eq_stake (deskAfter intent inputs)
    have htick : p'.run profile io [.tick now .listed] =
        .ok (resolveAuctions now .listed p') := rfl
    have hone := hticks [(now, .listed)] _ htick intent
    rwa [countP_resolves hnew (run_append hrun htick), deskAfter_append, foldl_tick, hnow] at hone
  · intro hstake ticks r hr intent
    rw [countP_resolves hnew (run_append hrun hr), deskAfter_append]
    calc _ ≤ stake _ := Nat.le_add_right _ _
      _ = stake (deskAfter intent inputs) := stake_ticks intent _ ticks
      _ ≤ 1 := hstake intent

end ResolutionLemmas

open ResolutionLemmas

section Runs

variable {S : Type → Type} [SlabLike S] {profile : Profile} {io : Nat → WriteOutcome}
  {disk : Option (List UInt8)} {p p' : MarketProcessor S} {inputs : List Input}

/-- However the timer goes on after a run, every intent is resolved once at most, if and
only if each bid of the run is handled when its intent was not resolved. -/
theorem resolved_once_iff (hnew : MarketProcessor.new disk = .ok p)
    (hrun : p.run profile io inputs = .ok p') :
    (∀ (ticks : List (Nat × IterOrder)) r,
      p'.run profile io (ticks.map fun t => .tick t.1 t.2) = .ok r →
      ∀ intent, r.outboundEvents.countP (EngineEvent.resolves intent) ≤ 1) ↔
    ∀ before now solverId intentId amount,
      before ++ [.command now (.submitBid solverId intentId amount)] <+: inputs →
      ∀ q, p.run profile io before = .ok q →
        q.outboundEvents.countP (EngineEvent.resolves intentId) = 0 := by
  rw [once_iff_stake hnew hrun, stake_le_one_iff]
  refine forall₅_congr fun before now solverId intentId amount => ?_
  refine forall_congr' fun hbefore => ⟨fun hnone q hq => ?_, fun hzero => ?_⟩
  · rw [countP_resolves hnew hq, hnone, List.length_nil]
  · obtain ⟨q, hq⟩ := run_before ((List.prefix_append _ _).trans hbefore) hrun
    have hwinners := countP_resolves hnew hq intentId
    rw [hzero q hq] at hwinners
    exact List.eq_nil_of_length_eq_zero hwinners.symm

end Runs

/-- A bid and the tick that resolves its intent. -/
theorem resolved_once_single :
    ∃ p p' : MarketProcessor StackSlab, MarketProcessor.new none = .ok p ∧
      p.run .checked (fun _ => .ok)
        [.command 0 (.submitBid "a" "x" 10), .tick 500000000 .listed] = .ok p' ∧
      ∀ (ticks : List (Nat × IterOrder)) r,
        p'.run .checked (fun _ => .ok) (ticks.map fun t => .tick t.1 t.2) = .ok r →
        ∀ intent, r.outboundEvents.countP (EngineEvent.resolves intent) ≤ 1 := by
  have hrun : fresh.run .checked (fun _ => .ok)
      [.command 0 (.submitBid "a" "x" 10), .tick 500000000 .listed] = .ok _ := rfl
  refine ⟨fresh, _, new_fresh, hrun, (resolved_once_iff new_fresh hrun).mpr ?_⟩
  intro before now solverId intentId amount hbefore q hq
  match before with
  | [] =>
    cases hq
    rfl
  | [_] => simp at hbefore
  | _ :: _ :: _ => simp at hbefore

/-- The second bid comes after the intent was resolved. It opens another auction, and the
intent is resolved again, for another solver. -/
theorem resolved_twice :
    ∃ p p' : MarketProcessor StackSlab, MarketProcessor.new none = .ok p ∧
      p.run .checked (fun _ => .ok)
        [.command 0 (.submitBid "a" "x" 10), .tick 500000000 .listed,
          .command 600000000 (.submitBid "b" "x" 5), .tick 1100000000 .listed] = .ok p' ∧
      p'.outboundEvents = [.intentResolved "x" "a" 10, .intentResolved "x" "b" 5] :=
  ⟨_, _, rfl, rfl, rfl⟩

/-! ## Late bids -/

namespace ResolutionLemmas

/-- What the outcome depends on: the winners, the end of the open lot and its leader. -/
def view (desk : Desk) : List Bid × Option (Nat × Bid) :=
  (desk.winners, desk.lot.map fun lot => (lot.closes, lot.winner))

theorem view_bid (desk : Desk) (now : Nat) (bid : Bid) :
    view (desk.bid now bid) = (desk.winners, some (match (view desk).2 with
      | some (closes, leader) => (closes, Lot.better leader bid)
      | none => (now + auctionDuration, bid))) := by
  unfold view Desk.bid
  cases desk.lot with
  | none => rfl
  | some lot =>
    show (desk.winners, some ((lot.raise bid).closes, (lot.raise bid).winner)) = _
    rw [winner_raise]
    rfl

theorem view_close (desk : Desk) (now : Nat) :
    view (desk.close now) = match (view desk).2 with
      | some (closes, leader) =>
        if closes ≤ now then (desk.winners ++ [leader], none) else view desk
      | none => view desk := by
  unfold Desk.close
  split
  · next lot hlot =>
    have hview : (view desk).2 = some (lot.closes, lot.winner) := by
      unfold view
      rw [hlot]
      rfl
    rw [hview, apply_ite view]
    rfl
  · next hlot =>
    have hview : (view desk).2 = none := by
      unfold view
      rw [hlot]
      rfl
    rw [hview]

theorem view_step {desk desk' : Desk} (h : view desk = view desk') (intent : String)
    (input : Input) : view (desk.step intent input) = view (desk'.step intent input) := by
  have hwinners : desk.winners = desk'.winners := congrArg Prod.fst h
  rcases step_cases intent input with ⟨now, solverId, amount, -, hstep⟩ | ⟨now, order, rfl⟩ | hstep
  · rw [hstep, hstep, view_bid, view_bid, h, hwinners]
  · show view (desk.close now) = view (desk'.close now)
    rw [view_close, view_close, h, hwinners]
  · rw [hstep, hstep, h]

theorem view_foldl {desk desk' : Desk} (h : view desk = view desk') (intent : String)
    (inputs : List Input) :
    view (inputs.foldl (Desk.step intent) desk) = view (inputs.foldl (Desk.step intent) desk') := by
  induction inputs generalizing desk desk' with
  | nil => exact h
  | cons input inputs ih => exact ih (view_step h intent input)

theorem better_eq_left {best bid : Bid} :
    Lot.better best bid = best ↔ bid.1 < best.1 ∨ bid = best := by
  unfold Lot.better
  split
  · next hle => exact ⟨.inr, fun h => h.resolve_left (not_lt.mpr hle)⟩
  · next hlt => exact ⟨fun _ => .inl (not_le.mp hlt), fun _ => rfl⟩

theorem resolution_injective (intent : String) : Function.Injective (resolution intent) := by
  rintro ⟨amount, solver⟩ ⟨amount', solver'⟩ h
  cases h
  rfl

theorem filter_resolves {S : Type → Type} [SlabLike S] {profile : Profile}
    {io : Nat → WriteOutcome} {disk : Option (List UInt8)} {p p' r : MarketProcessor S}
    {inputs later : List Input} (hnew : MarketProcessor.new disk = .ok p)
    (hrun : p.run profile io inputs = .ok p') (hlater : p'.run profile io later = .ok r)
    (intent : String) :
    r.outboundEvents.filter (EngineEvent.resolves intent) =
      (later.foldl (Desk.step intent) (deskAfter intent inputs)).winners.map
        (resolution intent) := by
  rw [(run_tracks hnew (run_append hrun hlater)).resolved, deskAfter_append]

end ResolutionLemmas

section Runs

variable {S : Type → Type} [SlabLike S] {profile : Profile} {io : Nat → WriteOutcome}
  {disk : Option (List UInt8)} {p p' q : MarketProcessor S} {inputs : List Input}

/-- A bid is handled when the auction of its intent has ended but was not yet closed. It
changes nothing of what is announced for the intent, whatever comes later, if and only if
it is below the leading bid or repeats it. -/
theorem late_bid_iff (hnew : MarketProcessor.new disk = .ok p)
    (hrun : p.run profile io inputs = .ok p') {intent : String} {auction : Auction}
    (hopen : (intent, auction) ∈ p'.activeAuctions) {now : Nat} (hlate : auction.endTime ≤ now)
    {solver : String} {amount : UInt64} {response : Response}
    (hbid : handleCommand profile io now p' (.submitBid solver intent amount) =
      .ok (response, q)) :
    (∀ later r r', p'.run profile io later = .ok r → q.run profile io later = .ok r' →
      r'.outboundEvents.filter (EngineEvent.resolves intent) =
        r.outboundEvents.filter (EngineEvent.resolves intent)) ↔
    ∃ leader, auction.bids.last? = some leader ∧
      (amount < leader.1 ∨ (amount, solver) = leader) := by
  obtain ⟨lot, hlot, rfl⟩ := ((run_tracks hnew hrun).listed intent auction).mp hopen
  have hq : p.run profile io (inputs ++ [.command now (.submitBid solver intent amount)]) =
      .ok q := by
    refine run_append hrun ?_
    cases hbid
    rfl
  have hdesk : deskAfter intent (inputs ++ [.command now (.submitBid solver intent amount)]) =
      ⟨some (lot.raise (amount, solver)), (deskAfter intent inputs).winners⟩ := by
    rw [deskAfter_snoc, Desk.step, if_pos rfl, Desk.bid, hlot]
    rfl
  have hleader : (∃ leader, (lot.auction intent).bids.last? = some leader ∧
      (amount < leader.1 ∨ (amount, solver) = leader)) ↔
      (lot.raise (amount, solver)).winner = lot.winner := by
    rw [last?_auction, winner_raise, better_eq_left]
    simp
  rw [hleader]
  constructor
  · intro hsame
    -- the tick that closes the auction tells the two apart
    have htick : ∀ s : MarketProcessor S, s.run profile io [.tick now .listed] =
        .ok (resolveAuctions now .listed s) := fun _ => rfl
    have hevents := hsame _ _ _ (htick p') (htick q)
    rw [filter_resolves hnew hq (htick q), filter_resolves hnew hrun (htick p'), foldl_tick,
      foldl_tick, hdesk] at hevents
    have hwinners := List.map_injective_iff.mpr (resolution_injective intent) hevents
    have hraised : (lot.raise (amount, solver)).closes ≤ now := hlate
    rw [winners_close_ended rfl hraised, winners_close_ended hlot hlate] at hwinners
    exact List.singleton_inj.mp (List.append_cancel_left hwinners)
  · intro hwinner later r r' hr hr'
    rw [filter_resolves hnew hq hr', filter_resolves hnew hrun hr, hdesk]
    have hview : view ⟨some (lot.raise (amount, solver)), (deskAfter intent inputs).winners⟩ =
        view (deskAfter intent inputs) := by
      unfold view
      rw [hlot, Option.map_some, Option.map_some, hwinner]
      rfl
    exact congrArg (List.map (resolution intent) ∘ Prod.fst) (view_foldl hview intent later)

end Runs

/-- After the end of the auction a solver repeats the leading bid. -/
theorem late_bid_repeated :
    ∃ p p' q : MarketProcessor StackSlab, MarketProcessor.new none = .ok p ∧
      p.run .checked (fun _ => .ok) [.command 0 (.submitBid "a" "x" 10)] = .ok p' ∧
      handleCommand .checked (fun _ => .ok) 600000000 p' (.submitBid "a" "x" 10) = .ok (.none, q) ∧
      ∀ later r r', p'.run .checked (fun _ => .ok) later = .ok r →
        q.run .checked (fun _ => .ok) later = .ok r' →
        r'.outboundEvents.filter (EngineEvent.resolves "x") =
          r.outboundEvents.filter (EngineEvent.resolves "x") := by
  have hrun : fresh.run .checked (fun _ => .ok) [.command 0 (.submitBid "a" "x" 10)] = .ok _ := rfl
  exact ⟨fresh, _, _, new_fresh, hrun, rfl, (late_bid_iff new_fresh hrun List.mem_cons_self
    (by decide : 500000000 ≤ 600000000) rfl).mpr ⟨(10, "a"), rfl, .inr rfl⟩⟩

/-- The second bid is handled a tenth of a second after the auction has ended, and wins it. -/
theorem late_bid_wins :
    ∃ p p' q r r' : MarketProcessor StackSlab, MarketProcessor.new none = .ok p ∧
      p.run .checked (fun _ => .ok) [.command 0 (.submitBid "a" "x" 10)] = .ok p' ∧
      (p'.activeAuctions.map fun entry => (entry.1, entry.2.endTime)) = [("x", 500000000)] ∧
      handleCommand .checked (fun _ => .ok) 600000000 p' (.submitBid "b" "x" 20) = .ok (.none, q) ∧
      p'.run .checked (fun _ => .ok) [.tick 700000000 .listed] = .ok r ∧
      r.outboundEvents = [.intentResolved "x" "a" 10] ∧
      q.run .checked (fun _ => .ok) [.tick 700000000 .listed] = .ok r' ∧
      r'.outboundEvents = [.intentResolved "x" "b" 20] :=
  ⟨_, _, _, _, _, rfl, rfl, rfl, rfl, rfl, rfl, rfl, rfl⟩

end EviceChain.Engine
