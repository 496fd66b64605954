import EviceChain.Engine.Processor

/-!
# Restarting on a log with a torn tail

A crash may leave any byte prefix of the log on disk. A restart replays the
entries that decode and then appends behind the bytes it found: a torn last
record stays where it is. On the next restart the decoder completes it with
bytes of the records behind it.

Results:
1. `secondRestart_exact`: the second restart recovers exactly the entries read
   by the first and those logged after it, for every continuation, if and only
   if the crash left a log of whole records; if nothing is logged in between,
   it recovers them in any case;
2. `secondRestart_loses_order`: a torn log on which a confirmed order is lost.
-/

namespace EviceChain.Engine

open Foundation

/-- The crash left `b` of the log of `es`. A processor starts on it, handles the
inputs, and stops; one that starts on the log it left has the book of the
entries wholly in `b` followed by those logged since. -/
def Recovers (S : Type → Type) [SlabLike S] (profile : Profile) (io : Nat → WriteOutcome)
    (es : List LogEntry) (b : List UInt8) (inputs : List Input) : Prop :=
  ∀ p p' : MarketProcessor S, MarketProcessor.new (some b) = .ok p →
    p.run profile io inputs = .ok p' →
    ∃ q : MarketProcessor S, MarketProcessor.new (some p'.wal.file) = .ok q ∧
      replay (entryCodec.whole es b.length ++ logged inputs) = .ok q.book

/-! ## What a torn record makes of the record behind it -/

def LogEntry.placedId : LogEntry → Option OrderId
  | .place orderId .. => some orderId
  | .cancel .. => none

/-- One of two ids whose bytes are no varint markers. -/
def probeId : Bool → OrderId
  | false => 0xFFFFFFFFFFFFFFFE
  | true => 0xFFFFFFFFFFFFFFFF

/-- The worst price of a side: the last to be in reach of an opposite order. -/
def worstPrice : Side → Price
  | .bid => 0
  | .ask => 0xFFFFFFFFFFFFFFFF

/-- An order whose encoding no torn record before it can turn into a placement
of its own id. -/
def probe (b : Bool) (side : Side) : LogEntry :=
  .place (probeId b) 0xFFFFFFFFFFFFFFFF side (worstPrice side) 0xFFFFFFFFFFFFFFFF

namespace RecoveryLemmas

open WalLemmas

/-- The encoding of a probe from its `n`-th byte on. -/
def tail (b : Bool) (side : Side) (n : Nat) : List UInt8 := (encodeEntry (probe b side)).drop n

/-! Reading a probe from the wrong byte. Its first byte is 0, then comes a
marker 253 and then bytes from 254 up. -/

theorem decodeVariant_tail (b : Bool) (side : Side) :
    ∀ n < 8, decodeVariant (tail b side (n + 1)) = none := by
  cases b <;> cases side <;> decide

theorem decodeVariant_tail_user (b : Bool) (side : Side) :
    decodeVariant (tail b side 10) = none := by
  cases b <;> cases side <;> rfl

theorem decodeU64_tail_zero (b : Bool) (side : Side) :
    decodeU64 (tail b side 0) = some (0, tail b side 1) := by
  cases b <;> cases side <;> rfl

theorem decodeU64_tail_one (b : Bool) (side : Side) :
    decodeU64 (tail b side 1) = some (probeId b, tail b side 10) := by
  cases b <;> cases side <;> rfl

theorem decodeU64_tail_user (b : Bool) (side : Side) :
    decodeU64 (tail b side 10) = some (0xFFFFFFFFFFFFFFFF, tail b side 19) := by
  cases b <;> cases side <;> rfl

theorem decodeU64_tail (b : Bool) (side : Side) : ∀ n < 8,
    decodeU64 (tail b side (n + 1)) = none ∨
      decodeU64 (tail b side (n + 1)) = some (probeId b, tail b side 10) := by
  cases b <;> cases side <;> decide

theorem decodeSide_tail_zero (b : Bool) (side : Side) :
    decodeSide (tail b side 0) = some (.bid, tail b side 1) := by
  cases b <;> cases side <;> rfl

/-- Read from here on, nothing places the probe. -/
def Harmless (b : Bool) (bytes : List UInt8) : Prop :=
  ∀ entry ∈ entryCodec.readAll bytes, entry.placedId ≠ some (probeId b)

theorem harmless_of_none {b : Bool} {bytes : List UInt8} (h : decodeEntry bytes = none) :
    Harmless b bytes := by
  intro entry hentry
  rw [entryCodec.readAll_of_none h] at hentry
  cases hentry

theorem harmless_of_some {b : Bool} {bytes rest : List UInt8} {entry : LogEntry}
    (h : decodeEntry bytes = some (entry, rest)) (hentry : entry.placedId ≠ some (probeId b))
    (hrest : Harmless b rest) : Harmless b bytes := by
  intro other hother
  rw [entryCodec.readAll_of_some h, List.mem_cons] at hother
  rcases hother with rfl | hother
  · exact hentry
  · exact hrest other hother

theorem harmless_of_variant {b : Bool} {bytes : List UInt8} (h : decodeVariant bytes = none) :
    Harmless b bytes :=
  harmless_of_none (by rw [decodeEntry, Decoder.bind_apply, h]; rfl)

theorem harmless_tail_side (b : Bool) (side : Side) : Harmless b (tail b side 19) := by
  unfold Harmless
  cases b <;> cases side <;> decide

/-- A field of which the last bytes are missing, possibly all, takes the first
bytes of the probe. -/
theorem decodeU64_torn {x : UInt64} {t more : List UInt8} (h : Varint.encode x = t ++ more)
    (hmore : more ≠ []) (b : Bool) (side : Side) :
    ∃ y, ∃ n < 8, decodeU64 (t ++ tail b side 0) = some (y, tail b side (n + 1)) := by
  cases t with
  | nil => exact ⟨0, 0, by decide, decodeU64_tail_zero b side⟩
  | cons marker t =>
    have hlen := Varint.length_encode_le x
    rw [h, List.cons_append, List.length_cons, List.length_append] at hlen
    have hprobe : 8 ≤ (tail b side 0).length := by cases b <;> cases side <;> decide
    have hpos := List.length_pos_of_ne_nil hmore
    obtain ⟨y, hy⟩ := Varint.decode_torn h (List.cons_ne_nil _ _) (tail b side 0) (by omega)
    refine ⟨y, more.length - 1, by omega, ?_⟩
    rw [Nat.sub_add_cancel hpos]
    rw [tail, List.drop_drop, Nat.zero_add] at hy
    exact hy

/-- Where a list cut in two meets a list of two pieces. -/
theorem cut_piece {t more a c : List UInt8} (h : a ++ c = t ++ more) :
    (∃ t', t = a ++ t' ∧ c = t' ++ more) ∨ ∃ m, m ≠ [] ∧ a = t ++ m := by
  rcases List.append_eq_append_iff.mp h with ⟨t', ht, hc⟩ | ⟨m, ha, hm⟩
  · exact .inl ⟨t', ht, hc⟩
  · cases m with
    | nil => exact .inl ⟨[], by simpa using ha.symm, by simpa using hm.symm⟩
    | cons x m => exact .inr ⟨x :: m, List.cons_ne_nil _ _, ha⟩

theorem decodeSide_of_variant {bytes : List UInt8} (h : decodeVariant bytes = none) :
    decodeSide bytes = none := by
  rw [decodeSide, Decoder.bind_apply, h]
  rfl

/-- A placement cut after its variant and completed by a probe: no entry, or a
placement under the id it had. The cases are the field the cut falls into. -/
theorem decodePlace_torn {orderId : OrderId} {userId : UserId} {oside : Side} {price : Price}
    {quantity : Quantity} {t more : List UInt8}
    (h : Varint.encode orderId ++ (Varint.encode userId ++ (encodeSide oside ++
      (Varint.encode price ++ Varint.encode quantity))) = t ++ more)
    (hmore : more ≠ []) (b : Bool) (side : Side) (hid : orderId ≠ probeId b) :
    decodePlace (t ++ tail b side 0) = none ∨
      ∃ entry rest, decodePlace (t ++ tail b side 0) = some (entry, rest) ∧
        entry.placedId ≠ some (probeId b) ∧ Harmless b rest := by
  have hplaced : ∀ u s p q, (LogEntry.place orderId u s p q).placedId ≠ some (probeId b) :=
    fun _ _ _ _ he => hid (Option.some.inj he)
  rcases cut_piece h with ⟨t₁, rfl, h₁⟩ | ⟨m, hm, hfield⟩
  · rcases cut_piece h₁ with ⟨t₂, rfl, h₂⟩ | ⟨m, hm, hfield⟩
    · rcases cut_piece h₂ with ⟨t₃, rfl, h₃⟩ | ⟨m, hm, hfield⟩
      · rcases cut_piece h₃ with ⟨t₄, rfl, h₄⟩ | ⟨m, hm, hfield⟩
        · -- in the quantity
          obtain ⟨y, n, hn, hy⟩ := decodeU64_torn h₄ hmore b side
          refine .inr ⟨.place orderId userId oside price y, tail b side (n + 1), ?_,
            hplaced _ _ _ _, harmless_of_variant (decodeVariant_tail b side n hn)⟩
          simp only [decodePlace, List.append_assoc, Decoder.bind_apply, decodeU64_encode,
            decodeSide_encode, hy, Option.bind_some, Decoder.pure_apply]
        · -- in the price: the id of the probe, if any, becomes the quantity
          obtain ⟨y, n, hn, hy⟩ := decodeU64_torn hfield hm b side
          rcases decodeU64_tail b side n hn with hnone | hsome
          · refine .inl ?_
            simp only [decodePlace, List.append_assoc, Decoder.bind_apply, decodeU64_encode,
              decodeSide_encode, hy, hnone, Option.bind_some, Option.bind_none]
          · refine .inr ⟨.place orderId userId oside y (probeId b), tail b side 10, ?_,
              hplaced _ _ _ _, harmless_of_variant (decodeVariant_tail_user b side)⟩
            simp only [decodePlace, List.append_assoc, Decoder.bind_apply, decodeU64_encode,
              decodeSide_encode, hy, hsome, Option.bind_some, Decoder.pure_apply]
      · -- before the side, which is one byte: the variant of the probe becomes the side
        have hnil : t₂ = [] := by
          cases oside <;> cases t₂ <;> simp_all [encodeSide, Varint.encode]
        subst hnil
        refine .inr ⟨.place orderId userId .bid (probeId b) 0xFFFFFFFFFFFFFFFF, tail b side 19, ?_,
          hplaced _ _ _ _, harmless_tail_side b side⟩
        simp only [decodePlace, List.append_assoc, List.nil_append, Decoder.bind_apply,
          decodeU64_encode, decodeSide_tail_zero, decodeU64_tail_one, decodeU64_tail_user,
          Option.bind_some, Decoder.pure_apply]
    · -- in the user: a marker stands where the side should be
      obtain ⟨y, n, hn, hy⟩ := decodeU64_torn hfield hm b side
      refine .inl ?_
      simp only [decodePlace, List.append_assoc, Decoder.bind_apply, decodeU64_encode, hy,
        decodeSide_of_variant (decodeVariant_tail b side n hn), Option.bind_some,
        Option.bind_none]
  · -- in the id: the same, one field later
    obtain ⟨y, n, hn, hy⟩ := decodeU64_torn hfield hm b side
    refine .inl ?_
    rcases decodeU64_tail b side n hn with hnone | hsome
    · simp only [decodePlace, Decoder.bind_apply, hy, hnone, Option.bind_some, Option.bind_none]
    · simp only [decodePlace, Decoder.bind_apply, hy, hsome,
        decodeSide_of_variant (decodeVariant_tail_user b side), Option.bind_some,
        Option.bind_none]

theorem decodeCancel_torn {orderId : OrderId} {userId : UserId} {t more : List UInt8}
    (h : Varint.encode orderId ++ Varint.encode userId = t ++ more) (hmore : more ≠ [])
    (b : Bool) (side : Side) :
    decodeCancel (t ++ tail b side 0) = none ∨
      ∃ entry rest, decodeCancel (t ++ tail b side 0) = some (entry, rest) ∧
        entry.placedId ≠ some (probeId b) ∧ Harmless b rest := by
  rcases cut_piece h with ⟨t₁, rfl, h₁⟩ | ⟨m, hm, hfield⟩
  · obtain ⟨y, n, hn, hy⟩ := decodeU64_torn h₁ hmore b side
    refine .inr ⟨.cancel orderId y, tail b side (n + 1), ?_, by simp [LogEntry.placedId],
      harmless_of_variant (decodeVariant_tail b side n hn)⟩
    simp only [decodeCancel, List.append_assoc, Decoder.bind_apply, decodeU64_encode, hy,
      Option.bind_some, Decoder.pure_apply]
  · obtain ⟨y, n, hn, hy⟩ := decodeU64_torn hfield hm b side
    rcases decodeU64_tail b side n hn with hnone | hsome
    · refine .inl ?_
      simp only [decodeCancel, Decoder.bind_apply, hy, hnone, Option.bind_some, Option.bind_none]
    · refine .inr ⟨.cancel y (probeId b), tail b side 10, ?_, by simp [LogEntry.placedId],
        harmless_of_variant (decodeVariant_tail_user b side)⟩
      simp only [decodeCancel, Decoder.bind_apply, hy, hsome, Option.bind_some, Decoder.pure_apply]

/-- Behind a torn record, a probe of another id is not read as a placement of
its own id. -/
theorem harmless_torn {e : LogEntry} {torn more : List UInt8} (h : encodeEntry e = torn ++ more)
    (htorn : torn ≠ []) (hmore : more ≠ []) (b : Bool) (side : Side)
    (hid : e.placedId ≠ some (probeId b)) :
    Harmless b (torn ++ encodeEntry (probe b side)) := by
  show Harmless b (torn ++ tail b side 0)
  cases torn with
  | nil => exact absurd rfl htorn
  | cons variant t =>
    cases e with
    | place orderId userId oside price quantity =>
      have hsplit : variant = 0 ∧ Varint.encode orderId ++ (Varint.encode userId ++
          (encodeSide oside ++ (Varint.encode price ++ Varint.encode quantity))) = t ++ more := by
        simp only [encodeEntry, List.append_assoc] at h
        exact ⟨(List.cons.inj h).1.symm, (List.cons.inj h).2⟩
      obtain ⟨rfl, hfields⟩ := hsplit
      have hne : orderId ≠ probeId b := fun he => hid (congrArg some he)
      rcases decodePlace_torn hfields hmore b side hne with hnone | ⟨entry, rest, hsome, hrest⟩
      · exact harmless_of_none ((decodeEntry_zero _).trans hnone)
      · exact harmless_of_some ((decodeEntry_zero _).trans hsome) hrest.1 hrest.2
    | cancel orderId userId =>
      have hsplit : variant = 1 ∧ Varint.encode orderId ++ Varint.encode userId = t ++ more := by
        simp only [encodeEntry, List.append_assoc] at h
        exact ⟨(List.cons.inj h).1.symm, (List.cons.inj h).2⟩
      obtain ⟨rfl, hfields⟩ := hsplit
      rcases decodeCancel_torn hfields hmore b side with hnone | ⟨entry, rest, hsome, hrest⟩
      · exact harmless_of_none ((decodeEntry_one _).trans hnone)
      · exact harmless_of_some ((decodeEntry_one _).trans hsome) hrest.1 hrest.2

end RecoveryLemmas

/-! ## Counting the resting orders of an id -/

/-- How many resting orders have the id. -/
def Flat.count (flat : Flat) (orderId : OrderId) : Nat :=
  (flat .bid).countP (·.id = orderId) + (flat .ask).countP (·.id = orderId)

namespace RecoveryLemmas

open ProcessorLemmas RepresentationLemmas

theorem count_eq (flat : Flat) (orderId : OrderId) (side : Side) :
    flat.count orderId =
      (flat side).countP (·.id = orderId) + (flat side.opposite).countP (·.id = orderId) := by
  cases side with
  | bid => rfl
  | ask => exact Nat.add_comm _ _

theorem countP_walk_le (orderId id : OrderId) (userId : UserId) (side : Side) (price : Price)
    (quantity : Quantity) (makers : List Order) :
    (walk orderId userId side price quantity makers).makers.countP (·.id = id) ≤
      makers.countP (·.id = id) := by
  have hsub : ((walk orderId userId side price quantity makers).makers.map Order.id).Sublist
      (makers.map Order.id) := walk_map_sublist fun _ _ => rfl
  have hcount := hsub.countP_le (p := (· = id))
  rwa [List.countP_map, List.countP_map] at hcount

theorem place_count_le (flat : Flat) {orderId id : OrderId} (h : orderId ≠ id)
    (userId : UserId) (side : Side) (price : Price) (quantity : Quantity) :
    (flat.place orderId userId side price quantity).2.count id ≤ flat.count id := by
  rw [count_eq _ id side, count_eq _ id side, Flat.place_opposite, Flat.place_own]
  have hopposite := countP_walk_le orderId id userId side price quantity (flat side.opposite)
  dsimp only
  split
  · rw [(joinBack_perm _ _).countP_eq, List.countP_cons_of_neg (by simpa using h)]
    omega
  · omega

/-- An order that reaches nothing rests. -/
theorem place_count_rest (flat : Flat) (orderId : OrderId) (userId : UserId) (side : Side)
    (price : Price) {quantity : Quantity} (hq : 0 < quantity)
    (hfree : ∀ maker ∈ flat side.opposite, isMatchable side maker.price price = false) :
    (flat.place orderId userId side price quantity).2.count orderId =
      flat.count orderId + 1 := by
  rw [count_eq _ _ side, count_eq _ _ side, Flat.place_opposite, Flat.place_own,
    walk_unreached hfree]
  dsimp only
  rw [if_pos hq, (joinBack_perm _ _).countP_eq, List.countP_cons_of_pos (by simp)]
  omega

variable {S : Type → Type} [SlabLike S]

theorem replayEntry_place {book book' : OrderBook S} (hreach : Reachable book)
    {orderId : OrderId} {userId : UserId} {side : Side} {price : Price} {quantity : Quantity}
    (h : replayEntry book (.place orderId userId side price quantity) = .ok book') :
    book'.flat = (book.flat.place orderId userId side price quantity).2 := by
  obtain ⟨_, hplace, hflat, -⟩ :=
    placeLimitOrder_spec hreach.inv orderId userId side price quantity
  rw [replayEntry, hplace] at h
  cases h
  exact hflat

/-- An entry that does not place the id adds no resting order of that id. -/
theorem replayEntry_count_le {book book' : OrderBook S} (hreach : Reachable book)
    {entry : LogEntry} (h : replayEntry book entry = .ok book') {id : OrderId}
    (hid : entry.placedId ≠ some id) : book'.flat.count id ≤ book.flat.count id := by
  cases entry with
  | place orderId userId side price quantity =>
    rw [replayEntry_place hreach h]
    exact place_count_le _ (fun he => hid (congrArg some he)) _ _ _ _
  | cancel orderId userId =>
    obtain ⟨⟨events, _⟩, hcancel, heq⟩ := bind_eq_ok.mp h
    cases heq
    have hsub := cancelOrder_sublist hreach.inv hcancel
    exact Nat.add_le_add (hsub .bid).countP_le (hsub .ask).countP_le

theorem replay_count_le {es more : List LogEntry} {id : OrderId}
    (hmore : ∀ entry ∈ more, entry.placedId ≠ some id) {book book' : OrderBook S}
    (hbook : replay es = .ok book) (hbook' : replay (es ++ more) = .ok book') :
    book'.flat.count id ≤ book.flat.count id := by
  induction more using List.reverseRecOn generalizing book' with
  | nil =>
    rw [List.append_nil, hbook] at hbook'
    cases hbook'
    exact Nat.le_refl _
  | append_singleton more entry ih =>
    rw [← List.append_assoc, replay_append] at hbook'
    obtain ⟨mid, hmid, hentry⟩ := bind_eq_ok.mp hbook'
    obtain ⟨_, hmid', hreach⟩ := replay_reachable (S := S) (es ++ more)
    rw [hmid] at hmid'
    cases hmid'
    have hlast := replayEntry_count_le hreach hentry (hmore entry (by simp))
    exact hlast.trans (ih (fun e he => hmore e (by simp [he])) hmid)

/-- On every reachable book one of the two probes reaches nothing: bids and asks
at the worst prices of both sides would cross. -/
theorem exists_side_unreached {book : OrderBook S} (h : Reachable book) :
    ∃ side : Side, ∀ maker ∈ book.flat side.opposite,
      isMatchable side maker.price (worstPrice side) = false := by
  by_cases hask : ∀ maker ∈ book.flat .ask, isMatchable .bid maker.price (worstPrice .bid) = false
  · exact ⟨.bid, hask⟩
  · refine ⟨.ask, ?_⟩
    intro bid hbid
    simp only [not_forall] at hask
    obtain ⟨ask, hmem, hreached⟩ := hask
    -- the ask is at price 0, below which there is no bid
    have hlt := h.uncrossed bid hbid ask hmem
    simp only [isMatchable, worstPrice, Bool.not_eq_false] at hreached
    exact absurd (lt_of_lt_of_le hlt (of_decide_eq_true hreached)) UInt64.not_lt_zero

end RecoveryLemmas

/-! ## The second restart -/

section Restart

open RecoveryLemmas ProcessorLemmas

variable {S : Type → Type} [SlabLike S] {profile : Profile} {io : Nat → WriteOutcome}
  (hio : ∀ n, io n = .ok) {es : List LogEntry} {b : List UInt8} {inputs : List Input}
include hio

/-- What the second restart rebuilds, whatever the first one found. -/
theorem secondRestart_book {p p' : MarketProcessor S} (hp : MarketProcessor.new (some b) = .ok p)
    (hrun : p.run profile io inputs = .ok p') :
    ∃ q : MarketProcessor S, MarketProcessor.new (some p'.wal.file) = .ok q ∧
      replay (entryCodec.readAll (b ++ entryCodec.encodeAll (logged inputs))) = .ok q.book := by
  have hlogged := (Logged.of_new hp).run hio hrun
  obtain ⟨q, hq, hrestart⟩ := Logged.new (S := S) (some p'.wal.file)
  have hbook := hrestart.replayed
  rw [List.append_nil, Option.getD_some, hlogged.file, List.nil_append] at hbook
  exact ⟨q, hq, hbook⟩

theorem recovers_of_whole (hb : b = entryCodec.encodeAll (entryCodec.whole es b.length))
    (inputs : List Input) : Recovers S profile io es b inputs := by
  intro p p' hp hrun
  obtain ⟨q, hq, hbook⟩ := secondRestart_book hio hp hrun
  refine ⟨q, hq, ?_⟩
  rwa [hb, entryCodec.readAll_encodeAll, entryCodec.readAll_whole] at hbook

theorem recovers_of_idle (hb : b <+: entryCodec.encodeAll es) (hidle : logged inputs = []) :
    Recovers S profile io es b inputs := by
  intro p p' hp hrun
  obtain ⟨q, hq, hbook⟩ := secondRestart_book hio hp hrun
  refine ⟨q, hq, ?_⟩
  rw [hidle, show entryCodec.encodeAll [] = [] from rfl, List.append_nil,
    entryCodec.readAll_cut hb] at hbook
  rwa [hidle, List.append_nil]

/-- Behind a torn record, one placement is lost. -/
theorem not_recovers_torn {e : LogEntry} {torn more : List UInt8}
    (hb : b = entryCodec.encodeAll (entryCodec.whole es b.length) ++ torn)
    (he : encodeEntry e = torn ++ more) (htorn : torn ≠ []) (hmore : more ≠ []) :
    ∃ inputs, ¬ Recovers S profile io es b inputs := by
  obtain ⟨c, hid⟩ : ∃ c, e.placedId ≠ some (probeId c) := by
    by_cases h : e.placedId = some (probeId true)
    · exact ⟨false, by rw [h]; decide⟩
    · exact ⟨true, h⟩
  obtain ⟨p, hp, hlogged⟩ := Logged.new (S := S) (some b)
  obtain ⟨side, hfree⟩ := exists_side_unreached hlogged.reachable
  obtain ⟨_, hprobe, -⟩ := execute_reachable (s := (p.wal, p.book)) io hlogged.reachable
    (probe c side)
  obtain ⟨-, events, hplace⟩ := place_of_execute hprobe
  refine ⟨[.command 0 (.placeOrder 0xFFFFFFFFFFFFFFFF (probeId c) side (worstPrice side)
    0xFFFFFFFFFFFFFFFF)], fun hrecovers => ?_⟩
  have hrun : ∃ p', p.run profile io [.command 0 (.placeOrder 0xFFFFFFFFFFFFFFFF (probeId c) side
      (worstPrice side) 0xFFFFFFFFFFFFFFFF)] = .ok p' := by
    rw [MarketProcessor.run, List.foldlM_cons, MarketProcessor.step, handleCommand, hplace]
    exact ⟨_, rfl⟩
  obtain ⟨p', hrun⟩ := hrun
  obtain ⟨q, hq, hbook⟩ := hrecovers p p' hp hrun
  obtain ⟨_, hq', hgarbled⟩ := secondRestart_book hio hp hrun
  rw [hq] at hq'
  cases hq'
  -- what was read the first time, and what the probe is read as the second time
  have hfirst : replay (entryCodec.whole es b.length) = .ok p.book := by
    have hreplayed := hlogged.replayed
    rw [List.append_nil, Option.getD_some, hb, entryCodec.readAll_encodeAll,
      entryCodec.readAll_of_none (entryCodec.decode_torn he hmore), List.append_nil] at hreplayed
    exact hreplayed
  rw [hb, List.append_assoc, entryCodec.readAll_encodeAll] at hgarbled
  rw [show entryCodec.encodeAll (logged [_]) = encodeEntry (probe c side) from List.append_nil _]
    at hgarbled
  have hle := replay_count_le (harmless_torn he htorn hmore c side hid) hfirst hgarbled
  -- in the book that should be rebuilt, the probe rests
  rw [show logged [_] = [probe c side] from rfl, replay_append, hfirst] at hbook
  have hone := place_count_rest p.book.flat (probeId c) 0xFFFFFFFFFFFFFFFF side (worstPrice side)
    (by decide : (0 : Quantity) < 0xFFFFFFFFFFFFFFFF) hfree
  rw [← replayEntry_place hlogged.reachable hbook] at hone
  omega

/-- For every log `es` and every byte prefix `b` that a crash may leave of it:
whatever is done after the restart, the next restart rebuilds the book of the
entries wholly in `b` and of those logged since, if and only if `b` ends at the
end of a record. If nothing is logged between the restarts it does so for every
`b`. -/
theorem secondRestart_exact (hb : b <+: entryCodec.encodeAll es) :
    ((∀ inputs, Recovers S profile io es b inputs) ↔
      b = entryCodec.encodeAll (entryCodec.whole es b.length)) ∧
    ∀ inputs, logged inputs = [] → Recovers S profile io es b inputs := by
  refine ⟨⟨fun hall => ?_, fun hwhole => recovers_of_whole hio hwhole⟩,
    fun inputs hidle => recovers_of_idle hio hb hidle⟩
  rcases entryCodec.cut_spec hb with hwhole | ⟨e, torn, more, hsplit, he, htorn, hmore⟩
  · exact hwhole
  · obtain ⟨inputs, hnot⟩ := not_recovers_torn (S := S) hio hsplit he htorn hmore
    exact absurd (hall inputs) hnot

end Restart

/-- A log of one whole record. -/
theorem secondRestart_exact_whole :
    [0, 1, 7, 1, 100, 10] <+: entryCodec.encodeAll [.place 1 7 .ask 100 10] ∧
      ∀ inputs, Recovers StackSlab .checked (fun _ => .ok) [.place 1 7 .ask 100 10]
        [0, 1, 7, 1, 100, 10] inputs := by
  have hcut : [0, 1, 7, 1, 100, 10] <+: entryCodec.encodeAll [.place 1 7 .ask 100 10] := by decide
  exact ⟨hcut, (secondRestart_exact (fun _ => rfl) hcut).1.mpr (by decide)⟩

/-- The crash leaves half of the record of order 1. Order 2 is then placed and
confirmed; after the next restart it is gone and order 1 rests as a bid made of
the bytes of order 2. -/
theorem secondRestart_loses_order :
    [0, 1, 7] <+: entryCodec.encodeAll [.place 1 7 .ask 100 10] ∧
    entryCodec.whole [.place 1 7 .ask 100 10] 3 = [] ∧
    ∃ p p' q : MarketProcessor StackSlab,
      MarketProcessor.new (some [0, 1, 7]) = .ok p ∧
      p.run .checked (fun _ => .ok) [.command 0 (.placeOrder 8 2 .bid 50 5)] = .ok p' ∧
      MarketProcessor.new (some p'.wal.file) = .ok q ∧
      p'.book.flat .bid = [⟨2, 8, 50, 5, .bid, 0⟩] ∧ q.book.flat .bid = [⟨1, 7, 2, 8, .bid, 0⟩] ∧
      ¬ Recovers StackSlab .checked (fun _ => .ok) [.place 1 7 .ask 100 10] [0, 1, 7]
        [.command 0 (.placeOrder 8 2 .bid 50 5)] := by
  refine ⟨by decide, by decide, _, _, _, rfl, rfl, rfl, rfl, rfl, fun hrecovers => ?_⟩
  obtain ⟨q, hq, hbook⟩ := hrecovers _ _ rfl rfl
  have hbids : ∀ book, MarketProcessor.book q = book →
      book.flat .bid = [⟨1, 7, 2, 8, .bid, 0⟩] := by
    cases hq
    rintro _ rfl
    rfl
  have hbids' := hbids _ (Except.ok.inj hbook).symm
  revert hbids'
  decide

end EviceChain.Engine
