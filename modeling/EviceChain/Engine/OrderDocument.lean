import EviceChain.Engine.OrderEntry

/-!
# Orders as JSON documents (`evice_place_order` in `zkapp/ffi/src/lib.rs`)

The C interface reads an order out of a JSON document of any shape. A member that is
missing or has another type falls back: the ids to 0, and a side that is not one of
three spellings of `ask` to a bid. Only the price and the quantity are checked
afterwards, since their fallback 0 is refused.

`Json` is `serde_json::Value`; how a text is parsed is a parameter.

Results:
1. `placeOrder_given_iff`: the call places the order of the document, or refuses and
   leaves the book alone, if and only if the document does not let it get as far as the
   placement, or gives both ids and a side;
2. `placeOrder_invents`: a document with a price and a quantity alone, and one that
   sells, are both placed as bids.
-/

namespace EviceChain.Engine

open Foundation

variable {S : Type → Type} [SlabLike S]

/-- `serde_json::Number`; a floating-point number is given by its bits. -/
inductive JsonNumber
  | posInt (n : UInt64)
  | negInt (n : Int64)
  | float (bits : UInt64)
deriving DecidableEq, Repr

inductive Json
  | null
  | bool (b : Bool)
  | number (n : JsonNumber)
  | string (s : String)
  | array (elements : List Json)
  | object (members : List (String × Json))

namespace Json

/-- `value[key]`: null if the value is not an object or has no such member. -/
def index (key : String) : Json → Json
  | object members => ((members.find? (·.1 = key)).map Prod.snd).getD null
  | _ => null

def asU64 : Json → Option UInt64
  | number (.posInt n) => some n
  | _ => none

def asStr : Json → Option String
  | string s => some s
  | _ => none

/-- The members that `evice_place_order` reads. -/
def order (doc : Json) : OrderJson where
  orderId := (doc.index "order_id").asU64
  userId := (doc.index "user_id").asU64
  side := (doc.index "side").asStr
  price := (doc.index "price").asU64
  quantity := (doc.index "quantity").asU64

end Json

/-! ## What a document gives -/

/-- The side that a text spells, in lower case, capitalised or in upper case. -/
def spelledSide (text : String) : Option Side :=
  if text = "bid" ∨ text = "Bid" ∨ text = "BID" then some .bid
  else if text = "ask" ∨ text = "Ask" ∨ text = "ASK" then some .ask
  else none

/-- The document gives the order. -/
structure Gives (doc : Json) (orderId : OrderId) (userId : UserId) (side : Side) (price : Price)
    (quantity : Quantity) : Prop where
  orderId : doc.index "order_id" = .number (.posInt orderId)
  userId : doc.index "user_id" = .number (.posInt userId)
  side : ∃ text, doc.index "side" = .string text ∧ spelledSide text = some side
  price : doc.index "price" = .number (.posInt price)
  quantity : doc.index "quantity" = .number (.posInt quantity)

/-- The price or the quantity is missing, no `u64` or 0. -/
def Refused (doc : Json) : Prop :=
  (doc.index "price").asU64.getD 0 = 0 ∨ (doc.index "quantity").asU64.getD 0 = 0

instance (doc : Json) : Decidable (Refused doc) :=
  inferInstanceAs (Decidable
    ((doc.index "price").asU64.getD 0 = 0 ∨ (doc.index "quantity").asU64.getD 0 = 0))

/-- Both ids are given as a `u64`, and the side in one of its spellings. -/
def Identified (doc : Json) : Prop :=
  (doc.index "order_id").asU64.isSome ∧ (doc.index "user_id").asU64.isSome ∧
    ∃ text, doc.index "side" = .string text ∧ (spelledSide text).isSome

/-- The call places the order that the document gives, or it hands out a null pointer and
leaves the engine as it was. -/
def PlacesGiven (profile : Profile) (parse : String → Option Json)
    (engine : Option (OrderBook S)) (text : String) : Prop :=
  ∃ reply engine',
    ffiCall profile (fun text => (parse text).map Json.order) engine
      (.evicePlaceOrder (some text)) = .ok (reply, engine') ∧
    (reply = .null ∧ engine' = engine ∨
      ∃ book doc orderId userId side price quantity events book',
        engine = some book ∧ parse text = some doc ∧
        Gives doc orderId userId side price quantity ∧
        placeLimitOrder book orderId userId side price quantity = .ok (events, book') ∧
        reply = .placed orderId (eventsToFillsJson events) (eventsToFillsJson events).length ∧
        engine' = some book')

namespace OrderDocumentLemmas

theorem asU64_eq_some {doc : Json} {n : UInt64} :
    doc.asU64 = some n ↔ doc = .number (.posInt n) := by
  constructor
  · intro h
    unfold Json.asU64 at h
    split at h
    · cases h
      rfl
    · cases h
  · rintro rfl
    rfl

theorem asU64_of_getD_ne {doc : Json} (h : doc.asU64.getD 0 ≠ 0) :
    doc = .number (.posInt (doc.asU64.getD 0)) := by
  cases hdoc : doc.asU64 with
  | none =>
    rw [hdoc] at h
    exact (h rfl).elim
  | some n => exact asU64_eq_some.mp hdoc

/-- The code reads the spelled sides as they are. -/
theorem sideOfText_spelled {text : String} {side : Side} (h : spelledSide text = some side) :
    sideOfText text = side := by
  unfold spelledSide at h
  unfold sideOfText
  split at h
  · next hbid =>
    cases h
    rcases hbid with rfl | rfl | rfl <;> decide
  · next hbid =>
    rw [Option.ite_none_right_eq_some] at h
    rw [if_pos h.1]
    exact Option.some.inj h.2

section

variable {profile : Profile} {parse : String → Option Json} {book : OrderBook S} {text : String}
  {doc : Json}

theorem ffiCall_refused (hparse : parse text = some doc) (h : Refused doc) :
    ffiCall profile (fun text => (parse text).map Json.order) (some book)
      (.evicePlaceOrder (some text)) = .ok (.null, some book) := by
  unfold ffiCall
  simp only [hparse, Option.map_some]
  exact if_pos h

theorem ffiCall_placed (hparse : parse text = some doc) (h : ¬Refused doc) :
    ffiCall profile (fun text => (parse text).map Json.order) (some book)
      (.evicePlaceOrder (some text)) = do
        let (events, book) ← placeLimitOrder book (doc.order.orderId.getD 0)
          (doc.order.userId.getD 0) (sideOfText (doc.order.side.getD "bid"))
          (doc.order.price.getD 0) (doc.order.quantity.getD 0)
        return (.placed (doc.order.orderId.getD 0) (eventsToFillsJson events)
          (eventsToFillsJson events).length, some book) := by
  unfold ffiCall
  simp only [hparse, Option.map_some]
  exact if_neg h

/-- What is placed for an identified document is what it gives. -/
theorem gives_of_identified (h : Identified doc) (hrefused : ¬Refused doc) :
    Gives doc (doc.order.orderId.getD 0) (doc.order.userId.getD 0)
      (sideOfText (doc.order.side.getD "bid")) (doc.order.price.getD 0)
      (doc.order.quantity.getD 0) := by
  obtain ⟨hid, huser, text, htext, hspelled⟩ := h
  obtain ⟨hprice, hquantity⟩ := not_or.mp hrefused
  obtain ⟨orderId, hid⟩ := Option.isSome_iff_exists.mp hid
  obtain ⟨userId, huser⟩ := Option.isSome_iff_exists.mp huser
  obtain ⟨side, hside⟩ := Option.isSome_iff_exists.mp hspelled
  refine ⟨?_, ?_, ⟨text, htext, ?_⟩, asU64_of_getD_ne hprice, asU64_of_getD_ne hquantity⟩
  · rw [Json.order, hid]
    exact asU64_eq_some.mp hid
  · rw [Json.order, huser]
    exact asU64_eq_some.mp huser
  · have hread : doc.order.side = some text := by
      rw [Json.order, htext]
      rfl
    rw [hread, Option.getD_some, sideOfText_spelled hside, hside]

end

end OrderDocumentLemmas

open OrderDocumentLemmas

section

variable {profile : Profile} {parse : String → Option Json} {book : OrderBook S} {text : String}
  {doc : Json}

/-- What is placed is a document that gives everything. -/
theorem identified_of_placesGiven (h : PlacesGiven profile parse (some book) text)
    (hparse : parse text = some doc) (hrefused : ¬Refused doc) : Identified doc := by
  obtain ⟨reply, engine', hcall, houtcome⟩ := h
  rw [ffiCall_placed hparse hrefused] at hcall
  obtain ⟨⟨events, book'⟩, -, hreply⟩ := bind_eq_ok.mp hcall
  cases hreply
  rcases houtcome with ⟨hnull, -⟩ | ⟨_, doc', id, user, side, price, quantity, _, _, -, hdoc,
    hgives, -⟩
  · cases hnull
  · rw [hparse] at hdoc
    cases hdoc
    obtain ⟨given, htext, hspelled⟩ := hgives.side
    refine ⟨?_, ?_, given, htext, by rw [hspelled]; rfl⟩
    · rw [hgives.orderId]
      rfl
    · rw [hgives.userId]
      rfl

/-- What a document gives is placed. -/
theorem placesGiven_of_identified (hreach : Reachable book) (hparse : parse text = some doc)
    (h : Identified doc) (hrefused : ¬Refused doc) :
    PlacesGiven profile parse (some book) text := by
  have hgives := gives_of_identified h hrefused
  obtain ⟨book', hplace, -, -⟩ := placeLimitOrder_spec hreach.inv (doc.order.orderId.getD 0)
    (doc.order.userId.getD 0) (sideOfText (doc.order.side.getD "bid")) (doc.order.price.getD 0)
    (doc.order.quantity.getD 0)
  refine ⟨_, some book', ?_, .inr ⟨book, doc, _, _, _, _, _, _, book', rfl, hparse, hgives,
    hplace, rfl, rfl⟩⟩
  rw [ffiCall_placed hparse hrefused, hplace]
  rfl

end

/-- On every text and every book that can be reached, or before there is one, the call
places the order of the document or refuses, if and only if a document that it reads has
no usable price or quantity, or gives both ids and a side. -/
theorem placeOrder_given_iff (profile : Profile) (parse : String → Option Json)
    {engine : Option (OrderBook S)} (hreach : ∀ book, engine = some book → Reachable book)
    (text : String) :
    PlacesGiven profile parse engine text ↔
      ∀ book doc, engine = some book → parse text = some doc → Refused doc ∨ Identified doc := by
  constructor
  · rintro h book doc rfl hparse
    by_cases hrefused : Refused doc
    · exact .inl hrefused
    · exact .inr (identified_of_placesGiven h hparse hrefused)
  · intro h
    cases engine with
    | none => exact ⟨.null, none, rfl, .inl ⟨rfl, rfl⟩⟩
    | some book =>
      cases hparse : parse text with
      | none =>
        refine ⟨.null, some book, ?_, .inl ⟨rfl, rfl⟩⟩
        unfold ffiCall
        simp only [hparse, Option.map_none]
      | some doc =>
        by_cases hrefused : Refused doc
        · exact ⟨.null, some book, ffiCall_refused hparse hrefused, .inl ⟨rfl, rfl⟩⟩
        · exact placesGiven_of_identified (hreach book rfl) hparse
            ((h book doc rfl hparse).resolve_left hrefused) hrefused

/-- A document with the given members, a price and a quantity. -/
def orderDocument (others : List (String × Json)) : Json :=
  .object (others ++
    [("price", .number (.posInt 100)), ("quantity", .number (.posInt 5))])

/-- All that an order has. -/
def completeText : String :=
  "\x7b\"order_id\":1,\"user_id\":7,\"side\":\"Ask\",\"price\":100,\"quantity\":5\x7d"

/-- Neither ids nor a side. -/
def bareText : String := "\x7b\"price\":100,\"quantity\":5\x7d"

/-- A side that is none of the spellings. -/
def sellText : String :=
  "\x7b\"order_id\":1,\"user_id\":7,\"side\":\"sell\",\"price\":100,\"quantity\":5\x7d"

/-- What `serde_json` reads in the three texts. -/
def parseOrderText (text : String) : Option Json :=
  if text = completeText then
    some (orderDocument [("order_id", .number (.posInt 1)), ("user_id", .number (.posInt 7)),
      ("side", .string "Ask")])
  else if text = bareText then some (orderDocument [])
  else if text = sellText then
    some (orderDocument [("order_id", .number (.posInt 1)), ("user_id", .number (.posInt 7)),
      ("side", .string "sell")])
  else none

/-- A complete document. -/
theorem placeOrder_given_complete :
    (∃ doc, parseOrderText completeText = some doc ∧ ¬Refused doc ∧ Identified doc) ∧
      PlacesGiven .checked parseOrderText (some (OrderBook.new : OrderBook StackSlab))
        completeText := by
  have hidentified : Identified (orderDocument [("order_id", .number (.posInt 1)),
      ("user_id", .number (.posInt 7)), ("side", .string "Ask")]) :=
    ⟨rfl, rfl, "Ask", rfl, rfl⟩
  refine ⟨⟨_, if_pos rfl, by decide, hidentified⟩,
    (placeOrder_given_iff _ _ (fun book h => ?_) completeText).mpr ?_⟩
  · cases h
    exact .new
  · intro book doc _ hdoc
    cases (if_pos rfl).symm.trans hdoc
    exact .inr hidentified

/-- A document without ids and side, and one with the side `sell`: a bid is placed. -/
theorem placeOrder_invents :
    (∃ reply book', ffiCall .checked (fun text => (parseOrderText text).map Json.order)
        (some (OrderBook.new : OrderBook StackSlab)) (.evicePlaceOrder (some bareText)) =
          .ok (reply, some book') ∧
      book'.flat .bid = [⟨0, 0, 100, 5, .bid, 0⟩]) ∧
    ∃ reply book', ffiCall .checked (fun text => (parseOrderText text).map Json.order)
        (some (OrderBook.new : OrderBook StackSlab)) (.evicePlaceOrder (some sellText)) =
          .ok (reply, some book') ∧
      book'.flat .bid = [⟨1, 7, 100, 5, .bid, 0⟩] := by
  have hbare : parseOrderText bareText = some (orderDocument []) := rfl
  have hsell : parseOrderText sellText = some (orderDocument [("order_id", .number (.posInt 1)),
      ("user_id", .number (.posInt 7)), ("side", .string "sell")]) := rfl
  exact ⟨⟨_, _, ffiCall_placed hbare (by decide), rfl⟩, _, _,
    ffiCall_placed hsell (by decide), rfl⟩

end EviceChain.Engine
