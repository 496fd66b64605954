import EviceChain.Engine.OrderBook
import EviceChain.Foundation.Varint

/-!
# The write-ahead log (`zkapp/engine/src/wal.rs`)

A `LogEntry` is written in the `bincode` 2 layout of `config::standard()`:
integers as varints, an enum as the varint `u32` of its variant followed by its
fields in order. The log is the bare concatenation of the entries; `readAll`
decodes entries until the first error.

The file is a byte list, or missing. A `write_entry` encodes into the
`BufWriter` and flushes it. What the operating system makes of the flush is an
outcome per call; bytes that a failed call leaves in the buffer go out with a
later one. That the file can be opened and read is assumed.

`WalHandler.readAll_take` says what is read from a prefix of a log.
-/

namespace EviceChain.Engine

open Foundation

/-! ## Entries and their layout -/

inductive LogEntry
  | place (orderId : OrderId) (userId : UserId) (side : Side) (price : Price)
      (quantity : Quantity)
  | cancel (orderId : OrderId) (userId : UserId)
deriving DecidableEq, Repr

def encodeSide : Side → List UInt8
  | .bid => Varint.encode 0
  | .ask => Varint.encode 1

def encodeEntry : LogEntry → List UInt8
  | .place orderId userId side price quantity =>
    Varint.encode 0 ++ Varint.encode orderId ++ Varint.encode userId ++ encodeSide side ++
      Varint.encode price ++ Varint.encode quantity
  | .cancel orderId userId =>
    Varint.encode 1 ++ Varint.encode orderId ++ Varint.encode userId

/-- A variant number is a `u32`. -/
def decodeVariant : Decoder UInt64 := Varint.decode 4

def decodeU64 : Decoder UInt64 := Varint.decode 8

def decodeSide : Decoder Side := do
  let variant ← decodeVariant
  if variant = 0 then return .bid
  else if variant = 1 then return .ask
  else fun _ => none

def decodePlace : Decoder LogEntry := do
  let orderId ← decodeU64
  let userId ← decodeU64
  let side ← decodeSide
  let price ← decodeU64
  let quantity ← decodeU64
  return .place orderId userId side price quantity

def decodeCancel : Decoder LogEntry := do
  let orderId ← decodeU64
  let userId ← decodeU64
  return .cancel orderId userId

def decodeEntry : Decoder LogEntry := do
  let variant ← decodeVariant
  if variant = 0 then decodePlace
  else if variant = 1 then decodeCancel
  else fun _ => none

/-! ## The codec -/

namespace WalLemmas

theorem decodeU64_encode (n : UInt64) (rest : List UInt8) :
    decodeU64 (Varint.encode n ++ rest) = some (n, rest) :=
  Varint.decode_encode n rest

theorem decodeVariant_zero (rest : List UInt8) : decodeVariant (0 :: rest) = some (0, rest) :=
  Varint.decode_small 4 (by decide) rest

theorem decodeVariant_one (rest : List UInt8) : decodeVariant (1 :: rest) = some (1, rest) :=
  Varint.decode_small 4 (by decide) rest

theorem decodeSide_encode (side : Side) (rest : List UInt8) :
    decodeSide (encodeSide side ++ rest) = some (side, rest) := by
  cases side with
  | bid =>
    show decodeSide (0 :: rest) = _
    rw [decodeSide, Decoder.bind_apply, decodeVariant_zero]
    rfl
  | ask =>
    show decodeSide (1 :: rest) = _
    rw [decodeSide, Decoder.bind_apply, decodeVariant_one]
    rfl

theorem decodeEntry_zero (rest : List UInt8) : decodeEntry (0 :: rest) = decodePlace rest := by
  rw [decodeEntry, Decoder.bind_apply, decodeVariant_zero]
  rfl

theorem decodeEntry_one (rest : List UInt8) : decodeEntry (1 :: rest) = decodeCancel rest := by
  rw [decodeEntry, Decoder.bind_apply, decodeVariant_one]
  rfl

theorem decodeEntry_encode (entry : LogEntry) :
    decodeEntry (encodeEntry entry) = some (entry, []) := by
  cases entry with
  | place orderId userId side price quantity =>
    show decodeEntry (0 :: (Varint.encode orderId ++ Varint.encode userId ++ encodeSide side ++
      Varint.encode price ++ Varint.encode quantity)) = _
    rw [decodeEntry_zero, ← List.append_nil (Varint.encode quantity)]
    simp only [decodePlace, List.append_assoc, Decoder.bind_apply, decodeU64_encode,
      decodeSide_encode, Option.bind_some, Decoder.pure_apply]
  | cancel orderId userId =>
    show decodeEntry (1 :: (Varint.encode orderId ++ Varint.encode userId)) = _
    rw [decodeEntry_one, ← List.append_nil (Varint.encode userId)]
    simp only [decodeCancel, Decoder.bind_apply, decodeU64_encode, Option.bind_some,
      Decoder.pure_apply]

theorem isLocal_decodeSide : decodeSide.IsLocal := by
  refine Decoder.isLocal_bind (Varint.isLocal_decode 4) fun variant => ?_
  split
  · exact Decoder.isLocal_pure _
  · split
    · exact Decoder.isLocal_pure _
    · exact Decoder.isLocal_none

theorem isLocal_decodeEntry : decodeEntry.IsLocal := by
  have hu64 : decodeU64.IsLocal := Varint.isLocal_decode 8
  refine Decoder.isLocal_bind (Varint.isLocal_decode 4) fun variant => ?_
  split
  · refine Decoder.isLocal_bind hu64 fun _ => Decoder.isLocal_bind hu64 fun _ => ?_
    refine Decoder.isLocal_bind isLocal_decodeSide fun _ => ?_
    exact Decoder.isLocal_bind hu64 fun _ => Decoder.isLocal_bind hu64 fun _ =>
      Decoder.isLocal_pure _
  · split
    · exact Decoder.isLocal_bind hu64 fun _ => Decoder.isLocal_bind hu64 fun _ =>
        Decoder.isLocal_pure _
    · exact Decoder.isLocal_none

end WalLemmas

/-- The layout of a log entry as a codec. -/
def entryCodec : Codec LogEntry where
  encode := encodeEntry
  decode := decodeEntry
  isLocal := WalLemmas.isLocal_decodeEntry
  decode_encode := WalLemmas.decodeEntry_encode
  decode_nil := rfl

/-! ## The handler -/

/-- What becomes of one `write_entry` call. When it fails, the first `written`
of the pending bytes have reached the file and the last `lost` never reached
the buffer, which has a capacity. -/
inductive WriteOutcome
  | ok
  | err (written lost : Nat)
deriving DecidableEq, Repr

/-- `file` is what is on disk and `buffer` what the `BufWriter` still holds.
The number of calls made selects the outcome of the next one. -/
structure WalHandler where
  file : List UInt8
  buffer : List UInt8
  calls : Nat
deriving DecidableEq, Repr

namespace WalHandler

/-- Opens the log for appending and creates it if it is missing. -/
def new (disk : Option (List UInt8)) : WalHandler := ⟨disk.getD [], [], 0⟩

/-- Whether the call returned `Ok`, and the handler after it. -/
def writeEntry (io : Nat → WriteOutcome) (wal : WalHandler) (entry : LogEntry) :
    Bool × WalHandler :=
  let pending := wal.buffer ++ encodeEntry entry
  match io wal.calls with
  | .ok => (true, ⟨wal.file ++ pending, [], wal.calls + 1⟩)
  | .err written lost =>
    let kept := pending.take (pending.length - lost)
    (false, ⟨wal.file ++ kept.take written, kept.drop written, wal.calls + 1⟩)

/-- A log that cannot be opened reads as empty. -/
def readAll : Option (List UInt8) → List LogEntry
  | none => []
  | some bytes => entryCodec.readAll bytes

/-- Whatever prefix of a log is read: what is returned are the entries whose bytes are
all there, as they were written; from the whole log, all of them. -/
theorem readAll_take (es : List LogEntry) (n : Nat) :
    (∃ k ≤ es.length, readAll (some ((es.flatMap encodeEntry).take n)) = es.take k ∧
      ∀ m ≤ es.length, m ≤ k ↔ ((es.take m).flatMap encodeEntry).length ≤ n) ∧
    readAll (some (es.flatMap encodeEntry)) = es := by
  constructor
  · have hread := entryCodec.readAll_cut (List.take_prefix n (entryCodec.encodeAll es))
    obtain ⟨k, hk, hwhole, hfits⟩ :=
      entryCodec.whole_eq_take es ((entryCodec.encodeAll es).take n).length
    refine ⟨k, hk, hread.trans hwhole, fun m hm => (hfits m hm).trans ?_⟩
    -- the first `m` encodings are part of the whole log, so only `n` can stop them
    have hle : (entryCodec.encodeAll (es.take m)).length ≤ (entryCodec.encodeAll es).length := by
      conv_rhs => rw [← List.take_append_drop m es]
      rw [Codec.encodeAll, Codec.encodeAll, List.flatMap_append, List.length_append]
      exact Nat.le_add_right _ _
    rw [List.length_take, Nat.le_min]
    exact and_iff_left hle
  · exact entryCodec.readAll_whole es

end WalHandler

end EviceChain.Engine
