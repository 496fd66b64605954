import EviceChain.Foundation.Codec

/-!
# Variable-length integers

The variable-length little-endian layout of unsigned integers: a value below
251 is one byte; otherwise a marker 251, 252 or 253 is followed by two, four or
eight bytes, least significant first. The markers 254 and 255 belong to wider
integers. A decoder takes any of the layouts that fit the width it reads, also
when a shorter one would do.
-/

namespace Foundation

/-- The `w` lowest bytes of `n`, least significant first. -/
def toBytesLE : Nat → Nat → List UInt8
  | 0, _ => []
  | w + 1, n => UInt8.ofNat n :: toBytesLE w (n / 256)

def ofBytesLE : List UInt8 → Nat
  | [] => 0
  | b :: bs => b.toNat + 256 * ofBytesLE bs

theorem length_toBytesLE (w n : Nat) : (toBytesLE w n).length = w := by
  induction w generalizing n with
  | zero => rfl
  | succ w ih => rw [toBytesLE, List.length_cons, ih]

theorem ofBytesLE_toBytesLE {w n : Nat} (h : n < 256 ^ w) : ofBytesLE (toBytesLE w n) = n := by
  induction w generalizing n with
  | zero =>
    rw [Nat.pow_zero, Nat.lt_one_iff] at h
    exact h.symm
  | succ w ih =>
    rw [Nat.pow_succ] at h
    rw [toBytesLE, ofBytesLE, ih (by omega), UInt8.toNat_ofNat']
    omega

namespace Varint

/-- The marker of a layout and the number of bytes behind it. -/
def widthOf (marker : UInt8) : Option Nat :=
  if marker = 251 then some 2
  else if marker = 252 then some 4
  else if marker = 253 then some 8
  else none

def encode (n : UInt64) : List UInt8 :=
  if n < 251 then [n.toUInt8]
  else if n < 0x10000 then 251 :: toBytesLE 2 n.toNat
  else if n < 0x100000000 then 252 :: toBytesLE 4 n.toNat
  else 253 :: toBytesLE 8 n.toNat

/-- The decoder of an integer of at most `maxWidth` bytes. -/
def decode (maxWidth : Nat) : Decoder UInt64 := do
  let marker ← Decoder.byte
  if marker < 251 then return marker.toUInt64
  else
    match widthOf marker with
    | none => fun _ => none
    | some w =>
      if w ≤ maxWidth then
        return UInt64.ofNat (ofBytesLE (← Decoder.bytes w))
      else fun _ => none

theorem isLocal_decode (maxWidth : Nat) : (decode maxWidth).IsLocal := by
  refine Decoder.isLocal_bind Decoder.isLocal_byte fun marker => ?_
  split
  · exact Decoder.isLocal_pure _
  · split
    · exact Decoder.isLocal_none
    · split
      · exact Decoder.isLocal_bind (Decoder.isLocal_bytes _) fun _ => Decoder.isLocal_pure _
      · exact Decoder.isLocal_none

theorem decode_small {marker : UInt8} (maxWidth : Nat) (h : marker < 251) (rest : List UInt8) :
    decode maxWidth (marker :: rest) = some (marker.toUInt64, rest) := by
  show (if marker < 251 then (pure marker.toUInt64 : Decoder UInt64) else _) rest = _
  rw [if_pos h]
  rfl

theorem decode_wide {marker : UInt8} {maxWidth w : Nat} (hw : widthOf marker = some w)
    (hmax : w ≤ maxWidth) {payload : List UInt8} (hlen : payload.length = w)
    (rest : List UInt8) :
    decode maxWidth (marker :: (payload ++ rest)) =
      some (UInt64.ofNat (ofBytesLE payload), rest) := by
  have hmarker : ¬ marker < 251 := by
    unfold widthOf at hw
    split at hw
    · next h => rw [h]; decide
    · split at hw
      · next h => rw [h]; decide
      · split at hw
        · next h => rw [h]; decide
        · cases hw
  have hpayload := Decoder.bytes_append hlen rest
  simp [decode, Decoder.byte, hmarker, hw, hmax, hpayload, bind, StateT.bind, StateT.pure, pure]

/-- The two shapes of an encoding: one small byte, or a marker and a payload. -/
theorem encode_cases (n : UInt64) :
    (∃ b : UInt8, b < 251 ∧ b.toUInt64 = n ∧ encode n = [b]) ∨
      ∃ marker w, widthOf marker = some w ∧ w ≤ 8 ∧ n.toNat < 256 ^ w ∧
        encode n = marker :: toBytesLE w n.toNat := by
  have hlt : n.toNat < 256 ^ 8 := n.toNat_lt
  unfold encode
  split
  · next h =>
    rw [UInt64.lt_iff_toNat_lt] at h
    refine .inl ⟨n.toUInt8, ?_, ?_, rfl⟩
    · rw [UInt8.lt_iff_toNat_lt, UInt64.toNat_toUInt8]
      simp at h ⊢
      omega
    · apply UInt64.toNat_inj.mp
      simp at h ⊢
      omega
  · split
    · next h =>
      rw [UInt64.lt_iff_toNat_lt] at h
      exact .inr ⟨251, 2, rfl, by decide, by simpa using h, rfl⟩
    · split
      · next h =>
        rw [UInt64.lt_iff_toNat_lt] at h
        exact .inr ⟨252, 4, rfl, by decide, by simpa using h, rfl⟩
      · exact .inr ⟨253, 8, rfl, by decide, hlt, rfl⟩

theorem length_encode_le (n : UInt64) : (encode n).length ≤ 9 := by
  obtain ⟨b, -, -, he⟩ | ⟨marker, w, -, hmax, -, he⟩ := encode_cases n
  · rw [he, List.length_singleton]
    decide
  · rw [he, List.length_cons, length_toBytesLE]
    omega

theorem length_encode_byte {n : UInt64} (h : n < 251) : (encode n).length = 1 := by
  rw [encode, if_pos h]
  rfl

theorem length_encode_short {n : UInt64} (h : ¬ n < 251) (h' : n < 0x10000) :
    (encode n).length = 3 := by
  rw [encode, if_neg h, if_pos h', List.length_cons, length_toBytesLE]

theorem decode_encode (n : UInt64) (rest : List UInt8) :
    decode 8 (encode n ++ rest) = some (n, rest) := by
  obtain ⟨b, hb, rfl, he⟩ | ⟨marker, w, hw, hmax, hn, he⟩ := encode_cases n
  · rw [he]
    exact decode_small 8 hb rest
  · rw [he, List.cons_append, decode_wide hw hmax (length_toBytesLE w _),
      ofBytesLE_toBytesLE hn, UInt64.ofNat_toNat]

/-- An integer cut short takes the bytes it misses from whatever follows. -/
theorem decode_torn {n : UInt64} {t more : List UInt8} (h : encode n = t ++ more) (ht : t ≠ [])
    (rest : List UInt8) (hlen : more.length ≤ rest.length) :
    ∃ m, decode 8 (t ++ rest) = some (m, rest.drop more.length) := by
  cases t with
  | nil => exact absurd rfl ht
  | cons marker t =>
    obtain ⟨b, hb, -, he⟩ | ⟨marker', w, hw, hmax, -, he⟩ := encode_cases n
    · rw [he, List.cons_append, List.cons.injEq] at h
      obtain ⟨rfl, h⟩ := h
      obtain ⟨rfl, rfl⟩ := List.append_eq_nil_iff.mp h.symm
      exact ⟨_, decode_small 8 hb rest⟩
    · rw [he, List.cons_append, List.cons.injEq] at h
      obtain ⟨rfl, h⟩ := h
      have hw' : (t ++ rest.take more.length).length = w := by
        rw [List.length_append, List.length_take_of_le hlen, ← List.length_append, ← h,
          length_toBytesLE]
      have hdecode := decode_wide hw hmax hw' (rest.drop more.length)
      rw [List.append_assoc, List.take_append_drop] at hdecode
      exact ⟨_, hdecode⟩

end Varint

end Foundation
