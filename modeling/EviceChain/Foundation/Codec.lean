import Mathlib

/-!
# Byte codecs and streams of records

A decoder takes a value off the front of a byte list. It is *local* when what
it returns depends only on the bytes it takes: this holds of the byte decoders
and passes through sequencing. A `Codec` is an encoding with a local decoder
that inverts it. A stream of records without framing is read until the first
record that does not decode.

Results:
1. `Codec.decode_torn`: no record decodes from a strict prefix of an
   encoding;
2. `Codec.readAll_encodeAll`: reading passes over whole encodings;
3. `Codec.cut_spec`, `Codec.readAll_cut`: a prefix of a stream is the encoding of
   the records that lie wholly inside it, followed by a torn rest, and these
   records are what is read from it.
-/

namespace Foundation

/-- A decoder on byte lists: the value and the bytes left over. -/
abbrev Decoder (α : Type) := StateT (List UInt8) Option α

namespace Decoder

variable {α β : Type}

theorem bind_apply (d : Decoder α) (f : α → Decoder β) (bytes : List UInt8) :
    (d >>= f) bytes = (d bytes).bind fun r => f r.1 r.2 := rfl

theorem pure_apply (a : α) (bytes : List UInt8) :
    (pure a : Decoder α) bytes = some (a, bytes) := rfl

/-- Whatever the decoder returns, it returns on the strength of the bytes it
takes. -/
def IsLocal (d : Decoder α) : Prop :=
  ∀ bytes a rest, d bytes = some (a, rest) →
    ∃ used, bytes = used ++ rest ∧ ∀ more, d (used ++ more) = some (a, more)

theorem isLocal_pure (a : α) : IsLocal (pure a : Decoder α) := by
  intro bytes b rest h
  cases h
  exact ⟨[], rfl, fun _ => rfl⟩

theorem isLocal_none : IsLocal (fun _ => none : Decoder α) := by
  intro _ _ _ h
  cases h

theorem isLocal_bind {d : Decoder α} {f : α → Decoder β} (hd : IsLocal d)
    (hf : ∀ a, IsLocal (f a)) : IsLocal (d >>= f) := by
  intro bytes b rest h
  obtain ⟨⟨a, mid⟩, ha, hb⟩ := Option.bind_eq_some_iff.mp h
  obtain ⟨used₁, rfl, hmore₁⟩ := hd _ _ _ ha
  obtain ⟨used₂, rfl, hmore₂⟩ := hf a _ _ _ hb
  refine ⟨used₁ ++ used₂, (List.append_assoc ..).symm, ?_⟩
  intro more
  rw [List.append_assoc]
  exact Option.bind_eq_some_iff.mpr ⟨_, hmore₁ _, hmore₂ more⟩

/-- One byte. -/
def byte : Decoder UInt8
  | [] => none
  | b :: rest => some (b, rest)

theorem isLocal_byte : IsLocal byte := by
  intro bytes b rest h
  cases bytes with
  | nil => cases h
  | cons c cs =>
    cases h
    exact ⟨[b], rfl, fun _ => rfl⟩

/-- The next `n` bytes. -/
def bytes (n : Nat) : Decoder (List UInt8) := fun input =>
  if n ≤ input.length then some (input.take n, input.drop n) else none

theorem bytes_append {n : Nat} {used : List UInt8} (h : used.length = n) (rest : List UInt8) :
    bytes n (used ++ rest) = some (used, rest) := by
  subst h
  simp [bytes]

theorem isLocal_bytes (n : Nat) : IsLocal (bytes n) := by
  intro input used rest h
  by_cases hn : n ≤ input.length
  · rw [bytes, if_pos hn] at h
    cases h
    refine ⟨input.take n, (List.take_append_drop n input).symm, ?_⟩
    intro more
    exact bytes_append (List.length_take_of_le hn) more
  · rw [bytes, if_neg hn] at h
    cases h

end Decoder

/-- An encoding of values as bytes with a decoder for it. -/
structure Codec (α : Type) where
  encode : α → List UInt8
  decode : Decoder α
  isLocal : decode.IsLocal
  decode_encode : ∀ a, decode (encode a) = some (a, [])
  decode_nil : decode [] = none

namespace Codec

variable {α : Type} (c : Codec α)

theorem decode_append (a : α) (rest : List UInt8) :
    c.decode (c.encode a ++ rest) = some (a, rest) := by
  obtain ⟨used, hused, hmore⟩ := c.isLocal _ _ _ (c.decode_encode a)
  rw [List.append_nil] at hused
  rw [hused]
  exact hmore rest

/-- A decoded record has taken at least one byte. -/
theorem decode_progress {bytes rest : List UInt8} {a : α}
    (h : c.decode bytes = some (a, rest)) : rest.length < bytes.length := by
  obtain ⟨used, rfl, hmore⟩ := c.isLocal _ _ _ h
  cases used with
  | nil =>
    have hnil := hmore []
    rw [List.append_nil, c.decode_nil] at hnil
    cases hnil
  | cons b used =>
    simp only [List.cons_append, List.length_cons, List.length_append]
    omega

/-- A record cut short does not decode, not even to another record. -/
theorem decode_torn {a : α} {t more : List UInt8} (h : c.encode a = t ++ more)
    (hmore : more ≠ []) : c.decode t = none := by
  cases ht : c.decode t with
  | none => rfl
  | some r =>
    obtain ⟨b, rest⟩ := r
    obtain ⟨used, rfl, hlocal⟩ := c.isLocal _ _ _ ht
    have hwhole := c.decode_encode a
    rw [h, List.append_assoc, hlocal] at hwhole
    obtain ⟨-, hnil⟩ := Prod.mk.inj (Option.some.inj hwhole)
    exact absurd (List.append_eq_nil_iff.mp hnil).2 hmore

/-! ## Streams -/

def encodeAll (as : List α) : List UInt8 := as.flatMap c.encode

/-- Reads records until the first that does not decode. -/
def readUpTo : Nat → List UInt8 → List α
  | 0, _ => []
  | fuel + 1, bytes =>
    match c.decode bytes with
    | none => []
    | some (a, rest) => a :: readUpTo fuel rest

/-- Every record takes a byte, so the length of the input bounds their number. -/
def readAll (bytes : List UInt8) : List α := c.readUpTo bytes.length bytes

theorem readUpTo_fuel {fuel : Nat} {bytes : List UInt8} (h : bytes.length ≤ fuel) :
    c.readUpTo fuel bytes = c.readAll bytes := by
  suffices ∀ n fuel (bytes : List UInt8), bytes.length ≤ n → bytes.length ≤ fuel →
      c.readUpTo fuel bytes = c.readUpTo n bytes from this _ _ _ (Nat.le_refl _) h
  intro n
  induction n with
  | zero =>
    intro fuel bytes hn _
    obtain rfl := List.length_eq_zero_iff.mp (Nat.le_zero.mp hn)
    cases fuel with
    | zero => rfl
    | succ fuel => simp only [readUpTo, c.decode_nil]
  | succ n ih =>
    intro fuel bytes hn hfuel
    cases fuel with
    | zero =>
      obtain rfl := List.length_eq_zero_iff.mp (Nat.le_zero.mp hfuel)
      simp only [readUpTo, c.decode_nil]
    | succ fuel =>
      simp only [readUpTo]
      split
      · rfl
      · next a rest hdecode =>
        have := c.decode_progress hdecode
        rw [ih fuel rest (by omega) (by omega)]

theorem readAll_of_none {bytes : List UInt8} (h : c.decode bytes = none) :
    c.readAll bytes = [] := by
  rw [← c.readUpTo_fuel (Nat.le_succ _), readUpTo, h]

theorem readAll_of_some {bytes rest : List UInt8} {a : α}
    (h : c.decode bytes = some (a, rest)) : c.readAll bytes = a :: c.readAll rest := by
  have hlt := c.decode_progress h
  rw [← c.readUpTo_fuel (Nat.le_succ _), readUpTo, h]
  exact congrArg _ (c.readUpTo_fuel (by omega))

theorem readAll_encodeAll (as : List α) (tail : List UInt8) :
    c.readAll (c.encodeAll as ++ tail) = as ++ c.readAll tail := by
  induction as with
  | nil => rfl
  | cons a as ih =>
    rw [encodeAll, List.flatMap_cons, List.append_assoc, c.readAll_of_some (c.decode_append a _),
      List.cons_append]
    exact congrArg _ ih

theorem readAll_whole (as : List α) : c.readAll (c.encodeAll as) = as := by
  have hread := c.readAll_encodeAll as []
  rwa [c.readAll_of_none c.decode_nil, List.append_nil, List.append_nil] at hread

/-- The records that lie wholly inside the first `n` bytes of their encoding. -/
def whole : List α → Nat → List α
  | [], _ => []
  | a :: as, n =>
    if (c.encode a).length ≤ n then a :: whole as (n - (c.encode a).length) else []

/-- They are the first `k`, for the largest `k` whose encodings fit. -/
theorem whole_eq_take (as : List α) (n : Nat) :
    ∃ k ≤ as.length, c.whole as n = as.take k ∧
      ∀ m ≤ as.length, m ≤ k ↔ (c.encodeAll (as.take m)).length ≤ n := by
  induction as generalizing n with
  | nil =>
    refine ⟨0, Nat.le_refl _, rfl, fun m hm => ?_⟩
    rw [List.take_nil]
    exact ⟨fun _ => Nat.zero_le _, fun _ => hm⟩
  | cons a as ih =>
    by_cases hlen : (c.encode a).length ≤ n
    · obtain ⟨k, hk, hwhole, hfits⟩ := ih (n - (c.encode a).length)
      refine ⟨k + 1, Nat.succ_le_succ hk, ?_, ?_⟩
      · rw [whole, if_pos hlen, hwhole, List.take_succ_cons]
      · intro m hm
        cases m with
        | zero => exact ⟨fun _ => Nat.zero_le _, fun _ => Nat.zero_le _⟩
        | succ m =>
          have hrest := hfits m (Nat.le_of_succ_le_succ hm)
          rw [encodeAll] at hrest
          rw [List.take_succ_cons, encodeAll, List.flatMap_cons, List.length_append]
          omega
    · refine ⟨0, Nat.zero_le _, ?_, ?_⟩
      · rw [whole, if_neg hlen, List.take_zero]
      · intro m _
        cases m with
        | zero => exact ⟨fun _ => Nat.zero_le _, fun _ => Nat.le_refl _⟩
        | succ m =>
          rw [List.take_succ_cons, encodeAll, List.flatMap_cons, List.length_append]
          omega

/-- A stream cut anywhere: the records wholly before the cut, and then nothing
or a torn record, which is a nonempty strict prefix of an encoding. -/
theorem cut_spec {as : List α} {bytes : List UInt8} (h : bytes <+: c.encodeAll as) :
    bytes = c.encodeAll (c.whole as bytes.length) ∨
      ∃ a torn more, bytes = c.encodeAll (c.whole as bytes.length) ++ torn ∧
        c.encode a = torn ++ more ∧ torn ≠ [] ∧ more ≠ [] := by
  induction as generalizing bytes with
  | nil =>
    obtain rfl := List.prefix_nil.mp h
    exact .inl rfl
  | cons a as ih =>
    rw [encodeAll, List.flatMap_cons] at h
    obtain ⟨after, hafter⟩ := h
    by_cases hlen : (c.encode a).length ≤ bytes.length
    · -- the first record is whole: cut the others at what is left
      obtain ⟨rest, rfl⟩ : c.encode a <+: bytes :=
        List.prefix_of_prefix_length_le (List.prefix_append _ _) ⟨after, hafter⟩ hlen
      have hrest : rest <+: c.encodeAll as :=
        ⟨after, by rwa [List.append_assoc, List.append_cancel_left_eq] at hafter⟩
      have hwhole : c.whole (a :: as) (c.encode a ++ rest).length =
          a :: c.whole as rest.length := by
        rw [whole, if_pos hlen, List.length_append, Nat.add_sub_cancel_left]
      rw [hwhole, encodeAll, List.flatMap_cons]
      obtain heq | ⟨b, torn, more, heq, hb⟩ := ih hrest
      · exact .inl (congrArg _ heq)
      · refine .inr ⟨b, torn, more, ?_, hb⟩
        rw [List.append_assoc]
        exact congrArg _ heq
    · obtain ⟨more, hmore⟩ : bytes <+: c.encode a :=
        List.prefix_of_prefix_length_le ⟨after, hafter⟩ (List.prefix_append _ _) (by omega)
      rw [whole, if_neg hlen]
      cases bytes with
      | nil => exact .inl rfl
      | cons b bytes =>
        refine .inr ⟨a, b :: bytes, more, rfl, hmore.symm, List.cons_ne_nil _ _, ?_⟩
        rintro rfl
        rw [List.append_nil] at hmore
        exact hlen (Nat.le_of_eq (by rw [hmore]))

/-- Reading a stream cut anywhere returns the records wholly before the cut. -/
theorem readAll_cut {as : List α} {bytes : List UInt8} (h : bytes <+: c.encodeAll as) :
    c.readAll bytes = c.whole as bytes.length := by
  obtain hwhole | ⟨a, torn, more, htorn, ha, -, hmore⟩ := c.cut_spec h
  · conv_lhs => rw [hwhole, ← List.append_nil (c.encodeAll _), c.readAll_encodeAll]
    exact List.append_nil _
  · conv_lhs => rw [htorn, c.readAll_encodeAll, c.readAll_of_none (c.decode_torn ha hmore)]
    exact List.append_nil _

theorem readAll_prefix {as : List α} {bytes : List UInt8} (h : bytes <+: c.encodeAll as) :
    c.readAll bytes = as.take (c.readAll bytes).length := by
  obtain ⟨k, hk, hwhole, -⟩ := c.whole_eq_take as bytes.length
  rw [c.readAll_cut h, hwhole, List.length_take, Nat.min_eq_left hk]

end Codec

end Foundation
