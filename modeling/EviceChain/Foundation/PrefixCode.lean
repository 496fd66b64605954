import EviceChain.Foundation.Varint

/-!
# Codes that say where they end

In a prefix code no encoding is a proper beginning of another, so an encoding at
the front of a byte string can be read off without knowing its length. Encodings
of a fixed length are such codes, and so is everything that a decoder reads back
in front of any rest. A record of prefix codes is read off field by field, and a
sequence if the number of its elements stands in front.

`encodeVec` is such a sequence, in the layout of `Varint` for the number.
-/

namespace Foundation

/-- What is encoded and what follows it can be read off. -/
structure PrefixCode {α : Type} (enc : α → List UInt8) : Prop where
  read : ∀ {a b : α} {r s : List UInt8}, enc a ++ r = enc b ++ s → a = b ∧ r = s

namespace PrefixCode

variable {α β : Type} {enc : α → List UInt8}

theorem injective (h : PrefixCode enc) : Function.Injective enc := by
  intro a b heq
  exact (h.read (congrArg (· ++ []) heq)).1

theorem of_decoder {decode : Decoder α}
    (h : ∀ a rest, decode (enc a ++ rest) = some (a, rest)) : PrefixCode enc := by
  refine ⟨fun {a b r s} heq => ?_⟩
  have hread := h a r
  rw [heq, h b s] at hread
  cases hread
  exact ⟨rfl, rfl⟩

theorem of_length {n : Nat} (hlength : ∀ a, (enc a).length = n)
    (hinjective : Function.Injective enc) : PrefixCode enc := by
  refine ⟨fun {a b r s} heq => ?_⟩
  obtain ⟨hab, hrs⟩ := List.append_inj heq ((hlength a).trans (hlength b).symm)
  exact ⟨hinjective hab, hrs⟩

/-- Two sequences of the same number of encodings. -/
theorem flatMap (h : PrefixCode enc) {xs ys : List α} (hlength : xs.length = ys.length)
    {r s : List UInt8} (heq : xs.flatMap enc ++ r = ys.flatMap enc ++ s) : xs = ys ∧ r = s := by
  induction xs generalizing ys with
  | nil =>
    cases ys with
    | nil => exact ⟨rfl, heq⟩
    | cons y ys => cases hlength
  | cons x xs ih =>
    cases ys with
    | nil => cases hlength
    | cons y ys =>
      simp only [List.flatMap_cons, List.append_assoc] at heq
      obtain ⟨rfl, hrest⟩ := h.read heq
      obtain ⟨rfl, hrs⟩ := ih (Nat.succ.inj hlength) hrest
      exact ⟨rfl, hrs⟩

end PrefixCode

theorem varint_prefixCode : PrefixCode Varint.encode := .of_decoder Varint.decode_encode

/-! ## Vectors -/

/-- A vector: no allocation has more than `2 ^ 63 - 1` bytes. -/
abbrev Vec (α : Type) := { xs : List α // xs.length < 2 ^ 63 }

/-- The number of the elements, and one after the other. -/
def encodeVec {α : Type} (enc : α → List UInt8) (v : Vec α) : List UInt8 :=
  Varint.encode (UInt64.ofNat v.1.length) ++ v.1.flatMap enc

theorem PrefixCode.vec {α : Type} {enc : α → List UInt8} (h : PrefixCode enc) :
    PrefixCode (encodeVec enc) := by
  refine ⟨fun {v w r s} heq => ?_⟩
  unfold encodeVec at heq
  rw [List.append_assoc, List.append_assoc] at heq
  obtain ⟨hcount, hrest⟩ := varint_prefixCode.read heq
  have hv : v.1.length < 2 ^ 64 := v.2.trans (by decide)
  have hw : w.1.length < 2 ^ 64 := w.2.trans (by decide)
  have hlength : v.1.length = w.1.length := by
    have htoNat := congrArg UInt64.toNat hcount
    rwa [UInt64.toNat_ofNat_of_lt' hv, UInt64.toNat_ofNat_of_lt' hw] at htoNat
  obtain ⟨helements, hrs⟩ := h.flatMap hlength hrest
  exact ⟨Subtype.ext helements, hrs⟩

end Foundation
