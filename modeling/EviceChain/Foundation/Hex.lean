import Mathlib

/-!
# Hexadecimal text

Bytes as two digits each, the high half first. Digits are written in lower case
and read in either. `hexDecode_hexEncode` is the round trip.
-/

namespace Foundation

/-- The digit for a number below 16. -/
def hexDigit (n : Nat) : Char := Char.ofNat (if n < 10 then n + 48 else n + 87)

/-- The number that a character stands for, if it is a digit. -/
def hexValue? (c : Char) : Option Nat :=
  if c ∈ ['0', '1', '2', '3', '4', '5', '6', '7', '8', '9'] then some (c.toNat - 48)
  else if c ∈ ['a', 'b', 'c', 'd', 'e', 'f'] then some (c.toNat - 87)
  else if c ∈ ['A', 'B', 'C', 'D', 'E', 'F'] then some (c.toNat - 55)
  else none

def hexEncode (bytes : List UInt8) : List Char :=
  bytes.flatMap fun b => [hexDigit (b.toNat / 16), hexDigit (b.toNat % 16)]

/-- Fails on an odd number of characters and on a character that is no digit. -/
def hexDecode : List Char → Option (List UInt8)
  | [] => some []
  | [_] => none
  | hi :: lo :: rest =>
    match hexValue? hi, hexValue? lo, hexDecode rest with
    | some h, some l, some bytes => some (UInt8.ofNat (16 * h + l) :: bytes)
    | _, _, _ => none

theorem hexValue?_hexDigit : ∀ n < 16, hexValue? (hexDigit n) = some n := by
  decide

theorem hexDigit_ne_x : ∀ n < 16, hexDigit n ≠ 'x' := by
  decide

theorem hexDecode_hexEncode (bytes : List UInt8) : hexDecode (hexEncode bytes) = some bytes := by
  induction bytes with
  | nil => rfl
  | cons b bytes ih =>
    have hb : b.toNat < 256 := b.toNat_lt
    have hhalves : 16 * (b.toNat / 16) + b.toNat % 16 = b.toNat := Nat.div_add_mod _ 16
    have hstep : hexEncode (b :: bytes) =
        hexDigit (b.toNat / 16) :: hexDigit (b.toNat % 16) :: hexEncode bytes := rfl
    rw [hstep, hexDecode, hexValue?_hexDigit _ (by omega), hexValue?_hexDigit _ (by omega), ih]
    dsimp only
    rw [hhalves, UInt8.ofNat_toNat]

end Foundation
