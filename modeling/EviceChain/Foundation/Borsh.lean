import EviceChain.Foundation.Varint

/-!
# Length-prefixed sequences

The layout of sequences in `borsh`: the number of elements as four bytes, least
significant first, and then the elements one after the other. A sequence whose
number does not fit into 32 bits is refused when it is written. A reader takes what
it reads off the front of its input and leaves the rest.
-/

namespace Foundation

namespace Borsh

def writeLength (n : Nat) : Option (List UInt8) :=
  if n < 2 ^ 32 then some (toBytesLE 4 n) else none

def readLength : Decoder Nat := do
  return ofBytesLE (← Decoder.bytes 4)

theorem readLength_append {n : Nat} {bytes : List UInt8} (h : writeLength n = some bytes)
    (rest : List UInt8) : readLength (bytes ++ rest) = some (n, rest) := by
  obtain ⟨hn, h⟩ := Option.ite_none_right_eq_some.mp h
  cases h
  rw [readLength, Decoder.bind_apply, Decoder.bytes_append (length_toBytesLE 4 n)]
  show some (ofBytesLE (toBytesLE 4 n), rest) = _
  rw [ofBytesLE_toBytesLE hn]

/-! ## Byte strings -/

def writeBytes (bytes : List UInt8) : Option (List UInt8) := do
  return (← writeLength bytes.length) ++ bytes

def readBytes : Decoder (List UInt8) := do
  Decoder.bytes (← readLength)

theorem readBytes_append {bytes written : List UInt8} (h : writeBytes bytes = some written)
    (rest : List UInt8) : readBytes (written ++ rest) = some (bytes, rest) := by
  obtain ⟨length, hlength, hwritten⟩ := Option.bind_eq_some_iff.mp h
  cases hwritten
  rw [readBytes, Decoder.bind_apply, List.append_assoc, readLength_append hlength]
  exact Decoder.bytes_append rfl rest

/-! ## Sequences -/

variable {α : Type}

def writeVec (write : α → Option (List UInt8)) (xs : List α) : Option (List UInt8) := do
  let length ← writeLength xs.length
  let elements ← xs.mapM write
  return length ++ elements.flatten

/-- One element after the other. -/
def readMany (read : Decoder α) : Nat → Decoder (List α)
  | 0 => pure []
  | n + 1 => do
    let x ← read
    let xs ← readMany read n
    return x :: xs

def readVec (read : Decoder α) : Decoder (List α) := do
  readMany read (← readLength)

/-- What is left to do after the number of the elements. -/
theorem readVec_append {write : α → Option (List UInt8)} {xs : List α} {written : List UInt8}
    (h : writeVec write xs = some written) (read : Decoder α) (rest : List UInt8) :
    ∃ elements, xs.mapM write = some elements ∧
      readVec read (written ++ rest) = readMany read xs.length (elements.flatten ++ rest) := by
  obtain ⟨length, hlength, h⟩ := Option.bind_eq_some_iff.mp h
  obtain ⟨elements, helements, h⟩ := Option.bind_eq_some_iff.mp h
  cases h
  refine ⟨elements, helements, ?_⟩
  rw [readVec, Decoder.bind_apply, List.append_assoc, readLength_append hlength]
  rfl

end Borsh

end Foundation
