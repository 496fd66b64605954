import EviceChain.Foundation.Borsh

/-!
# Withdrawal proofs (`zkapp/zk-core/src/lib.rs`, `borsh_helpers.rs`)

A withdrawal proof is a state root, a leaf of two field elements and a Merkle path.
Its encoding is that of the root in `borsh` and of the others in `ark-serialize`,
one after the other. What `ark-serialize` promises of its uncompressed encodings is
the structure `Ark`: they are read back in front of any rest.

`deserialize_path` reads its input to the end and decodes the path from the front of
that, so whatever follows a proof is gone. `PartialEq` is written by hand and looks
at one of the three fields of the path.

Results:
1. `proof_composes_iff`: a proof is read back in front of a rest if and only if there
   is no rest, and a list of proofs only if it has at most one;
2. `proofs_unread`: two proofs in a list do not come back;
3. `eq_iff_encoding_iff`: `==` agrees with the encodings if and only if paths with the
   same `auth_path`, below the same root and leaf, are the same;
4. `eq_other_leaf`: two proofs for different leaves that are `==`.
-/

namespace EviceChain.ZkCore

open Foundation

abbrev Bytes := List UInt8

/-- `ark_crypto_primitives::merkle_tree::Path`. -/
structure Path (Fr : Type) where
  leafSiblingHash : Fr
  authPath : List Fr
  leafIndex : UInt64
deriving DecidableEq

/-- The field and the uncompressed encodings of `ark-serialize`. -/
structure Ark where
  Fr : Type
  frDecidableEq : DecidableEq Fr
  writeFr : Fr → Bytes
  readFr : Decoder Fr
  readFr_append : ∀ x rest, readFr (writeFr x ++ rest) = some (x, rest)
  writePath : Path Fr → Bytes
  readPath : Decoder (Path Fr)
  readPath_append : ∀ path rest, readPath (writePath path ++ rest) = some (path, rest)

instance instDecidableEqFr (A : Ark) : DecidableEq A.Fr := A.frDecidableEq

variable {A : Ark}

structure WithdrawalProof (A : Ark) where
  l2StateRoot : Bytes
  leafData : A.Fr × A.Fr
  merklePath : Path A.Fr
deriving DecidableEq

/-! ## Encoding -/

def serializeLeaf (leaf : A.Fr × A.Fr) : Bytes := A.writeFr leaf.1 ++ A.writeFr leaf.2

def deserializeLeaf (A : Ark) : Decoder (A.Fr × A.Fr) := do
  let x ← A.readFr
  let y ← A.readFr
  return (x, y)

/-- `read_to_end`, and then the path off the front of what was read. -/
def deserializePath (A : Ark) : Decoder (Path A.Fr) := fun input =>
  (A.readPath input).map fun read => (read.1, [])

namespace WithdrawalProof

def serialize (proof : WithdrawalProof A) : Option Bytes := do
  let root ← Borsh.writeBytes proof.l2StateRoot
  return root ++ serializeLeaf proof.leafData ++ A.writePath proof.merklePath

def deserialize (A : Ark) : Decoder (WithdrawalProof A) := do
  let l2StateRoot ← Borsh.readBytes
  let leafData ← deserializeLeaf A
  let merklePath ← deserializePath A
  return { l2StateRoot, leafData, merklePath }

end WithdrawalProof

namespace WithdrawalProofLemmas

theorem deserializeLeaf_append (leaf : A.Fr × A.Fr) (rest : Bytes) :
    deserializeLeaf A (serializeLeaf leaf ++ rest) = some (leaf, rest) := by
  simp only [deserializeLeaf, serializeLeaf, List.append_assoc, Decoder.bind_apply,
    A.readFr_append, Option.bind_some, Decoder.pure_apply]

theorem deserializePath_append (path : Path A.Fr) (rest : Bytes) :
    deserializePath A (A.writePath path ++ rest) = some (path, []) := by
  rw [deserializePath, A.readPath_append]
  rfl

/-- A proof is read back whatever follows it, and nothing is left of that. -/
theorem deserialize_append {proof : WithdrawalProof A} {bytes : Bytes}
    (h : proof.serialize = some bytes) (rest : Bytes) :
    WithdrawalProof.deserialize A (bytes ++ rest) = some (proof, []) := by
  obtain ⟨root, hroot, h⟩ := Option.bind_eq_some_iff.mp h
  cases h
  simp only [WithdrawalProof.deserialize, List.append_assoc, Decoder.bind_apply,
    Borsh.readBytes_append hroot, deserializeLeaf_append, deserializePath_append,
    Option.bind_some, Decoder.pure_apply]

/-- A list of proofs: the first one takes the whole input. -/
theorem readMany_serialize {proofs : List (WithdrawalProof A)} {elements : List Bytes}
    (h : proofs.mapM WithdrawalProof.serialize = some elements) (rest : Bytes) :
    Borsh.readMany (WithdrawalProof.deserialize A) proofs.length (elements.flatten ++ rest) =
      match proofs with
      | [] => some ([], rest)
      | [proof] => some ([proof], [])
      | _ :: _ :: _ => none := by
  match proofs with
  | [] =>
    cases h
    rfl
  | proof :: proofs =>
    rw [List.mapM_cons] at h
    obtain ⟨bytes, hproof, h⟩ := Option.bind_eq_some_iff.mp h
    obtain ⟨others, -, h⟩ := Option.bind_eq_some_iff.mp h
    cases h
    rw [List.flatten_cons, List.append_assoc, List.length_cons, Borsh.readMany,
      Decoder.bind_apply, deserialize_append hproof]
    cases proofs with
    | nil => rfl
    | cons other proofs => rfl

end WithdrawalProofLemmas

open WithdrawalProofLemmas

/-- A proof comes back with exactly what follows it if and only if nothing follows, and a
list of proofs if and only if it is empty, or has one proof and nothing follows. -/
theorem proof_composes_iff (A : Ark) (rest : Bytes) :
    (∀ (proof : WithdrawalProof A) bytes, proof.serialize = some bytes →
      (WithdrawalProof.deserialize A (bytes ++ rest) = some (proof, rest) ↔ rest = [])) ∧
    ∀ (proofs : List (WithdrawalProof A)) bytes,
      Borsh.writeVec WithdrawalProof.serialize proofs = some bytes →
      (Borsh.readVec (WithdrawalProof.deserialize A) (bytes ++ rest) = some (proofs, rest) ↔
        proofs = [] ∨ proofs.length = 1 ∧ rest = []) := by
  refine ⟨fun proof bytes h => ?_, fun proofs bytes h => ?_⟩
  · rw [deserialize_append h]
    simp [eq_comm]
  · obtain ⟨elements, helements, hread⟩ :=
      Borsh.readVec_append h (WithdrawalProof.deserialize A) rest
    rw [hread, readMany_serialize helements]
    match proofs with
    | [] => simp
    | [proof] => simp [eq_comm]
    | _ :: _ :: _ => simp

/-! Field elements of one byte, and an `auth_path` with a mark in front of each element and
one at its end. -/

def writeMarked (xs : List UInt8) : Bytes := xs.flatMap (fun x => [1, x]) ++ [0]

def readMarked : Decoder (List UInt8)
  | 0 :: rest => some ([], rest)
  | 1 :: x :: rest => (readMarked rest).map fun read => (x :: read.1, read.2)
  | _ => none

theorem readMarked_append (xs : List UInt8) (rest : Bytes) :
    readMarked (writeMarked xs ++ rest) = some (xs, rest) := by
  induction xs with
  | nil => rfl
  | cons x xs ih =>
    show readMarked (1 :: x :: (writeMarked xs ++ rest)) = _
    rw [readMarked, ih]
    rfl

def byteArk : Ark where
  Fr := UInt8
  frDecidableEq := inferInstance
  writeFr x := [x]
  readFr := Decoder.byte
  readFr_append _ _ := rfl
  writePath path :=
    path.leafSiblingHash :: (writeMarked path.authPath ++ Varint.encode path.leafIndex)
  readPath := do
    let leafSiblingHash ← Decoder.byte
    let authPath ← readMarked
    let leafIndex ← Varint.decode 8
    return { leafSiblingHash, authPath, leafIndex }
  readPath_append path rest := by
    simp only [List.cons_append, List.append_assoc, Decoder.bind_apply, Decoder.byte,
      readMarked_append, Varint.decode_encode, Option.bind_some, Decoder.pure_apply]

/-- A proof for the leaf `5, 6` at the given index. -/
def byteProof (leafIndex : UInt64) : WithdrawalProof byteArk :=
  ⟨[9], ((5 : UInt8), (6 : UInt8)), ⟨(7 : UInt8), [(8 : UInt8)], leafIndex⟩⟩

/-- One proof comes back from a list, two do not. -/
theorem proof_composes_byteProof :
    (∃ bytes, Borsh.writeVec WithdrawalProof.serialize [byteProof 0] = some bytes ∧
      Borsh.readVec (WithdrawalProof.deserialize byteArk) (bytes ++ []) =
        some ([byteProof 0], [])) ∧
    ∃ bytes, Borsh.writeVec WithdrawalProof.serialize [byteProof 0, byteProof 1] = some bytes ∧
      Borsh.readVec (WithdrawalProof.deserialize byteArk) (bytes ++ []) ≠
        some ([byteProof 0, byteProof 1], []) := by
  obtain ⟨-, hlists⟩ := proof_composes_iff byteArk []
  refine ⟨⟨_, rfl, (hlists _ _ rfl).mpr (.inr ⟨rfl, rfl⟩)⟩, _, rfl, fun hread => ?_⟩
  rcases (hlists _ _ rfl).mp hread with hnil | ⟨hone, -⟩
  · cases hnil
  · cases hone

/-- A byte that follows a proof is lost, and a list of two proofs is not read at all. -/
theorem proofs_unread :
    (∃ bytes, (byteProof 0).serialize = some bytes ∧
      WithdrawalProof.deserialize byteArk (bytes ++ [42]) = some (byteProof 0, [])) ∧
    ∃ bytes, Borsh.writeVec WithdrawalProof.serialize [byteProof 0, byteProof 1] = some bytes ∧
      Borsh.readVec (WithdrawalProof.deserialize byteArk) bytes = none :=
  ⟨⟨_, rfl, rfl⟩, _, rfl, rfl⟩

/-! ## Equality -/

namespace WithdrawalProof

/-- `PartialEq::eq`. -/
def eq (a b : WithdrawalProof A) : Bool :=
  a.l2StateRoot = b.l2StateRoot && a.leafData = b.leafData &&
    a.merklePath.authPath = b.merklePath.authPath

/-- What `Hash::hash` feeds to the hasher: the root, and the big-endian bytes of the leaf
and of the `auth_path`, of which it takes the inner representation (`p.0`). -/
def hashInput (toBytesBe innerToBytesBe : A.Fr → Bytes) (proof : WithdrawalProof A) : List Bytes :=
  [proof.l2StateRoot, toBytesBe proof.leafData.1, toBytesBe proof.leafData.2] ++
    proof.merklePath.authPath.map innerToBytesBe

theorem eq_iff {a b : WithdrawalProof A} :
    a.eq b = true ↔ a.l2StateRoot = b.l2StateRoot ∧ a.leafData = b.leafData ∧
      a.merklePath.authPath = b.merklePath.authPath := by
  simp [eq, and_assoc]

/-- Equal proofs have equal hashes. -/
theorem hashInput_of_eq (toBytesBe innerToBytesBe : A.Fr → Bytes) {a b : WithdrawalProof A}
    (h : a.eq b = true) :
    a.hashInput toBytesBe innerToBytesBe = b.hashInput toBytesBe innerToBytesBe := by
  obtain ⟨hroot, hleaf, hpath⟩ := eq_iff.mp h
  rw [hashInput, hroot, hleaf, hpath, ← hashInput]

/-- The encoding determines the proof. -/
theorem serialize_inj {a b : WithdrawalProof A} {bytes : Bytes} (ha : a.serialize = some bytes)
    (hb : b.serialize = some bytes) : a = b := by
  have hread := deserialize_append ha []
  rw [deserialize_append hb []] at hread
  cases hread
  rfl

end WithdrawalProof

/-- `==` agrees with the encodings of two proofs if and only if, should they have the same
root, leaf and `auth_path`, their paths also have the same `leaf_sibling_hash` and
`leaf_index`. -/
theorem eq_iff_encoding_iff {a b : WithdrawalProof A} {x y : Bytes}
    (ha : a.serialize = some x) (hb : b.serialize = some y) :
    (a.eq b = true ↔ x = y) ↔
      (a.l2StateRoot = b.l2StateRoot → a.leafData = b.leafData →
        a.merklePath.authPath = b.merklePath.authPath →
        a.merklePath.leafSiblingHash = b.merklePath.leafSiblingHash ∧
          a.merklePath.leafIndex = b.merklePath.leafIndex) := by
  have hxy : x = y ↔ a = b := by
    constructor
    · rintro rfl
      exact WithdrawalProof.serialize_inj ha hb
    · rintro rfl
      exact Option.some.inj (ha.symm.trans hb)
  rw [hxy, WithdrawalProof.eq_iff]
  constructor
  · intro h hroot hleaf hpath
    obtain rfl := h.mp ⟨hroot, hleaf, hpath⟩
    exact ⟨rfl, rfl⟩
  · intro h
    refine ⟨fun ⟨hroot, hleaf, hpath⟩ => ?_, ?_⟩
    · obtain ⟨hsibling, hindex⟩ := h hroot hleaf hpath
      obtain ⟨root, leaf, ⟨sibling, path, index⟩⟩ := a
      obtain ⟨root', leaf', ⟨sibling', path', index'⟩⟩ := b
      cases hroot
      cases hleaf
      cases hpath
      cases hsibling
      cases hindex
      rfl
    · rintro rfl
      exact ⟨rfl, rfl, rfl⟩

/-- `==` agrees with the encodings where a proof is compared with itself, and does not where
the proofs have the same root, leaf and `auth_path` but another `leaf_index`. -/
theorem eq_iff_encoding_byteProof :
    (∃ x y, (byteProof 0).serialize = some x ∧ (byteProof 0).serialize = some y ∧
      ((byteProof 0).eq (byteProof 0) = true ↔ x = y)) ∧
    ∃ x y, (byteProof 0).serialize = some x ∧ (byteProof 1).serialize = some y ∧
      ¬ ((byteProof 0).eq (byteProof 1) = true ↔ x = y) := by
  refine ⟨⟨_, _, rfl, rfl, (eq_iff_encoding_iff rfl rfl).mpr fun _ _ _ => ⟨rfl, rfl⟩⟩,
    _, _, rfl, rfl, fun hagree => ?_⟩
  obtain ⟨-, hindex⟩ := (eq_iff_encoding_iff rfl rfl).mp hagree rfl rfl rfl
  exact absurd hindex (by decide)

/-- The proofs are for different leaves of the tree, and `==` does not see it. -/
theorem eq_other_leaf :
    (byteProof 0).eq (byteProof 1) = true ∧
      ∃ x y, (byteProof 0).serialize = some x ∧ (byteProof 1).serialize = some y ∧ x ≠ y :=
  ⟨rfl, _, _, rfl, rfl, by decide⟩

end EviceChain.ZkCore
