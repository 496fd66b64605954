import EviceChain.Sequencer.Types

/-!
# What signed and hashed bytes say

A vote is signed over round, hash and public key, a header over its fields; both
are plain concatenations. In a vote only the hash has a length of its own, and it
stands between parts of fixed lengths, so the bytes say where it ends. In a header
`prev_hash` and `payloads_root` both have, with the timestamp between them, and
nothing says where the one ends and the other begins.

Results:
1. `verifyVoteSignature_iff`: with ideal signatures the check of a vote accepts the
   signed round and hash, under the registered key of the signer, and nothing else;
2. `header_injective_iff`: the bytes determine a header among those whose
   `prev_hash` has one length, and only among those; `header_boundary_moves` is a
   pair of headers with the same bytes.
-/

namespace EviceChain.Sequencer

open Foundation TypesLemmas

/-! ## Votes -/

/-- `VelocityVote::sign`. -/
def VelocityVote.sign (C : Crypto) (vote : VelocityVote) (keys : C.KeyPair) : VelocityVote :=
  { vote with
    signature := C.sign keys (voteBytes vote.roundId vote.batchHash (C.publicKeyBytes keys)) }

/-- What an ideal scheme promises of one signature: it verifies under the public
key of its signer for the bytes that were signed, and for no other key or bytes. -/
def Crypto.Ideal (C : Crypto) (keys : C.KeyPair) (msg : Bytes) : Prop :=
  ∀ key bytes, C.verify key bytes (C.sign keys msg) = true ↔
    key = C.publicKeyBytes keys ∧ bytes = msg

/-- The key that the book registers for the address. -/
def AddressBook.Registers (book : AddressBook) (address : Address) (key : Bytes) : Prop :=
  ∃ info, book.get? address = some info ∧ info.publicKey = some key

/-- A vote signed by a key pair is accepted for an address, a round and a hash of
any length if and only if the key registered for the address is that of the pair
and round and hash are those of the vote. -/
theorem verifyVoteSignature_iff {C : Crypto} (keys : C.KeyPair) (vote : VelocityVote)
    (hideal : C.Ideal keys (voteBytes vote.roundId vote.batchHash (C.publicKeyBytes keys)))
    (book : AddressBook) (address : Address) (roundId : UInt64) (batchHash : Bytes) :
    verifyVoteSignature C book address roundId batchHash (vote.sign C keys).signature = true ↔
      book.Registers address (C.publicKeyBytes keys) ∧
        roundId = vote.roundId ∧ batchHash = vote.batchHash := by
  unfold verifyVoteSignature
  constructor
  · intro h
    cases hkey : book.signingKey? address with
    | none => simp [hkey] at h
    | some key =>
      simp only [hkey] at h
      -- the bytes that were checked end in the registered key, those signed in the signer's
      obtain ⟨rfl, hbytes⟩ := (hideal key _).mp h
      obtain ⟨info, hget, hpublic, -⟩ := signingKey?_eq_some.mp hkey
      exact ⟨⟨info, hget, hpublic⟩, voteBytes_inj hbytes⟩
  · rintro ⟨⟨info, hget, hpublic⟩, rfl, rfl⟩
    have hkey : book.signingKey? address = some (C.publicKeyBytes keys) :=
      signingKey?_eq_some.mpr ⟨info, hget, hpublic, C.publicKeyBytes_length keys⟩
    simp only [hkey]
    exact C.verify_sign keys _

/-- A scheme whose signatures spell out key and message. -/
def spelledCrypto : Crypto :=
  { toyCrypto with
    sign := fun key msg => toyCrypto.publicKeyBytes key ++ msg
    verify := fun key msg signature => key.length = publicKeySize ∧ signature = key ++ msg
    verify_sign := fun key _ => decide_eq_true ⟨toyCrypto.publicKeyBytes_length key, rfl⟩ }

theorem spelledCrypto_ideal (keys : UInt8) (msg : Bytes) : spelledCrypto.Ideal keys msg := by
  intro key bytes
  show decide (key.length = publicKeySize ∧ List.replicate 1312 keys ++ msg = key ++ bytes) = true ↔
    key = List.replicate 1312 keys ∧ bytes = msg
  rw [decide_eq_true_iff]
  constructor
  · rintro ⟨hlength, heq⟩
    obtain ⟨hkey, hbytes⟩ := List.append_inj heq (by rw [List.length_replicate, hlength]; rfl)
    exact ⟨hkey.symm, hbytes.symm⟩
  · rintro ⟨rfl, rfl⟩
    exact ⟨List.length_replicate, rfl⟩

/-- Validator 1 votes in round 3 for a hash of two bytes. Its signature is good for
that hash and round, and not for the hash with its last byte cut off. -/
theorem verifyVoteSignature_twoBytes :
    verifyVoteSignature spelledCrypto (toyBook [1, 2] (by decide)) (toyAddress 1) 3 [7, 8]
      (VelocityVote.sign spelledCrypto ⟨3, [7, 8], toyAddress 1, []⟩ (1 : UInt8)).signature = true ∧
    ¬ verifyVoteSignature spelledCrypto (toyBook [1, 2] (by decide)) (toyAddress 1) 3 [7]
      (VelocityVote.sign spelledCrypto ⟨3, [7, 8], toyAddress 1, []⟩ (1 : UInt8)).signature =
        true := by
  have hiff := verifyVoteSignature_iff (C := spelledCrypto) (1 : UInt8)
    ⟨3, [7, 8], toyAddress 1, []⟩ (spelledCrypto_ideal 1 _) (toyBook [1, 2] (by decide))
    (toyAddress 1)
  constructor
  · exact (hiff 3 [7, 8]).mpr ⟨⟨toyIdentity 1, rfl, rfl⟩, rfl, rfl⟩
  · rw [hiff 3 [7]]
    rintro ⟨-, -, hhash⟩
    exact absurd hhash (by decide)

/-! ## Headers -/

/-- The bytes that `calculate_hash` hands to the hasher. -/
def BatchHeader.hashPreimage (header : BatchHeader) : Bytes :=
  beBytes header.index ++ header.prevHash ++ beBytes header.timestamp ++ header.payloadsRoot ++
    header.authority.1 ++ header.vrfOutput ++ header.vrfProof ++ header.signature

theorem calculateHash_eq (C : Crypto) (header : BatchHeader) :
    header.calculateHash C = C.sha256 header.hashPreimage := rfl

/-- The lengths that the verification of output, proof and signature parses. -/
structure BatchHeader.Parses (header : BatchHeader) : Prop where
  vrfOutput : header.vrfOutput.length = 32
  vrfProof : header.vrfProof.length = 64
  signature : header.signature.length = 2420

/-- Equal bytes for the hash come from equal headers, and equal bytes for the
signature from headers equal but for the signature. -/
def BatchHeader.ToldApart (header header' : BatchHeader) : Prop :=
  (header.hashPreimage = header'.hashPreimage → header = header') ∧
  (header.canonicalBytesForSigning = header'.canonicalBytesForSigning →
    { header with signature := header'.signature } = header')

namespace SignedBytesLemmas

variable {header header' : BatchHeader}

theorem hashPreimage_eq (header : BatchHeader) :
    header.hashPreimage = header.canonicalBytesForSigning ++ header.signature := rfl

/-- Where `prev_hash` has one length, the signed bytes determine every field they
are made of: each part but `payloads_root` has a known length. -/
theorem eq_of_canonicalBytes (h : header.Parses) (h' : header'.Parses)
    (hprev : header.prevHash.length = header'.prevHash.length)
    (heq : header.canonicalBytesForSigning = header'.canonicalBytesForSigning) :
    { header with signature := header'.signature } = header' := by
  unfold BatchHeader.canonicalBytesForSigning at heq
  obtain ⟨heq, hproof⟩ := List.append_inj' heq (by rw [h.vrfProof, h'.vrfProof])
  obtain ⟨heq, houtput⟩ := List.append_inj' heq (by rw [h.vrfOutput, h'.vrfOutput])
  obtain ⟨heq, hauthority⟩ := List.append_inj' heq
    (by rw [header.authority.2, header'.authority.2])
  rw [List.append_assoc, List.append_assoc, List.append_assoc, List.append_assoc] at heq
  obtain ⟨hindex, heq⟩ := List.append_inj heq (by rw [length_beBytes, length_beBytes])
  obtain ⟨hprevHash, heq⟩ := List.append_inj heq hprev
  obtain ⟨htimestamp, hroot⟩ := List.append_inj heq (by rw [length_beBytes, length_beBytes])
  cases header
  cases header'
  simp only [BatchHeader.mk.injEq]
  exact ⟨beBytes_inj hindex, hprevHash, beBytes_inj htimestamp, hroot,
    Subtype.ext hauthority, houtput, hproof, trivial⟩

/-- A header all of whose bytes are zero. -/
def zeroHeader (prevHash payloadsRoot : Nat) : BatchHeader where
  index := 0
  prevHash := List.replicate prevHash 0
  timestamp := 0
  payloadsRoot := List.replicate payloadsRoot 0
  authority := toyAddress 0
  vrfOutput := List.replicate 32 0
  vrfProof := List.replicate 64 0
  signature := List.replicate 2420 0

theorem zeroHeader_parses (n k : Nat) : (zeroHeader n k).Parses :=
  ⟨List.length_replicate, List.length_replicate, List.length_replicate⟩

/-- The bytes of such a header only depend on how many there are. -/
theorem zeroHeader_bytes (n k : Nat) :
    (zeroHeader n k).canonicalBytesForSigning = List.replicate (n + k + 132) 0 := by
  have hzero : beBytes 0 = List.replicate 8 0 := rfl
  unfold BatchHeader.canonicalBytesForSigning zeroHeader toyAddress
  simp only [hzero, List.replicate_append_replicate]
  congr 1
  omega

theorem zeroHeader_ne {n k n' k' : Nat} (h : n ≠ n') : zeroHeader n k ≠ zeroHeader n' k' := by
  intro heq
  have hprev := congrArg (fun header => header.prevHash.length) heq
  simp only [zeroHeader, List.length_replicate] at hprev
  exact h hprev

end SignedBytesLemmas

open SignedBytesLemmas

/-- For any two lengths of `prev_hash`: all headers with output, proof and
signature of the lengths that parse, the one with a `prev_hash` of the first
length and the other of the second, are told apart by their bytes, if and only if
the two lengths are the same. -/
theorem header_injective_iff (n m : Nat) :
    (∀ header header' : BatchHeader, header.Parses → header'.Parses →
      header.prevHash.length = n → header'.prevHash.length = m → header.ToldApart header') ↔
      n = m := by
  constructor
  · intro h
    by_contra hne
    -- a root as long as the other header's prev_hash makes up for the difference
    have hapart := h (zeroHeader n m) (zeroHeader m n) (zeroHeader_parses n m)
      (zeroHeader_parses m n) List.length_replicate List.length_replicate
    refine zeroHeader_ne hne (hapart.1 ?_)
    rw [hashPreimage_eq, hashPreimage_eq, zeroHeader_bytes, zeroHeader_bytes, Nat.add_comm n m]
    rfl
  · rintro rfl header header' hparses hparses' hlength hlength'
    have hprev := hlength.trans hlength'.symm
    refine ⟨fun heq => ?_, eq_of_canonicalBytes hparses hparses' hprev⟩
    rw [hashPreimage_eq, hashPreimage_eq] at heq
    obtain ⟨hbytes, hsignature⟩ := List.append_inj' heq
      (by rw [hparses.signature, hparses'.signature])
    have hfields := eq_of_canonicalBytes hparses hparses' hprev hbytes
    rwa [← hsignature] at hfields

/-- A zero byte goes from the end of `prev_hash` to the beginning of
`payloads_root`: two headers, one hash and one signed text. -/
theorem header_boundary_moves :
    (zeroHeader 32 33).Parses ∧ (zeroHeader 33 32).Parses ∧
      zeroHeader 32 33 ≠ zeroHeader 33 32 ∧
      (zeroHeader 32 33).hashPreimage = (zeroHeader 33 32).hashPreimage ∧
      (zeroHeader 32 33).canonicalBytesForSigning =
        (zeroHeader 33 32).canonicalBytesForSigning := by
  refine ⟨zeroHeader_parses 32 33, zeroHeader_parses 33 32, zeroHeader_ne (by decide), ?_, ?_⟩
  · rw [hashPreimage_eq, hashPreimage_eq, zeroHeader_bytes, zeroHeader_bytes]
    rfl
  · rw [zeroHeader_bytes, zeroHeader_bytes]

end EviceChain.Sequencer
