import EviceChain.Foundation.Lru
import EviceChain.Foundation.Varint

/-!
# Messages, certificates and their checks (`evice-multi-sequencer`)

The data that validators exchange and what they check of it: batch headers with
their hash and the bytes that are signed, votes, quorum certificates, and the
address book that maps a validator to its keys (`lib.rs`, `consensus/types.rs`,
`p2p/types.rs`, and the signature checks of `consensus/engine.rs`).

Hashing, signatures, the VRF, the seeded shuffle, the `borsh` hash of a message
and the cache of recent hashes come from other crates. They are the fields of a
`Crypto`, with what their documentation promises.
-/

namespace EviceChain.Sequencer

open Foundation

abbrev Bytes := List UInt8

-- named, as is the next one, so that every test for membership uses it
instance instLawfulBEqBytes : LawfulBEq Bytes := inferInstance

/-- An account address: 20 bytes. -/
abbrev Address := { bytes : Bytes // bytes.length = 20 }

instance instLawfulBEqAddress : LawfulBEq Address := inferInstance

/-- The integer as eight bytes, most significant first. -/
def beBytes (n : UInt64) : Bytes := (toBytesLE 8 n.toNat).reverse

abbrev AppPayload := Bytes

structure BatchHeader where
  index : UInt64
  prevHash : Bytes
  timestamp : UInt64
  payloadsRoot : Bytes
  authority : Address
  vrfOutput : Bytes
  vrfProof : Bytes
  signature : Bytes
deriving DecidableEq

structure QuorumCertificate where
  batchHash : Bytes
  viewNumber : UInt64
  signatures : List (Address × Bytes)
deriving DecidableEq

structure PayloadBatch where
  header : BatchHeader
  payloads : List AppPayload
  justify : QuorumCertificate
  round : UInt64
deriving DecidableEq

structure PendingBatch where
  header : BatchHeader
  payloads : List AppPayload
  parentQc : QuorumCertificate
  round : UInt64
deriving DecidableEq

structure VelocityVote where
  roundId : UInt64
  batchHash : Bytes
  voterAddress : Address
  signature : Bytes
deriving DecidableEq

inductive ConsensusMessage
  | intentBatchProposal (batch : PayloadBatch)
  | velocityVoteMsg (vote : VelocityVote)
  | newQuorumCertificate (qc : QuorumCertificate)
deriving DecidableEq

def publicKeySize : Nat := 1312

/-- What the consensus takes from other crates, each as a function of its
arguments: the checks, and the lengths of what is produced. -/
structure Crypto where
  sha256 : Bytes → Bytes
  sha256_length : ∀ bytes, (sha256 bytes).length = 32
  KeyPair : Type
  publicKeyBytes : KeyPair → Bytes
  publicKeyBytes_length : ∀ keys, (publicKeyBytes keys).length = publicKeySize
  sign : KeyPair → Bytes → Bytes
  verify : Bytes → Bytes → Bytes → Bool
  verify_sign : ∀ keys msg, verify (publicKeyBytes keys) msg (sign keys msg) = true
  VrfKeys : Type
  /-- The output and the proof for an input. -/
  vrfSign : VrfKeys → Bytes → Bytes × Bytes
  vrfSign_length : ∀ keys input,
    (vrfSign keys input).1.length = 32 ∧ (vrfSign keys input).2.length = 64
  /-- Whether key, output and proof parse and the proof checks. -/
  vrfVerify : Bytes → Bytes → Bytes → Bytes → Bool
  /-- `shuffle` with `StdRng::from_seed`. -/
  shuffle : Bytes → List Address → List Address
  shuffle_perm : ∀ seed addresses, (shuffle seed addresses).Perm addresses
  /-- SHA-256 of the `borsh` encoding. -/
  messageHash : ConsensusMessage → Bytes
  /-- The `lru` crate. -/
  lru : LruCache Bytes

/-! ## Headers, batches and votes -/

namespace BatchHeader

def canonicalBytesForSigning (header : BatchHeader) : Bytes :=
  beBytes header.index ++ header.prevHash ++ beBytes header.timestamp ++ header.payloadsRoot ++
    header.authority.1 ++ header.vrfOutput ++ header.vrfProof

def calculateHash (C : Crypto) (header : BatchHeader) : Bytes :=
  C.sha256 (beBytes header.index ++ header.prevHash ++ beBytes header.timestamp ++
    header.payloadsRoot ++ header.authority.1 ++ header.vrfOutput ++ header.vrfProof ++
    header.signature)

end BatchHeader

def calculatePayloadsRoot (C : Crypto) (payloads : List AppPayload) : Bytes :=
  C.sha256 (payloads.flatMap C.sha256)

/-- `PayloadBatch` to `PendingBatch` and back, as the handlers copy them. -/
def PayloadBatch.toPending (batch : PayloadBatch) : PendingBatch :=
  ⟨batch.header, batch.payloads, batch.justify, batch.round⟩

def PendingBatch.toPayload (batch : PendingBatch) : PayloadBatch :=
  ⟨batch.header, batch.payloads, batch.parentQc, batch.round⟩

def PayloadBatch.hash (C : Crypto) (batch : PayloadBatch) : Bytes := batch.header.calculateHash C

/-- `VelocityVote::canonical_bytes`: what a vote for the hash in the round signs. -/
def voteBytes (roundId : UInt64) (batchHash voterPublicKey : Bytes) : Bytes :=
  beBytes roundId ++ batchHash ++ voterPublicKey

/-- `VelocityVote::sign` on a fresh vote. -/
def signVote (C : Crypto) (keys : C.KeyPair) (voter : Address) (roundId : UInt64)
    (batchHash : Bytes) : VelocityVote :=
  ⟨roundId, batchHash, voter, C.sign keys (voteBytes roundId batchHash (C.publicKeyBytes keys))⟩

def genesisQc : QuorumCertificate := ⟨List.replicate 32 0, 0, []⟩

/-! ## The address book and the signature checks -/

structure PeerIdentityInfo where
  publicKey : Option Bytes
  vrfPublicKey : Option Bytes
deriving DecidableEq

/-- `address_to_identity`, in the order in which the hash map is iterated. -/
structure AddressBook where
  entries : List (Address × PeerIdentityInfo)
  nodup : (entries.map Prod.fst).Nodup

namespace AddressBook

def addresses (book : AddressBook) : List Address := book.entries.map Prod.fst

def size (book : AddressBook) : Nat := book.entries.length

def get? (book : AddressBook) (address : Address) : Option PeerIdentityInfo :=
  (book.entries.find? (·.1 = address)).map Prod.snd

/-- The registered key of a validator, if it has the right length. -/
def signingKey? (book : AddressBook) (address : Address) : Option Bytes :=
  match book.get? address with
  | none => none
  | some info =>
    match info.publicKey with
    | some key => if key.length = publicKeySize then some key else none
    | none => none

end AddressBook

def verifyVoteSignature (C : Crypto) (book : AddressBook) (voter : Address) (roundId : UInt64)
    (batchHash signature : Bytes) : Bool :=
  match book.signingKey? voter with
  | none => false
  | some key => C.verify key (voteBytes roundId batchHash key) signature

def verifyBatchSignature (C : Crypto) (book : AddressBook) (header : BatchHeader) : Bool :=
  match book.get? header.authority with
  | none => false
  | some info =>
    match book.signingKey? header.authority, info.vrfPublicKey with
    | some key, some vrfKey =>
      C.vrfVerify vrfKey header.prevHash header.vrfOutput header.vrfProof &&
        C.verify key header.canonicalBytesForSigning header.signature
    | _, _ => false

/-! ## Quorums -/

/-- The quorum of both `process_votes_for_batch` and
`handle_new_quorum_certificate`, with the fallback for an empty book. -/
def requiredQuorum (total : Nat) : Nat := if total = 0 then 1 else total * 2 / 3 + 1

/-- One round of the loop over the signatures of a certificate: only the first
signature of a voter is looked at. -/
def countSignature (C : Crypto) (book : AddressBook) (qc : QuorumCertificate)
    (s : Nat × List Address) (entry : Address × Bytes) : Nat × List Address :=
  if entry.1 ∈ s.2 then s
  else if verifyVoteSignature C book entry.1 qc.viewNumber qc.batchHash entry.2 then
    (s.1 + 1, entry.1 :: s.2)
  else (s.1, entry.1 :: s.2)

/-- The check with which `handle_new_quorum_certificate` begins. -/
def isFullyValid (C : Crypto) (book : AddressBook) (qc : QuorumCertificate) : Bool :=
  requiredQuorum book.size ≤ (qc.signatures.foldl (countSignature C book qc) (0, [])).1

/-! ## An instance that computes

Its hash is a polynomial in the bytes, its signature the hash of key and message,
and it does not shuffle. It is for runs that show what can happen; no general
statement is about it. -/

/-- A number for a byte string, different for different short strings. -/
def toyNumber (bytes : Bytes) : Nat := bytes.foldl (fun n b => n * 257 + b.toNat + 1) 0

/-- Keys are numbers below 256; everything that is signed or hashed goes through
`toyNumber`. -/
def toyCrypto : Crypto where
  sha256 bytes := toBytesLE 32 (toyNumber bytes)
  sha256_length _ := length_toBytesLE 32 _
  KeyPair := UInt8
  publicKeyBytes key := List.replicate 1312 key
  publicKeyBytes_length _ := List.length_replicate
  sign key msg := toBytesLE 32 (toyNumber (key :: msg))
  verify key msg signature := signature = toBytesLE 32 (toyNumber (key.headD 0 :: msg))
  verify_sign _ _ := decide_eq_true rfl
  VrfKeys := UInt8
  vrfSign key _ := (List.replicate 32 key, List.replicate 64 key)
  vrfSign_length _ _ := ⟨List.length_replicate, List.length_replicate⟩
  vrfVerify key _ output proof :=
    output = List.replicate 32 (key.headD 0) ∧ proof = List.replicate 64 (key.headD 0)
  shuffle _ addresses := addresses
  shuffle_perm _ _ := .refl _
  messageHash msg :=
    match msg with
    | .intentBatchProposal batch =>
      toBytesLE 32 (toyNumber (0 :: batch.header.signature ++ batch.payloads.flatten))
    | .velocityVoteMsg vote => toBytesLE 32 (toyNumber (1 :: vote.signature))
    | .newQuorumCertificate qc =>
      toBytesLE 32 (toyNumber (2 :: qc.batchHash ++ qc.signatures.flatMap Prod.snd))
  lru := .ofList

def toyAddress (key : UInt8) : Address := ⟨List.replicate 20 key, List.length_replicate⟩

def toyIdentity (key : UInt8) : PeerIdentityInfo :=
  ⟨some (List.replicate 1312 key), some (List.replicate 32 key)⟩

def toyBook (keys : List UInt8) (h : (keys.map toyAddress).Nodup) : AddressBook :=
  ⟨keys.map fun key => (toyAddress key, toyIdentity key), by rwa [List.map_map]⟩

/-! ## What the bytes determine -/

namespace TypesLemmas

theorem length_beBytes (n : UInt64) : (beBytes n).length = 8 := by
  rw [beBytes, List.length_reverse, length_toBytesLE]

theorem beBytes_inj {m n : UInt64} (h : beBytes m = beBytes n) : m = n := by
  have hle := List.reverse_inj.mp h
  have hm := ofBytesLE_toBytesLE (w := 8) m.toNat_lt
  have hn := ofBytesLE_toBytesLE (w := 8) n.toNat_lt
  rw [hle, hn] at hm
  exact UInt64.toNat_inj.mp hm.symm

/-- Votes under one key: the bytes determine the round and the hash. -/
theorem voteBytes_inj {r r' : UInt64} {h h' key : Bytes}
    (heq : voteBytes r h key = voteBytes r' h' key) : r = r' ∧ h = h' := by
  unfold voteBytes at heq
  rw [List.append_assoc, List.append_assoc] at heq
  obtain ⟨hround, hrest⟩ := List.append_inj heq (by rw [length_beBytes, length_beBytes])
  exact ⟨beBytes_inj hround, List.append_cancel_right hrest⟩

theorem signingKey?_eq_some {book : AddressBook} {address : Address} {key : Bytes} :
    book.signingKey? address = some key ↔
      ∃ info, book.get? address = some info ∧ info.publicKey = some key ∧
        key.length = publicKeySize := by
  unfold AddressBook.signingKey?
  cases book.get? address with
  | none => simp
  | some info =>
    cases hkey : info.publicKey with
    | none => simp [hkey]
    | some key' =>
      by_cases hlen : key'.length = publicKeySize
      · simp only [hkey, hlen, if_true, Option.some.injEq, exists_eq_left']
        exact ⟨fun h => ⟨h, h ▸ hlen⟩, fun h => h.1⟩
      · simp only [hkey, hlen, if_false, Option.some.injEq, exists_eq_left', reduceCtorEq,
          false_iff, not_and]
        rintro rfl
        exact hlen

/-- Where keys are distinct, the search for the key of an element finds it. -/
theorem find?_of_nodup_map {α κ : Type*} [DecidableEq κ] {key : α → κ} {l : List α}
    (hdistinct : (l.map key).Nodup) {x : α} (hx : x ∈ l) :
    l.find? (fun y => key y = key x) = some x := by
  cases hfound : l.find? (fun y => key y = key x) with
  | none => exact absurd (decide_eq_true rfl) (List.find?_eq_none.mp hfound x hx)
  | some y =>
    have hkey := List.find?_some hfound
    rw [List.inj_on_of_nodup_map hdistinct (List.mem_of_find?_eq_some hfound) hx
      (of_decide_eq_true hkey)]

theorem mem_addresses_of_get? {book : AddressBook} {address : Address} {info : PeerIdentityInfo}
    (h : book.get? address = some info) : address ∈ book.addresses := by
  obtain ⟨entry, hfind, -⟩ := Option.map_eq_some_iff.mp h
  have hkey := List.find?_some hfind
  simp only [decide_eq_true_eq] at hkey
  exact hkey ▸ List.mem_map_of_mem (List.mem_of_find?_eq_some hfind)

end TypesLemmas

end EviceChain.Sequencer
