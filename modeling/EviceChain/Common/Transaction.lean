import EviceChain.Foundation.PrefixCode
import EviceChain.Sequencer.Types

/-!
# The signed form of a transaction (`zkapp/common/src/transaction.rs`)

`canonical_bytes` is what a transaction is hashed, and thereby compared, by: the
chain id, the sender's key, the data in the layout of `bincode` 2
(`config::standard()`), nonce and fees. The data says where it ends, the key and
the numbers have fixed lengths. The chain id has neither a length in front nor a
fixed one, so if one chain id is a beginning of another, the bytes by which the
longer one is longer can also be read as the beginning of a key.

Results:
1. `encode_prefixCode`: the encoding of the data is a prefix code;
2. `toldApart_iff`: for which chain ids transactions are told apart;
   `chains_confused` is a pair of transactions that are not.
-/

namespace EviceChain.Common

open Foundation Sequencer TypesLemmas

/-- `FullPublicKey`. -/
abbrev FullPublicKey := { bytes : Bytes // bytes.length = publicKeySize }

inductive TransactionData
  | transfer (recipient : Address) (amount : UInt64)
  | stake (amount : UInt64)
  | submitRollupBatch (oldStateRoot newStateRoot compressedBatch zkProof : Vec UInt8)
      (isTestTx : Bool) (vrfOutput vrfProof : Vec UInt8) (dacSignatures : Vec (Vec UInt8))
  | submitAggregateRollupBatch (initialStateRoot finalStateRoot aggregatedProof : Vec UInt8)
      (numBatches : UInt32)
  | depositToL2 (amount : UInt64)
  | registerAsSequencer
  | deregisterAsSequencer
  | deployContract (code : Vec UInt8)
  | callContract (contractAddress : Address) (callData : Vec UInt8)
  | updateNetworkIdentity (multiaddr : Vec UInt8)
  | imAlive
deriving DecidableEq

structure Transaction where
  senderPublicKey : FullPublicKey
  data : TransactionData
  nonce : UInt64
  maxFeePerGas : UInt64
  maxPriorityFeePerGas : UInt64
  signature : Bytes
  chainId : String
deriving DecidableEq

/-! ## The layout of the data -/

def encodeAddress (address : Address) : Bytes := address.1

def encodeBool (b : Bool) : Bytes := [if b then 1 else 0]

def encodeU32 (n : UInt32) : Bytes := Varint.encode n.toUInt64

/-- `Vec<u8>`. -/
def encodeBytes : Vec UInt8 → Bytes := encodeVec fun b => [b]

namespace TransactionData

/-- The number of the variant. -/
def variant : TransactionData → UInt64
  | .transfer .. => 0
  | .stake .. => 1
  | .submitRollupBatch .. => 2
  | .submitAggregateRollupBatch .. => 3
  | .depositToL2 .. => 4
  | .registerAsSequencer => 5
  | .deregisterAsSequencer => 6
  | .deployContract .. => 7
  | .callContract .. => 8
  | .updateNetworkIdentity .. => 9
  | .imAlive => 10

def fields : TransactionData → Bytes
  | .transfer recipient amount => encodeAddress recipient ++ Varint.encode amount
  | .stake amount => Varint.encode amount
  | .submitRollupBatch oldStateRoot newStateRoot compressedBatch zkProof isTestTx vrfOutput
      vrfProof dacSignatures =>
    encodeBytes oldStateRoot ++ encodeBytes newStateRoot ++ encodeBytes compressedBatch ++
      encodeBytes zkProof ++ encodeBool isTestTx ++ encodeBytes vrfOutput ++
      encodeBytes vrfProof ++ encodeVec encodeBytes dacSignatures
  | .submitAggregateRollupBatch initialStateRoot finalStateRoot aggregatedProof numBatches =>
    encodeBytes initialStateRoot ++ encodeBytes finalStateRoot ++ encodeBytes aggregatedProof ++
      encodeU32 numBatches
  | .depositToL2 amount => Varint.encode amount
  | .registerAsSequencer => []
  | .deregisterAsSequencer => []
  | .deployContract code => encodeBytes code
  | .callContract contractAddress callData => encodeAddress contractAddress ++ encodeBytes callData
  | .updateNetworkIdentity multiaddr => encodeBytes multiaddr
  | .imAlive => []

/-- `bincode::encode_to_vec` with `config::standard()`. -/
def encode (data : TransactionData) : Bytes := Varint.encode data.variant ++ data.fields

end TransactionData

/-! ## Hashing and comparing -/

/-- The bytes of a text. -/
def utf8 (text : String) : Bytes := text.toUTF8.data.toList

namespace Transaction

def canonicalBytes (tx : Transaction) : Bytes :=
  utf8 tx.chainId ++ tx.senderPublicKey.1 ++ tx.data.encode ++ beBytes tx.nonce ++
    beBytes tx.maxFeePerGas ++ beBytes tx.maxPriorityFeePerGas

def messageHash (sha256 : Bytes → Bytes) (tx : Transaction) : Bytes := sha256 tx.canonicalBytes

/-- `PartialEq::eq`. -/
def eq (sha256 : Bytes → Bytes) (tx tx' : Transaction) : Bool :=
  tx.messageHash sha256 = tx'.messageHash sha256

/-- Everything but the signature is the same. -/
structure SameContent (tx tx' : Transaction) : Prop where
  chainId : tx.chainId = tx'.chainId
  senderPublicKey : tx.senderPublicKey = tx'.senderPublicKey
  data : tx.data = tx'.data
  nonce : tx.nonce = tx'.nonce
  maxFeePerGas : tx.maxFeePerGas = tx'.maxFeePerGas
  maxPriorityFeePerGas : tx.maxPriorityFeePerGas = tx'.maxPriorityFeePerGas

end Transaction

namespace TransactionLemmas

theorem address_prefixCode : PrefixCode encodeAddress :=
  .of_length (n := 20) (fun address => address.2) fun _ _ h => Subtype.ext h

theorem bool_prefixCode : PrefixCode encodeBool := by
  refine .of_length (n := 1) (fun _ => rfl) fun a b h => ?_
  cases a <;> cases b <;> simp [encodeBool] at h ⊢

theorem u32_prefixCode : PrefixCode encodeU32 := by
  refine ⟨fun {m n r s} h => ?_⟩
  obtain ⟨heq, hrest⟩ := varint_prefixCode.read h
  exact ⟨UInt32.toUInt64_inj.mp heq, hrest⟩

theorem bytes_prefixCode : PrefixCode encodeBytes :=
  .vec (.of_length (n := 1) (fun _ => rfl) fun _ _ h => List.singleton_inj.mp h)

end TransactionLemmas

open TransactionLemmas

/-- The encoding of the data says where it ends. -/
theorem encode_prefixCode : PrefixCode TransactionData.encode := by
  refine ⟨fun {data data' r s} h => ?_⟩
  simp only [TransactionData.encode, List.append_assoc] at h
  obtain ⟨hvariant, h⟩ := varint_prefixCode.read h
  cases data with
  | transfer recipient amount =>
    cases data' with
    | transfer recipient' amount' =>
      simp only [TransactionData.fields, List.append_assoc] at h
      obtain ⟨rfl, h₁⟩ := address_prefixCode.read h
      obtain ⟨rfl, h₂⟩ := varint_prefixCode.read h₁
      exact ⟨rfl, h₂⟩
    | _ => simp [TransactionData.variant] at hvariant
  | stake amount =>
    cases data' with
    | stake amount' =>
      simp only [TransactionData.fields] at h
      obtain ⟨rfl, h₁⟩ := varint_prefixCode.read h
      exact ⟨rfl, h₁⟩
    | _ => simp [TransactionData.variant] at hvariant
  | submitRollupBatch =>
    cases data' with
    | submitRollupBatch =>
      simp only [TransactionData.fields, List.append_assoc] at h
      obtain ⟨rfl, h₁⟩ := bytes_prefixCode.read h
      obtain ⟨rfl, h₂⟩ := bytes_prefixCode.read h₁
      obtain ⟨rfl, h₃⟩ := bytes_prefixCode.read h₂
      obtain ⟨rfl, h₄⟩ := bytes_prefixCode.read h₃
      obtain ⟨rfl, h₅⟩ := bool_prefixCode.read h₄
      obtain ⟨rfl, h₆⟩ := bytes_prefixCode.read h₅
      obtain ⟨rfl, h₇⟩ := bytes_prefixCode.read h₆
      obtain ⟨rfl, h₈⟩ := bytes_prefixCode.vec.read h₇
      exact ⟨rfl, h₈⟩
    | _ => simp [TransactionData.variant] at hvariant
  | submitAggregateRollupBatch =>
    cases data' with
    | submitAggregateRollupBatch =>
      simp only [TransactionData.fields, List.append_assoc] at h
      obtain ⟨rfl, h₁⟩ := bytes_prefixCode.read h
      obtain ⟨rfl, h₂⟩ := bytes_prefixCode.read h₁
      obtain ⟨rfl, h₃⟩ := bytes_prefixCode.read h₂
      obtain ⟨rfl, h₄⟩ := u32_prefixCode.read h₃
      exact ⟨rfl, h₄⟩
    | _ => simp [TransactionData.variant] at hvariant
  | depositToL2 amount =>
    cases data' with
    | depositToL2 amount' =>
      simp only [TransactionData.fields] at h
      obtain ⟨rfl, h₁⟩ := varint_prefixCode.read h
      exact ⟨rfl, h₁⟩
    | _ => simp [TransactionData.variant] at hvariant
  | registerAsSequencer =>
    cases data' with
    | registerAsSequencer => exact ⟨rfl, h⟩
    | _ => simp [TransactionData.variant] at hvariant
  | deregisterAsSequencer =>
    cases data' with
    | deregisterAsSequencer => exact ⟨rfl, h⟩
    | _ => simp [TransactionData.variant] at hvariant
  | deployContract code =>
    cases data' with
    | deployContract code' =>
      simp only [TransactionData.fields] at h
      obtain ⟨rfl, h₁⟩ := bytes_prefixCode.read h
      exact ⟨rfl, h₁⟩
    | _ => simp [TransactionData.variant] at hvariant
  | callContract contractAddress callData =>
    cases data' with
    | callContract contractAddress' callData' =>
      simp only [TransactionData.fields, List.append_assoc] at h
      obtain ⟨rfl, h₁⟩ := address_prefixCode.read h
      obtain ⟨rfl, h₂⟩ := bytes_prefixCode.read h₁
      exact ⟨rfl, h₂⟩
    | _ => simp [TransactionData.variant] at hvariant
  | updateNetworkIdentity multiaddr =>
    cases data' with
    | updateNetworkIdentity multiaddr' =>
      simp only [TransactionData.fields] at h
      obtain ⟨rfl, h₁⟩ := bytes_prefixCode.read h
      exact ⟨rfl, h₁⟩
    | _ => simp [TransactionData.variant] at hvariant
  | imAlive =>
    cases data' with
    | imAlive => exact ⟨rfl, h⟩
    | _ => simp [TransactionData.variant] at hvariant

/-! ## Chain ids -/

/-- Transactions of the two chains with the same bytes have the same content, and
so have those that compare equal under a hash that does not collide on them. -/
def ToldApart (chainId chainId' : String) : Prop :=
  ∀ tx tx' : Transaction, tx.chainId = chainId → tx'.chainId = chainId' →
    (tx.canonicalBytes = tx'.canonicalBytes → tx.SameContent tx') ∧
    ∀ sha256 : Bytes → Bytes,
      (sha256 tx.canonicalBytes = sha256 tx'.canonicalBytes →
        tx.canonicalBytes = tx'.canonicalBytes) →
      tx.eq sha256 tx' = true → tx.SameContent tx'

/-- The second chain id is the first with something behind it. As far as that
reaches beyond a key, it has to pass for the beginning of encoded data, and that
data has to end in encoded data again. -/
def ShiftsInto (chainId chainId' : String) : Prop :=
  ∃ x, x ≠ [] ∧ utf8 chainId' = utf8 chainId ++ x ∧
    (x.length ≤ publicKeySize ∨ ∃ data data' : TransactionData,
      x.drop publicKeySize <+: data.encode ∧ data.encode.drop x.length = data'.encode)

namespace TransactionLemmas

theorem utf8_injective : Function.Injective utf8 := by
  intro text text' h
  exact String.toByteArray_inj.mp (ByteArray.ext (Array.toList_inj.mp h))

/-- The bytes behind chain id, key and data. -/
def numbers (tx : Transaction) : Bytes :=
  beBytes tx.nonce ++ (beBytes tx.maxFeePerGas ++ beBytes tx.maxPriorityFeePerGas)

theorem length_numbers (tx : Transaction) : (numbers tx).length = 24 := by
  simp [numbers, length_beBytes]

theorem canonicalBytes_eq (tx : Transaction) : tx.canonicalBytes =
    utf8 tx.chainId ++ (tx.senderPublicKey.1 ++ tx.data.encode) ++ numbers tx := by
  simp [Transaction.canonicalBytes, numbers]

theorem numbers_inj {tx tx' : Transaction} (h : numbers tx = numbers tx') :
    tx.nonce = tx'.nonce ∧ tx.maxFeePerGas = tx'.maxFeePerGas ∧
      tx.maxPriorityFeePerGas = tx'.maxPriorityFeePerGas := by
  obtain ⟨hnonce, h⟩ := List.append_inj h (by rw [length_beBytes, length_beBytes])
  obtain ⟨hfee, hpriority⟩ := List.append_inj h (by rw [length_beBytes, length_beBytes])
  exact ⟨beBytes_inj hnonce, beBytes_inj hfee, beBytes_inj hpriority⟩

/-- Equal bytes are equal up to the data, and equal numbers. -/
theorem canonicalBytes_iff {tx tx' : Transaction} : tx.canonicalBytes = tx'.canonicalBytes ↔
    utf8 tx.chainId ++ (tx.senderPublicKey.1 ++ tx.data.encode) =
      utf8 tx'.chainId ++ (tx'.senderPublicKey.1 ++ tx'.data.encode) ∧
    numbers tx = numbers tx' := by
  rw [canonicalBytes_eq, canonicalBytes_eq]
  constructor
  · intro h
    exact List.append_inj' h (by rw [length_numbers, length_numbers])
  · rintro ⟨hfront, hnumbers⟩
    rw [hfront, hnumbers]

/-- If the first chain id is a beginning of the second, either they are the same and
the rest is too, or the one shifts into the other. -/
theorem sameContent_or_shifts {tx tx' : Transaction} {x : Bytes}
    (hchain : utf8 tx'.chainId = utf8 tx.chainId ++ x)
    (hrest : tx.senderPublicKey.1 ++ tx.data.encode =
      x ++ (tx'.senderPublicKey.1 ++ tx'.data.encode))
    (hnumbers : numbers tx = numbers tx') :
    tx.SameContent tx' ∨ ShiftsInto tx.chainId tx'.chainId := by
  by_cases hx : x = []
  · left
    subst hx
    rw [List.append_nil] at hchain
    rw [List.nil_append] at hrest
    obtain ⟨hkey, hdata⟩ := List.append_inj hrest
      (by rw [tx.senderPublicKey.2, tx'.senderPublicKey.2])
    obtain ⟨hnonce, hfee, hpriority⟩ := numbers_inj hnumbers
    exact ⟨utf8_injective hchain.symm, Subtype.ext hkey, encode_prefixCode.injective hdata,
      hnonce, hfee, hpriority⟩
  · right
    refine ⟨x, hx, hchain, ?_⟩
    rcases List.append_eq_append_iff.mp hrest with ⟨w, hxw, hdata⟩ | ⟨y, hkey, -⟩
    · -- the chain id goes on beyond the key
      have hlength : x.length = (w ++ tx'.senderPublicKey.1).length := by
        rw [hxw, List.length_append, List.length_append, tx.senderPublicKey.2,
          tx'.senderPublicKey.2, Nat.add_comm]
      rw [← List.append_assoc] at hdata
      refine .inr ⟨tx.data, tx'.data, ?_, ?_⟩
      · rw [hxw, List.drop_left' tx.senderPublicKey.2, hdata, List.append_assoc]
        exact List.prefix_append _ _
      · rw [hdata, hlength, List.drop_left]
    · left
      have hlength := congrArg List.length hkey
      rw [tx.senderPublicKey.2, List.length_append] at hlength
      omega

/-- The code of a contract to be deployed, `k` zeros and the encoding of `imAlive`. -/
def paddedCode (k : Nat) (h : k + 1 < 2 ^ 63) : Vec UInt8 :=
  ⟨List.replicate k 0 ++ [10], by simpa using h⟩

theorem encodeBytes_padded (k : Nat) (h : k + 1 < 2 ^ 63) : encodeBytes (paddedCode k h) =
    Varint.encode (UInt64.ofNat (k + 1)) ++ List.replicate k 0 ++
      TransactionData.imAlive.encode := by
  have hbytes : ∀ xs : List UInt8, xs.flatMap (fun b => [b]) = xs := fun xs => by simp
  simp only [encodeBytes, encodeVec, paddedCode, hbytes, List.length_append, List.length_replicate,
    List.length_singleton, List.append_assoc]
  rfl

/-- Behind the bytes in front of it, the number and the zeros, the encoding of
`imAlive` is left. -/
theorem drop_padded {data : TransactionData} {front : Bytes} {k n : Nat} (h : k + 1 < 2 ^ 63)
    (hdata : data.encode = front ++ encodeBytes (paddedCode k h))
    (hlength : front.length + (Varint.encode (UInt64.ofNat (k + 1))).length + k = n) :
    data.encode.drop n = TransactionData.imAlive.encode := by
  rw [hdata, encodeBytes_padded, ← List.append_assoc, ← List.append_assoc]
  refine List.drop_left' ?_
  simp only [List.length_append, List.length_replicate]
  exact hlength

theorem ofNat_lt_iff {k : Nat} {m : UInt64} (h : k < 2 ^ 64) :
    UInt64.ofNat k < m ↔ k < m.toNat := by
  rw [UInt64.lt_iff_toNat_lt, UInt64.toNat_ofNat_of_lt' h]

/-- Every number of bytes up to the length of a key can be cut off the front of some
encoded data such that encoded data is left. The number of the bytes of a code takes
one byte or three, which leaves two lengths to calls of a contract. -/
theorem exists_overlap {n : Nat} (hpos : 0 < n) (hle : n ≤ publicKeySize) :
    ∃ data data' : TransactionData, data.encode.drop n = data'.encode := by
  have hsize : publicKeySize = 1312 := rfl
  rcases (by omega : n = 1 ∨ (2 ≤ n ∧ n ≤ 251) ∨ (252 ≤ n ∧ n ≤ 253) ∨ 254 ≤ n) with
    rfl | ⟨hlow, hhigh⟩ | ⟨hlow, hhigh⟩ | hlow
  · exact ⟨.stake 10, .imAlive, by decide⟩
  · have hcount : (Varint.encode (UInt64.ofNat (n - 2 + 1))).length = 1 := by
      refine Varint.length_encode_byte ((ofNat_lt_iff (by omega)).mpr ?_)
      show n - 2 + 1 < 251
      omega
    refine ⟨.deployContract (paddedCode (n - 2) (by omega)), .imAlive, drop_padded _ rfl ?_⟩
    rw [hcount]
    show 1 + 1 + (n - 2) = n
    omega
  · have hcount : (Varint.encode (UInt64.ofNat (n - 22 + 1))).length = 1 := by
      refine Varint.length_encode_byte ((ofNat_lt_iff (by omega)).mpr ?_)
      show n - 22 + 1 < 251
      omega
    refine ⟨.callContract (toyAddress 0) (paddedCode (n - 22) (by omega)), .imAlive,
      drop_padded (k := n - 22) (by omega) (List.append_assoc ..).symm ?_⟩
    · rw [hcount]
      show 21 + 1 + (n - 22) = n
      omega
  · have hcount : (Varint.encode (UInt64.ofNat (n - 4 + 1))).length = 3 := by
      refine Varint.length_encode_short ?_ ((ofNat_lt_iff (by omega)).mpr ?_)
      · rw [ofNat_lt_iff (by omega)]
        show ¬ n - 4 + 1 < 251
        omega
      · show n - 4 + 1 < 65536
        omega
    refine ⟨.deployContract (paddedCode (n - 4) (by omega)), .imAlive, drop_padded _ rfl ?_⟩
    rw [hcount]
    show 1 + 3 + (n - 4) = n
    omega

theorem encode_ne_nil (data : TransactionData) : data.encode ≠ [] := by
  intro h
  have hvarint := (List.append_eq_nil_iff.mp h).1
  obtain ⟨_, -, -, he⟩ | ⟨_, _, -, -, -, he⟩ := Varint.encode_cases data.variant <;>
  · rw [he] at hvarint
    cases hvarint

/-- Two keys between which the bytes `x` can move. -/
theorem exists_keys {x : Bytes} {data data' : TransactionData}
    (hbegins : x.drop publicKeySize <+: data.encode)
    (hends : data.encode.drop x.length = data'.encode) :
    ∃ key key' : FullPublicKey,
      key.1 ++ data.encode = x ++ (key'.1 ++ data'.encode) := by
  have hlong : x.length < data.encode.length := by
    by_contra hshort
    rw [List.drop_eq_nil_of_le (Nat.not_lt.mp hshort)] at hends
    exact encode_ne_nil data' hends.symm
  by_cases hx : x.length ≤ publicKeySize
  · -- the key of the shorter chain begins with `x`, that of the longer ends in data
    refine ⟨⟨x ++ List.replicate (publicKeySize - x.length) 0, ?_⟩,
      ⟨List.replicate (publicKeySize - x.length) 0 ++ data.encode.take x.length, ?_⟩, ?_⟩
    · rw [List.length_append, List.length_replicate]
      omega
    · rw [List.length_append, List.length_replicate, List.length_take]
      omega
    · rw [← hends]
      simp only [List.append_assoc, List.take_append_drop]
  · obtain ⟨rest, hrest⟩ := hbegins
    have hdrop : (x.drop publicKeySize).length = x.length - publicKeySize := List.length_drop
    have hkey' : (rest.take publicKeySize).length = publicKeySize := by
      have htotal := congrArg List.length hrest
      rw [List.length_append, hdrop] at htotal
      rw [List.length_take]
      omega
    have hleft : rest.drop publicKeySize = data'.encode := by
      have hlength : x.length = (x.drop publicKeySize).length + publicKeySize := by omega
      rw [← hends, ← hrest, hlength, List.drop_length_add_append]
    refine ⟨⟨x.take publicKeySize, List.length_take_of_le (Nat.le_of_not_le hx)⟩,
      ⟨rest.take publicKeySize, hkey'⟩, ?_⟩
    rw [← hleft, List.take_append_drop]
    show x.take publicKeySize ++ data.encode = x ++ rest
    rw [← hrest, ← List.append_assoc, List.take_append_drop]

/-- Transactions of two chains with the same bytes. -/
theorem confused_of_shiftsInto {chainId chainId' : String} (h : ShiftsInto chainId chainId') :
    chainId ≠ chainId' ∧ ∃ tx tx' : Transaction, tx.chainId = chainId ∧ tx'.chainId = chainId' ∧
      tx.canonicalBytes = tx'.canonicalBytes := by
  obtain ⟨x, hx, hchain, hdata⟩ := h
  obtain ⟨data, data', hbegins, hends⟩ : ∃ data data' : TransactionData,
      x.drop publicKeySize <+: data.encode ∧ data.encode.drop x.length = data'.encode := by
    rcases hdata with hshort | hdata
    · obtain ⟨data, data', hends⟩ := exists_overlap (List.length_pos_iff.mpr hx) hshort
      rw [List.drop_eq_nil_of_le hshort]
      exact ⟨data, data', List.nil_prefix, hends⟩
    · exact hdata
  obtain ⟨key, key', hkeys⟩ := exists_keys hbegins hends
  constructor
  · rintro rfl
    exact hx (List.self_eq_append_right.mp hchain)
  · refine ⟨⟨key, data, 0, 0, 0, [], chainId⟩, ⟨key', data', 0, 0, 0, [], chainId'⟩, rfl, rfl, ?_⟩
    refine canonicalBytes_iff.mpr ⟨?_, rfl⟩
    show utf8 chainId ++ (key.1 ++ data.encode) = utf8 chainId' ++ (key'.1 ++ data'.encode)
    rw [hchain, hkeys, List.append_assoc]

end TransactionLemmas

theorem Transaction.SameContent.symm {tx tx' : Transaction} (h : tx.SameContent tx') :
    tx'.SameContent tx :=
  ⟨h.chainId.symm, h.senderPublicKey.symm, h.data.symm, h.nonce.symm, h.maxFeePerGas.symm,
    h.maxPriorityFeePerGas.symm⟩

/-- Transactions of two chains are told apart if and only if neither chain id shifts
into the other. -/
theorem toldApart_iff (chainId chainId' : String) :
    ToldApart chainId chainId' ↔
      ¬ ShiftsInto chainId chainId' ∧ ¬ ShiftsInto chainId' chainId := by
  constructor
  · intro hapart
    constructor
    · intro hshifts
      obtain ⟨hne, tx, tx', rfl, rfl, hbytes⟩ := confused_of_shiftsInto hshifts
      exact hne ((hapart tx tx' rfl rfl).1 hbytes).chainId
    · intro hshifts
      obtain ⟨hne, tx, tx', rfl, rfl, hbytes⟩ := confused_of_shiftsInto hshifts
      exact hne ((hapart tx' tx rfl rfl).1 hbytes.symm).chainId.symm
  · rintro ⟨hforth, hback⟩ tx tx' rfl rfl
    have hsame : tx.canonicalBytes = tx'.canonicalBytes → tx.SameContent tx' := by
      intro hbytes
      obtain ⟨hfront, hnumbers⟩ := canonicalBytes_iff.mp hbytes
      rcases List.append_eq_append_iff.mp hfront with ⟨x, hchain, hrest⟩ | ⟨x, hchain, hrest⟩
      · exact (sameContent_or_shifts hchain hrest hnumbers).resolve_right hforth
      · exact ((sameContent_or_shifts hchain hrest hnumbers.symm).resolve_right hback).symm
    refine ⟨hsame, fun sha256 hfree heq => hsame (hfree ?_)⟩
    exact of_decide_eq_true heq

/-- A stake on the chain "a", under a key that begins with the letter "b". -/
def stakeOnShorter : Transaction where
  senderPublicKey := ⟨98 :: List.replicate (publicKeySize - 1) 0, by
    rw [List.length_cons, List.length_replicate]; rfl⟩
  data := .stake 5
  nonce := 0
  maxFeePerGas := 0
  maxPriorityFeePerGas := 0
  signature := []
  chainId := "a"

/-- A registration on the chain "ab", under a key that ends in the variant of a stake. -/
def registrationOnLonger : Transaction where
  senderPublicKey := ⟨List.replicate (publicKeySize - 1) 0 ++ [1], by
    rw [List.length_append, List.length_replicate]; rfl⟩
  data := .registerAsSequencer
  nonce := 0
  maxFeePerGas := 0
  maxPriorityFeePerGas := 0
  signature := []
  chainId := "ab"

/-- The boundaries between chain id, key and data are not marked: another chain, another
sender and other data, and the same bytes, so that the two compare equal whatever the hash. -/
theorem chains_confused :
    stakeOnShorter.chainId ≠ registrationOnLonger.chainId ∧
    stakeOnShorter.senderPublicKey ≠ registrationOnLonger.senderPublicKey ∧
    stakeOnShorter.data ≠ registrationOnLonger.data ∧
    stakeOnShorter.canonicalBytes = registrationOnLonger.canonicalBytes ∧
    ∀ sha256 : Bytes → Bytes, stakeOnShorter.eq sha256 registrationOnLonger = true := by
  have hbytes : stakeOnShorter.canonicalBytes = registrationOnLonger.canonicalBytes := by
    refine canonicalBytes_iff.mpr ⟨?_, rfl⟩
    show [97] ++ (98 :: List.replicate (publicKeySize - 1) 0 ++ [1, 5]) =
      [97, 98] ++ ((List.replicate (publicKeySize - 1) 0 ++ [1]) ++ [5])
    rw [List.append_assoc]
    rfl
  refine ⟨by decide, ?_, by decide, hbytes, ?_⟩
  · intro hkeys
    have hhead := congrArg (fun key : FullPublicKey => key.1.head?) hkeys
    exact absurd hhead (by decide)
  · intro sha256
    exact decide_eq_true (congrArg sha256 hbytes)

end EviceChain.Common
