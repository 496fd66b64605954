import EviceChain.Foundation.Hex
import EviceChain.Sequencer.Types

/-!
# The genesis file and the address book

The `--bootstrap` branch of the node (`zkapp/node/src/main.rs`) writes one account
for each generated validator, and `AddressBook::update_from_genesis`
(`p2p/types.rs`) fills the address book from the accounts. The writer names an
account by the hexadecimal public key, 1312 bytes, while the reader takes the name
for an address, 20 bytes, and skips what has another length. So nothing that is
written is read (`bootstrap_unread`): the book stays empty, and the two fit
together only where there is nobody to register (`bootstrap_roundTrip_iff`).

Accounts that are named by the address are read as they should be
(`addressAccounts_loaded`).

The JSON in between keeps the data and may change the order in which a hash map is
iterated; the results are about every order.
-/

namespace EviceChain.Sequencer

open Foundation

abbrev Text := List Char

/-- A component of a multiaddress. -/
inductive Protocol (PeerId : Type)
  | p2p (peerId : PeerId)
  | other (text : Text)

/-- What the two ends take from other crates: the hash of a public key, and the
peer ids and multiaddresses of `libp2p`. -/
structure Libraries where
  keccak256 : Bytes → Bytes
  keccak256_length : ∀ bytes, (keccak256 bytes).length = 32
  PeerId : Type
  peerIdText : PeerId → Text
  Multiaddr : Type
  multiaddrDecidableEq : DecidableEq Multiaddr
  parseMultiaddr : Text → Option Multiaddr
  /-- `Multiaddr::iter`. -/
  protocols : Multiaddr → List (Protocol PeerId)

instance (L : Libraries) : DecidableEq L.Multiaddr := L.multiaddrDecidableEq

variable {L : Libraries}

/-- The last 20 bytes of the hash of the key. -/
def publicKeyToAddress (L : Libraries) (publicKey : Bytes) : Address :=
  ⟨(L.keccak256 publicKey).drop ((L.keccak256 publicKey).length - 20), by
    rw [List.length_drop, L.keccak256_length]⟩

/-! ## Writing -/

structure GenesisParameters where
  subCommitteeSize : Nat
  proposerTimeoutMs : UInt64

structure GenesisAccount where
  publicKey : Text
  vrfPublicKey : Option Text
  networkIdentity : Option Text

structure Genesis where
  genesisTime : UInt64
  chainId : Text
  parameters : GenesisParameters
  accounts : List (Text × GenesisAccount)

/-- What is generated for one validator: its two public keys and its peer id. -/
structure ValidatorKeys (L : Libraries) where
  publicKey : Bytes
  publicKey_length : publicKey.length = publicKeySize
  vrfPublicKey : Bytes
  peerId : L.PeerId

/-- `HashMap::insert`. -/
def insertAccount (accounts : List (Text × GenesisAccount)) (name : Text)
    (account : GenesisAccount) : List (Text × GenesisAccount) :=
  accounts.filter (·.1 ≠ name) ++ [(name, account)]

def multiaddrText (L : Libraries) (port : Nat) (peerId : L.PeerId) : Text :=
  "/ip4/127.0.0.1/tcp/".toList ++ (toString port).toList ++ "/p2p/".toList ++ L.peerIdText peerId

/-- The account of the `i`-th validator. -/
def genesisAccount (keys : ValidatorKeys L) (i : Nat) : GenesisAccount where
  publicKey := hexEncode keys.publicKey
  vrfPublicKey := some (hexEncode keys.vrfPublicKey)
  networkIdentity := some (multiaddrText L (50000 + i) keys.peerId)

/-- The file that the `--bootstrap` branch writes. -/
def bootstrapGenesis (now : UInt64) (validators : List (ValidatorKeys L)) : Genesis where
  genesisTime := now
  chainId := "evice-blockchain-v1".toList
  parameters := ⟨6, 1200⟩
  accounts := validators.zipIdx.foldl
    (fun accounts entry =>
      insertAccount accounts (hexEncode entry.1.publicKey) (genesisAccount entry.1 entry.2)) []

/-! ## Reading -/

/-- The whole of what the address book holds of a validator. -/
structure PeerRecord (L : Libraries) where
  peerId : L.PeerId
  multiaddr : L.Multiaddr
  publicKey : Option Bytes
  vrfPublicKey : Option Bytes
  version : UInt64

/-- `address_to_identity`, in the order in which the hash map is iterated. -/
structure PeerBook (L : Libraries) where
  entries : List (Address × PeerRecord L)
  nodup : (entries.map Prod.fst).Nodup

namespace PeerBook

def empty (L : Libraries) : PeerBook L := ⟨[], List.nodup_nil⟩

def get? (book : PeerBook L) (address : Address) : Option (PeerRecord L) :=
  (book.entries.find? (·.1 = address)).map Prod.snd

/-- What an entry that is already there becomes: a new multiaddress is taken over,
nothing else. -/
def refresh (known record : PeerRecord L) : PeerRecord L :=
  if known.multiaddr ≠ record.multiaddr then
    { known with multiaddr := record.multiaddr, version := known.version + 1 }
  else known

/-- `entry(address).or_insert_with(record)` and what follows it. -/
def enter (book : PeerBook L) (address : Address) (record : PeerRecord L) : PeerBook L :=
  if h : address ∈ book.entries.map Prod.fst then
    ⟨book.entries.map fun entry =>
        if entry.1 = address then (entry.1, refresh entry.2 record) else entry, by
      have hkeys : (book.entries.map fun entry =>
          if entry.1 = address then (entry.1, refresh entry.2 record) else entry).map Prod.fst =
            book.entries.map Prod.fst := by
        rw [List.map_map]
        refine List.map_congr_left fun entry _ => ?_
        dsimp only [Function.comp]
        split <;> rfl
      rw [hkeys]
      exact book.nodup⟩
  else
    ⟨book.entries ++ [(address, record)], by
      rw [List.map_append, List.map_singleton, List.nodup_append_comm, List.singleton_append,
        List.nodup_cons]
      exact ⟨h, book.nodup⟩⟩

/-- What the consensus uses of the book. -/
def addressBook (book : PeerBook L) : AddressBook :=
  ⟨book.entries.map fun entry => (entry.1, ⟨entry.2.publicKey, entry.2.vrfPublicKey⟩), by
    rw [List.map_map]
    exact book.nodup⟩

end PeerBook

/-- `trim_start_matches("0x")`: as often as it stands there. -/
def trimStart0x : Text → Text
  | '0' :: 'x' :: rest => trimStart0x rest
  | text => text

/-- The peer id in a multiaddress. -/
def findPeerId? (L : Libraries) (addr : L.Multiaddr) : Option L.PeerId :=
  (L.protocols addr).findSome? fun
    | .p2p peerId => some peerId
    | .other _ => none

/-- What the loop reads of an account: an address and the record for it. -/
def reading (L : Libraries) (entry : Text × GenesisAccount) : Option (Address × PeerRecord L) :=
  match entry.2.networkIdentity with
  | none => none
  | some multiaddrText =>
    match hexDecode (trimStart0x entry.1) with
    | none => none
    | some bytes =>
      if h : bytes.length = 20 then
        match L.parseMultiaddr multiaddrText with
        | none => none
        | some multiaddr =>
          (findPeerId? L multiaddr).map fun peerId =>
            (⟨bytes, h⟩,
              { peerId, multiaddr
                publicKey := hexDecode (trimStart0x entry.2.publicKey)
                vrfPublicKey := entry.2.vrfPublicKey.bind fun key => hexDecode (trimStart0x key)
                version := 0 })
      else none

/-- One round of the loop over the accounts. -/
def loadAccount (book : PeerBook L) (entry : Text × GenesisAccount) : PeerBook L :=
  (reading L entry).elim book fun read => book.enter read.1 read.2

def updateFromGenesis (book : PeerBook L) (accounts : List (Text × GenesisAccount)) :
    PeerBook L :=
  accounts.foldl loadAccount book

/-- The book holds one entry for each validator and no other, under its address,
with its keys and its peer id. -/
structure Registers (validators : List (ValidatorKeys L)) (book : PeerBook L) : Prop where
  size : book.entries.length = validators.length
  entry : ∀ keys ∈ validators, ∃ record,
    book.get? (publicKeyToAddress L keys.publicKey) = some record ∧
      record.publicKey = some keys.publicKey ∧ record.vrfPublicKey = some keys.vrfPublicKey ∧
      record.peerId = keys.peerId

/-- The multiaddress that is written for the validator parses, and names its peer
id. -/
def ValidMultiaddr (entry : ValidatorKeys L × Nat) : Prop :=
  ∃ addr, L.parseMultiaddr (multiaddrText L (50000 + entry.2) entry.1.peerId) = some addr ∧
    findPeerId? L addr = some entry.1.peerId

namespace GenesisLemmas

/-- No digit is the `x` of the marker, so nothing is trimmed from encoded bytes. -/
theorem trimStart0x_hexEncode (bytes : Bytes) :
    trimStart0x (hexEncode bytes) = hexEncode bytes := by
  cases bytes with
  | nil => rfl
  | cons b bytes =>
    have hlow : hexDigit (b.toNat % 16) ≠ 'x' := hexDigit_ne_x _ (Nat.mod_lt _ (by omega))
    change trimStart0x (hexDigit (b.toNat / 16) :: hexDigit (b.toNat % 16) :: hexEncode bytes) = _
    unfold trimStart0x
    split
    · next heq => exact absurd (List.cons.inj (List.cons.inj heq).2).1 hlow
    · rfl

theorem hexDecode_trimStart0x (bytes : Bytes) :
    hexDecode (trimStart0x (hexEncode bytes)) = some bytes := by
  rw [trimStart0x_hexEncode, hexDecode_hexEncode]

/-- An account that is named by anything but 20 bytes is skipped. -/
theorem loadAccount_of_length_ne (book : PeerBook L) (bytes : Bytes) (hlen : bytes.length ≠ 20)
    (account : GenesisAccount) : loadAccount book (hexEncode bytes, account) = book := by
  unfold loadAccount reading
  cases account.networkIdentity with
  | none => rfl
  | some multiaddrText =>
    rw [hexDecode_trimStart0x]
    dsimp only
    rw [dif_neg hlen]
    rfl

theorem updateFromGenesis_eq_self (book : PeerBook L) {accounts : List (Text × GenesisAccount)}
    (h : ∀ entry ∈ accounts, loadAccount book entry = book) :
    updateFromGenesis book accounts = book := by
  unfold updateFromGenesis
  induction accounts with
  | nil => rfl
  | cons entry accounts ih =>
    rw [List.foldl_cons, h entry List.mem_cons_self]
    exact ih fun e he => h e (List.mem_cons_of_mem _ he)

/-- Every account of the file is named by the public key of a validator. -/
theorem mem_bootstrapGenesis {now : UInt64} {validators : List (ValidatorKeys L)}
    {entry : Text × GenesisAccount} (h : entry ∈ (bootstrapGenesis now validators).accounts) :
    ∃ keys ∈ validators, entry.1 = hexEncode keys.publicKey := by
  refine List.foldlRecOn (motive := fun accounts => ∀ entry ∈ accounts,
    ∃ keys ∈ validators, entry.1 = hexEncode keys.publicKey) validators.zipIdx _
    (by simp) ?_ entry h
  intro accounts ih generated hgenerated entry hentry
  rcases List.mem_append.mp hentry with hold | hnew
  · exact ih entry (List.mem_of_mem_filter hold)
  · rw [List.mem_singleton.mp hnew]
    exact ⟨generated.1, (List.mem_zipIdx hgenerated).2.2 ▸ List.getElem_mem _, rfl⟩

end GenesisLemmas

open TypesLemmas GenesisLemmas

/-- Nothing of what the bootstrap writes is read. -/
theorem bootstrap_unread (now : UInt64) (validators : List (ValidatorKeys L)) (book : PeerBook L)
    {accounts : List (Text × GenesisAccount)}
    (hread : accounts.Perm (bootstrapGenesis now validators).accounts) :
    updateFromGenesis book accounts = book := by
  refine updateFromGenesis_eq_self book fun entry hentry => ?_
  obtain ⟨keys, -, hname⟩ := mem_bootstrapGenesis (hread.mem_iff.mp hentry)
  obtain ⟨name, account⟩ := entry
  dsimp only at hname
  subst hname
  have hlen : keys.publicKey.length ≠ 20 := by
    rw [keys.publicKey_length]
    decide
  exact loadAccount_of_length_ne book keys.publicKey hlen account

/-- The file and the book fit together only if there is no validator. -/
theorem bootstrap_roundTrip_iff (L : Libraries) (now : UInt64)
    (validators : List (ValidatorKeys L)) :
    (∀ accounts, accounts.Perm (bootstrapGenesis now validators).accounts →
      Registers validators (updateFromGenesis (PeerBook.empty L) accounts)) ↔ validators = [] := by
  constructor
  · intro h
    have hsize := (h _ (.refl _)).size
    rw [bootstrap_unread now validators (PeerBook.empty L) (.refl _)] at hsize
    exact List.eq_nil_of_length_eq_zero hsize.symm
  · rintro rfl accounts hread
    rw [bootstrap_unread now [] (PeerBook.empty L) hread]
    exact ⟨rfl, fun _ h => nomatch h⟩

def toyLibraries : Libraries where
  keccak256 := toyCrypto.sha256
  keccak256_length := toyCrypto.sha256_length
  PeerId := Nat
  peerIdText n := List.replicate n 'Q'
  Multiaddr := Text
  multiaddrDecidableEq := inferInstance
  parseMultiaddr := some
  protocols text := [.other text, .p2p (text.count 'Q')]

def toyValidatorKeys (key : UInt8) : ValidatorKeys toyLibraries :=
  ⟨toyCrypto.publicKeyBytes key, toyCrypto.publicKeyBytes_length key, List.replicate 32 key,
    key.toNat⟩

theorem validMultiaddr_toyValidatorKeys {key : UInt8} {i : Nat}
    (h : (multiaddrText toyLibraries (50000 + i) key.toNat).count 'Q' = key.toNat) :
    ValidMultiaddr (toyValidatorKeys key, i) :=
  ⟨multiaddrText toyLibraries (50000 + i) key.toNat, rfl, congrArg some h⟩

/-- The file of two validators with different keys and valid multiaddresses: none
of them is in the book. -/
theorem bootstrap_book_empty :
    ([toyValidatorKeys 1, toyValidatorKeys 2].map (·.publicKey)).Nodup ∧
      (∀ entry ∈ [toyValidatorKeys 1, toyValidatorKeys 2].zipIdx, ValidMultiaddr entry) ∧
      (updateFromGenesis (PeerBook.empty toyLibraries)
        (bootstrapGenesis 0 [toyValidatorKeys 1, toyValidatorKeys 2]).accounts).entries.length =
          0 := by
  refine ⟨by decide +kernel, ?_, by decide +kernel⟩
  rintro entry hentry
  rcases List.mem_cons.mp hentry with rfl | hentry
  · exact validMultiaddr_toyValidatorKeys (by decide +kernel)
  · obtain rfl := List.mem_singleton.mp hentry
    exact validMultiaddr_toyValidatorKeys (by decide +kernel)

/-! ## Accounts named by the address -/

/-- The account that the reader would accept. -/
def addressAccount (entry : ValidatorKeys L × Nat) : Text × GenesisAccount :=
  (hexEncode (publicKeyToAddress L entry.1.publicKey).1, genesisAccount entry.1 entry.2)

/-- What the book should hold of a validator. -/
structure Describes (entry : ValidatorKeys L × Nat) (registered : Address × PeerRecord L) :
    Prop where
  address : registered.1 = publicKeyToAddress L entry.1.publicKey
  publicKey : registered.2.publicKey = some entry.1.publicKey
  vrfPublicKey : registered.2.vrfPublicKey = some entry.1.vrfPublicKey
  peerId : registered.2.peerId = entry.1.peerId

namespace GenesisLemmas

theorem get?_of_mem {book : PeerBook L} {entry : Address × PeerRecord L}
    (h : entry ∈ book.entries) : book.get? entry.1 = some entry.2 := by
  rw [PeerBook.get?, find?_of_nodup_map book.nodup h, Option.map_some]

theorem get?_addressBook {book : PeerBook L} {address : Address} {record : PeerRecord L}
    (h : book.get? address = some record) :
    book.addressBook.get? address = some ⟨record.publicKey, record.vrfPublicKey⟩ := by
  obtain ⟨entry, hfind, rfl⟩ := Option.map_eq_some_iff.mp h
  rw [AddressBook.get?, PeerBook.addressBook, List.find?_map]
  change ((book.entries.find? (·.1 = address)).map _).map Prod.snd = _
  rw [hfind]
  rfl

theorem exists_mem_of_forall₂ {α β : Type*} {R : α → β → Prop} {l : List α} {m : List β}
    (h : List.Forall₂ R l m) {a : α} (ha : a ∈ l) : ∃ b ∈ m, R a b := by
  induction h with
  | nil => cases ha
  | cons hab _ ih =>
    rcases List.mem_cons.mp ha with rfl | ha
    · exact ⟨_, List.mem_cons_self, hab⟩
    · obtain ⟨b, hb, hR⟩ := ih ha
      exact ⟨b, List.mem_cons_of_mem _ hb, hR⟩

/-- An account named by an address that the book does not have adds its entry. -/
theorem loadAccount_addressAccount (book : PeerBook L) {entry : ValidatorKeys L × Nat}
    (hvalid : ValidMultiaddr entry)
    (hnew : publicKeyToAddress L entry.1.publicKey ∉ book.entries.map Prod.fst) :
    ∃ registered, (loadAccount book (addressAccount entry)).entries =
      book.entries ++ [registered] ∧ Describes entry registered := by
  obtain ⟨addr, hparse, hpeer⟩ := hvalid
  refine ⟨(publicKeyToAddress L entry.1.publicKey, ⟨entry.1.peerId, addr, some entry.1.publicKey,
    some entry.1.vrfPublicKey, 0⟩), ?_, rfl, rfl, rfl, rfl⟩
  have hlen := (publicKeyToAddress L entry.1.publicKey).2
  simp only [loadAccount, reading, addressAccount, genesisAccount, hexDecode_trimStart0x, hlen,
    hparse, hpeer, dif_pos, Option.bind_some, Option.map_some, Option.elim_some]
  rw [PeerBook.enter, dif_neg hnew]

/-- The whole loop. -/
theorem updateFromGenesis_addressAccounts (book : PeerBook L)
    {entries : List (ValidatorKeys L × Nat)} (hvalid : ∀ entry ∈ entries, ValidMultiaddr entry)
    (hdistinct : (book.entries.map Prod.fst ++
      entries.map fun entry => publicKeyToAddress L entry.1.publicKey).Nodup) :
    ∃ added, (updateFromGenesis book (entries.map addressAccount)).entries =
      book.entries ++ added ∧ List.Forall₂ Describes entries added := by
  induction entries generalizing book with
  | nil => exact ⟨[], (List.append_nil _).symm, .nil⟩
  | cons entry entries ih =>
    rw [List.map_cons] at hdistinct
    have hnew : publicKeyToAddress L entry.1.publicKey ∉ book.entries.map Prod.fst := fun h =>
      List.disjoint_of_nodup_append hdistinct h List.mem_cons_self
    obtain ⟨registered, hentries, hdescribes⟩ :=
      loadAccount_addressAccount book (hvalid entry List.mem_cons_self) hnew
    obtain ⟨added, hadded, hall⟩ := ih (loadAccount book (addressAccount entry))
      (fun e he => hvalid e (List.mem_cons_of_mem _ he)) (by
        rw [hentries, List.map_append, List.map_singleton, hdescribes.address, List.append_assoc,
          List.singleton_append]
        exact hdistinct)
    refine ⟨registered :: added, ?_, .cons hdescribes hall⟩
    rw [List.map_cons, updateFromGenesis, List.foldl_cons]
    exact hadded.trans (by rw [hentries, List.append_assoc, List.singleton_append])

end GenesisLemmas

/-- Accounts that are named by distinct addresses, in whatever order, are all
read, and the consensus finds every validator under the key it signs with. -/
theorem addressAccounts_loaded {entries : List (ValidatorKeys L × Nat)}
    (hvalid : ∀ entry ∈ entries, ValidMultiaddr entry)
    (hdistinct : (entries.map fun entry => publicKeyToAddress L entry.1.publicKey).Nodup) :
    Registers (entries.map Prod.fst)
        (updateFromGenesis (PeerBook.empty L) (entries.map addressAccount)) ∧
      ∀ entry ∈ entries,
        (updateFromGenesis (PeerBook.empty L) (entries.map addressAccount)).addressBook.signingKey?
          (publicKeyToAddress L entry.1.publicKey) = some entry.1.publicKey := by
  obtain ⟨added, hadded, hall⟩ :=
    updateFromGenesis_addressAccounts (PeerBook.empty L) hvalid hdistinct
  set book := updateFromGenesis (PeerBook.empty L) (entries.map addressAccount)
  have hbook : book.entries = added := hadded
  have hfind : ∀ entry ∈ entries, ∃ record,
      book.get? (publicKeyToAddress L entry.1.publicKey) = some record ∧
        Describes entry (publicKeyToAddress L entry.1.publicKey, record) := by
    intro entry hentry
    obtain ⟨⟨address, record⟩, hmem, hdescribes⟩ := exists_mem_of_forall₂ hall hentry
    obtain rfl : address = _ := hdescribes.address
    exact ⟨record, get?_of_mem (hbook ▸ hmem), hdescribes⟩
  refine ⟨⟨?_, ?_⟩, ?_⟩
  · rw [hbook, List.length_map, hall.length_eq]
  · intro keys hkeys
    obtain ⟨entry, hentry, rfl⟩ := List.mem_map.mp hkeys
    obtain ⟨record, hget, hdescribes⟩ := hfind entry hentry
    exact ⟨record, hget, hdescribes.publicKey, hdescribes.vrfPublicKey, hdescribes.peerId⟩
  · intro entry hentry
    obtain ⟨record, hget, hdescribes⟩ := hfind entry hentry
    exact signingKey?_eq_some.mpr ⟨_, get?_addressBook hget, hdescribes.publicKey,
      entry.1.publicKey_length⟩

end EviceChain.Sequencer
