import EviceChain.Sequencer.Genesis

/-!
# The address book and the order of the accounts

`AddressBook::update_from_genesis` goes through a hash map, whose order differs from
node to node. Accounts with different names can be read under one address: the
marker `0x` is optional and digits have two cases. Of such accounts the first one
read gives the keys and the peer id and the last one the multiaddress.

`get?_updateFromGenesis` is the entry of an address as a fold over what is read under it.

Results:
1. `sameBook_iff`: every order of the accounts gives the same book, and reading
   them again changes nothing, if and only if accounts read under one address give
   the same record;
2. `spelledTwice_differ`: two spellings of one address with different keys.
-/

namespace EviceChain.Sequencer

open Foundation TypesLemmas GenesisLemmas

variable {L : Libraries}

/-- Accounts that are read under one address give the same record. -/
def Unanimous (L : Libraries) (accounts : List (Text × GenesisAccount)) : Prop :=
  ∀ entry ∈ accounts, ∀ entry' ∈ accounts, ∀ address record record',
    reading L entry = some (address, record) → reading L entry' = some (address, record') →
    record = record'

theorem Unanimous.perm {accounts accounts' : List (Text × GenesisAccount)}
    (h : Unanimous L accounts) (hperm : accounts'.Perm accounts) : Unanimous L accounts' :=
  fun entry hentry entry' hentry' =>
    h entry (hperm.mem_iff.mp hentry) entry' (hperm.mem_iff.mp hentry')

/-- The data of a record without its version. -/
def PeerRecord.identity (record : PeerRecord L) :
    L.PeerId × L.Multiaddr × Option Bytes × Option Bytes :=
  (record.peerId, record.multiaddr, record.publicKey, record.vrfPublicKey)

/-- Two books have the same addresses, with the same keys, peer ids and multiaddresses. -/
def PeerBook.Agrees (book book' : PeerBook L) : Prop :=
  ∀ address, (book.get? address).map PeerRecord.identity =
    (book'.get? address).map PeerRecord.identity

namespace GenesisOrderLemmas

/-! ## One account -/

theorem reading_version {entry : Text × GenesisAccount} {address : Address}
    {record : PeerRecord L} (h : reading L entry = some (address, record)) :
    record.version = 0 := by
  unfold reading at h
  split at h
  · cases h
  · split at h
    · cases h
    · split at h
      · split at h
        · cases h
        · obtain ⟨peerId, -, hread⟩ := Option.map_eq_some_iff.mp h
          obtain ⟨-, rfl⟩ := Prod.mk.inj hread
          rfl
      · cases h

/-- What an entry becomes when a record is read for its address. -/
def revise (known : Option (PeerRecord L)) (record : PeerRecord L) : Option (PeerRecord L) :=
  some (known.elim record fun known => PeerBook.refresh known record)

theorem get?_enter (book : PeerBook L) (address : Address) (record : PeerRecord L)
    (other : Address) :
    (book.enter address record).get? other =
      if other = address then revise (book.get? address) record else book.get? other := by
  unfold PeerBook.enter
  split
  · next hmem =>
    -- the map keeps the addresses, so the search finds the same entry
    have hsame : ((fun entry : Address × PeerRecord L => decide (entry.1 = other)) ∘
        fun entry => if entry.1 = address then (entry.1, PeerBook.refresh entry.2 record)
          else entry) = fun entry => decide (entry.1 = other) := by
      funext entry
      dsimp only [Function.comp]
      split <;> rfl
    unfold PeerBook.get?
    rw [List.find?_map, hsame]
    split
    · next heq =>
      subst heq
      obtain ⟨⟨_, known⟩, hentry, rfl⟩ := List.mem_map.mp hmem
      rw [find?_of_nodup_map book.nodup hentry]
      simp [revise]
    · next hne =>
      cases hfind : book.entries.find? fun entry => decide (entry.1 = other) with
      | none => rfl
      | some entry =>
        have hother := List.find?_some hfind
        rw [decide_eq_true_eq] at hother
        simp [hother, hne]
  · next hmem =>
    have hnone : book.get? address = none := by
      unfold PeerBook.get?
      rw [Option.map_eq_none_iff, List.find?_eq_none]
      intro entry hentry heq
      exact hmem (List.mem_map.mpr ⟨entry, hentry, of_decide_eq_true heq⟩)
    rw [hnone]
    unfold PeerBook.get?
    rw [List.find?_append]
    split
    · next heq =>
      subst heq
      rw [Option.map_eq_none_iff.mp hnone]
      simp [revise]
    · next hne =>
      simp [Ne.symm hne]

/-! ## All accounts -/

/-- The records that are read under an address, in their order. -/
def recordsAt (L : Libraries) (address : Address) (accounts : List (Text × GenesisAccount)) :
    List (PeerRecord L) :=
  accounts.filterMap fun entry =>
    (reading L entry).bind fun read => if read.1 = address then some read.2 else none

theorem mem_recordsAt {address : Address} {accounts : List (Text × GenesisAccount)}
    {record : PeerRecord L} :
    record ∈ recordsAt L address accounts ↔
      ∃ entry ∈ accounts, reading L entry = some (address, record) := by
  unfold recordsAt
  rw [List.mem_filterMap]
  refine exists_congr fun entry => and_congr_right fun _ => ?_
  cases reading L entry with
  | none => simp
  | some read =>
    obtain ⟨a, r⟩ := read
    simp

theorem recordsAt_cons_of_some {entry : Text × GenesisAccount} {address : Address}
    {record : PeerRecord L} (h : reading L entry = some (address, record))
    (accounts : List (Text × GenesisAccount)) :
    recordsAt L address (entry :: accounts) = record :: recordsAt L address accounts :=
  List.filterMap_cons_some (by simp [h])

/-- The entry of an address after the loop. -/
theorem get?_updateFromGenesis (book : PeerBook L) (accounts : List (Text × GenesisAccount))
    (address : Address) :
    (updateFromGenesis book accounts).get? address =
      (recordsAt L address accounts).foldl revise (book.get? address) := by
  induction accounts generalizing book with
  | nil => rfl
  | cons entry accounts ih =>
    show (updateFromGenesis (loadAccount book entry) accounts).get? address = _
    rw [ih, loadAccount]
    cases hread : reading L entry with
    | none => simp [recordsAt, hread]
    | some read =>
      obtain ⟨a, record⟩ := read
      dsimp only [Option.elim]
      rw [get?_enter]
      split
      · next heq =>
        subst heq
        rw [recordsAt_cons_of_some hread, List.foldl_cons]
      · next hne =>
        have hskip : recordsAt L address (entry :: accounts) = recordsAt L address accounts :=
          List.filterMap_cons_none (by simp [hread, Ne.symm hne])
        rw [hskip]

/-- Of the records read under an address, the first gives the keys and the peer id and
the last the multiaddress. -/
theorem revise_first (record : PeerRecord L) (records : List (PeerRecord L)) :
    ∃ final, (record :: records).foldl revise none = some final ∧
      final.peerId = record.peerId ∧ final.publicKey = record.publicKey ∧
      final.vrfPublicKey = record.vrfPublicKey := by
  induction records using List.reverseRecOn with
  | nil => exact ⟨record, rfl, rfl, rfl, rfl⟩
  | append_singleton records later ih =>
    obtain ⟨final, hfold, hpeer, hkey, hvrf⟩ := ih
    refine ⟨PeerBook.refresh final later, ?_, ?_⟩
    · rw [← List.cons_append, List.foldl_append, hfold]
      rfl
    · unfold PeerBook.refresh
      split
      · exact ⟨hpeer, hkey, hvrf⟩
      · exact ⟨hpeer, hkey, hvrf⟩

theorem revise_last (record : PeerRecord L) (records : List (PeerRecord L)) :
    ∃ final, (records ++ [record]).foldl revise none = some final ∧
      final.multiaddr = record.multiaddr := by
  rw [List.foldl_append]
  cases records.foldl revise none with
  | none => exact ⟨record, rfl, rfl⟩
  | some known =>
    refine ⟨PeerBook.refresh known record, rfl, ?_⟩
    unfold PeerBook.refresh
    split
    · rfl
    · next hsame => exact not_not.mp hsame

/-- Equal records leave the first one as it is. -/
theorem revise_same {record : PeerRecord L} {records : List (PeerRecord L)}
    (h : ∀ other ∈ records, other = record) : records.foldl revise (some record) = some record := by
  induction records with
  | nil => rfl
  | cons other records ih =>
    obtain rfl := h other List.mem_cons_self
    have hrefresh : revise (some other) other = some other := by
      simp [revise, PeerBook.refresh]
    rw [List.foldl_cons, hrefresh]
    exact ih fun next hnext => h next (List.mem_cons_of_mem _ hnext)

/-! ## Loading a file -/

theorem get?_first {entry : Text × GenesisAccount} {address : Address} {record : PeerRecord L}
    (h : reading L entry = some (address, record)) (accounts : List (Text × GenesisAccount)) :
    ∃ final, (updateFromGenesis (PeerBook.empty L) (entry :: accounts)).get? address =
        some final ∧ final.peerId = record.peerId ∧ final.publicKey = record.publicKey ∧
      final.vrfPublicKey = record.vrfPublicKey := by
  rw [get?_updateFromGenesis, recordsAt_cons_of_some h]
  exact revise_first record _

theorem get?_last {entry : Text × GenesisAccount} {address : Address} {record : PeerRecord L}
    (h : reading L entry = some (address, record)) (accounts : List (Text × GenesisAccount)) :
    ∃ final, (updateFromGenesis (PeerBook.empty L) (accounts ++ [entry])).get? address =
        some final ∧ final.multiaddr = record.multiaddr := by
  have happend : recordsAt L address (accounts ++ [entry]) =
      recordsAt L address accounts ++ [record] := by
    rw [recordsAt, List.filterMap_append, ← recordsAt, ← recordsAt, recordsAt_cons_of_some h]
    rfl
  rw [get?_updateFromGenesis, happend]
  exact revise_last record _

/-- Accounts that agree are loaded as they are read. -/
theorem get?_unanimous {accounts : List (Text × GenesisAccount)} (h : Unanimous L accounts)
    {entry : Text × GenesisAccount} (hentry : entry ∈ accounts) {address : Address}
    {record : PeerRecord L} (hread : reading L entry = some (address, record)) :
    (updateFromGenesis (PeerBook.empty L) accounts).get? address = some record := by
  have hall : ∀ other ∈ recordsAt L address accounts, other = record := by
    intro other hother
    obtain ⟨entry', hentry', hread'⟩ := mem_recordsAt.mp hother
    exact h entry' hentry' entry hentry address other record hread' hread
  rw [get?_updateFromGenesis]
  cases hrecords : recordsAt L address accounts with
  | nil =>
    have hmem := mem_recordsAt.mpr ⟨entry, hentry, hread⟩
    rw [hrecords] at hmem
    cases hmem
  | cons first rest =>
    rw [hrecords] at hall
    obtain rfl := hall first List.mem_cons_self
    exact revise_same fun other hother => hall other (List.mem_cons_of_mem _ hother)

theorem get?_unread {accounts : List (Text × GenesisAccount)} {address : Address}
    (h : ∀ entry ∈ accounts, ∀ record, reading L entry ≠ some (address, record)) :
    (updateFromGenesis (PeerBook.empty L) accounts).get? address = none := by
  have hnil : recordsAt L address accounts = [] := by
    refine List.eq_nil_iff_forall_not_mem.mpr fun record hrecord => ?_
    obtain ⟨entry, hentry, hread⟩ := mem_recordsAt.mp hrecord
    exact h entry hentry record hread
  rw [get?_updateFromGenesis, hnil]
  rfl

/-- A record that the book has already changes nothing. -/
theorem enter_known {book : PeerBook L} {address : Address} {record : PeerRecord L}
    (h : book.get? address = some record) : book.enter address record = book := by
  have hmem : address ∈ book.entries.map Prod.fst := by
    obtain ⟨entry, hfind, -⟩ := Option.map_eq_some_iff.mp h
    have haddress := List.find?_some hfind
    rw [decide_eq_true_eq] at haddress
    exact List.mem_map.mpr ⟨entry, List.mem_of_find?_eq_some hfind, haddress⟩
  have hentries : (book.entries.map fun entry =>
      if entry.1 = address then (entry.1, PeerBook.refresh entry.2 record) else entry) =
        book.entries := by
    conv_rhs => rw [← List.map_id book.entries]
    refine List.map_congr_left fun entry hentry => ?_
    split
    · next haddress =>
      have hrecord := get?_of_mem hentry
      rw [haddress, h] at hrecord
      obtain rfl := Option.some.inj hrecord
      simp [PeerBook.refresh]
    · rfl
  unfold PeerBook.enter
  rw [dif_pos hmem]
  simp only [hentries]

end GenesisOrderLemmas

open GenesisOrderLemmas

section

variable {genesis : Genesis}

/-- Each of two accounts can come first, and each can come last. -/
theorem unanimous_of_agrees
    (hagrees : ∀ accounts accounts', accounts.Perm genesis.accounts →
      accounts'.Perm genesis.accounts →
        (updateFromGenesis (PeerBook.empty L) accounts).Agrees
          (updateFromGenesis (PeerBook.empty L) accounts')) :
    Unanimous L genesis.accounts := by
  intro entry hentry entry' hentry' address record record' hread hread'
  obtain ⟨before, after, hsplit⟩ := List.append_of_mem hentry
  obtain ⟨before', after', hsplit'⟩ := List.append_of_mem hentry'
  have hfirst : (entry :: (before ++ after)).Perm genesis.accounts :=
    hsplit ▸ List.perm_middle.symm
  have hfirst' : (entry' :: (before' ++ after')).Perm genesis.accounts :=
    hsplit' ▸ List.perm_middle.symm
  obtain ⟨x, hx, hxpeer, hxkey, hxvrf⟩ := get?_first hread (before ++ after)
  obtain ⟨y, hy, hypeer, hykey, hyvrf⟩ := get?_first hread' (before' ++ after')
  have hkeys := hagrees _ _ hfirst hfirst' address
  rw [hx, hy] at hkeys
  obtain ⟨z, hz, hzaddr⟩ := get?_last hread (before ++ after)
  obtain ⟨w, hw, hwaddr⟩ := get?_last hread' (before' ++ after')
  have haddrs := hagrees _ _ ((List.perm_append_singleton _ _).trans hfirst)
    ((List.perm_append_singleton _ _).trans hfirst') address
  rw [hz, hw] at haddrs
  simp only [Option.map_some, Option.some.injEq, PeerRecord.identity, Prod.mk.injEq]
    at hkeys haddrs
  obtain ⟨hpeer, -, hkey, hvrf⟩ := hkeys
  obtain ⟨-, haddr, -, -⟩ := haddrs
  obtain ⟨p, m, k, v, n⟩ := record
  obtain ⟨p', m', k', v', n'⟩ := record'
  obtain rfl : n = 0 := reading_version hread
  obtain rfl : n' = 0 := reading_version hread'
  simp only [PeerRecord.mk.injEq, and_true]
  exact ⟨hxpeer.symm.trans (hpeer.trans hypeer), hzaddr.symm.trans (haddr.trans hwaddr),
    hxkey.symm.trans (hkey.trans hykey), hxvrf.symm.trans (hvrf.trans hyvrf)⟩

variable {accounts accounts' : List (Text × GenesisAccount)}

theorem Unanimous.agrees (h : Unanimous L genesis.accounts)
    (hperm : accounts.Perm genesis.accounts) (hperm' : accounts'.Perm genesis.accounts) :
    (updateFromGenesis (PeerBook.empty L) accounts).Agrees
      (updateFromGenesis (PeerBook.empty L) accounts') := by
  intro address
  by_cases hread : ∃ entry ∈ genesis.accounts, ∃ record, reading L entry = some (address, record)
  · obtain ⟨entry, hentry, record, hread⟩ := hread
    rw [get?_unanimous (h.perm hperm) (hperm.mem_iff.mpr hentry) hread,
      get?_unanimous (h.perm hperm') (hperm'.mem_iff.mpr hentry) hread]
  · have hnone : ∀ {accounts : List (Text × GenesisAccount)},
        accounts.Perm genesis.accounts → ∀ entry ∈ accounts, ∀ record,
          reading L entry ≠ some (address, record) :=
      fun hperm entry hentry record hsome =>
        hread ⟨entry, hperm.mem_iff.mp hentry, record, hsome⟩
    rw [get?_unread (hnone hperm), get?_unread (hnone hperm')]

theorem Unanimous.again (h : Unanimous L genesis.accounts)
    (hperm : accounts.Perm genesis.accounts) (hperm' : accounts'.Perm genesis.accounts) :
    updateFromGenesis (updateFromGenesis (PeerBook.empty L) accounts) accounts' =
      updateFromGenesis (PeerBook.empty L) accounts := by
  refine updateFromGenesis_eq_self _ fun entry hentry => ?_
  rw [loadAccount]
  cases hread : reading L entry with
  | none => rfl
  | some read =>
    have hmem := hperm.mem_iff.mpr (hperm'.mem_iff.mp hentry)
    exact enter_known (get?_unanimous (h.perm hperm) hmem hread)

end

/-- All orders of the accounts give books that agree, and reading the accounts again, in
any order, changes nothing, if and only if accounts that are read under one address give
the same record. -/
theorem sameBook_iff (L : Libraries) (genesis : Genesis) :
    ((∀ accounts accounts', accounts.Perm genesis.accounts → accounts'.Perm genesis.accounts →
        (updateFromGenesis (PeerBook.empty L) accounts).Agrees
          (updateFromGenesis (PeerBook.empty L) accounts')) ∧
      ∀ accounts accounts', accounts.Perm genesis.accounts → accounts'.Perm genesis.accounts →
        updateFromGenesis (updateFromGenesis (PeerBook.empty L) accounts) accounts' =
          updateFromGenesis (PeerBook.empty L) accounts) ↔
      Unanimous L genesis.accounts := by
  constructor
  · rintro ⟨hagrees, -⟩
    exact unanimous_of_agrees hagrees
  · intro h
    exact ⟨fun _ _ hperm hperm' => h.agrees hperm hperm',
      fun _ _ hperm hperm' => h.again hperm hperm'⟩

/-- Two accounts for one address, its digits once in lower and once in upper case. -/
def spelledTwice : Genesis where
  genesisTime := 0
  chainId := []
  parameters := ⟨6, 1200⟩
  accounts :=
    [(List.replicate 40 'a', ⟨['0', '1'], none, some ['Q']⟩),
      (List.replicate 40 'A', ⟨['0', '2'], none, some ['Q', 'Q']⟩)]

/-- The names are different, and the order decides which key the address has. -/
theorem spelledTwice_differ :
    (spelledTwice.accounts.map Prod.fst).Nodup ∧
      ¬(updateFromGenesis (PeerBook.empty toyLibraries) spelledTwice.accounts).Agrees
        (updateFromGenesis (PeerBook.empty toyLibraries) spelledTwice.accounts.reverse) := by
  refine ⟨by decide +kernel, fun h => ?_⟩
  have hkeys := congrArg (Option.map fun identity => identity.2.2.1)
    (h ⟨List.replicate 20 0xaa, List.length_replicate⟩)
  revert hkeys
  decide +kernel

end EviceChain.Sequencer
