import EviceChain.Sequencer.Types

/-!
# What an accepted quorum certificate stands for

The acceptance check counts the first signature of each voter. It counts
distinct registered validators only (`card_validVoters`), so two accepted
certificates share more validators than a third of the book
(`accepted_intersect`), and any two quorums one that is not among a given third
(`QuorumOf.both`). A certificate of valid signatures by distinct voters is
counted in full (`isFullyValid_of_distinct`).
-/

namespace EviceChain.Sequencer

open TypesLemmas

variable {C : Crypto} {book : AddressBook} {qc : QuorumCertificate}

/-- The validator has a valid signature among those of the certificate. -/
def signedBy (C : Crypto) (book : AddressBook) (qc : QuorumCertificate) (address : Address) :
    Bool :=
  qc.signatures.any fun entry =>
    entry.1 = address &&
      verifyVoteSignature C book address qc.viewNumber qc.batchHash entry.2

/-- The registered validators with a valid signature in the certificate. -/
def validVoters (C : Crypto) (book : AddressBook) (qc : QuorumCertificate) : Finset Address :=
  book.addresses.toFinset.filter (signedBy C book qc ·)

/-- Every validator of a quorum has the property. -/
def QuorumOf (book : AddressBook) (P : Address → Prop) : Prop :=
  ∃ voters ⊆ book.addresses.toFinset,
    requiredQuorum book.size ≤ voters.card ∧ ∀ address ∈ voters, P address

namespace QuorumCertLemmas

theorem mem_addresses_of_verify {voter : Address} {roundId : UInt64} {hash signature : Bytes}
    (h : verifyVoteSignature C book voter roundId hash signature = true) :
    voter ∈ book.addresses := by
  unfold verifyVoteSignature at h
  split at h
  · cases h
  · next key hkey =>
    obtain ⟨info, hinfo, -⟩ := signingKey?_eq_some.mp hkey
    exact mem_addresses_of_get? hinfo

theorem mem_validVoters {entry : Address × Bytes} (hentry : entry ∈ qc.signatures)
    (h : verifyVoteSignature C book entry.1 qc.viewNumber qc.batchHash entry.2 = true) :
    entry.1 ∈ validVoters C book qc := by
  refine Finset.mem_filter.mpr ⟨List.mem_toFinset.mpr (mem_addresses_of_verify h), ?_⟩
  exact List.any_eq_true.mpr ⟨entry, hentry, by simp [h]⟩

theorem validVoters_subset : validVoters C book qc ⊆ book.addresses.toFinset :=
  Finset.filter_subset _ _

theorem card_addresses : book.addresses.toFinset.card = book.size := by
  have hcard := List.toFinset_card_of_nodup book.nodup
  rw [List.length_map] at hcard
  exact hcard

/-- The loop counts voters it has seen and found valid, each once. -/
theorem foldl_countSignature {l : List (Address × Bytes)} (hl : ∀ e ∈ l, e ∈ qc.signatures)
    {s : Nat × List Address}
    (hs : ∃ counted : Finset Address, counted.card = s.1 ∧ (∀ a ∈ counted, a ∈ s.2) ∧
      counted ⊆ validVoters C book qc) :
    ∃ counted : Finset Address, counted.card = (l.foldl (countSignature C book qc) s).1 ∧
      counted ⊆ validVoters C book qc := by
  induction l generalizing s with
  | nil =>
    obtain ⟨counted, hcard, -, hvalid⟩ := hs
    exact ⟨counted, hcard, hvalid⟩
  | cons e l ih =>
    have hrest : ∀ e' ∈ l, e' ∈ qc.signatures := fun e' h => hl e' (List.mem_cons_of_mem _ h)
    obtain ⟨counted, hcard, hseen, hvalid⟩ := hs
    rw [List.foldl_cons]
    refine ih hrest ?_
    unfold countSignature
    split
    · exact ⟨counted, hcard, hseen, hvalid⟩
    · next hnew =>
      split
      · next hverify =>
        have hfresh : e.1 ∉ counted := fun h => hnew (hseen _ h)
        refine ⟨insert e.1 counted, by rw [Finset.card_insert_of_notMem hfresh, hcard], ?_, ?_⟩
        · intro a ha
          rcases Finset.mem_insert.mp ha with rfl | ha
          · exact List.mem_cons_self
          · exact List.mem_cons_of_mem _ (hseen a ha)
        · exact Finset.insert_subset (mem_validVoters (hl e List.mem_cons_self) hverify) hvalid
      · exact ⟨counted, hcard, fun a ha => List.mem_cons_of_mem _ (hseen a ha), hvalid⟩

/-- Valid signatures of voters that are all different are all counted. -/
theorem foldl_countSignature_distinct {l : List (Address × Bytes)}
    (hdistinct : (l.map Prod.fst).Nodup)
    (hvalid : ∀ e ∈ l, verifyVoteSignature C book e.1 qc.viewNumber qc.batchHash e.2 = true)
    {s : Nat × List Address} (hs : ∀ e ∈ l, e.1 ∉ s.2) :
    (l.foldl (countSignature C book qc) s).1 = s.1 + l.length := by
  induction l generalizing s with
  | nil => rfl
  | cons e l ih =>
    obtain ⟨hnew, hdistinct⟩ := List.nodup_cons.mp hdistinct
    obtain ⟨hverify, hvalid⟩ := List.forall_mem_cons.mp hvalid
    obtain ⟨hfresh, hs⟩ := List.forall_mem_cons.mp hs
    have hcount : countSignature C book qc s e = (s.1 + 1, e.1 :: s.2) := by
      rw [countSignature, if_neg hfresh, if_pos hverify]
    rw [List.foldl_cons, hcount, ih hdistinct hvalid, List.length_cons]
    · omega
    · intro e' he' hmem
      rcases List.mem_cons.mp hmem with heq | hmem
      · exact hnew (heq ▸ List.mem_map_of_mem he')
      · exact hs e' he' hmem

end QuorumCertLemmas

open QuorumCertLemmas

/-- A quorum of valid signatures by distinct voters is accepted. -/
theorem isFullyValid_of_distinct (hdistinct : (qc.signatures.map Prod.fst).Nodup)
    (hvalid : ∀ e ∈ qc.signatures,
      verifyVoteSignature C book e.1 qc.viewNumber qc.batchHash e.2 = true)
    (hquorum : requiredQuorum book.size ≤ qc.signatures.length) :
    isFullyValid C book qc = true := by
  have hcount := foldl_countSignature_distinct hdistinct hvalid (s := (0, []))
    (fun _ _ => List.not_mem_nil)
  rw [isFullyValid, hcount, decide_eq_true_eq, Nat.zero_add]
  exact hquorum

/-- An accepted certificate carries valid signatures of a quorum of distinct
registered validators. -/
theorem card_validVoters (h : isFullyValid C book qc = true) :
    requiredQuorum book.size ≤ (validVoters C book qc).card := by
  obtain ⟨counted, hcard, hvalid⟩ := foldl_countSignature (l := qc.signatures) (fun _ h => h)
    (s := (0, [])) ⟨∅, rfl, by simp, by simp⟩
  unfold isFullyValid at h
  rw [← hcard, decide_eq_true_eq] at h
  exact h.trans (Finset.card_le_card hvalid)

theorem intersect_of_quorums {n : Nat} (hn : 0 < n) {voters voters' all : Finset Address}
    (hall : all.card = n) (hsub : voters ⊆ all) (hsub' : voters' ⊆ all)
    (h : requiredQuorum n ≤ voters.card) (h' : requiredQuorum n ≤ voters'.card) :
    (n - 1) / 3 + 1 ≤ (voters ∩ voters').card := by
  have hunion := Finset.card_union_add_card_inter voters voters'
  have hle := Finset.card_le_card (Finset.union_subset hsub hsub')
  rw [requiredQuorum, if_neg (Nat.ne_of_gt hn)] at h h'
  omega

namespace QuorumOf

variable {P Q : Address → Prop}

theorem mono (h : QuorumOf book P) (hPQ : ∀ address, P address → Q address) : QuorumOf book Q := by
  obtain ⟨voters, hsub, hquorum, hvoters⟩ := h
  exact ⟨voters, hsub, hquorum, fun address hmem => hPQ address (hvoters address hmem)⟩

theorem size_pos (h : QuorumOf book P) : 0 < book.size := by
  obtain ⟨voters, hsub, hquorum, -⟩ := h
  rw [← card_addresses]
  refine lt_of_lt_of_le ?_ (hquorum.trans (Finset.card_le_card hsub))
  unfold requiredQuorum
  split <;> omega

/-- Two quorums have a validator in common that is not among the faulty ones, if these are at
most a third. -/
theorem both (h : QuorumOf book P) (h' : QuorumOf book Q) {faulty : Finset Address}
    (hfaulty : faulty.card ≤ (book.size - 1) / 3) :
    ∃ address ∈ book.addresses, address ∉ faulty ∧ P address ∧ Q address := by
  have hn := h.size_pos
  obtain ⟨voters, hsub, hquorum, hvoters⟩ := h
  obtain ⟨voters', hsub', hquorum', hvoters'⟩ := h'
  have hinter := intersect_of_quorums hn card_addresses hsub hsub' hquorum hquorum'
  obtain ⟨address, hmem, hhonest⟩ := Finset.exists_mem_notMem_of_card_lt_card
    (lt_of_le_of_lt hfaulty hinter)
  obtain ⟨hmem, hmem'⟩ := Finset.mem_inter.mp hmem
  exact ⟨address, List.mem_toFinset.mp (hsub hmem), hhonest, hvoters address hmem,
    hvoters' address hmem'⟩

end QuorumOf

theorem quorumOf_signedBy (h : isFullyValid C book qc = true) :
    QuorumOf book fun address => signedBy C book qc address = true :=
  ⟨validVoters C book qc, validVoters_subset, card_validVoters h,
    fun _ hmem => (Finset.mem_filter.mp hmem).2⟩

/-- Any two accepted certificates, over whatever signature lists, have valid
signatures of more than `(n - 1) / 3` validators in common. -/
theorem accepted_intersect (hn : 1 ≤ book.size) {qc qc' : QuorumCertificate}
    (h : isFullyValid C book qc = true) (h' : isFullyValid C book qc' = true) :
    (book.size - 1) / 3 + 1 ≤ (validVoters C book qc ∩ validVoters C book qc').card :=
  intersect_of_quorums hn card_addresses validVoters_subset validVoters_subset
    (card_validVoters h) (card_validVoters h')

def fourValidators : AddressBook := toyBook [1, 2, 3, 4] (by decide)

/-- The certificate for the hash `[]` in round 1 with the signatures of the
voters, as often as they occur. -/
def toyQc (voters : List UInt8) : QuorumCertificate :=
  ⟨[], 1, voters.map fun key =>
    (toyAddress key, (signVote toyCrypto key (toyAddress key) 1 []).signature)⟩

/-- Four validators, a voter that counts once and one that is not registered: the
two common voters are the least number possible. -/
theorem accepted_intersect_four :
    isFullyValid toyCrypto fourValidators (toyQc [1, 1, 9, 2, 3]) = true ∧
      isFullyValid toyCrypto fourValidators (toyQc [4, 2, 3]) = true ∧
      (4 - 1) / 3 + 1 ≤ (validVoters toyCrypto fourValidators (toyQc [1, 1, 9, 2, 3]) ∩
        validVoters toyCrypto fourValidators (toyQc [4, 2, 3])).card := by
  have hvalid : isFullyValid toyCrypto fourValidators (toyQc [1, 1, 9, 2, 3]) = true := by
    decide +kernel
  have hvalid' : isFullyValid toyCrypto fourValidators (toyQc [4, 2, 3]) = true := by
    decide +kernel
  exact ⟨hvalid, hvalid', accepted_intersect (by decide) hvalid hvalid'⟩

end EviceChain.Sequencer
