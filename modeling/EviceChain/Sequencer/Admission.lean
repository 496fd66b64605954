import EviceChain.Sequencer.Script

/-!
# Who may propose

A proposer elects itself: `handle_round_step` looks up the sub-committee before it
proposes. The receivers of a proposal do not. They check that its author is a
registered validator and has signed it, and vote (`handle_batch_proposal`). So a
node keeps its votes to the sub-committee exactly if every validator is in it
(`admitsLeadersOnly_iff`); otherwise it votes for anybody, in any round
(`outsider_gets_vote`). The election itself does not depend on the order in which a
node's address book is iterated (`committee_canonical`).
-/

namespace EviceChain.Sequencer

open NetworkLemmas TypesLemmas

variable {ι : Type} [DecidableEq ι] {C : Crypto}

/-- In every run, whenever the node is about to sign a vote for a batch that it has
received, the author of the batch is in the sub-committee for the round of the batch
and the seed of the node. -/
def AdmitsLeadersOnly (net : Network ι C) (i : ι) : Prop :=
  ∀ σ a now batch, Reaches net (fun _ _ _ => True) σ → Runs (σ i) a now (.castVote batch) →
    batch.header.authority ∈
      determineSubCommittee (net.config i) batch.round (electionSeed C (σ i).core)

/-- Every registered validator can sign a header that is accepted as its own. -/
def Network.EverybodySigns (net : Network ι C) : Prop :=
  ∀ validator ∈ net.addressBook.addresses, ∃ header : BatchHeader,
    header.authority = validator ∧ verifyBatchSignature C net.addressBook header = true

namespace AdmissionLemmas

/-- The author of a batch that a node is about to vote for has signed it. -/
def SignedVote (cfg : Config C) : Task → Prop
  | .castVote batch => verifyBatchSignature C cfg.addressBook batch.header = true
  | _ => True

theorem signedVote_next {cfg : Config C} {now : UInt64} {node : Node} {task task' : Task}
    (hnext : (exec cfg now node task).2 = some task') : SignedVote cfg task' := by
  cases exec_next hnext with
  | @castVote batch =>
    dsimp only [exec] at hnext
    split at hnext
    · cases hnext
    · next hsigned => simpa [SignedVote] using hsigned
  | _ => trivial

theorem signed_of_castVote {net : Network ι C} {ok : (ι → Node) → ι → Action → Prop}
    {σ : ι → Node} (hrun : Reaches net ok σ) (i : ι) :
    ∀ entry ∈ (σ i).tasks, SignedVote (net.config i) entry.2 :=
  hrun.nodeInvariant (P := fun i node => ∀ entry ∈ node.tasks, SignedVote (net.config i) entry.2)
    (fun _ _ h => nomatch h)
    (fun _ _ hact ih => act_tasks (fun _ _ _ => trivial) (fun _ _ _ _ => trivial)
      (fun _ _ _ _ _ hnext => signedVote_next hnext) hact ih) i

theorem authority_mem_addresses {book : AddressBook} {header : BatchHeader}
    (h : verifyBatchSignature C book header = true) : header.authority ∈ book.addresses := by
  unfold verifyBatchSignature at h
  split at h
  · cases h
  · next hget => exact mem_addresses_of_get? hget

/-- The validators in the order in which they are elected. -/
theorem committee_perm (cfg : Config C) (round : UInt64) (seed : Bytes) :
    ∃ elected : List Address, elected.Perm cfg.addressBook.addresses ∧
      determineSubCommittee cfg round seed = elected.take cfg.subCommitteeSize :=
  ⟨_, (C.shuffle_perm _ _).trans (List.perm_insertionSort _ _), rfl⟩

/-- Byte arrays are ordered totally, so the sorted list only depends on which
addresses there are. -/
theorem sorted_eq_of_perm {addresses addresses' : List Address} (h : addresses.Perm addresses') :
    (addresses.insertionSort fun a b => a.1 ≤ b.1) =
      addresses'.insertionSort fun a b => a.1 ≤ b.1 := by
  have : Std.Total fun a b : Address => a.1 ≤ b.1 := ⟨fun a b => List.le_total a.1 b.1⟩
  have : IsTrans Address fun a b => a.1 ≤ b.1 := ⟨fun _ _ _ => List.le_trans⟩
  refine List.Perm.eq_of_pairwise ?_ (List.pairwise_insertionSort _ _)
    (List.pairwise_insertionSort _ _) ?_
  · intro a b _ _ hab hba
    exact Subtype.ext (List.le_antisymm hab hba)
  · exact (List.perm_insertionSort _ _).trans (h.trans (List.perm_insertionSort _ _).symm)

/-- The only task of a node runs to its next point. -/
theorem act_only {cfg : Config C} {now : UInt64} {node node' : Node} {kind : TaskKind}
    {task task' : Task} (htasks : node.tasks = [(kind, task)])
    (hexec : exec cfg now node task = (node', some task')) :
    act cfg node (.run 0 now) = some { node' with tasks := [(kind, task')] } := by
  simp [act, htasks, hexec]

/-- A node that has just started receives a proposal and comes to vote for it. -/
theorem reaches_castVote (net : Network ι C) (i : ι) (batch : PayloadBatch)
    (hsigned : verifyBatchSignature C net.addressBook batch.header = true) :
    ∃ node, Reaches net (fun _ _ _ => True) (Function.update initialState i node) ∧
      node.core = .new genesisQc ∧ node.tasks = [(.handler, .castVote batch)] := by
  have hdelivered := (Reaches.alone_init net (fun _ _ _ => True) i).alone_step trivial
    (rfl : act _ _ (.deliver (.intentBatchProposal batch) 0) = some _)
  -- the message is new, and so is its batch
  have hreceive (node : Node) (hcache : node.recentlyProcessedHashes = []) :
      exec (net.config i) 0 node (.receive (.intentBatchProposal batch) 0) =
        (node, some (.recheck (.intentBatchProposal batch) 0)) := by
    rw [exec, hcache, if_neg List.not_mem_nil]
  have hrecheck (node : Node) (hcache : node.recentlyProcessedHashes = []) :
      exec (net.config i) 0 node (.recheck (.intentBatchProposal batch) 0) =
        ({ node with
            recentlyProcessedHashes := cachePut C [] (C.messageHash (.intentBatchProposal batch)) },
          some (.insertProposal batch)) := by
    rw [exec, hcache, if_neg List.not_mem_nil]
  have hinsert (node : Node) (hpending : node.pendingProposals (batch.hash C) = none) :
      exec (net.config i) 0 node (.insertProposal batch) =
        (node.insertPending C batch, some (.castVote batch)) := by
    have hsigned' : (!verifyBatchSignature C (net.config i).addressBook batch.header) = false := by
      rw [Bool.not_eq_false']
      exact hsigned
    rw [exec, hsigned', hpending]
    rfl
  have hreceived := hdelivered.alone_step trivial (act_only rfl (hreceive _ rfl))
  have hchecked := hreceived.alone_step trivial (act_only rfl (hrecheck _ rfl))
  have hinserted := hchecked.alone_step trivial (act_only rfl (hinsert _ rfl))
  exact ⟨_, hinserted, rfl, rfl⟩

end AdmissionLemmas

open AdmissionLemmas

/-- Two nodes whose address books hold the same validators, in whatever order their
hash maps are iterated, elect the same sub-committee in the same order, for every
round and seed. Nobody is in it twice, everybody in it is a validator, and it is as
large as it can be. -/
theorem committee_canonical (cfg cfg' : Config C)
    (hsize : cfg.subCommitteeSize = cfg'.subCommitteeSize)
    (hsame : ∀ address, address ∈ cfg.addressBook.addresses ↔
      address ∈ cfg'.addressBook.addresses) (round : UInt64) (seed : Bytes) :
    determineSubCommittee cfg round seed = determineSubCommittee cfg' round seed ∧
      (determineSubCommittee cfg round seed).Nodup ∧
      (∀ address ∈ determineSubCommittee cfg round seed,
        address ∈ cfg.addressBook.addresses) ∧
      (determineSubCommittee cfg round seed).length =
        min cfg.addressBook.size cfg.subCommitteeSize := by
  have hperm : cfg.addressBook.addresses.Perm cfg'.addressBook.addresses :=
    (List.perm_ext_iff_of_nodup cfg.addressBook.nodup cfg'.addressBook.nodup).mpr hsame
  obtain ⟨elected, helected, hcommittee⟩ := committee_perm cfg round seed
  refine ⟨?_, ?_, ?_, ?_⟩
  · unfold determineSubCommittee
    rw [sorted_eq_of_perm hperm, hsize]
  · rw [hcommittee]
    exact (helected.nodup_iff.mpr cfg.addressBook.nodup).sublist (List.take_sublist _ _)
  · intro address hmem
    rw [hcommittee] at hmem
    exact helected.mem_iff.mp (List.mem_of_mem_take hmem)
  · rw [hcommittee, List.length_take, helected.length_eq, Nat.min_comm]
    exact congrArg (min · _) (List.length_map _)

/-- A node with the given key in a network of which two are elected. -/
def electingConfig (key : UInt8) (book : AddressBook) : Config toyCrypto :=
  ⟨toyAddress key, key, key, book, 2⟩

/-- Three validators, listed in two orders, elect the same two. -/
theorem committee_canonical_reordered :
    determineSubCommittee (electingConfig 1 (toyBook [3, 1, 2] (by decide))) 5 [9] =
      determineSubCommittee (electingConfig 2 (toyBook [1, 2, 3] (by decide))) 5 [9] := by
  have hperm : ([3, 1, 2].map toyAddress).Perm ([1, 2, 3].map toyAddress) := by decide
  have hcommittee := committee_canonical (electingConfig 1 (toyBook [3, 1, 2] (by decide)))
    (electingConfig 2 (toyBook [1, 2, 3] (by decide))) rfl (fun _ => hperm.mem_iff) 5 [9]
  exact hcommittee.1

/-- A node votes for batches of the sub-committee only, if and only if there is room
in it for every validator. -/
theorem admitsLeadersOnly_iff {net : Network ι C} (hsigns : net.EverybodySigns) (i : ι) :
    AdmitsLeadersOnly net i ↔ net.addressBook.size ≤ net.subCommitteeSize := by
  constructor
  · intro hadmits
    by_contra hsize
    -- somebody is left out of the first election
    obtain ⟨elected, hperm, hcommittee⟩ :=
      committee_perm (net.config i) 1 (electionSeed C (.new genesisQc))
    have hshort : ¬ net.addressBook.addresses ⊆
        determineSubCommittee (net.config i) 1 (electionSeed C (.new genesisQc)) := by
      intro hall
      have hle := (net.addressBook.nodup.subperm hall).length_le
      rw [hcommittee, List.length_take] at hle
      exact hsize ((List.length_map _).symm.trans_le (hle.trans (Nat.min_le_left _ _)))
    simp only [List.subset_def, not_forall] at hshort
    obtain ⟨validator, hmem, hout⟩ := hshort
    obtain ⟨header, rfl, hsigned⟩ := hsigns validator hmem
    obtain ⟨node, hrun, hcore, htasks⟩ :=
      reaches_castVote net i ⟨header, [], genesisQc, 1⟩ hsigned
    refine hout ?_
    have hvote := hadmits _ (.run 0 0) 0 _ hrun
      ⟨rfl, .handler, by rw [Function.update_self, htasks]; rfl⟩
    rwa [Function.update_self, hcore] at hvote
  · intro hsize σ a now batch hrun hruns
    obtain ⟨kind, hmem⟩ := mem_tasks_of_runs hruns
    have hsigned := signed_of_castVote hrun i _ hmem
    obtain ⟨elected, hperm, hcommittee⟩ :=
      committee_perm (net.config i) batch.round (electionSeed C (σ i).core)
    have hlength : elected.length ≤ (net.config i).subCommitteeSize := by
      rw [hperm.length_eq]
      exact (List.length_map _).trans_le hsize
    rw [hcommittee, List.take_of_length_le hlength]
    exact hperm.mem_iff.mpr (authority_mem_addresses hsigned)

/-- Two validators, of which the first one is elected. -/
def soleLeaderNetwork : Network Bool toyCrypto := { toyNetwork with subCommitteeSize := 1 }

/-- The second validator proposes on its own. -/
def outsiderBatch : PayloadBatch :=
  newBatch (soleLeaderNetwork.config true) (.new genesisQc) 1 genesisQc [] 10

theorem toyNetwork_everybodySigns : toyNetwork.EverybodySigns := by
  intro validator hmem
  obtain ⟨i, rfl⟩ := toyNetwork_honest validator hmem
  refine ⟨(newBatch (toyNetwork.config i) (.new genesisQc) 1 genesisQc [] 10).header, ?_, ?_⟩
  · cases i <;> rfl
  · cases i <;> decide +kernel

theorem admitsLeadersOnly_toyNetwork : AdmitsLeadersOnly toyNetwork false :=
  (admitsLeadersOnly_iff toyNetwork_everybodySigns false).mpr (by decide)

/-- The first node votes for the batch of the second validator, who is not in the
sub-committee of that round. -/
theorem outsider_gets_vote :
    ∃ σ, Reaches soleLeaderNetwork (fun _ _ _ => True) σ ∧
      outsiderBatch ∈ (σ false).voted ∧
      outsiderBatch.header.authority ∉ determineSubCommittee (soleLeaderNetwork.config false)
        outsiderBatch.round (electionSeed toyCrypto (σ false).core) :=
  exists_reaches [.inject false fun _ => .intentBatchProposal outsiderBatch,
    .act false (.run 0 20), .act false (.run 0 20), .act false (.run 0 20), .act false (.run 0 20)]
    (by decide +kernel)

end EviceChain.Sequencer
