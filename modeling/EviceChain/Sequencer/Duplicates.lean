import EviceChain.Foundation.Lru
import EviceChain.Sequencer.Acts
import EviceChain.Sequencer.Script

/-!
# Which messages count as duplicates (`handle_consensus_message`)

A message is handled if its hash is not among the 1000 hashes that were put into the
cache last, and then its hash is put there. It is looked up twice, before and under
the lock of the cache, so handlers of one message that run at the same time are told
apart by the second look.

The cache is any that does what is documented of one (`LruCache`), and the bytes of a
message are those of any serialization that reads back what it has written.

A run is looked at together with the messages that have been handled, in their order
(`handlingStep`). Results:
1. `cache_of_handling`: the cache holds the hashes of the last distinct messages;
2. `duplicate_iff`: just the last thousand distinct messages are dropped as duplicates,
   and never another one, as far as SHA-256 tells them apart;
3. `handled_apart`: between two handlings of one hash, a thousand others are handled.
-/

namespace EviceChain.Sequencer

open Foundation

variable {C : Crypto}

/-! ## The hash of a message -/

/-- `ConsensusMessage::hash`, with `borsh::to_vec` as a parameter. -/
def ConsensusMessage.hash (sha256 : Bytes → Bytes) (toVec : ConsensusMessage → Option Bytes)
    (msg : ConsensusMessage) : Bytes :=
  match toVec msg with
  | some encoded => sha256 encoded
  | none => List.replicate 32 0

/-- Both messages have bytes, and the hash tells them apart. -/
def ToldApartBy (sha256 : Bytes → Bytes) (toVec : ConsensusMessage → Option Bytes)
    (msg msg' : ConsensusMessage) : Prop :=
  ∃ encoded ∈ toVec msg, ∃ encoded' ∈ toVec msg', sha256 encoded = sha256 encoded' →
    encoded = encoded'

instance (sha256 : Bytes → Bytes) (toVec : ConsensusMessage → Option Bytes)
    (msg msg' : ConsensusMessage) : Decidable (ToldApartBy sha256 toVec msg msg') :=
  inferInstanceAs (Decidable (∃ encoded ∈ toVec msg, ∃ encoded' ∈ toVec msg',
    sha256 encoded = sha256 encoded' → encoded = encoded'))

/-- Messages with one hash have the same bytes, and these are read back as one message. -/
theorem eq_of_hash_eq {sha256 : Bytes → Bytes} {toVec : ConsensusMessage → Option Bytes}
    {fromSlice : Bytes → Option ConsensusMessage}
    (hborsh : ∀ msg encoded, toVec msg = some encoded → fromSlice encoded = some msg)
    {msg msg' : ConsensusMessage} (happart : ToldApartBy sha256 toVec msg msg')
    (h : msg.hash sha256 toVec = msg'.hash sha256 toVec) : msg = msg' := by
  obtain ⟨encoded, hwrite, encoded', hwrite', hinj⟩ := happart
  unfold ConsensusMessage.hash at h
  rw [hwrite, hwrite'] at h
  obtain rfl := hinj h
  have hread := hborsh msg encoded hwrite
  rw [hborsh msg' encoded hwrite'] at hread
  exact (Option.some.inj hread).symm

/-! ## What has been handled -/

/-- The message that a handler finds new at its second look. -/
def handles? (C : Crypto) (node : Node) : Action → Option ConsensusMessage
  | .run k _ =>
    match node.tasks[k]? with
    | some (_, .recheck msg _) =>
      if C.messageHash msg ∈ node.recentlyProcessedHashes then none else some msg
    | _ => none
  | _ => none

/-- An action, with the messages handled so far. -/
def handlingStep (cfg : Config C) (s : Node × List ConsensusMessage) (a : Action) :
    Option (Node × List ConsensusMessage) :=
  (act cfg s.1 a).map fun node => (node, s.2 ++ (handles? C s.1 a).toList)

/-- The runs of a node from its start, whatever arrives. -/
abbrev Handling (cfg : Config C) : Node × List ConsensusMessage → Prop :=
  Run (handlingStep cfg) (fun _ _ => True) (Node.new genesisQc, [])

namespace DuplicatesLemmas

variable {cfg : Config C} {node node' : Node} {a : Action}

/-- The cache takes in what is handled. -/
theorem cache_act (hact : act cfg node a = some node') :
    node'.recentlyProcessedHashes =
      ((handles? C node a).toList.map C.messageHash).foldl (cachePut C)
        node.recentlyProcessedHashes := by
  obtain ⟨base, hacts, heq⟩ := acts_of_act hact
  rw [heq]
  show base.recentlyProcessedHashes = _
  cases hacts with
  | deliver | submit | wait | decide | start => rfl
  | cancel htask =>
    unfold cancelTask
    split
    · split <;> rfl
    · rfl
  | @run k now kind task htask =>
    rw [NetworkLemmas.exec_cache]
    dsimp only [handles?]
    rw [htask]
    cases task with
    | recheck msg peer =>
      dsimp only
      split <;> rfl
    | _ => rfl

theorem cache_of_handling {s : Node × List ConsensusMessage} (h : Handling cfg s) :
    s.1.recentlyProcessedHashes = (s.2.map C.messageHash).dedup.reverse.take 1000 := by
  rw [← C.lru.foldl_put]
  refine h.invariant (I := fun s => s.1.recentlyProcessedHashes =
    (s.2.map C.messageHash).foldl (cachePut C) []) rfl ?_
  intro s s' a _ _ hstep hcache
  obtain ⟨node, hact, rfl⟩ := Option.map_eq_some_iff.mp hstep
  rw [cache_act hact, hcache, List.map_append, List.foldl_append]

/-- A message that is handled is not in the cache. -/
theorem not_cached_of_handles? {msg : ConsensusMessage} (h : msg ∈ handles? C node a) :
    C.messageHash msg ∉ node.recentlyProcessedHashes := by
  cases a with
  | run k now =>
    dsimp only [handles?] at h
    split at h
    · split at h
      · cases h
      · next hnew =>
        cases h
        exact hnew
    · cases h
  | _ => cases h

/-- Either look drops the message just if its hash is in the cache. -/
theorem drops_iff (cfg : Config C) (now : UInt64) (node : Node) (msg : ConsensusMessage)
    (sourcePeer : PeerId) :
    ((exec cfg now node (.receive msg sourcePeer)).2 = none ↔
      C.messageHash msg ∈ node.recentlyProcessedHashes) ∧
    ((exec cfg now node (.recheck msg sourcePeer)).2 = none ↔
      C.messageHash msg ∈ node.recentlyProcessedHashes) := by
  by_cases hcached : C.messageHash msg ∈ node.recentlyProcessedHashes
  · simp [exec, hcached]
  · cases msg <;> simp [exec, hcached]

end DuplicatesLemmas

open DuplicatesLemmas

/-- A handler drops its message, at either look, just if the message is one of the last
thousand distinct ones that were handled. -/
theorem duplicate_iff {cfg : Config C} {toVec : ConsensusMessage → Option Bytes}
    {fromSlice : Bytes → Option ConsensusMessage}
    (hborsh : ∀ msg encoded, toVec msg = some encoded → fromSlice encoded = some msg)
    (hhash : ∀ msg, C.messageHash msg = msg.hash C.sha256 toVec) {node : Node}
    {handled : List ConsensusMessage} (hrun : Handling cfg (node, handled)) {msg : ConsensusMessage}
    (happart : ∀ m ∈ msg :: handled, ∀ m' ∈ msg :: handled, ToldApartBy C.sha256 toVec m m')
    (now : UInt64) (sourcePeer : PeerId) :
    ((exec cfg now node (.receive msg sourcePeer)).2 = none ↔
      msg ∈ handled.dedup.reverse.take 1000) ∧
    ((exec cfg now node (.recheck msg sourcePeer)).2 = none ↔
      msg ∈ handled.dedup.reverse.take 1000) := by
  have hinj : ∀ m ∈ msg :: handled, ∀ m' ∈ msg :: handled,
      C.messageHash m = C.messageHash m' → m = m' := by
    intro m hm m' hm' heq
    rw [hhash, hhash] at heq
    exact eq_of_hash_eq hborsh (happart m hm m' hm') heq
  have hcached : C.messageHash msg ∈ node.recentlyProcessedHashes ↔
      msg ∈ handled.dedup.reverse.take 1000 := by
    rw [cache_of_handling hrun, dedup_map fun m hm m' hm' =>
      hinj m (List.mem_cons_of_mem _ hm) m' (List.mem_cons_of_mem _ hm'), ← List.map_reverse,
      ← List.map_take]
    constructor
    · intro hmem
      obtain ⟨m, hm, heq⟩ := List.mem_map.mp hmem
      have hm' : m ∈ handled :=
        List.mem_dedup.mp (List.mem_reverse.mp (List.mem_of_mem_take hm))
      exact hinj m (List.mem_cons_of_mem _ hm') msg List.mem_cons_self heq ▸ hm
    · exact List.mem_map_of_mem
  rw [← hcached]
  exact drops_iff cfg now node msg sourcePeer

def wireVote (round : UInt64) : ConsensusMessage :=
  .velocityVoteMsg ⟨round, [7, 7], toyAddress 2, [1, 2, 3]⟩

/-- The messages that are written: a message as its place in the list. -/
def wireVotes : List ConsensusMessage := [wireVote 5, wireVote 6, wireVote 7]

def wireToVec (msg : ConsensusMessage) : Option Bytes :=
  if msg ∈ wireVotes then some (List.replicate (wireVotes.idxOf msg) 0) else none

def wireFromSlice (encoded : Bytes) : Option ConsensusMessage := wireVotes[encoded.length]?

theorem wireFromSlice_wireToVec (msg : ConsensusMessage) (encoded : Bytes)
    (h : wireToVec msg = some encoded) : wireFromSlice encoded = some msg := by
  obtain ⟨hmem, rfl⟩ := Option.ite_some_none_eq_some.mp h
  rw [wireFromSlice, List.length_replicate]
  exact List.getElem?_idxOf hmem

/-- The crypto that computes, with the hash of the bytes of a message. -/
def wireCrypto : Crypto :=
  { toyCrypto with messageHash := fun msg => msg.hash toyCrypto.sha256 wireToVec }

def wireConfig : Config wireCrypto :=
  ⟨toyAddress 1, (1 : UInt8), (1 : UInt8), toyNetwork.addressBook, 2⟩

/-- Of three votes, two have been handled: the first of them is dropped, the third one is
not. -/
theorem duplicate_iff_vote : ∃ node, Handling wireConfig (node, [wireVote 5, wireVote 6]) ∧
    (exec wireConfig 0 node (.receive (wireVote 5) 1)).2 = none ∧
    (exec wireConfig 0 node (.receive (wireVote 7) 1)).2 ≠ none := by
  obtain ⟨⟨node, handled⟩, hrun, rfl⟩ :
      ∃ s, Handling wireConfig s ∧ s.2 = [wireVote 5, wireVote 6] :=
    exists_run [.deliver (wireVote 5) 1, .deliver (wireVote 6) 1, .run 0 0, .run 1 0, .run 0 0,
      .run 1 0] (by decide +kernel)
  have happart : ∀ m ∈ wireVotes, ∀ m' ∈ wireVotes,
      ToldApartBy wireCrypto.sha256 wireToVec m m' := by decide +kernel
  have hiff (round : UInt64) (hvotes : wireVote round :: [wireVote 5, wireVote 6] ⊆ wireVotes) :=
    (duplicate_iff wireFromSlice_wireToVec (fun _ => rfl) hrun
      (fun m hm m' hm' => happart m (hvotes hm) m' (hvotes hm')) 0 1).1
  exact ⟨node, hrun, (hiff 5 (by decide)).mpr (by decide),
    fun hdropped => absurd ((hiff 7 (by decide)).mp hdropped) (by decide)⟩

/-- Two messages that are handled with fewer than a thousand others in between have
different hashes. -/
theorem handled_apart {cfg : Config C} {node : Node} {handled : List ConsensusMessage}
    (hrun : Handling cfg (node, handled)) (before between after : List ConsensusMessage)
    {msg msg' : ConsensusMessage}
    (hhandled : handled = before ++ msg :: between ++ msg' :: after)
    (hfew : ((between.map C.messageHash).filter (· ≠ C.messageHash msg)).dedup.length < 1000) :
    C.messageHash msg ≠ C.messageHash msg' := by
  refine hrun.invariant (I := fun s => ∀ after msg',
    s.2 = before ++ msg :: between ++ msg' :: after → C.messageHash msg ≠ C.messageHash msg')
    ?_ ?_ after msg' hhandled
  · intro after msg' hnil
    exact absurd hnil.symm (by simp)
  · intro s s' a hrun _ hstep hapart after msg' hsplit
    obtain ⟨node', -, rfl⟩ := Option.map_eq_some_iff.mp hstep
    cases hhandles : handles? C s.1 a with
    | none =>
      rw [hhandles, Option.toList_none, List.append_nil] at hsplit
      exact hapart after msg' hsplit
    | some new =>
      rw [hhandles, Option.toList_some] at hsplit
      rcases List.eq_nil_or_concat' after with rfl | ⟨earlier, last, rfl⟩
      · -- the message handled now is the second of the two
        obtain ⟨hpast, hnew⟩ := List.append_inj' hsplit rfl
        obtain rfl := List.singleton_inj.mp hnew
        intro heq
        refine not_cached_of_handles? hhandles ?_
        rw [cache_of_handling hrun, hpast, ← heq, List.map_append, List.map_cons]
        exact mem_lru_of_few _ _ _ hfew
      · rw [← List.cons_append, ← List.append_assoc] at hsplit
        obtain ⟨hpast, -⟩ := List.append_inj' hsplit rfl
        exact hapart earlier msg' hpast

theorem handled_apart_votes :
    ∃ node, Handling wireConfig (node, [wireVote 5, wireVote 6]) ∧
      wireCrypto.messageHash (wireVote 5) ≠ wireCrypto.messageHash (wireVote 6) := by
  obtain ⟨⟨node, handled⟩, hrun, rfl⟩ :
      ∃ s, Handling wireConfig s ∧ s.2 = [wireVote 5, wireVote 6] :=
    exists_run [.deliver (wireVote 5) 1, .deliver (wireVote 6) 1, .run 0 0, .run 1 0, .run 0 0,
      .run 1 0] (by decide +kernel)
  exact ⟨node, hrun, handled_apart hrun [] [] [] rfl (by decide)⟩

end EviceChain.Sequencer
