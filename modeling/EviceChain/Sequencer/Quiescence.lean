import EviceChain.Sequencer.Confirmed
import EviceChain.Sequencer.Duties
import EviceChain.Sequencer.Ordering

/-!
# When everything has been delivered

A node counts the votes it has itself, and a certificate confirms nothing. So a
batch is confirmed where its proposal and a quorum of votes have arrived. The
proposer sends no vote of its own: of `m` nodes that run, each of the others ends up
with `m - 1` votes, and the proposer with `m`.

A run is looked at together with what has arrived at each node (`Recorded`). When
the proposal, and every vote and certificate for it, has arrived everywhere and is
handled (`Quiescent`), every node has confirmed the batch if more nodes run than
the quorum needs, or if there is one validator only (`quiescent_confirmed`). With
just a quorum of nodes, only the proposer has (`quiescent_unconfirmed`).
-/

namespace EviceChain.Sequencer

open Foundation NetworkLemmas DutiesLemmas

variable {ι : Type} {C : Crypto}

/-! ## What has arrived -/

/-- A run together with the messages that have arrived at each node. -/
inductive Recorded [DecidableEq ι] (net : Network ι C) (ok : (ι → Node) → ι → Action → Prop) :
    (ι → List ConsensusMessage) → (ι → Node) → Prop
  | init : Recorded net ok (fun _ => []) initialState
  | step {inbox : ι → List ConsensusMessage} {σ : ι → Node} {i : ι} {a : Action} {node : Node} :
      Recorded net ok inbox σ → ok σ i a → act (net.config i) (σ i) a = some node →
      Recorded net ok (Function.update inbox i (inbox i ++ (delivers? a).toList))
        (Function.update σ i node)

/-- The task has yet to look at what the message says. -/
def Task.Carries (msg : ConsensusMessage) : Task → Prop
  | .receive msg' _ | .recheck msg' _ => msg' = msg
  | _ => False

/-- What the message asks for is done, or a task is there that does it. -/
def Settled (cfg : Config C) (node : Node) : ConsensusMessage → Prop
  | .intentBatchProposal batch => verifyBatchSignature C cfg.addressBook batch.header = true →
      Held node (batch.hash C) ∨ ∃ entry ∈ node.tasks, entry.2 = .insertProposal batch
  | .velocityVoteMsg vote =>
      verifyVoteSignature C cfg.addressBook vote.voterAddress vote.roundId vote.batchHash
        vote.signature = true →
      Counted node vote.batchHash vote.voterAddress ∨
        ∃ entry ∈ node.tasks, entry.2 = .checkVote vote ∨ entry.2 = .storeVote vote
  | .newQuorumCertificate _ => True

/-- What has become of the messages that have arrived. The cache drops a message
whose hash it has, so it is settled only up to its hash. -/
structure Handled (cfg : Config C) (inbox : List ConsensusMessage) (node : Node) : Prop where
  carried : ∀ entry ∈ node.tasks, ∀ msg, entry.2.Carries msg → msg ∈ inbox
  cached : ∀ hash ∈ node.recentlyProcessedHashes,
    ∃ msg ∈ inbox, C.messageHash msg = hash ∧ Settled cfg node msg
  handled : ∀ msg ∈ inbox, (∃ entry ∈ node.tasks, entry.2.Carries msg) ∨
    ∃ msg' ∈ inbox, C.messageHash msg' = C.messageHash msg ∧ Settled cfg node msg'

namespace QuiescenceLemmas

variable {cfg : Config C} {node node' : Node} {a : Action}

/-- What is new in the cache was looked at for the second time. -/
theorem mem_exec_cache (cfg : Config C) (now : UInt64) (node : Node) (task : Task) {hash : Bytes}
    (h : hash ∈ (exec cfg now node task).1.recentlyProcessedHashes) :
    hash ∈ node.recentlyProcessedHashes ∨ ∃ msg peer, task = .recheck msg peer ∧
      C.messageHash msg = hash ∧ C.messageHash msg ∉ node.recentlyProcessedHashes := by
  rw [exec_cache] at h
  cases task with
  | recheck msg peer =>
    dsimp only at h
    split at h
    · exact .inl h
    · next hunseen =>
      rcases mem_cachePut h with rfl | h
      · exact .inr ⟨msg, peer, rfl, rfl, hunseen⟩
      · exact .inl h
  | _ => exact .inl h

theorem act_cache (hact : act cfg node a = some node') {hash : Bytes}
    (h : hash ∈ node'.recentlyProcessedHashes) :
    hash ∈ node.recentlyProcessedHashes ∨ ∃ now msg peer, Runs node a now (.recheck msg peer) ∧
      C.messageHash msg = hash ∧ C.messageHash msg ∉ node.recentlyProcessedHashes := by
  cases a with
  | deliver | submit =>
    cases hact
    exact .inl h
  | tick | advance =>
    dsimp only [act] at hact
    split at hact <;> cases hact <;> exact .inl h
  | run k now =>
    dsimp only [act] at hact
    split at hact
    · cases hact
    · next kind task htask =>
      have hcache : hash ∈ (exec cfg now node task).1.recentlyProcessedHashes := by
        split at hact <;> cases hact <;> exact h
      rcases mem_exec_cache cfg now node task hcache with hold | ⟨msg, peer, rfl, hhash, hunseen⟩
      · exact .inl hold
      · exact .inr ⟨now, msg, peer, ⟨rfl, kind, htask⟩, hhash, hunseen⟩
  | cancel k midway =>
    dsimp only [act] at hact
    split at hact <;> cases hact
    dsimp only [cancelTask] at h
    split at h
    · split at h <;> exact .inl h
    · exact .inl h

theorem not_endable_of_carries {task : Task} {msg : ConsensusMessage} (h : task.Carries msg) :
    ¬ task.Endable := by
  cases task with
  | receive | recheck => exact id
  | _ => exact h.elim

/-- A message that is looked at is settled. -/
theorem settled_of_recheck (hact : act cfg node a = some node') {now : UInt64}
    {msg : ConsensusMessage} {peer : PeerId} (hruns : Runs node a now (.recheck msg peer))
    (hunseen : C.messageHash msg ∉ node.recentlyProcessedHashes) : Settled cfg node' msg := by
  cases msg with
  | intentBatchProposal batch =>
    intro _
    exact .inr (act_next hact hruns (by rw [exec, if_neg hunseen]))
  | velocityVoteMsg vote =>
    intro _
    have hnext : (exec cfg now node (.recheck (.velocityVoteMsg vote) peer)).2 =
        some (.checkVote vote) := by
      rw [exec, if_neg hunseen]
    obtain ⟨entry, hentry, htask⟩ := act_next hact hruns hnext
    exact .inr ⟨entry, hentry, .inl htask⟩
  | newQuorumCertificate qc => trivial

/-- A task that carries a message hands it on, looks at it, or finds its hash in the
cache. -/
theorem act_carries (hkinds : ∀ entry ∈ node.tasks, entry.1 = .handler ∨ entry.2.Endable)
    (hact : act cfg node a = some node') {msg : ConsensusMessage}
    (h : ∃ entry ∈ node.tasks, entry.2.Carries msg) :
    (∃ entry ∈ node'.tasks, entry.2.Carries msg) ∨
      C.messageHash msg ∈ node.recentlyProcessedHashes ∨ Settled cfg node' msg := by
  rcases act_hasTask hact h with hleft | ⟨now, task, hruns, hcarries⟩ |
    ⟨k, midway, entry, rfl, hentry, hcarries⟩
  · exact .inl hleft
  · by_cases hseen : C.messageHash msg ∈ node.recentlyProcessedHashes
    · exact .inr (.inl hseen)
    cases task with
    | receive msg' peer =>
      obtain rfl : msg' = msg := hcarries
      have hnext : (exec cfg now node (.receive msg' peer)).2 = some (.recheck msg' peer) := by
        rw [exec, if_neg hseen]
      obtain ⟨entry, hentry, htask⟩ := act_next hact hruns hnext
      refine .inl ⟨entry, hentry, ?_⟩
      rw [htask]
      rfl
    | recheck msg' peer =>
      obtain rfl : msg' = msg := hcarries
      exact .inr (.inr (settled_of_recheck hact hruns hseen))
    | _ => exact hcarries.elim
  · exact (not_endable_of_carries hcarries (endable_of_cancel hkinds hact hentry)).elim

/-- A signed proposal is held when its insertion has run. -/
theorem held_insertProposal {batch : PayloadBatch} (now : UInt64)
    (hsigned : verifyBatchSignature C cfg.addressBook batch.header = true) :
    Held (exec cfg now node (.insertProposal batch)).1 (batch.hash C) := by
  refine .inl ?_
  rw [exec, if_neg (by simp [hsigned])]
  split
  · next hpending => exact hpending
  · dsimp only [Node.insertPending]
    rw [Function.update_self]
    rfl

/-- A signed vote has been stored: it is there, or another one of the voter is. -/
theorem stored_storeVote {vote : VelocityVote} (now : UInt64)
    (hsigned : verifyVoteSignature C cfg.addressBook vote.voterAddress vote.roundId vote.batchHash
      vote.signature = true) :
    ∃ v ∈ (exec cfg now node (.storeVote vote)).1.core.velocityVotes vote.batchHash,
      v.voterAddress = vote.voterAddress := by
  dsimp only [exec]
  rw [if_neg (by simp [hsigned])]
  dsimp only
  split
  · next hknown =>
    obtain ⟨v, hv, hvoter⟩ := List.any_eq_true.mp hknown
    exact ⟨v, hv, of_decide_eq_true hvoter⟩
  · refine ⟨vote, ?_, rfl⟩
    dsimp only [CoreConsensusState.pushVote]
    rw [Function.update_self]
    exact List.mem_concat_self

end QuiescenceLemmas

open QuiescenceLemmas

variable {cfg : Config C} {node node' : Node} {a : Action} {msg : ConsensusMessage}

/-- What is settled stays so. -/
theorem Settled.act (h : Settled cfg node msg) (hduties : Duties cfg node)
    (hact : act cfg node a = some node') : Settled cfg node' msg := by
  cases msg with
  | intentBatchProposal batch =>
    intro hsigned
    refine act_promise (F := fun _ => True) (G := (Held · (batch.hash C)))
      (T := (· = .insertProposal batch)) (fun _ h => h)
      (fun hsame hheld => held_of_sameData hheld hsame) (held_act hact hduties.backed) ?_
      (fun _ _ h => h) ?_ (fun _ => h hsigned) hact trivial
    · intro now task _ _
      by_cases htask : task = .insertProposal batch
      · subst htask
        exact .inr (.inl (held_insertProposal now hsigned))
      · exact .inl ⟨trivial, htask⟩
    · rintro k midway entry rfl hentry htask
      have hendable := endable_of_cancel hduties.kinds hact hentry
      rwa [htask] at hendable
  | velocityVoteMsg vote =>
    intro hsigned
    refine act_promise (F := fun _ => True)
      (G := (Counted · vote.batchHash vote.voterAddress))
      (T := fun task => task = .checkVote vote ∨ task = .storeVote vote) (fun _ h => h)
      ?_ (counted_act hact) ?_ (fun _ _ h => h) ?_ (fun _ => h hsigned) hact trivial
    · intro n m hsame hcounted
      unfold Counted
      rwa [hsame.votes, hsame.processed]
    · intro now task _ _
      by_cases htask : task = .checkVote vote ∨ task = .storeVote vote
      · rcases htask with rfl | rfl
        · dsimp only [exec]
          split
          · next hprocessed => exact .inr (.inl (.inr hprocessed))
          · exact .inr (.inr ⟨_, rfl, .inr rfl⟩)
        · exact .inr (.inl (.inl (stored_storeVote now hsigned)))
      · exact .inl ⟨trivial, htask⟩
    · rintro k midway entry rfl hentry htask
      have hendable := endable_of_cancel hduties.kinds hact hentry
      rcases htask with htask | htask <;> rwa [htask] at hendable
  | newQuorumCertificate qc => trivial

/-- One step: what arrives is carried by a task until it is looked at, or found in
the cache. -/
theorem Handled.act {inbox : List ConsensusMessage} (h : Handled cfg inbox node)
    (hduties : Duties cfg node) (hact : act cfg node a = some node') :
    Handled cfg (inbox ++ (delivers? a).toList) node' := by
  -- a message whose hash is in the cache has been dealt with as another one
  have hcached : ∀ hash ∈ node.recentlyProcessedHashes,
      ∃ msg ∈ inbox ++ (delivers? a).toList, C.messageHash msg = hash ∧ Settled cfg node' msg := by
    intro hash hseen
    obtain ⟨msg, hmsg, hhash, hsettled⟩ := h.cached hash hseen
    exact ⟨msg, List.mem_append_left _ hmsg, hhash, hsettled.act hduties hact⟩
  refine ⟨?_, fun hash hmem => ?_, fun msg hmsg => ?_⟩
  · refine act_tasks (T := fun task => ∀ msg, task.Carries msg →
      msg ∈ inbox ++ (delivers? a).toList) ?_ (fun _ _ _ _ _ h => h.elim) ?_ hact ?_
    · rintro msg peer hmsg _ rfl
      exact List.mem_append_right _ (Option.mem_toList.mpr hmsg)
    · intro now task task' _ hcarried hnext msg hcarries
      cases exec_next hnext with
      | recheck => exact hcarried msg hcarries
      | _ => exact hcarries.elim
    · exact fun entry hentry msg hcarries =>
        List.mem_append_left _ (h.carried entry hentry msg hcarries)
  · rcases act_cache hact hmem with hold | ⟨now, msg, peer, hruns, hhash, hunseen⟩
    · exact hcached hash hold
    · obtain ⟨kind, hentry⟩ := mem_tasks_of_runs hruns
      exact ⟨msg, List.mem_append_left _ (h.carried _ hentry msg rfl), hhash,
        settled_of_recheck hact hruns hunseen⟩
  · rcases List.mem_append.mp hmsg with hold | hnew
    · rcases h.handled msg hold with htask | ⟨msg', hmsg', hhash, hsettled⟩
      · rcases act_carries hduties.kinds hact htask with hleft | hseen | hsettled
        · exact .inl hleft
        · exact .inr (hcached _ hseen)
        · exact .inr ⟨msg, hmsg, rfl, hsettled⟩
      · exact .inr ⟨msg', List.mem_append_left _ hmsg', hhash, hsettled.act hduties hact⟩
    · cases a with
      | deliver msg' peer =>
        obtain rfl := List.mem_singleton.mp hnew
        cases hact
        exact .inl ⟨_, List.mem_concat_self, rfl⟩
      | _ => cases hnew

section Runs

variable [DecidableEq ι] {net : Network ι C} {ok : (ι → Node) → ι → Action → Prop}
  {inbox : ι → List ConsensusMessage} {σ : ι → Node}

theorem Recorded.reaches (h : Recorded net ok inbox σ) : Reaches net ok σ := by
  induction h with
  | init => exact .init
  | step _ hok hact ih => exact ih.step hok hact

theorem Recorded.mono {ok' : (ι → Node) → ι → Action → Prop}
    (hok : ∀ {σ i a}, ok σ i a → ok' σ i a) (h : Recorded net ok inbox σ) :
    Recorded net ok' inbox σ := by
  induction h with
  | init => exact .init
  | step _ hstep hact ih => exact ih.step (hok hstep) hact

theorem Recorded.handled (h : Recorded net ok inbox σ) (i : ι) :
    Handled (net.config i) (inbox i) (σ i) := by
  induction h generalizing i with
  | init => exact ⟨(fun _ h => nomatch h), (fun _ h => nomatch h), fun _ h => nomatch h⟩
  | @step inbox σ k a node hprev hok hact ih =>
    by_cases hik : i = k
    · subst hik
      rw [Function.update_self, Function.update_self]
      exact (ih i).act (hprev.reaches.duties i) hact
    · rw [Function.update_of_ne hik, Function.update_of_ne hik]
      exact ih i

end Runs

/-! ## A proposal that everybody is done with -/

/-- The message is the proposal with the hash, or a vote or a certificate for it. -/
def ConsensusMessage.About (C : Crypto) (hash : Bytes) : ConsensusMessage → Prop
  | .intentBatchProposal batch => batch.hash C = hash
  | .velocityVoteMsg vote => vote.batchHash = hash
  | .newQuorumCertificate qc => qc.batchHash = hash

/-- The task proposes the batch with the hash or handles a message about it. -/
def Task.About (C : Crypto) (hash : Bytes) : Task → Prop
  | .receive msg _ | .recheck msg _ => msg.About C hash
  | .insertProposal batch | .castVote batch | .insertOwn batch | .announce batch
  | .selfVote batch => batch.hash C = hash
  | .sendVote vote | .checkVote vote | .storeVote vote => vote.batchHash = hash
  | .processVotes batchHash | .requestBatch batchHash _ => batchHash = hash
  | .anchorQc qc _ => qc.batchHash = hash
  | _ => False

/-- The batch has been proposed. The proposal, and every vote and certificate that
a node has sent for it, has been delivered to all other nodes, and nobody is busy
with it any more. -/
structure Quiescent (C : Crypto) (inbox : ι → List ConsensusMessage) (σ : ι → Node) (leader : ι)
    (batch : PayloadBatch) : Prop where
  proposed : batch ∈ (σ leader).proposed
  announced : .intentBatchProposal batch ∈ (σ leader).broadcasts
  delivered : ∀ i j, i ≠ j → ∀ msg ∈ (σ i).broadcasts, msg.About C (batch.hash C) → msg ∈ inbox j
  handled : ∀ i, ∀ entry ∈ (σ i).tasks, ¬ entry.2.About C (batch.hash C)

/-- No other proposal has the hash of the batch, and no two messages at one node
have one hash. -/
structure Collisionless (C : Crypto) (inbox : ι → List ConsensusMessage) (σ : ι → Node)
    (batch : PayloadBatch) : Prop where
  batches : ∀ i, ∀ other ∈ (σ i).proposed, other.hash C = batch.hash C → other = batch
  messages : ∀ i, ∀ msg ∈ inbox i, ∀ msg' ∈ inbox i,
    C.messageHash msg = C.messageHash msg' → msg = msg'

/-- The registered VRF key of every node accepts what the node signs. -/
def Network.VrfRegistered (net : Network ι C) : Prop :=
  ∀ i, ∃ info key, net.addressBook.get? (net.address i) = some info ∧
    info.vrfPublicKey = some key ∧ ∀ input,
      C.vrfVerify key input (C.vrfSign (net.vrfKeys i) input).1
        (C.vrfSign (net.vrfKeys i) input).2 = true

/-- Every message comes from a node, and no task is ended that is on the way to test
the votes for the hash. -/
def Undisturbed (C : Crypto) (hash : Bytes) (σ : ι → Node) (i : ι) (a : Action) : Prop :=
  Relayed C σ i a ∧ Uncut C hash (σ i) a

namespace QuiescenceLemmas

section About

variable {hash : Bytes} {task : Task}

theorem about_of_checks (h : task.Checks C hash) : task.About C hash := by
  cases task with
  | castVote | insertOwn | announce | selfVote | sendVote | processVotes => exact h
  | _ => exact h.elim

theorem about_of_casts (h : task.Casts C hash) : task.About C hash := by
  cases task with
  | castVote => exact h
  | _ => exact h.elim

theorem about_of_selfVotes (h : task.SelfVotes C hash) : task.About C hash := by
  cases task with
  | selfVote => exact h
  | _ => exact h.elim

theorem about_of_sends (h : task.Sends cfg hash) : task.About C hash := by
  cases task with
  | sendVote =>
    obtain ⟨batch, hhash, rfl⟩ := h
    exact hhash
  | _ => exact h.elim

theorem about_of_carries (h : task.Carries msg) (habout : msg.About C hash) :
    task.About C hash := by
  cases task with
  | receive | recheck =>
    subst h
    exact habout
  | _ => exact h.elim

end About

theorem verify_newBatch {net : Network ι C} (hreg : net.Registered) (hvrf : net.VrfRegistered)
    (i : ι) (core : CoreConsensusState) (round : UInt64) (parentQc : QuorumCertificate)
    (payloads : List AppPayload) (now : UInt64) :
    verifyBatchSignature C net.addressBook
      (newBatch (net.config i) core round parentQc payloads now).header = true := by
  obtain ⟨info, key, hinfo, hvrfKey, hverify⟩ := hvrf i
  have hauthority :
      (newBatch (net.config i) core round parentQc payloads now).header.authority =
        net.address i := rfl
  rw [verifyBatchSignature, hauthority, hinfo, hreg.key i]
  dsimp only
  rw [hvrfKey]
  exact Bool.and_eq_true_iff.mpr ⟨hverify _, C.verify_sign _ _⟩

/-- Different nodes whose votes are stored account for different votes. -/
theorem card_le_votes {net : Network ι C} (hreg : net.Registered) {votes : List VelocityVote}
    {voters : Finset ι}
    (h : ∀ j ∈ voters, ∃ vote ∈ votes, vote.voterAddress = net.address j) :
    voters.card ≤ votes.length := by
  classical
  calc voters.card = (voters.image net.address).card :=
        (Finset.card_image_of_injective voters fun j k => hreg.one j k).symm
    _ ≤ (votes.map (·.voterAddress)).toFinset.card := by
        refine Finset.card_le_card fun address hmem => ?_
        obtain ⟨j, hj, rfl⟩ := Finset.mem_image.mp hmem
        obtain ⟨vote, hvote, hvoter⟩ := h j hj
        exact List.mem_toFinset.mpr (List.mem_map.mpr ⟨vote, hvote, hvoter⟩)
    _ ≤ (votes.map (·.voterAddress)).length := List.toFinset_card_le _
    _ = votes.length := List.length_map _

end QuiescenceLemmas

namespace Quiescent

variable [DecidableEq ι] {net : Network ι C} {inbox : ι → List ConsensusMessage} {σ : ι → Node}
  {leader : ι} {batch : PayloadBatch}

section

variable (hquiet : Quiescent C inbox σ leader batch) (hclear : Collisionless C inbox σ batch)
  (hrun : Recorded net (Undisturbed C (batch.hash C)) inbox σ) (hreg : net.Registered)
  (hvrf : net.VrfRegistered)

include hquiet hclear hrun

/-- What has arrived about the batch is settled. -/
theorem settled {i : ι} {msg : ConsensusMessage} (hmsg : msg ∈ inbox i)
    (habout : msg.About C (batch.hash C)) : Settled (net.config i) (σ i) msg := by
  rcases (hrun.handled i).handled msg hmsg with ⟨entry, hentry, hcarries⟩ |
    ⟨msg', hmsg', hhash, hsettled⟩
  · exact (hquiet.handled i entry hentry (about_of_carries hcarries habout)).elim
  · rwa [hclear.messages i msg' hmsg' msg hmsg hhash] at hsettled

include hreg in
/-- Nobody else proposes the batch. -/
theorem eq_leader {i : ι} (h : HasProposed C (σ i) (batch.hash C)) : i = leader := by
  obtain ⟨other, hother, hhash⟩ := h
  obtain rfl := hclear.batches i other hother hhash
  obtain ⟨core, round, parentQc, payloads, now, hbuilt⟩ := hrun.reaches.built i _ hother
  obtain ⟨core', round', parentQc', payloads', now', hbuilt'⟩ :=
    hrun.reaches.built leader _ hquiet.proposed
  refine hreg.one i leader ?_
  exact congrArg (·.header.authority) (hbuilt.symm.trans hbuilt')

include hreg hvrf

theorem votedFor (i : ι) : VotedFor C (σ i) (batch.hash C) := by
  have hduties := hrun.reaches.duties i
  by_cases hleader : i = leader
  · subst hleader
    rcases hrun.reaches.announced And.right i ⟨batch, rfl, hquiet.announced⟩ with hvoted |
      ⟨entry, hentry, hself⟩
    · exact hvoted
    · exact (hquiet.handled i entry hentry (about_of_selfVotes hself)).elim
  · have hsigned : verifyBatchSignature C net.addressBook batch.header = true := by
      obtain ⟨core, round, parentQc, payloads, now, hbuilt⟩ :=
        hrun.reaches.built leader _ hquiet.proposed
      rw [hbuilt]
      exact verify_newBatch hreg hvrf leader core round parentQc payloads now
    have hheld : Held (σ i) (batch.hash C) := by
      have hmsg := hquiet.delivered leader i (Ne.symm hleader) _ hquiet.announced rfl
      rcases hquiet.settled hclear hrun hmsg rfl hsigned with hheld | ⟨entry, hentry, htask⟩
      · exact hheld
      · refine (hquiet.handled i entry hentry ?_).elim
        rw [htask]
        rfl
    rcases hduties.casts _ hheld with (hproposed | hvoted) | ⟨entry, hentry, hcasts⟩
    · exact (hleader (hquiet.eq_leader hclear hrun hreg hproposed)).elim
    · exact hvoted
    · exact (hquiet.handled i entry hentry (about_of_casts hcasts)).elim

/-- Every node but the proposer has sent its vote, so everybody counts it. -/
theorem counted {i j : ι} (h : j ≠ leader ∨ j = i) :
    Counted (σ i) (batch.hash C) (net.address j) := by
  obtain ⟨voted, hvoted, hhash⟩ := hquiet.votedFor hclear hrun hreg hvrf j
  by_cases hij : j = i
  · subst hij
    exact hhash ▸ (hrun.reaches.duties j).counted voted hvoted
  · rcases (hrun.reaches.duties j).sends _ ⟨voted, hvoted, hhash⟩ with
      (hproposed | ⟨voted', hhash', hsent⟩) | ⟨entry, hentry, hsends⟩
    · exact (h.resolve_right hij (hquiet.eq_leader hclear hrun hreg hproposed)).elim
    · have hmsg := hquiet.delivered j i hij _ hsent hhash'
      have hsigned := StoredVotesLemmas.verify_ownVote (net.config j) (hreg.key j) voted'
      rcases hquiet.settled hclear hrun hmsg hhash' hsigned with hcounted | ⟨entry, hentry, htask⟩
      · exact hhash' ▸ hcounted
      · refine (hquiet.handled i entry hentry ?_).elim
        rcases htask with htask | htask
        · rw [htask]
          exact hhash'
        · rw [htask]
          exact hhash'
    · exact (hquiet.handled j entry hentry (about_of_sends hsends)).elim

/-- A node that has the votes it needs has processed the batch. -/
theorem processed {i : ι} (voters : Finset ι) (hvoters : ∀ j ∈ voters, j ≠ leader ∨ j = i)
    (hquorum : requiredQuorum net.addressBook.size ≤ voters.card) :
    batch.hash C ∈ (σ i).core.processedOptimisticBatches := by
  obtain ⟨voted, hvoted, hhash⟩ := hquiet.votedFor hclear hrun hreg hvrf i
  rcases hhash ▸ (hrun.reaches.duties i).held voted hvoted with hpending | hprocessed
  · by_contra hfresh
    have hvotes : voters.card ≤ ((σ i).core.velocityVotes (batch.hash C)).length :=
      card_le_votes hreg fun j hj =>
        (hquiet.counted hclear hrun hreg hvrf (hvoters j hj)).resolve_right hfresh
    rcases hrun.reaches.watched And.right i ⟨hpending, hquorum.trans hvotes⟩ with hprocessed |
      ⟨entry, hentry, hchecks⟩
    · exact hfresh hprocessed
    · exact hquiet.handled i entry hentry (about_of_checks hchecks)
  · exact hprocessed

end

end Quiescent

/-! ## Scripts that record what arrives -/

section Record

variable [DecidableEq ι] (net : Network ι C) (ok : (ι → Node) → ι → Action → Prop)
  [∀ σ i a, Decidable (ok σ i a)]

/-- The message that a cue hands to a node. -/
def Cue.arrival (σ : ι → Node) : Cue ι → Option (ι × ConsensusMessage)
  | .act i a => (delivers? a).map (i, ·)
  | .relay i j k => (σ j).broadcasts[k]?.map (i, ·)
  | .inject i msg => some (i, msg σ)
  | .settle _ _ => none

def recordCue (s : (ι → List ConsensusMessage) × (ι → Node)) (cue : Cue ι) :
    Option ((ι → List ConsensusMessage) × (ι → Node)) :=
  (performCue net ok s.2 cue).map fun σ =>
    match cue.arrival s.2 with
    | some (i, msg) => (Function.update s.1 i (s.1 i ++ [msg]), σ)
    | none => (s.1, σ)

def record (cues : List (Cue ι)) : Option ((ι → List ConsensusMessage) × (ι → Node)) :=
  cues.foldlM (recordCue net ok) (fun _ => [], initialState)

end Record

namespace QuiescenceLemmas

variable [DecidableEq ι] {net : Network ι C} {ok : (ι → Node) → ι → Action → Prop}
  [∀ σ i a, Decidable (ok σ i a)] {inbox : ι → List ConsensusMessage} {σ σ' : ι → Node}

theorem recorded_attempt (h : Recorded net ok inbox σ) {i : ι} {a : Action}
    (hact : attempt net ok σ i a = some σ') :
    Recorded net ok (Function.update inbox i (inbox i ++ (delivers? a).toList)) σ' := by
  unfold attempt at hact
  split at hact
  · next hok =>
    obtain ⟨node, hnode, rfl⟩ := Option.map_eq_some_iff.mp hact
    exact h.step hok hnode
  · cases hact

/-- What is no delivery leaves the record as it is. -/
theorem recorded_attempt_none (h : Recorded net ok inbox σ) {i : ι} {a : Action}
    (hact : attempt net ok σ i a = some σ') (hnone : delivers? a = none) :
    Recorded net ok inbox σ' := by
  have hstep := recorded_attempt h hact
  rwa [hnone, Option.toList_none, List.append_nil, Function.update_eq_self] at hstep

theorem recorded_settle {i : ι} {now : UInt64} {fuel : Nat} (h : Recorded net ok inbox σ)
    (hsettle : settle net ok i now fuel σ = some σ') : Recorded net ok inbox σ' := by
  induction fuel generalizing σ with
  | zero => cases hsettle
  | succ fuel ih =>
    rw [settle] at hsettle
    split at hsettle
    · cases hsettle
      exact h
    · obtain ⟨τ, hact, hrest⟩ := Option.bind_eq_some_iff.mp hsettle
      exact ih (recorded_attempt_none h hact rfl) hrest

theorem recorded_recordCue {cue : Cue ι} {s s' : (ι → List ConsensusMessage) × (ι → Node)}
    (h : Recorded net ok s.1 s.2) (hcue : recordCue net ok s cue = some s') :
    Recorded net ok s'.1 s'.2 := by
  obtain ⟨σ', hperform, hs'⟩ := Option.map_eq_some_iff.mp hcue
  subst hs'
  cases cue with
  | act i a =>
    cases hmsg : delivers? a with
    | none =>
      simp only [Cue.arrival, hmsg, Option.map_none]
      exact recorded_attempt_none h hperform hmsg
    | some msg =>
      have hstep := recorded_attempt h hperform
      simp only [Cue.arrival, hmsg, Option.map_some]
      rwa [hmsg] at hstep
  | relay i j k =>
    obtain ⟨msg, hmsg, hact⟩ := Option.bind_eq_some_iff.mp hperform
    simp only [Cue.arrival, hmsg, Option.map_some]
    exact recorded_attempt h hact
  | inject i msg => exact recorded_attempt h hperform
  | settle i now => exact recorded_settle h hperform

end QuiescenceLemmas

/-- A script that can be played to a state, and a record of what has arrived, with
the property `P`. -/
theorem exists_recorded [DecidableEq ι] {net : Network ι C} {ok : (ι → Node) → ι → Action → Prop}
    [∀ σ i a, Decidable (ok σ i a)] {P : (ι → List ConsensusMessage) → (ι → Node) → Prop}
    [∀ inbox σ, Decidable (P inbox σ)] (cues : List (Cue ι))
    (h : (record net ok cues).any (fun s => decide (P s.1 s.2)) = true) :
    ∃ inbox σ, Recorded net ok inbox σ ∧ P inbox σ := by
  obtain ⟨s, hrecord, hP⟩ := (Option.any_eq_true _ _).mp h
  refine ⟨s.1, s.2, ?_, of_decide_eq_true hP⟩
  exact foldlM_keeps (I := fun s => Recorded net ok s.1 s.2)
    (fun _ _ _ hbefore hcue => recorded_recordCue hbefore hcue) .init hrecord

/-! ## Confirmed everywhere, or by the proposer only -/

instance (hash : Bytes) (msg : ConsensusMessage) : Decidable (msg.About C hash) :=
  match msg with
  | .intentBatchProposal batch => inferInstanceAs (Decidable (batch.hash C = hash))
  | .velocityVoteMsg vote => inferInstanceAs (Decidable (vote.batchHash = hash))
  | .newQuorumCertificate qc => inferInstanceAs (Decidable (qc.batchHash = hash))

instance (hash : Bytes) (task : Task) : Decidable (task.About C hash) :=
  match task with
  | .receive msg _ | .recheck msg _ => inferInstanceAs (Decidable (msg.About C hash))
  | .insertProposal batch | .castVote batch | .insertOwn batch | .announce batch
  | .selfVote batch => inferInstanceAs (Decidable (batch.hash C = hash))
  | .sendVote vote | .checkVote vote | .storeVote vote =>
    inferInstanceAs (Decidable (vote.batchHash = hash))
  | .processVotes batchHash | .requestBatch batchHash _ =>
    inferInstanceAs (Decidable (batchHash = hash))
  | .anchorQc qc _ => inferInstanceAs (Decidable (qc.batchHash = hash))
  | .collectConfirmed | .pruneProposals _ | .roundStep _ _ | .readParent _ | .drainMempool _ _
  | .buildBatch _ _ _ => .isFalse id

instance [DecidableEq ι] [Fintype ι] (inbox : ι → List ConsensusMessage) (σ : ι → Node)
    (leader : ι) (batch : PayloadBatch) : Decidable (Quiescent C inbox σ leader batch) :=
  decidable_of_iff (batch ∈ (σ leader).proposed ∧
      .intentBatchProposal batch ∈ (σ leader).broadcasts ∧
      (∀ i j, i ≠ j → ∀ msg ∈ (σ i).broadcasts, msg.About C (batch.hash C) → msg ∈ inbox j) ∧
      ∀ i, ∀ entry ∈ (σ i).tasks, ¬ entry.2.About C (batch.hash C))
    ⟨fun h => ⟨h.1, h.2.1, h.2.2.1, h.2.2.2⟩,
      fun h => ⟨h.proposed, h.announced, h.delivered, h.handled⟩⟩

instance [Fintype ι] (inbox : ι → List ConsensusMessage) (σ : ι → Node) (batch : PayloadBatch) :
    Decidable (Collisionless C inbox σ batch) :=
  decidable_of_iff ((∀ i, ∀ other ∈ (σ i).proposed, other.hash C = batch.hash C → other = batch) ∧
      ∀ i, ∀ msg ∈ inbox i, ∀ msg' ∈ inbox i, C.messageHash msg = C.messageHash msg' → msg = msg')
    ⟨fun h => ⟨h.1, h.2⟩, fun h => ⟨h.batches, h.messages⟩⟩

/-- The first `m` of four validators run a node, the others are silent. -/
def running (m : Nat) : Network (Fin m) toyCrypto where
  addressBook := fourValidators
  subCommitteeSize := 2
  address i := toyAddress (.ofNat (i + 1))
  signingKeys i := UInt8.ofNat (i + 1)
  vrfKeys i := UInt8.ofNat (i + 1)

/-- The leader proposes. Its batch is delivered to everybody, then the vote that each
of the others sends first, then what the `certifiers` send second, which is their
certificate. -/
def everythingDelivered {m : Nat} (leader : Fin m) (certifiers : List (Fin m)) :
    List (Cue (Fin m)) :=
  let others (i : Fin m) := (List.finRange m).filter (· ≠ i)
  [.act leader (.tick false), .act leader .advance, .settle leader 10] ++
    (others leader).flatMap (fun i => [.relay i leader 0, .settle i 20]) ++
    (others leader).flatMap (fun i => (others i).flatMap fun j => [.relay j i 0, .settle j 30]) ++
    certifiers.flatMap (fun i => (others i).flatMap fun j => [.relay j i 1, .settle j 40])

/-- Everything about a proposal has been delivered and handled, and at most a third
of the validators is silent. If more nodes run than the quorum needs, or there is
one only, then every node has confirmed the batch; and has it still, as long as it
has not confirmed 256 others after it. -/
theorem quiescent_confirmed [DecidableEq ι] [Fintype ι] {net : Network ι C} (hreg : net.Registered)
    (hvrf : net.VrfRegistered) {inbox : ι → List ConsensusMessage} {σ : ι → Node} {leader : ι}
    {batch : PayloadBatch}
    (hsilent : net.addressBook.size - Fintype.card ι ≤ (net.addressBook.size - 1) / 3)
    (hrun : Recorded net (Undisturbed C (batch.hash C)) inbox σ)
    (hquiet : Quiescent C inbox σ leader batch) (hclear : Collisionless C inbox σ batch)
    (henough : Fintype.card ι = 1 ∨ requiredQuorum net.addressBook.size < Fintype.card ι) (i : ι)
    (hwindow : (confirmedAfter C (σ i) (batch.hash C)).length < 256) :
    batch ∈ (σ i).core.optimisticallyConfirmedBatches := by
  have hprocessed : batch.hash C ∈ (σ i).core.processedOptimisticBatches := by
    rcases henough with hone | hmore
    · refine hquiet.processed hclear hrun hreg hvrf {i} (fun j hj => .inr ?_) ?_
      · exact Finset.mem_singleton.mp hj
      · rw [Finset.card_singleton, requiredQuorum]
        split <;> omega
    · refine hquiet.processed hclear hrun hreg hvrf (Finset.univ.erase leader)
        (fun j hj => .inl (Finset.ne_of_mem_erase hj)) ?_
      rw [Finset.card_erase_of_mem (Finset.mem_univ leader), Finset.card_univ]
      exact Nat.le_sub_one_of_lt hmore
  have honce := pushedOnce_of_run (hrun.reaches.nodeRun i)
  obtain ⟨kept, hkept, hhash⟩ := honce.kept_of_processed hprocessed hwindow
  -- what is kept under the hash was proposed by somebody, so it is the batch
  obtain ⟨j, hj⟩ := (hrun.reaches.provenance And.left i).history kept (honce.suffix.subset hkept)
  obtain rfl := hclear.batches j kept hj hhash
  exact hkept

theorem running_registered {m : Nat} (hm : m ≤ 4) : (running m).Registered where
  key i := by
    have hkeys : ∀ i : Fin 4, fourValidators.signingKey? (toyAddress (.ofNat (i + 1))) =
        some (toyCrypto.publicKeyBytes (UInt8.ofNat (i + 1))) := by
      decide +kernel
    exact hkeys (i.castLE hm)
  one i j h := by
    have hdistinct : ∀ i j : Fin 4,
        toyAddress (.ofNat (i + 1)) = toyAddress (.ofNat (j + 1)) → i = j := by
      decide +kernel
    exact Fin.castLE_injective hm (hdistinct _ _ h)

theorem running_vrfRegistered {m : Nat} (hm : m ≤ 4) : (running m).VrfRegistered := by
  intro i
  have hinfo : ∀ i : Fin 4, fourValidators.get? (toyAddress (.ofNat (i + 1))) =
      some (toyIdentity (.ofNat (i + 1))) := by
    decide +kernel
  exact ⟨toyIdentity (.ofNat (i + 1)), List.replicate 32 (.ofNat (i + 1)), hinfo (i.castLE hm),
    rfl, fun _ => decide_eq_true ⟨rfl, rfl⟩⟩

/-- Four nodes run: every one of them certifies the batch. -/
theorem quiescent_confirmed_four :
    ∃ inbox σ batch, Recorded (running 4) (Undisturbed toyCrypto (batch.hash toyCrypto)) inbox σ ∧
      Quiescent toyCrypto inbox σ 0 batch ∧ Collisionless toyCrypto inbox σ batch ∧
      (∀ i, (confirmedAfter toyCrypto (σ i) (batch.hash toyCrypto)).length < 256) ∧
      ∀ i, batch ∈ (σ i).core.optimisticallyConfirmedBatches := by
  have hplay : ∃ inbox σ,
      Recorded (running 4) (fun σ i a => Relayed toyCrypto σ i a ∧ Unaborted σ i a) inbox σ ∧
      ∃ batch ∈ (σ 0).proposed, Quiescent toyCrypto inbox σ 0 batch ∧
        Collisionless toyCrypto inbox σ batch ∧
        ∀ i, (confirmedAfter toyCrypto (σ i) (batch.hash toyCrypto)).length < 256 :=
    exists_recorded (everythingDelivered 0 [0, 1, 2, 3]) (by decide +kernel)
  obtain ⟨inbox, σ, hrun, batch, -, hquiet, hclear, hwindow⟩ := hplay
  have hundisturbed : Recorded (running 4) (Undisturbed toyCrypto (batch.hash toyCrypto)) inbox σ :=
    hrun.mono fun hstep => ⟨hstep.1, fun k midway _ ha _ _ => hstep.2 k midway ha⟩
  exact ⟨inbox, σ, batch, hundisturbed, hquiet, hclear, hwindow, fun i =>
    quiescent_confirmed (running_registered le_rfl) (running_vrfRegistered le_rfl) (by decide)
      hundisturbed hquiet hclear (by decide) i (hwindow i)⟩

/-- Three nodes run and the fourth validator is silent. The proposer has all three
votes, the others have the two that were sent. They receive the certificate of the
proposer and still have not confirmed the batch. -/
theorem quiescent_unconfirmed :
    fourValidators.size - Fintype.card (Fin 3) ≤ (fourValidators.size - 1) / 3 ∧
    ∃ inbox σ,
      Recorded (running 3) (fun σ i a => Relayed toyCrypto σ i a ∧ Unaborted σ i a) inbox σ ∧
      ∃ batch ∈ (σ 0).proposed, Quiescent toyCrypto inbox σ 0 batch ∧
        Collisionless toyCrypto inbox σ batch ∧
        batch ∈ (σ 0).core.optimisticallyConfirmedBatches ∧
        batch ∉ (σ 1).core.optimisticallyConfirmedBatches ∧
        batch ∉ (σ 2).core.optimisticallyConfirmedBatches :=
  ⟨by decide, exists_recorded (everythingDelivered 0 [0]) (by decide +kernel)⟩

end EviceChain.Sequencer
