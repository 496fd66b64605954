import EviceChain.P2p.Bans
import EviceChain.Sequencer.NoLostQuorum

/-!
# Hashes of any length (`p2p/swarm.rs`, `consensus/engine.rs`)

A batch hash that another node sends is a vector of bytes that nobody has measured,
and the log lines of the swarm loop, of its tasks and of the consensus handlers show
the first four bytes of it, `&hash[..4]`. The expression panics if there are fewer. A
panic ends the loop for good, or the one task in which it happens.

A `Process` is a node with its loop, the tasks of the loop and the engine. All log
levels are enabled. The node's own batches and those that a response brings are named
by their SHA-256, which is long enough; everything else comes from outside.

Results:
1. `Carries.step`: what is true of every message that arrives is true of every message
   under way to the engine;
2. `no_panic`: nothing panics as long as the requests and the signed votes name hashes
   of four bytes or more;
3. `short_hash_panics`: an empty hash ends the loop, by gossip and as a vote, and it
   ends a lookup and a handler.
-/

namespace EviceChain.P2p

open Foundation Sequencer NetworkLemmas SwarmLemmas BansLemmas

variable {C : Crypto}

/-! ## The slices -/

/-- `&bytes[..n]`; `none` is a panic. -/
def sliceTo (bytes : Bytes) (n : Nat) : Option Bytes :=
  if n ≤ bytes.length then some (bytes.take n) else none

/-- The hash that a request asks for. -/
def Request.asks : Request → List Bytes
  | .getFullProposal batchHash => [batchHash]
  | _ => []

/-- What the loop slices when it takes an event, one on the topic for lost proposals
apart. -/
def Event.sliced (C : Crypto) : Event → List Bytes
  | .request _ (.submitVote vote) => [vote.batchHash]
  | .response _ (.fullProposal (some batch)) => [batch.header.calculateHash C]
  | _ => []

/-- The lookups that an event starts. -/
def Event.lookups : Event → List Bytes
  | .request _ asked => asked.asks
  | _ => []

/-- What a handler slices on the way to its next point. -/
def handlerSlices (cfg : Config C) (now : UInt64) (node : Node) : Sequencer.Task → List Bytes
  | .castVote batch => [batch.hash C]
  | .processVotes batchHash =>
    if batchHash ∈ node.core.processedOptimisticBatches then []
    else if requiredQuorum cfg.addressBook.size ≤ (node.core.velocityVotes batchHash).length then
      -- once when the quorum is there, and once more if the batch is not
      if (node.pendingProposals batchHash).isSome then [batchHash] else [batchHash, batchHash]
    else []
  | .requestBatch batchHash _ => [batchHash]
  | .buildBatch round parentQc payloads =>
    [(newBatch cfg node.core round parentQc payloads now).hash C]
  | _ => []

/-- What an action of the engine slices. A handler that is ended while it broadcasts a
certificate has come past the slices. -/
def actionSlices (cfg : Config C) (node : Node) : Action → List Bytes
  | .run k now =>
    match node.tasks[k]? with
    | some (_, task) => handlerSlices cfg now node task
    | none => []
  | .cancel k true =>
    match node.tasks[k]? with
    | some (_, .processVotes batchHash) => handlerSlices cfg 0 node (.processVotes batchHash)
    | _ => []
  | _ => []

/-! ## A node and its panics -/

/-- What has panicked, and on which bytes. -/
inductive Panic
  | loop (bytes : Bytes)
  | lookup (bytes : Bytes)
  | handler (bytes : Bytes)
deriving DecidableEq

def Panic.endsLoop : Panic → Bool
  | .loop _ => true
  | _ => false

/-- The `lookups` are the hashes that tasks of the loop look up for other nodes. -/
structure Process where
  swarm : State
  node : Node
  lookups : List Bytes
  panics : List Panic

/-- Goes on with `next` if all slices are in bounds. -/
def evaluate (sliced : List Bytes) (panics : Bytes → Process) (next : Process) : Process :=
  match sliced.find? fun bytes => (sliceTo bytes 4).isNone with
  | some bytes => panics bytes
  | none => next

namespace Process

def new (initialQc : QuorumCertificate) : Process := ⟨.new, .new initialQc, [], []⟩

def panic (p : Process) (panic : Panic) : Process := { p with panics := p.panics ++ [panic] }

def loopEnded (p : Process) : Bool := p.panics.any Panic.endsLoop

/-- The loop takes an event. -/
def take (kind : NodeKind) (p : Process) (now : Instant) (event : Event)
    (sliced lookups : List Bytes) : Option Process :=
  if p.loopEnded then none
  else
    (p.swarm.step kind (now, .event event)).map fun swarm =>
      evaluate sliced (fun bytes => p.panic (.loop bytes))
        { p with swarm, lookups := p.lookups ++ lookups }

/-- The handler that the action is about is gone. -/
def endHandler (p : Process) : Action → Process
  | .run k _ | .cancel k _ => { p with node := { p.node with tasks := p.node.tasks.eraseIdx k } }
  | _ => p

end Process

inductive Move
  | event (now : Instant) (event : Event)
  /-- The loop takes a message on the topic for lost proposals that can be read. -/
  | fallback (now : Instant) (peer : PeerId) (request : Request)
  /-- The loop gets what it has been waiting for. -/
  | loop (now : Instant)
  /-- The `k`-th task that sends to the engine gets what it has been waiting for. -/
  | run (now : Instant) (k : Nat)
  /-- The `k`-th lookup finds the batch, or does not. -/
  | lookup (k : Nat)
  /-- The engine takes a message out of the channel and starts a handler. -/
  | drain (now : Instant)
  /-- Anything else that the engine does. -/
  | act (action : Action)
deriving DecidableEq

/-- One move; `none` if it is not possible. -/
def Process.step (kind : NodeKind) (cfg : Config C) (p : Process) : Move → Option Process
  | .event now event => p.take kind now event (event.sliced C) event.lookups
  | .fallback now peer request => p.take kind now (.fallbackGossip peer) request.asks request.asks
  | .loop now =>
    if p.loopEnded then none
    else (p.swarm.step kind (now, .loop)).map fun swarm => { p with swarm }
  | .run now k => (p.swarm.step kind (now, .run k)).map fun swarm => { p with swarm }
  | .lookup k =>
    match p.lookups[k]? with
    | none => none
    | some batchHash =>
      let p := { p with lookups := p.lookups.eraseIdx k }
      -- every outcome of the lookup is logged with the hash that was asked for
      some (evaluate [batchHash] (fun bytes => p.panic (.lookup bytes)) p)
  | .drain now =>
    match p.swarm.channel, p.swarm.step kind (now, .drain) with
    | (msg, peer) :: _, some swarm =>
      (Sequencer.act cfg p.node (.deliver msg peer)).map fun node => { p with swarm, node }
    | _, _ => none
  | .act action =>
    match kind, action with
    | .nonAuthority, _ => none
    | .authority, .deliver _ _ => none
    | .authority, action =>
      (Sequencer.act cfg p.node action).map fun node =>
        evaluate (actionSlices cfg p.node action)
          (fun bytes => (p.endHandler action).panic (.handler bytes)) { p with node }

/-! ## What is received -/

/-- A vote or certificate that counts names a hash of four bytes or more. -/
def NamesFour (cfg : Config C) : ConsensusMessage → Prop
  | .intentBatchProposal _ => True
  | .velocityVoteMsg vote =>
    verifyVoteSignature C cfg.addressBook vote.voterAddress vote.roundId vote.batchHash
      vote.signature = true → 4 ≤ vote.batchHash.length
  | .newQuorumCertificate qc =>
    isFullyValid C cfg.addressBook qc = true → 4 ≤ qc.batchHash.length

/-- The hashes that a direct request names. -/
def Event.names : Event → List Bytes
  | .request _ (.getFullProposal batchHash) => [batchHash]
  | .request _ (.submitVote vote) => [vote.batchHash]
  | _ => []

/-- Whoever asks for a batch or submits a vote directly names a hash of four bytes or
more; so do the votes and certificates that count. -/
def Event.Measured (cfg : Config C) (event : Event) : Prop :=
  (∀ relayed ∈ event.relays?, NamesFour cfg relayed.2) ∧
    ∀ batchHash ∈ event.names, 4 ≤ batchHash.length

def Measured (cfg : Config C) (_ : Process) : Move → Prop
  | .event _ event => event.Measured cfg
  | .fallback _ _ request => ∀ batchHash ∈ request.asks, 4 ≤ batchHash.length
  | .loop _ | .run _ _ | .lookup _ | .drain _ | .act _ => True

section Decidable

variable (cfg : Config C)

instance decidableNamesFour : (msg : ConsensusMessage) → Decidable (NamesFour cfg msg)
  | .intentBatchProposal _ => .isTrue trivial
  | .velocityVoteMsg _ | .newQuorumCertificate _ => inferInstanceAs (Decidable (_ → _))

instance decidableMeasured (p : Process) : (move : Move) → Decidable (Measured cfg p move)
  | .event _ _ => inferInstanceAs (Decidable (_ ∧ _))
  | .fallback _ _ _ => inferInstanceAs (Decidable (∀ _ ∈ _, _))
  | .loop _ | .run _ _ | .lookup _ | .drain _ | .act _ => .isTrue trivial

end Decidable

/-! ## The messages under way -/

/-- Every message under way to the engine satisfies `M`. -/
structure Carries (M : ConsensusMessage → Prop) (s : State) : Prop where
  carried : ∀ relayed ∈ s.carried, M relayed.2
  channel : ∀ entry ∈ s.channel, M entry.1

section Carries

variable {M : ConsensusMessage → Prop} {kind : NodeKind} {s s' : State}

theorem Effect.carried {step : Step} (h : Effect s step s') :
    s'.carried ⊆ step.relays?.toList ++ s.carried := by
  cases h with
  | quiet hcarried => exact hcarried
  | forward _ hcarried | ban _ hcarried =>
    exact List.Subset.trans hcarried (List.subset_append_right _ _)

/-- What comes into the channel has been under way. -/
theorem channel_of_advances {step : Step} (h : Advances kind s step s') :
    ∀ entry ∈ s'.channel, entry ∈ s.channel ∨ entry.swap ∈ s.carried := by
  have hsend {peer : PeerId} {msg : ConsensusMessage} (hcarried : (peer, msg) ∈ s.carried) :
      ∀ entry ∈ s.channel ++ [(msg, peer)], entry ∈ s.channel ∨ entry.swap ∈ s.carried :=
    forall_mem_snoc (fun _ => .inl) (.inr hcarried)
  cases h with
  | @event event hloop =>
    rw [(handle_same s event).1]
    exact fun _ => .inl
  | @update peer update hloop hlocked =>
    rw [(updateScores_same s peer update).2.1]
    exact fun _ => .inl
  | @respond peer msg hloop hroom =>
    refine hsend (carried_of_loop ?_)
    rw [hloop]
    rfl
  | lock | payload => exact fun _ => .inl
  | unreadable =>
    rw [(penalize_same s _ _ _).2.1]
    exact fun _ => .inl
  | forward htask hroom | direct htask hroom => exact hsend (carried_of_task htask rfl)
  | drain hkind hchannel =>
    rw [hchannel]
    exact fun _ hentry => .inl (List.mem_cons_of_mem _ hentry)

theorem Carries.new : Carries M .new where
  carried _ h := by cases h
  channel _ h := by cases h

theorem Carries.step (h : Carries M s) {timed : Instant × Step}
    (hstep : s.step kind timed = some s') (hM : ∀ relayed ∈ timed.2.relays?, M relayed.2) :
    Carries M s' := by
  obtain ⟨-, hadvances⟩ := advances_of_step hstep
  refine ⟨fun relayed hrelayed => ?_, fun entry hentry => ?_⟩
  · rcases List.mem_append.mp ((effect_of_advances hadvances).carried hrelayed) with hnew | hold
    · exact hM relayed (Option.mem_toList.mp hnew)
    · exact h.carried relayed hold
  · rcases channel_of_advances hadvances entry hentry with hold | hcarried
    · exact h.channel entry hold
    · exact h.carried _ hcarried

end Carries

/-! ## The handlers -/

/-- What a handler carries along, it can slice when it comes to it. -/
def HandlerMeasured (cfg : Config C) : Sequencer.Task → Prop
  | .receive msg _ | .recheck msg _ => NamesFour cfg msg
  | .checkVote vote | .storeVote vote => NamesFour cfg (.velocityVoteMsg vote)
  | .anchorQc qc _ => NamesFour cfg (.newQuorumCertificate qc)
  | .sendVote vote => 4 ≤ vote.batchHash.length
  | .processVotes batchHash | .requestBatch batchHash _ => 4 ≤ batchHash.length
  | _ => True

namespace SlicesLemmas

variable {cfg : Config C} {now : UInt64} {node node' : Node}

theorem four_le_hash (header : BatchHeader) : 4 ≤ (header.calculateHash C).length := by
  rw [BatchHeader.calculateHash, C.sha256_length]
  decide

/-- A handler goes on to count the votes only after it has checked the signature. -/
theorem verified_of_exec {vote : VelocityVote} {task : Sequencer.Task}
    (h : (exec cfg now node (.storeVote vote)).2 = some task) :
    verifyVoteSignature C cfg.addressBook vote.voterAddress vote.roundId vote.batchHash
      vote.signature = true := by
  dsimp only [exec] at h
  split at h
  · cases h
  · next hverified => simpa using hverified

/-- A handler asks for a batch only after it has checked the certificate. -/
theorem valid_of_exec {qc : QuorumCertificate} {peer : PeerId} {task : Sequencer.Task}
    (h : (exec cfg now node (.anchorQc qc peer)).2 = some task) :
    isFullyValid C cfg.addressBook qc = true := by
  dsimp only [exec] at h
  split at h
  · cases h
  · next hvalid => simpa using hvalid

theorem handlerMeasured_exec {task task' : Sequencer.Task} (h : HandlerMeasured cfg task)
    (hnext : (exec cfg now node task).2 = some task') : HandlerMeasured cfg task' := by
  cases exec_next hnext with
  | recheck | checkVote | anchorQc | storeVote | processVotes => exact h
  | sendVote => exact four_le_hash _
  | processOwn => exact four_le_hash _
  | processStored => exact h (verified_of_exec hnext)
  | requestBatch => exact h (valid_of_exec hnext)
  | _ => trivial

theorem four_le_handlerSlices {task : Sequencer.Task} (h : HandlerMeasured cfg task) :
    ∀ bytes ∈ handlerSlices cfg now node task, 4 ≤ bytes.length := by
  intro bytes hbytes
  cases task with
  | castVote | buildBatch =>
    rw [List.mem_singleton.mp hbytes]
    exact four_le_hash _
  | requestBatch =>
    rw [List.mem_singleton.mp hbytes]
    exact h
  | processVotes batchHash =>
    have hsame : bytes = batchHash := by
      dsimp only [handlerSlices] at hbytes
      split at hbytes
      · cases hbytes
      · split at hbytes
        · split at hbytes <;> simpa using hbytes
        · cases hbytes
    rw [hsame]
    exact h
  | _ => cases hbytes

theorem four_le_actionSlices {action : Action}
    (h : ∀ entry ∈ node.tasks, HandlerMeasured cfg entry.2) :
    ∀ bytes ∈ actionSlices cfg node action, 4 ≤ bytes.length := by
  intro bytes hbytes
  unfold actionSlices at hbytes
  split at hbytes
  · split at hbytes
    · next htask => exact four_le_handlerSlices (h _ (List.mem_of_getElem? htask)) bytes hbytes
    · cases hbytes
  · split at hbytes
    · next htask => exact four_le_handlerSlices (h _ (List.mem_of_getElem? htask)) bytes hbytes
    · cases hbytes
  · cases hbytes

theorem handlers_act (h : ∀ entry ∈ node.tasks, HandlerMeasured cfg entry.2) {action : Action}
    (hM : ∀ msg ∈ delivers? action, NamesFour cfg msg)
    (hact : act cfg node action = some node') :
    ∀ entry ∈ node'.tasks, HandlerMeasured cfg entry.2 :=
  act_tasks (T := HandlerMeasured cfg) (fun msg _ => hM msg) (fun _ _ _ _ => trivial)
    (fun _ _ _ _ => handlerMeasured_exec) hact h

/-- Nothing panics where everything sliced has four bytes. -/
theorem evaluate_eq {sliced : List Bytes} (h : ∀ bytes ∈ sliced, 4 ≤ bytes.length)
    (panics : Bytes → Process) (next : Process) : evaluate sliced panics next = next := by
  have hnone : sliced.find? (fun bytes => (sliceTo bytes 4).isNone) = none :=
    List.find?_eq_none.mpr fun bytes hbytes => by simp [sliceTo, h bytes hbytes]
  rw [evaluate, hnone]

end SlicesLemmas

open SlicesLemmas

/-! ## Runs -/

/-- Nothing has panicked, and nothing that is under way will. -/
structure Unharmed (cfg : Config C) (p : Process) : Prop where
  carries : Carries (NamesFour cfg) p.swarm
  lookups : ∀ batchHash ∈ p.lookups, 4 ≤ batchHash.length
  handlers : ∀ entry ∈ p.node.tasks, HandlerMeasured cfg entry.2
  panics : p.panics = []

section Runs

variable {cfg : Config C} {kind : NodeKind} {p p' : Process}

theorem Unharmed.new (initialQc : QuorumCertificate) : Unharmed cfg (.new initialQc) where
  carries := .new
  lookups _ h := by cases h
  handlers _ h := by cases h
  panics := rfl

theorem Unharmed.take (h : Unharmed cfg p) {now : Instant} {event : Event}
    {sliced lookups : List Bytes} (hM : ∀ relayed ∈ event.relays?, NamesFour cfg relayed.2)
    (hsliced : ∀ bytes ∈ sliced, 4 ≤ bytes.length)
    (hlookups : ∀ bytes ∈ lookups, 4 ≤ bytes.length)
    (hstep : p.take kind now event sliced lookups = some p') : Unharmed cfg p' := by
  unfold Process.take at hstep
  split at hstep
  · cases hstep
  · obtain ⟨swarm, hswarm, rfl⟩ := Option.map_eq_some_iff.mp hstep
    rw [evaluate_eq hsliced]
    refine ⟨h.carries.step hswarm hM, fun bytes hbytes => ?_, h.handlers, h.panics⟩
    exact (List.mem_append.mp hbytes).elim (h.lookups bytes) (hlookups bytes)

/-- What the loop does between events, and the tasks of the loop. -/
theorem Unharmed.swarm (h : Unharmed cfg p) {now : Instant} {step : Step} {swarm : State}
    (hno : step.relays? = none) (hstep : p.swarm.step kind (now, step) = some swarm) :
    Unharmed cfg { p with swarm } := by
  refine ⟨h.carries.step hstep fun relayed hrelayed => ?_, h.lookups, h.handlers, h.panics⟩
  cases hno.symm.trans hrelayed

theorem Event.Measured.sliced {event : Event} (h : event.Measured cfg) :
    ∀ bytes ∈ event.sliced C, 4 ≤ bytes.length := by
  intro bytes hbytes
  unfold Event.sliced at hbytes
  split at hbytes
  · exact h.2 bytes hbytes
  · rw [List.mem_singleton.mp hbytes]
    exact four_le_hash _
  · cases hbytes

theorem Event.Measured.lookups {event : Event} (h : event.Measured cfg) :
    ∀ bytes ∈ event.lookups, 4 ≤ bytes.length := by
  intro bytes hbytes
  match event with
  | .request _ (.getFullProposal _) => exact h.2 bytes hbytes

theorem Unharmed.step {move : Move} (h : Unharmed cfg p) (hok : Measured cfg p move)
    (hstep : p.step kind cfg move = some p') : Unharmed cfg p' := by
  cases move with
  | event now event =>
    exact h.take hok.1 hok.sliced hok.lookups hstep
  | fallback now peer request =>
    exact h.take (fun _ hmsg => by cases hmsg) hok hok hstep
  | loop now =>
    dsimp only [Process.step] at hstep
    split at hstep
    · cases hstep
    · obtain ⟨swarm, hswarm, rfl⟩ := Option.map_eq_some_iff.mp hstep
      exact h.swarm rfl hswarm
  | run now k =>
    obtain ⟨swarm, hswarm, rfl⟩ := Option.map_eq_some_iff.mp hstep
    exact h.swarm rfl hswarm
  | lookup k =>
    dsimp only [Process.step] at hstep
    split at hstep
    · cases hstep
    · next batchHash hlookup =>
      cases hstep
      have hlong : ∀ bytes ∈ [batchHash], 4 ≤ bytes.length := by
        intro bytes hbytes
        rw [List.mem_singleton.mp hbytes]
        exact h.lookups _ (List.mem_of_getElem? hlookup)
      rw [evaluate_eq hlong]
      exact ⟨h.carries, fun bytes hmem => h.lookups bytes (List.mem_of_mem_eraseIdx hmem),
        h.handlers, h.panics⟩
  | drain now =>
    dsimp only [Process.step] at hstep
    split at hstep
    · next msg peer rest swarm hchannel hswarm =>
      obtain ⟨node, hact, rfl⟩ := Option.map_eq_some_iff.mp hstep
      have hmsg : NamesFour cfg msg := h.carries.channel (msg, peer) (hchannel ▸ .head _)
      have hhandlers := handlers_act h.handlers (fun other hother => by cases hother; exact hmsg)
        hact
      have hdrained := h.swarm rfl hswarm
      exact ⟨hdrained.carries, h.lookups, hhandlers, h.panics⟩
    · cases hstep
  | act action =>
    dsimp only [Process.step] at hstep
    split at hstep
    · cases hstep
    · cases hstep
    · next hno =>
      obtain ⟨node, hact, rfl⟩ := Option.map_eq_some_iff.mp hstep
      rw [evaluate_eq (four_le_actionSlices h.handlers)]
      refine ⟨h.carries, h.lookups, handlers_act h.handlers (fun msg hmsg => ?_) hact, h.panics⟩
      cases action with
      | deliver msg peer => exact (hno msg peer rfl).elim
      | _ => cases hmsg

/-- Where every request names a hash of four bytes or more, and so does every vote and
every certificate that counts, nothing panics. -/
theorem no_panic {initialQc : QuorumCertificate}
    (hrun : Run (Process.step kind cfg) (Measured cfg) (.new initialQc) p) : p.panics = [] :=
  (hrun.invariant (I := Unharmed cfg) (.new initialQc)
    fun _ hok hstep ih => ih.step hok hstep).panics

end Runs

/-- The vote of the only validator for a hash, whatever the hash is. -/
def soloVote (batchHash : Bytes) : VelocityVote :=
  signVote toyCrypto (1 : UInt8) (toyAddress 1) 0 batchHash

/-- A vote arrives by gossip and is handled up to the count of the votes. -/
def gossipVote (vote : VelocityVote) : List Move :=
  [.event 0 (.gossip 7 (some (.newConsensusMessage (.velocityVoteMsg vote)))), .run 0 0, .run 0 0,
    .drain 0, .act (.run 0 0), .act (.run 0 0), .act (.run 0 0), .act (.run 0 0)]

/-- Hashes of four bytes on every way, and an empty one in a vote without signature. -/
theorem no_panic_four :
    ∃ p, Run (Process.step .authority (soloNetwork.config false))
        (Measured (soloNetwork.config false)) (.new genesisQc) p ∧
      (p.node.core.velocityVotes [1, 2, 3, 4]).length = 1 ∧ p.lookups = [] ∧
      p.node.tasks = [] ∧ p.panics = [] := by
  obtain ⟨p, hrun, hstored, hlookups, htasks⟩ :
      ∃ p, Run (Process.step .authority (soloNetwork.config false))
          (Measured (soloNetwork.config false)) (.new genesisQc) p ∧
        (p.node.core.velocityVotes [1, 2, 3, 4]).length = 1 ∧ p.lookups = [] ∧
        p.node.tasks = [] :=
    exists_run (List.flatten
      [[.fallback 0 7 (.getFullProposal [1, 2, 3, 4]), .lookup 0,
          .event 0 (.request 7 (.getFullProposal [1, 2, 3, 4])), .lookup 0],
        gossipVote (soloVote [1, 2, 3, 4]), [.act (.run 0 0)],
        gossipVote { soloVote [] with signature := [] }]) (by decide +kernel)
  exact ⟨p, hrun, hstored, hlookups, htasks, no_panic hrun⟩

/-- These moves alone make a node panic that has just started. -/
def PanicsBy (moves : List Move) (panic : Panic) : Prop :=
  ∃ p, Run (Process.step .authority (soloNetwork.config false)) (fun _ move => move ∈ moves)
    (.new genesisQc) p ∧ p.panics = [panic]

/-- An empty hash ends the loop, asked for by gossip or in a vote; asked for directly
it ends the lookup, and in a vote that counts the handler. -/
theorem short_hash_panics :
    PanicsBy [.fallback 0 7 (.getFullProposal [])] (.loop []) ∧
      PanicsBy [.event 0 (.request 7 (.submitVote (soloVote [])))] (.loop []) ∧
      PanicsBy [.event 0 (.request 7 (.getFullProposal [])), .lookup 0] (.lookup []) ∧
      PanicsBy (gossipVote (soloVote [])) (.handler []) :=
  ⟨exists_run [.fallback 0 7 (.getFullProposal [])] (by decide +kernel),
    exists_run [.event 0 (.request 7 (.submitVote (soloVote [])))] (by decide +kernel),
    exists_run [.event 0 (.request 7 (.getFullProposal [])), .lookup 0] (by decide +kernel),
    exists_run (List.flatten [gossipVote (soloVote []), [.act (.run 0 0)]]) (by decide +kernel)⟩

end EviceChain.P2p
