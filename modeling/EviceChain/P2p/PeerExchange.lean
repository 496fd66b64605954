import EviceChain.P2p.Swarm

/-!
# How the nodes of a network find each other (`p2p/swarm.rs`)

The nodes connect to a bootstrap node, which keeps the first address of each of them.
To a newcomer it sends the addresses that it has kept, and to all others those of the
newcomer (`InformAboutPeers`). A node that gets such a list lets its loop dial every
peer of it, unless it is connected with the peer or dials it already.

Requests overtake each other, and the tasks that work through the lists take turns.
Peers may send lists of their own, requests get lost, dials fail and connections come
and go. The lists go over the network as text, of which it is only used that the text
of an address names the peer of the address.

Results:
1. `introduced_once`: of any two peers that the bootstrap node knows, each is told of the
   other by just one request;
2. `mesh_complete`: once all is quiet, any two of them that have not lost one another are
   connected, or have a dial of the other pending. The loop ignores a dial that fails
   later, which stays pending.
-/

namespace EviceChain.P2p

open Foundation Sequencer

/-! ## Addresses -/

inductive Protocol
  | ip4 (address : BitVec 32)
  | ip6 (address : BitVec 128)
  | p2p (peer : PeerId)
  /-- Ports, transports and the rest, of which the code makes no use. -/
  | other (code : Nat)
deriving DecidableEq

abbrev Multiaddr := List Protocol

namespace Multiaddr

def isLoopback (devMode : Bool) (addr : Multiaddr) : Bool :=
  if devMode then false
  else addr.any fun
    | .ip4 address => address.toNat / 2 ^ 24 = 127
    | .ip6 address => address.toNat = 1
    | _ => false

/-- The peer with which an address ends. -/
def peer? (addr : Multiaddr) : Option PeerId :=
  match addr.getLast? with
  | some (.p2p peer) => some peer
  | _ => none

end Multiaddr

/-- How addresses are written and read. -/
structure AddressText where
  toString : Multiaddr → String
  fromStr : String → Option Multiaddr
  names : ∀ addr, (fromStr (toString addr)).bind Multiaddr.peer? = addr.peer?

def AddressText.peer? (text : AddressText) (address : String) : Option PeerId :=
  (text.fromStr address).bind Multiaddr.peer?

/-! ## The bootstrap node -/

/-- The addresses of a peer that the bootstrap node passes on. -/
def validAddrs (devMode : Bool) (peer : PeerId) (listenAddrs : List Multiaddr) :
    List Multiaddr :=
  (listenAddrs.filter fun addr => !addr.isLoopback devMode).map fun addr => addr ++ [.p2p peer]

/-- The lists that are sent when a peer is new; `known` are the peers so far, in the order
in which the map yields them. -/
def introductions (text : AddressText) (known : List (PeerId × Multiaddr)) (peer : PeerId)
    (valid : List Multiaddr) : List (PeerId × List String) :=
  let existingPeersList := known.map fun entry => text.toString entry.2
  (if existingPeersList.isEmpty then [] else [(peer, existingPeersList)])
    ++ known.map fun other => (other.1, valid.map text.toString)

/-! ## The network -/

/-- What one node needs to know: it may have several connections with a peer. The
commands are those that ask to dial an address. -/
structure Dialler where
  commands : List Multiaddr
  pendingDials : Finset PeerId
  connections : List PeerId

/-- What keeps a peer from another one of which it has been told. -/
inductive Mishap
  /-- A list never reached the node. -/
  | lost (node : PeerId) (addresses : List String)
  /-- A dial that failed at once. -/
  | notDialled (node : PeerId) (peer : PeerId)
  /-- A connection that was closed. -/
  | parted (node : PeerId) (peer : PeerId)
deriving DecidableEq

/-- A list on its way is kept in `lists`, as is what the task that works through it has
still to do. What the bootstrap node has sent and what has gone wrong is the past of the
network, which no code reads. -/
structure Network where
  knownPeers : List (PeerId × Multiaddr)
  lists : List (PeerId × List String)
  nodes : PeerId → Dialler
  sent : List (PeerId × List String)
  mishaps : List Mishap

inductive Exchange
  /-- The bootstrap node learns the addresses of a peer. -/
  | identify (peer : PeerId) (listenAddrs : List Multiaddr) (known : List (PeerId × Multiaddr))
  /-- Some other peer sends a list. -/
  | inform (node : PeerId) (addresses : List String)
  | lose (k : Nat)
  /-- A task goes on with the next address of its list. -/
  | read (k : Nat)
  /-- The loop of a node takes a command. -/
  | command (node : PeerId) (dialled : Bool)
  | connectionEstablished (node : PeerId) (peer : PeerId)
  | connectionClosed (node : PeerId) (peer : PeerId)
deriving DecidableEq

namespace Network

def new : Network := ⟨[], [], fun _ => ⟨[], ∅, []⟩, [], []⟩

def known (net : Network) : List PeerId := net.knownPeers.map Prod.fst

def setNode (net : Network) (node : PeerId) (state : Dialler) : Network :=
  { net with nodes := Function.update net.nodes node state }

def identify (text : AddressText) (net : Network) (peer : PeerId) (valid : List Multiaddr)
    (known : List (PeerId × Multiaddr)) : Network :=
  match valid with
  | [] => net
  | first :: _ =>
    if peer ∈ net.known then net
    else
      { net with
        knownPeers := net.knownPeers ++ [(peer, first)]
        lists := net.lists ++ introductions text known peer valid
        sent := net.sent ++ introductions text known peer valid }

/-- The task of a node comes to an address. -/
def read (text : AddressText) (net : Network) (node : PeerId) (address : String) : Network :=
  match text.fromStr address with
  | none => net
  | some addr =>
    match addr.peer? with
    | none => net
    | some peer =>
      if peer ≠ node then
        net.setNode node
          { net.nodes node with commands := (net.nodes node).commands ++ [addr] }
      else net

/-- `DialAddress` at a node; `dialled` tells how the swarm takes it. -/
def dialAddress (net : Network) (node : PeerId) (addr : Multiaddr) (dialled : Bool) : Network :=
  match addr.peer? with
  | none => net
  | some peer =>
    let state := net.nodes node
    if peer ∉ state.connections ∧ peer ∉ state.pendingDials then
      if dialled then
        net.setNode node { state with pendingDials := insert peer state.pendingDials }
      else { net with mishaps := net.mishaps ++ [.notDialled node peer] }
    else net

def step (text : AddressText) (devMode : Bool) (net : Network) : Exchange → Option Network
  | .identify peer listenAddrs known =>
    if known.Perm net.knownPeers then
      some (net.identify text peer (validAddrs devMode peer listenAddrs) known)
    else none
  | .inform node addresses => some { net with lists := net.lists ++ [(node, addresses)] }
  | .lose k =>
    match net.lists[k]? with
    | none => none
    | some (node, addresses) =>
      some { net with
        lists := net.lists.eraseIdx k
        mishaps := net.mishaps ++ [.lost node addresses] }
  | .read k =>
    match net.lists[k]? with
    | some (node, address :: rest) =>
      some ({ net with lists := net.lists.set k (node, rest) }.read text node address)
    | _ => none
  | .command node dialled =>
    match (net.nodes node).commands with
    | [] => none
    | addr :: rest =>
      some ((net.setNode node { net.nodes node with commands := rest }).dialAddress node addr
        dialled)
  | .connectionEstablished node peer =>
    let state := net.nodes node
    some (net.setNode node
      { state with
        pendingDials := state.pendingDials.erase peer
        connections := state.connections ++ [peer] })
  | .connectionClosed node peer =>
    let state := net.nodes node
    if peer ∈ state.connections then
      some { net.setNode node
        { state with
          pendingDials := state.pendingDials.erase peer
          connections := state.connections.erase peer } with
        mishaps := net.mishaps ++ [.parted node peer] }
    else none

end Network

/-- The networks that come about, in any order of events. -/
abbrev Exchanges (text : AddressText) (devMode : Bool) (net : Network) : Prop :=
  Run (Network.step text devMode) (fun _ _ => True) .new net

/-- A list for `node` that has an address of `peer`. -/
def Tells (text : AddressText) (node peer : PeerId) (list : PeerId × List String) : Prop :=
  list.1 = node ∧ ∃ address ∈ list.2, text.peer? address = some peer

instance decidableTells (text : AddressText) (node peer : PeerId) :
    DecidablePred (Tells text node peer) :=
  fun _ => by unfold Tells; infer_instance

/-- The mishap separates `node` from `peer`. -/
def Mishap.Separates (text : AddressText) (node peer : PeerId) : Mishap → Prop
  | .lost receiver addresses => Tells text node peer (receiver, addresses)
  | .notDialled dialler dialled => dialler = node ∧ dialled = peer
  | .parted here there => here = node ∧ there = peer

instance decidableSeparates (text : AddressText) (node peer : PeerId) :
    DecidablePred (Mishap.Separates text node peer)
  | .lost .. => by unfold Mishap.Separates; infer_instance
  | .notDialled .. | .parted .. => by unfold Mishap.Separates; infer_instance

/-- What has become of what `node` was told of `peer`. -/
inductive Accounted (text : AddressText) (net : Network) (node peer : PeerId) : Prop
  | told {list : PeerId × List String} :
      list ∈ net.lists → Tells text node peer list → Accounted text net node peer
  | queued {addr : Multiaddr} :
      addr ∈ (net.nodes node).commands → addr.peer? = some peer → Accounted text net node peer
  | connected : peer ∈ (net.nodes node).connections → Accounted text net node peer
  | dialling : peer ∈ (net.nodes node).pendingDials → Accounted text net node peer
  | separated {mishap : Mishap} :
      mishap ∈ net.mishaps → mishap.Separates text node peer → Accounted text net node peer

/-- What the bootstrap node has done so far. -/
structure Bookkept (text : AddressText) (net : Network) : Prop where
  nodup : net.known.Nodup
  named : ∀ entry ∈ net.knownPeers, entry.2.peer? = some entry.1
  once : ∀ node peer, net.sent.countP (Tells text node peer)
    = if node ≠ peer ∧ node ∈ net.known ∧ peer ∈ net.known then 1 else 0

namespace PeerExchangeLemmas

variable {text : AddressText} {devMode : Bool} {net net' : Network} {node peer : PeerId}

/-! ### The bootstrap node -/

theorem peer?_append (addr : Multiaddr) (peer : PeerId) :
    Multiaddr.peer? (addr ++ [.p2p peer]) = some peer := by
  simp [Multiaddr.peer?]

theorem peer?_of_mem_validAddrs {listenAddrs : List Multiaddr} {addr : Multiaddr}
    (h : addr ∈ validAddrs devMode peer listenAddrs) : addr.peer? = some peer := by
  obtain ⟨listen, -, rfl⟩ := List.mem_map.mp h
  exact peer?_append listen peer

section Introductions

variable {known : List (PeerId × Multiaddr)} {newcomer : PeerId} {valid : List Multiaddr}

theorem tells_existing (hnamed : ∀ entry ∈ known, entry.2.peer? = some entry.1) :
    Tells text node peer (newcomer, known.map fun entry => text.toString entry.2)
      ↔ newcomer = node ∧ peer ∈ known.map Prod.fst := by
  refine and_congr_right fun _ => ⟨?_, ?_⟩
  · rintro ⟨address, hmem, hpeer⟩
    obtain ⟨entry, hentry, rfl⟩ := List.mem_map.mp hmem
    have hname : text.peer? (text.toString entry.2) = some entry.1 :=
      (text.names entry.2).trans (hnamed entry hentry)
    exact List.mem_map.mpr ⟨entry, hentry, Option.some.inj (hname.symm.trans hpeer)⟩
  · intro hpeer
    obtain ⟨entry, hentry, rfl⟩ := List.mem_map.mp hpeer
    exact ⟨_, List.mem_map.mpr ⟨entry, hentry, rfl⟩,
      (text.names entry.2).trans (hnamed entry hentry)⟩

theorem tells_newcomer {other : PeerId} (hvalid : ∀ addr ∈ valid, addr.peer? = some newcomer)
    (hsome : valid ≠ []) :
    Tells text node peer (other, valid.map text.toString) ↔ other = node ∧ newcomer = peer := by
  refine and_congr_right fun _ => ⟨?_, ?_⟩
  · rintro ⟨address, hmem, hpeer⟩
    obtain ⟨addr, haddr, rfl⟩ := List.mem_map.mp hmem
    have hname : text.peer? (text.toString addr) = some newcomer :=
      (text.names addr).trans (hvalid addr haddr)
    exact Option.some.inj (hname.symm.trans hpeer)
  · rintro rfl
    obtain ⟨addr, haddr⟩ := List.exists_mem_of_ne_nil valid hsome
    exact ⟨_, List.mem_map.mpr ⟨addr, haddr, rfl⟩, (text.names addr).trans (hvalid addr haddr)⟩

/-- The newcomer is told of the others in one list, and each of them of the newcomer. -/
theorem countP_introductions (hnamed : ∀ entry ∈ known, entry.2.peer? = some entry.1)
    (hnodup : (known.map Prod.fst).Nodup) (hnew : newcomer ∉ known.map Prod.fst)
    (hvalid : ∀ addr ∈ valid, addr.peer? = some newcomer) (hsome : valid ≠ []) :
    (introductions text known newcomer valid).countP (Tells text node peer)
      = if newcomer = node ∧ peer ∈ known.map Prod.fst
          ∨ newcomer = peer ∧ node ∈ known.map Prod.fst then 1 else 0 := by
  have hfirst : (if (known.map fun entry => text.toString entry.2).isEmpty then []
        else [(newcomer, known.map fun entry => text.toString entry.2)]).countP
          (Tells text node peer)
      = if newcomer = node ∧ peer ∈ known.map Prod.fst then 1 else 0 := by
    cases known with
    | nil => simp
    | cons entry known =>
      rw [if_neg (by simp), List.countP_singleton]
      exact if_congr (by rw [decide_eq_true_iff, tells_existing hnamed]) rfl rfl
  have hothers : (known.map fun other => (other.1, valid.map text.toString)).countP
          (Tells text node peer)
      = if newcomer = peer ∧ node ∈ known.map Prod.fst then 1 else 0 := by
    rw [List.countP_map]
    have hpred : ∀ other ∈ known,
        ((fun list => decide (Tells text node peer list)) ∘
          fun other : PeerId × Multiaddr => (other.1, valid.map text.toString)) other = true
        ↔ (newcomer = peer ∧ other.1 = node : Bool) = true := by
      intro other _
      simp [tells_newcomer hvalid hsome, and_comm]
    rw [List.countP_congr hpred]
    by_cases hpeer : newcomer = peer
    · have hcount := hnodup.count (a := node)
      rw [List.count_eq_countP, List.countP_map] at hcount
      rw [if_congr (and_iff_right hpeer) rfl rfl, ← hcount]
      exact List.countP_congr fun other _ => by simp [hpeer]
    · simp [hpeer]
  unfold introductions
  rw [List.countP_append, hfirst, hothers]
  by_cases hnode : newcomer = node
  · subst hnode
    have hnot : ¬ (newcomer = peer ∧ newcomer ∈ known.map Prod.fst) := fun h => hnew h.2
    rw [if_neg hnot, Nat.add_zero]
    exact if_congr (or_iff_left hnot).symm rfl rfl
  · have hnot : ¬ (newcomer = node ∧ peer ∈ known.map Prod.fst) := fun h => hnode h.1
    rw [if_neg hnot, Nat.zero_add]
    exact if_congr (or_iff_right hnot).symm rfl rfl

end Introductions

/-- Which ordered pairs there are among the peers, when there is one more. -/
theorem count_snoc {keys : List PeerId} {newcomer : PeerId} (hnew : newcomer ∉ keys) :
    (if node ≠ peer ∧ node ∈ keys ∧ peer ∈ keys then 1 else 0)
        + (if newcomer = node ∧ peer ∈ keys ∨ newcomer = peer ∧ node ∈ keys then 1 else 0)
      = if node ≠ peer ∧ node ∈ keys ++ [newcomer] ∧ peer ∈ keys ++ [newcomer] then 1 else 0 := by
  simp only [List.mem_append, List.mem_singleton]
  by_cases hnode : node = newcomer <;> by_cases hpeer : peer = newcomer <;> grind

theorem read_books (net : Network) (node : PeerId) (address : String) :
    (net.read text node address).knownPeers = net.knownPeers ∧
      (net.read text node address).sent = net.sent := by
  unfold Network.read
  split
  · exact ⟨rfl, rfl⟩
  · split
    · exact ⟨rfl, rfl⟩
    · split <;> exact ⟨rfl, rfl⟩

theorem dialAddress_books (net : Network) (node : PeerId) (addr : Multiaddr) (dialled : Bool) :
    (net.dialAddress node addr dialled).knownPeers = net.knownPeers ∧
      (net.dialAddress node addr dialled).sent = net.sent := by
  unfold Network.dialAddress
  split
  · exact ⟨rfl, rfl⟩
  · dsimp only
    split
    · split <;> exact ⟨rfl, rfl⟩
    · exact ⟨rfl, rfl⟩

theorem bookkept_same (h : Bookkept text net)
    (hbooks : net'.knownPeers = net.knownPeers ∧ net'.sent = net.sent) : Bookkept text net' := by
  obtain ⟨hknown, hsent⟩ := hbooks
  have hkeys : net'.known = net.known := congrArg (List.map Prod.fst) hknown
  exact ⟨hkeys ▸ h.nodup, hknown ▸ h.named, by rw [hsent, hkeys]; exact h.once⟩

theorem bookkept_identify {valid : List Multiaddr} {known : List (PeerId × Multiaddr)}
    {newcomer : PeerId} (h : Bookkept text net) (hperm : known.Perm net.knownPeers)
    (hvalid : ∀ addr ∈ valid, addr.peer? = some newcomer) :
    Bookkept text (net.identify text newcomer valid known) := by
  unfold Network.identify
  split
  · exact h
  · next first rest =>
    split
    · exact h
    · next hnew =>
      have hkeys : (known.map Prod.fst).Perm net.known := hperm.map Prod.fst
      have hmem : ∀ id, id ∈ known.map Prod.fst ↔ id ∈ net.known := fun _ => hkeys.mem_iff
      have hsnoc : (net.knownPeers ++ [(newcomer, first)]).map Prod.fst
          = net.known ++ [newcomer] := List.map_append
      refine ⟨?_, ?_, fun node peer => ?_⟩
      · show ((net.knownPeers ++ [(newcomer, first)]).map Prod.fst).Nodup
        rw [hsnoc]
        exact List.nodup_append_comm.mp (List.nodup_cons.mpr ⟨hnew, h.nodup⟩)
      · intro entry hentry
        rcases List.mem_append.mp hentry with hentry | hentry
        · exact h.named entry hentry
        · rw [List.mem_singleton.mp hentry]
          exact hvalid first (List.mem_cons_self ..)
      · show (net.sent ++ introductions text known newcomer (first :: rest)).countP _ = _
        rw [List.countP_append, h.once, countP_introductions
          (fun entry hentry => h.named entry (hperm.mem_iff.mp hentry))
          (hkeys.nodup_iff.mpr h.nodup) (mt (hmem _).mp hnew) hvalid (List.cons_ne_nil first rest)]
        simp only [hmem, count_snoc hnew, ← hsnoc]
        rfl

theorem bookkept_step {action : Exchange} (h : net.step text devMode action = some net')
    (hbooks : Bookkept text net) : Bookkept text net' := by
  cases action with
  | identify newcomer listenAddrs known =>
    dsimp only [Network.step] at h
    split at h
    · next hperm =>
      cases h
      exact bookkept_identify hbooks hperm fun _ => peer?_of_mem_validAddrs
    · cases h
  | inform node addresses =>
    cases h
    exact bookkept_same hbooks ⟨rfl, rfl⟩
  | lose k =>
    dsimp only [Network.step] at h
    split at h <;> cases h
    exact bookkept_same hbooks ⟨rfl, rfl⟩
  | read k =>
    dsimp only [Network.step] at h
    split at h <;> cases h
    exact bookkept_same hbooks (read_books ..)
  | command node dialled =>
    dsimp only [Network.step] at h
    split at h <;> cases h
    exact bookkept_same hbooks (dialAddress_books ..)
  | connectionEstablished node peer =>
    cases h
    exact bookkept_same hbooks ⟨rfl, rfl⟩
  | connectionClosed node peer =>
    dsimp only [Network.step] at h
    split at h <;> cases h
    exact bookkept_same hbooks ⟨rfl, rfl⟩

theorem bookkept (h : Exchanges text devMode net) : Bookkept text net :=
  h.invariant ⟨List.nodup_nil, by simp [Network.new], by simp [Network.new, Network.known]⟩
    fun _ _ hstep hbooks => bookkept_step hstep hbooks

/-! ### The other nodes -/

theorem accounted_mono (h : Accounted text net node peer)
    (hlists : ∀ list ∈ net.lists, Tells text node peer list → list ∈ net'.lists)
    (hnode : net'.nodes node = net.nodes node) (hmishaps : net.mishaps ⊆ net'.mishaps) :
    Accounted text net' node peer := by
  cases h with
  | told hmem htells => exact .told (hlists _ hmem htells) htells
  | queued hmem hpeer => exact .queued (hnode ▸ hmem) hpeer
  | connected hmem => exact .connected (hnode ▸ hmem)
  | dialling hmem => exact .dialling (hnode ▸ hmem)
  | separated hmem hsep => exact .separated (hmishaps hmem) hsep

theorem nodes_setNode (state : Dialler) : (net.setNode node state).nodes node = state :=
  Function.update_self ..

/-- A node may change its state as long as it keeps what it knows of the peer. -/
theorem accounted_setNode {changed : PeerId} {state : Dialler}
    (h : Accounted text net node peer)
    (hcommands : changed = node → ∀ addr ∈ (net.nodes changed).commands,
      addr.peer? = some peer → addr ∈ state.commands)
    (hconnections : changed = node →
      peer ∈ (net.nodes changed).connections → peer ∈ state.connections)
    (hpending : changed = node → peer ∈ (net.nodes changed).pendingDials →
      peer ∈ state.pendingDials ∨ peer ∈ state.connections) :
    Accounted text (net.setNode changed state) node peer := by
  by_cases hnode : changed = node
  · subst hnode
    cases h with
    | told hmem htells => exact .told hmem htells
    | queued hmem hpeer =>
      exact .queued (by rw [nodes_setNode]; exact hcommands rfl _ hmem hpeer) hpeer
    | connected hmem => exact .connected (by rw [nodes_setNode]; exact hconnections rfl hmem)
    | dialling hmem =>
      rcases hpending rfl hmem with hmem | hmem
      · exact .dialling (by rw [nodes_setNode]; exact hmem)
      · exact .connected (by rw [nodes_setNode]; exact hmem)
    | separated hmem hsep => exact .separated hmem hsep
  · exact accounted_mono h (fun _ hmem _ => hmem) (Function.update_of_ne (Ne.symm hnode) ..)
      (List.Subset.refl _)

theorem accounted_read {address : String} {receiver : PeerId}
    (h : Accounted text net node peer) :
    Accounted text (net.read text receiver address) node peer := by
  unfold Network.read
  split
  · exact h
  · split
    · exact h
    · split
      · exact accounted_setNode h (fun _ _ hmem _ => List.mem_append_left _ hmem)
          (fun _ => id) (fun _ => .inl)
      · exact h

theorem accounted_of_read {address : String} (hne : node ≠ peer)
    (haddress : text.peer? address = some peer) :
    Accounted text (net.read text node address) node peer := by
  obtain ⟨addr, hparse, hpeer⟩ := Option.bind_eq_some_iff.mp haddress
  have hqueued : addr ∈ ((net.read text node address).nodes node).commands := ?_
  · exact .queued hqueued hpeer
  unfold Network.read
  simp only [hparse, hpeer, ne_eq, hne.symm, not_false_eq_true, if_true, nodes_setNode]
  exact List.mem_append_right _ (List.mem_singleton_self addr)

theorem accounted_dialAddress {addr : Multiaddr} {dialler : PeerId} {dialled : Bool}
    (h : Accounted text net node peer) :
    Accounted text (net.dialAddress dialler addr dialled) node peer := by
  unfold Network.dialAddress
  split
  · exact h
  · dsimp only
    split
    · split
      · exact accounted_setNode h (fun _ _ hmem _ => hmem) (fun _ => id)
          (fun _ hmem => .inl (Finset.mem_insert_of_mem hmem))
      · exact accounted_mono h (fun _ hmem _ => hmem) rfl (List.subset_append_left _ _)
    · exact h

/-- The peer is dialled, unless that is not needed. -/
theorem accounted_of_dialAddress {addr : Multiaddr} {dialled : Bool}
    (hpeer : addr.peer? = some peer) :
    Accounted text (net.dialAddress node addr dialled) node peer := by
  unfold Network.dialAddress
  rw [hpeer]
  dsimp only
  split
  · split
    · refine .dialling ?_
      rw [nodes_setNode]
      exact Finset.mem_insert_self ..
    · exact .separated (List.mem_append_right _ (List.mem_singleton_self _)) ⟨rfl, rfl⟩
  · next hneedless =>
    rcases not_and_or.mp hneedless with hconnected | hpending
    · exact .connected (not_not.mp hconnected)
    · exact .dialling (not_not.mp hpending)

theorem accounted_step {action : Exchange} (h : net.step text devMode action = some net')
    (hne : node ≠ peer) (hacc : Accounted text net node peer) :
    Accounted text net' node peer := by
  cases action with
  | identify newcomer listenAddrs known =>
    dsimp only [Network.step] at h
    split at h <;> cases h
    unfold Network.identify
    split
    · exact hacc
    · split
      · exact hacc
      · exact accounted_mono hacc (fun _ hmem _ => List.mem_append_left _ hmem) rfl
          (List.Subset.refl _)
  | inform receiver addresses =>
    cases h
    exact accounted_mono hacc (fun _ hmem _ => List.mem_append_left _ hmem) rfl
      (List.Subset.refl _)
  | lose k =>
    dsimp only [Network.step] at h
    split at h <;> cases h
    next receiver addresses hk =>
    cases hacc with
    | @told list hmem htells =>
      obtain ⟨hbound, hget⟩ := List.getElem?_eq_some_iff.mp hk
      have hsplit := (List.getElem_cons_eraseIdx_perm hbound).mem_iff.mpr hmem
      rw [hget] at hsplit
      rcases List.mem_cons.mp hsplit with rfl | hleft
      · exact .separated (List.mem_append_right _ (List.mem_singleton_self _)) htells
      · exact .told hleft htells
    | queued hmem hpeer => exact .queued hmem hpeer
    | connected hmem => exact .connected hmem
    | dialling hmem => exact .dialling hmem
    | separated hmem hsep => exact .separated (List.mem_append_left _ hmem) hsep
  | read k =>
    dsimp only [Network.step] at h
    split at h <;> cases h
    next receiver address rest hk =>
    obtain ⟨hbound, hget⟩ := List.getElem?_eq_some_iff.mp hk
    by_cases hhere : receiver = node ∧ text.peer? address = some peer
    · obtain ⟨rfl, hpeer⟩ := hhere
      exact accounted_of_read hne hpeer
    · refine accounted_read ?_
      cases hacc with
      | @told list hmem htells =>
        obtain ⟨j, hj, rfl⟩ := List.getElem_of_mem hmem
        by_cases hjk : k = j
        · -- the address that the task has come to is another one
          subst hjk
          rw [hget] at htells
          obtain ⟨hreceiver, found, hfound, hpeer⟩ := htells
          rcases List.mem_cons.mp hfound with rfl | hfound
          · exact absurd ⟨hreceiver, hpeer⟩ hhere
          · exact .told (List.mem_set hbound _) ⟨hreceiver, found, hfound, hpeer⟩
        · have hkept : ∀ list, (net.lists.set k list)[j]? = some net.lists[j] := fun list => by
            rw [List.getElem?_set_ne hjk, List.getElem?_eq_getElem hj]
          exact .told (List.mem_of_getElem? (hkept _)) htells
      | queued hmem hpeer => exact .queued hmem hpeer
      | connected hmem => exact .connected hmem
      | dialling hmem => exact .dialling hmem
      | separated hmem hsep => exact .separated hmem hsep
  | command dialler dialled =>
    dsimp only [Network.step] at h
    split at h <;> cases h
    next addr rest hcommands =>
    by_cases hhere : dialler = node ∧ addr.peer? = some peer
    · obtain ⟨rfl, hpeer⟩ := hhere
      exact accounted_of_dialAddress hpeer
    · refine accounted_dialAddress (accounted_setNode hacc ?_ (fun _ => id) (fun _ => .inl))
      intro hnode queued hmem hpeer
      rw [hcommands] at hmem
      rcases List.mem_cons.mp hmem with rfl | hmem
      · exact absurd ⟨hnode, hpeer⟩ hhere
      · exact hmem
  | connectionEstablished here there =>
    cases h
    refine accounted_setNode hacc (fun _ _ hmem _ => hmem)
      (fun _ hmem => List.mem_append_left _ hmem) fun _ hmem => ?_
    by_cases hthere : peer = there
    · exact .inr (List.mem_append_right _ (List.mem_singleton.mpr hthere))
    · exact .inl (Finset.mem_erase.mpr ⟨hthere, hmem⟩)
  | connectionClosed here there =>
    dsimp only [Network.step] at h
    split at h <;> cases h
    by_cases hhere : here = node ∧ there = peer
    · exact .separated (List.mem_append_right _ (List.mem_singleton_self _)) hhere
    · have hkept : Accounted text (net.setNode here
          { net.nodes here with
            pendingDials := (net.nodes here).pendingDials.erase there
            connections := (net.nodes here).connections.erase there }) node peer :=
        accounted_setNode hacc (fun _ _ hmem _ => hmem)
          (fun hnode hmem =>
            (List.mem_erase_of_ne fun hpeer => hhere ⟨hnode, hpeer.symm⟩).mpr hmem)
          (fun hnode hmem =>
            .inl (Finset.mem_erase.mpr ⟨fun hpeer => hhere ⟨hnode, hpeer.symm⟩, hmem⟩))
      exact accounted_mono hkept (fun _ hmem _ => hmem) rfl (List.subset_append_left _ _)

/-- What the bootstrap node sends is on its way at first. -/
theorem mem_sent_step {action : Exchange} (h : net.step text devMode action = some net')
    {list : PeerId × List String} (hmem : list ∈ net'.sent) :
    list ∈ net.sent ∨ list ∈ net'.lists := by
  cases action with
  | identify newcomer listenAddrs known =>
    dsimp only [Network.step] at h
    split at h <;> cases h
    unfold Network.identify at hmem ⊢
    split at hmem
    · exact .inl hmem
    · split at hmem
      · exact .inl hmem
      · next hnew =>
        rw [if_neg hnew]
        exact (List.mem_append.mp hmem).imp_right (List.mem_append_right _)
  | read k =>
    dsimp only [Network.step] at h
    split at h <;> cases h
    rw [(read_books ..).2] at hmem
    exact .inl hmem
  | command dialler dialled =>
    dsimp only [Network.step] at h
    split at h <;> cases h
    rw [(dialAddress_books ..).2] at hmem
    exact .inl hmem
  | inform | connectionEstablished =>
    cases h
    exact .inl hmem
  | lose | connectionClosed =>
    dsimp only [Network.step] at h
    split at h <;> cases h
    exact .inl hmem

theorem accounted_of_sent (h : Exchanges text devMode net) (hne : node ≠ peer) :
    ∀ list ∈ net.sent, Tells text node peer list → Accounted text net node peer := by
  refine h.invariant (I := fun net => ∀ list ∈ net.sent, Tells text node peer list →
    Accounted text net node peer) (by simp [Network.new]) ?_
  intro net net' action _ _ hstep hacc list hmem htells
  rcases mem_sent_step hstep hmem with hmem | hmem
  · exact accounted_step hstep hne (hacc list hmem htells)
  · exact .told hmem htells

end PeerExchangeLemmas

open PeerExchangeLemmas

/-- In every run, a peer that the bootstrap node knows has been told of any other one by
just one of the lists that were sent, and nobody else has been told of anybody. -/
theorem introduced_once {text : AddressText} {devMode : Bool} {net : Network}
    (h : Exchanges text devMode net) (node peer : PeerId) :
    net.sent.countP (Tells text node peer)
      = if node ≠ peer ∧ node ∈ net.known ∧ peer ∈ net.known then 1 else 0 :=
  (bookkept h).once node peer

/-- A text that only tells the peer, by its length. -/
def tallyText : AddressText where
  toString addr := String.ofList (List.replicate (addr.peer?.elim 0 (· + 1)) 'x')
  fromStr address :=
    match address.length with
    | 0 => none
    | peer + 1 => some [.p2p peer]
  names addr := by
    rw [String.length_ofList, List.length_replicate]
    cases h : addr.peer? <;> rfl

/-- Two peers come, the second of them with an address of its own machine as well. -/
theorem introduced_once_two :
    ∃ net, Exchanges tallyText false net ∧ net.known = [1, 2] ∧
      net.sent.countP (Tells tallyText 1 2) = 1 ∧ net.sent.countP (Tells tallyText 2 1) = 1 := by
  obtain ⟨net, hrun, hknown⟩ : ∃ net, Exchanges tallyText false net ∧ net.known = [1, 2] :=
    exists_run [
      .identify 1 [[.ip4 0x0A000001]] [],
      .identify 2 [[.ip4 0x7F000001], [.ip4 0x0A000002]]
        [(1, [.ip4 0x0A000001, .p2p 1])]] (by decide +kernel)
  refine ⟨net, hrun, hknown, ?_, ?_⟩ <;> rw [introduced_once hrun, hknown] <;> rfl

/-- A node that has worked through its lists and its commands is connected with every peer
known besides it, or has it in `pending_dials`, unless one of the things has happened that
keep the two apart. -/
theorem mesh_complete {text : AddressText} {devMode : Bool} {net : Network} {node peer : PeerId}
    (h : Exchanges text devMode net) (hread : ∀ list ∈ net.lists, list.1 = node → list.2 = [])
    (hidle : (net.nodes node).commands = [])
    (hnode : node ∈ net.known) (hpeer : peer ∈ net.known) (hne : node ≠ peer)
    (hkept : ∀ mishap ∈ net.mishaps, ¬ mishap.Separates text node peer) :
    peer ∈ (net.nodes node).connections ∨ peer ∈ (net.nodes node).pendingDials := by
  have hsent : 0 < net.sent.countP (Tells text node peer) := by
    rw [(bookkept h).once, if_pos ⟨hne, hnode, hpeer⟩]
    exact Nat.one_pos
  obtain ⟨list, hmem, htells⟩ := List.countP_pos_iff.mp hsent
  cases accounted_of_sent h hne list hmem (of_decide_eq_true htells) with
  | told hmem htells =>
    obtain ⟨hreceiver, address, haddress, -⟩ := htells
    rw [hread _ hmem hreceiver] at haddress
    cases haddress
  | queued hmem _ =>
    rw [hidle] at hmem
    cases hmem
  | connected hmem => exact .inl hmem
  | dialling hmem => exact .inr hmem
  | separated hmem hsep => exact absurd hsep (hkept _ hmem)

/-- The first of two peers dials the second, which knows nothing of it yet. -/
theorem mesh_complete_two :
    ∃ net, Exchanges tallyText false net ∧ net.known = [1, 2] ∧
      (2 ∈ (net.nodes 1).connections ∨ 2 ∈ (net.nodes 1).pendingDials) := by
  obtain ⟨net, hrun, hknown, hread, hidle, hkept⟩ : ∃ net, Exchanges tallyText false net ∧
      net.known = [1, 2] ∧ (∀ list ∈ net.lists, list.1 = 1 → list.2 = []) ∧
      (net.nodes 1).commands = [] ∧
      ∀ mishap ∈ net.mishaps, ¬ mishap.Separates tallyText 1 2 :=
    exists_run [
      .identify 1 [[.ip4 0x0A000001]] [],
      .identify 2 [[.ip4 0x0A000002]] [(1, [.ip4 0x0A000001, .p2p 1])],
      .read 1, .command 1 true] (by decide +kernel)
  refine ⟨net, hrun, hknown, mesh_complete hrun hread hidle ?_ ?_ (by decide) hkept⟩ <;>
    rw [hknown] <;> decide

end EviceChain.P2p
