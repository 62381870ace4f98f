import TrustFlow.Custody.Deletion

/-!
# Peers and the network

`Peer` and `Network` of `core/network_sim.py`: peers with their storages, and
messages between them.  A message to an online peer is a task that delivers it
later, in no particular order; a message to an offline peer waits in its queue;
a message to nobody is dropped.

* `Network` — the registered peers, the messages in flight, and the engine's
  token caches and audit records.
* `receiveMessage` — what a peer does with a message.  A received node is
  stored, with its content, and entered as a child of its parent; a received
  token goes to `processToken`.
* `createCocRoot`, `forwardCocMessage`, `initiateDeletion` — what a peer does
  of its own accord.

Nodes are objects in the source: a storage hands out the object it holds, and a
change to it shows in the storage.  Nodes that arrive are copies.  Here every
change to a stored node is written back.

A step is one call of a peer, or the delivery of any one message in flight
(`deliver`).  The clock, the nonces and the order of sets come with each step
(`Ambient`); signatures and the reader of dates are parameters.  The simulated
latency, print output and call-backs are left out.
-/

namespace TrustFlow.Custody

open Library Option

/-! ## Storing a received node -/

/-- Enter a stored node as a child of its parent, if the parent is stored.  A
node that names itself as its parent is one object. -/
def InMemoryStorage.linkParent (s : InMemoryStorage) (node : CoCNode) : InMemoryStorage :=
  match node.parentHash with
  | none => s
  | some [] => s
  | some parentHash =>
    match s.getNode parentHash with
    | none => s
    | some parent =>
      let child := node.below parent
      let parent := if parentHash = node.nodeHash then child else parent
      (s.addNode child).addNode (parent.withChild node.nodeHash)

/-- The effect of a `coc_data` message. -/
def InMemoryStorage.receiveNode (s : InMemoryStorage) (node : CoCNode) (content : Str) :
    InMemoryStorage :=
  ((s.addNode node).addContent node.contentHash content).linkParent node

/-- The two nodes differ in their children and depth at most. -/
structure CoCNode.SameRecord (n n' : CoCNode) : Prop where
  nodeHash : n.nodeHash = n'.nodeHash
  contentHash : n.contentHash = n'.contentHash
  parentHash : n.parentHash = n'.parentHash
  ownerId : n.ownerId = n'.ownerId
  recipientIds : n.recipientIds = n'.recipientIds

namespace CoCNode.SameRecord

theorem refl (n : CoCNode) : SameRecord n n := ⟨rfl, rfl, rfl, rfl, rfl⟩

theorem trans {n n' n'' : CoCNode} (h : SameRecord n n') (h' : SameRecord n' n'') :
    SameRecord n n'' :=
  ⟨h.nodeHash.trans h'.nodeHash, h.contentHash.trans h'.contentHash,
    h.parentHash.trans h'.parentHash, h.ownerId.trans h'.ownerId,
    h.recipientIds.trans h'.recipientIds⟩

theorem symm {n n' : CoCNode} (h : SameRecord n n') : SameRecord n' n :=
  ⟨h.nodeHash.symm, h.contentHash.symm, h.parentHash.symm, h.ownerId.symm, h.recipientIds.symm⟩

theorem withChild (n : CoCNode) (h : Str) : SameRecord (n.withChild h) n :=
  ⟨rfl, rfl, rfl, rfl, rfl⟩

theorem below (n parent : CoCNode) : SameRecord (n.below parent) n := ⟨rfl, rfl, rfl, rfl, rfl⟩

end CoCNode.SameRecord

namespace InMemoryStorage

/-- The two storages hold the same records. -/
def SameNodes (s s' : InMemoryStorage) : Prop :=
  ∀ h, Option.Rel CoCNode.SameRecord (s'.getNode h) (s.getNode h)

namespace SameNodes

variable {s s' s'' : InMemoryStorage}

theorem refl (s : InMemoryStorage) : SameNodes s s := by
  intro h
  cases s.getNode h with
  | none => exact .none
  | some n => exact .some (.refl n)

theorem trans (h : SameNodes s s') (h' : SameNodes s' s'') : SameNodes s s'' := by
  intro x
  have hx := h x
  have hx' := h' x
  generalize s.getNode x = a at hx ⊢
  generalize s'.getNode x = b at hx hx'
  generalize s''.getNode x = c at hx' ⊢
  cases hx with
  | none => exact hx'
  | some hab =>
    cases hx' with
    | some hbc => exact .some (hbc.trans hab)

/-- A new version of a stored record. -/
theorem addNode {n n' : CoCNode} (hn : s.getNode n'.nodeHash = some n) (hsame : n'.SameRecord n) :
    SameNodes s (s.addNode n') := by
  intro h
  rw [getNode_addNode]
  by_cases hh : n'.nodeHash = h
  · rw [if_pos hh, ← hh, hn]
    exact .some hsame
  · rw [if_neg hh]
    exact refl s h

theorem exists_of_some (h : SameNodes s s') {x : Str} {n' : CoCNode} (hn : s'.getNode x = some n') :
    ∃ n, s.getNode x = some n ∧ n'.SameRecord n := by
  have hx := h x
  rw [hn] at hx
  generalize hs : s.getNode x = a at hx
  cases hx with
  | some hsame => exact ⟨_, rfl, hsame⟩

theorem isSome_eq (h : SameNodes s s') (x : Str) :
    (s'.getNode x).isSome = (s.getNode x).isSome := by
  have hx := h x
  generalize s.getNode x = a at hx ⊢
  generalize s'.getNode x = b at hx ⊢
  cases hx <;> rfl

end SameNodes

variable {s : InMemoryStorage} {node : CoCNode}

/-- Entering a child changes no record. -/
theorem sameNodes_linkParent (hnode : s.getNode node.nodeHash = some node) :
    SameNodes s (s.linkParent node) := by
  unfold linkParent
  split
  · exact .refl s
  · exact .refl s
  rename_i parentHash _ _
  split
  · exact .refl s
  rename_i parent hparent
  have hchild : SameNodes s (s.addNode (node.below parent)) := .addNode hnode (.below node parent)
  refine hchild.trans (.addNode ?_ (.withChild _ _))
  by_cases hself : parentHash = node.nodeHash
  · rw [if_pos hself]
    exact getNode_addNode_self s (node.below parent)
  · rw [if_neg hself, getNode_addNode]
    show (if node.nodeHash = parent.nodeHash then _ else s.getNode parent.nodeHash) = _
    rw [nodeHash_of_getNode hparent, if_neg (Ne.symm hself), hparent]

@[simp] theorem getContent_linkParent (c : Str) :
    (s.linkParent node).getContent c = s.getContent c := by
  unfold linkParent
  split
  · rfl
  · rfl
  · split <;> rfl

/-- A storage that received a node has that record, and no other new one. -/
theorem getNode_receiveNode {content h : Str} {n : CoCNode}
    (hn : (s.receiveNode node content).getNode h = some n) :
    h = node.nodeHash ∧ n.SameRecord node ∨
      h ≠ node.nodeHash ∧ ∃ n', s.getNode h = some n' ∧ n.SameRecord n' := by
  have hstored : ((s.addNode node).addContent node.contentHash content).getNode node.nodeHash
      = some node := getNode_addNode_self s node
  obtain ⟨n', hn', hsame⟩ := (sameNodes_linkParent hstored).exists_of_some hn
  rw [getNode_addContent, getNode_addNode] at hn'
  by_cases hh : node.nodeHash = h
  · rw [if_pos hh, some_inj] at hn'
    exact .inl ⟨hh.symm, hn' ▸ hsame⟩
  · rw [if_neg hh] at hn'
    exact .inr ⟨.symm hh, n', hn', hsame⟩

theorem isSome_receiveNode (content h : Str) :
    ((s.receiveNode node content).getNode h).isSome
      = (decide (node.nodeHash = h) || (s.getNode h).isSome) := by
  have hstored : ((s.addNode node).addContent node.contentHash content).getNode node.nodeHash
      = some node := getNode_addNode_self s node
  rw [receiveNode, (sameNodes_linkParent hstored).isSome_eq, getNode_addContent, getNode_addNode]
  by_cases hh : node.nodeHash = h
  · simp [hh]
  · simp [hh]

theorem getContent_receiveNode (content c : Str) :
    (s.receiveNode node content).getContent c
      = if node.contentHash = c then some content else s.getContent c := by
  rw [receiveNode, getContent_linkParent, getContent_addContent, getContent_addNode]

theorem Referenced.of_sameNodes {s s' : InMemoryStorage} (hs : s.Referenced)
    (hsame : SameNodes s s') (hcontent : ∀ c, s'.getContent c = s.getContent c) :
    s'.Referenced := by
  intro c hc
  rw [hcontent] at hc
  obtain ⟨h, n, hn, hcontent⟩ := hs c hc
  have hsome := hsame.isSome_eq h
  rw [hn, isSome_some] at hsome
  obtain ⟨n', hn'⟩ := isSome_iff_exists.mp hsome
  obtain ⟨m, hm, hrecord⟩ := hsame.exists_of_some hn'
  rw [hn, some_inj] at hm
  exact ⟨h, n', hn', hrecord.contentHash.trans (hm ▸ hcontent)⟩

/-- Receiving a node keeps contents referenced, unless it takes the place of a
node with another content. -/
theorem Referenced.receiveNode (hs : s.Referenced)
    (hold : ∀ n, s.getNode node.nodeHash = some n → n.contentHash = node.contentHash)
    (content : Str) : (s.receiveNode node content).Referenced := by
  have hstored : ((s.addNode node).addContent node.contentHash content).getNode node.nodeHash
      = some node := getNode_addNode_self s node
  have hadded : ((s.addNode node).addContent node.contentHash content).Referenced :=
    (hs.addNode hold).addContent (getNode_addNode_self s node) rfl content
  exact hadded.of_sameNodes (sameNodes_linkParent hstored) fun _ => getContent_linkParent _

end InMemoryStorage

/-! ## Messages and peers -/

/-- The type and content of a message; `other` is a type that `receive_message`
passes over. -/
inductive Body where
  | cocData (node : NodeDict) (content : Str)
  | deletionToken (token : DeletionToken)
  | other (messageType : Str)
  deriving DecidableEq

/-- A message. -/
structure Message where
  senderId : Str
  recipientId : Str
  body : Body
  deriving DecidableEq

/-- `Peer`. -/
structure Peer (S : SignatureScheme) where
  peerId : Str
  signingKey : S.SigningKey
  online : Bool
  storage : InMemoryStorage
  offlineQueue : List (Instant × Message)

/-- The peers, each registered under its own id, the messages on their way, and
the state of the deletion engine. -/
structure Network (S : SignatureScheme) where
  peers : Dict Str (Peer S)
  inFlight : List Message
  processedTokens : Dict Str ProcessedTokenCache
  audit : List AuditRecord
  keyed : ∀ id p, peers.get? id = some p → p.peerId = id

namespace Network

variable {S : SignatureScheme}

section

variable (net : Network S)

/-- `find_peer`. -/
def findPeer (id : Str) : Option (Peer S) := net.peers.get? id

/-- The verify key of a registered peer. -/
def findKey (id : Str) : Option S.VerifyKey :=
  (net.findPeer id).map fun p => S.verifyKey p.signingKey

/-- The storage of a registered peer. -/
def storageOf (id : Str) : Option InMemoryStorage :=
  (net.findPeer id).map Peer.storage

/-- The node that a peer stores under a hash. -/
def nodeAt (id h : Str) : Option CoCNode :=
  (net.storageOf id).bind fun s => s.getNode h

/-- The content that a peer stores under a hash. -/
def contentAt (id c : Str) : Option Str :=
  (net.storageOf id).bind fun s => s.getContent c

/-- `_get_token_cache`. -/
def tokenCache (cfg : EngineConfig) (now : Instant) (id : Str) : ProcessedTokenCache :=
  (net.processedTokens.get? id).getD (.new cfg now)

/-- Write a peer back. -/
def setPeer (p : Peer S) : Network S :=
  { net with
    peers := net.peers.set p.peerId p
    keyed := by
      intro id q hq
      rw [Dict.get?_set] at hq
      by_cases hid : p.peerId = id
      · rw [if_pos hid, Option.some_inj] at hq
        exact hq ▸ hid
      · rw [if_neg hid] at hq
        exact net.keyed id q hq }

end

/-- A network nobody has joined. -/
def empty : Network S := ⟨.empty, [], .empty, [], fun _ _ h => by cases h⟩

variable (net : Network S)

/-- `add_peer`, of a new peer. -/
def addPeer (id : Str) (key : S.SigningKey) : Network S :=
  net.setPeer ⟨id, key, true, .empty, []⟩

/-- The network that the given peers have just joined. -/
def start (peers : List (Str × S.SigningKey)) : Network S :=
  peers.foldl (fun net p => net.addPeer p.1 p.2) empty

/-- `route_message`. -/
def routeMessage (now : Instant) (msg : Message) : Network S :=
  match net.findPeer msg.recipientId with
  | none => net
  | some p =>
    if p.online then { net with inFlight := net.inFlight ++ [msg] }
    else net.setPeer { p with offlineQueue := p.offlineQueue ++ [(now, msg)] }

/-- Messages sent one after the other. -/
def sendAll (now : Instant) (msgs : List Message) : Network S :=
  msgs.foldl (fun net msg => net.routeMessage now msg) net

/-- The messages that carry a token to its recipients. -/
def tokenMessages (senderId : Str) (issued : DeletionToken × List Str) : List Message :=
  issued.2.map fun recipientId => ⟨senderId, recipientId, .deletionToken issued.1⟩

section

variable (iso : IsoReader) (cfg : EngineConfig) (net : Network S)

/-- The call of `process_token` by the peer `p`. -/
def runToken (amb : Ambient) (p : Peer S) (token : DeletionToken) : TokenRun :=
  processToken S iso cfg amb net.findKey p.peerId p.signingKey (net.tokenCache cfg amb.now p.peerId)
    p.storage token

/-- `receive_message`, by the registered peer `p`. -/
def receiveMessage (amb : Ambient) (p : Peer S) (msg : Message) :
    Network S × Except CustodyError Unit :=
  match msg.body with
  | .cocData dict content =>
    match CoCNode.fromDict dict with
    | .error e => (net, .error e)
    | .ok node =>
      (net.setPeer { p with storage := p.storage.receiveNode node content }, .ok ())
  | .deletionToken token =>
    let run := net.runToken iso cfg amb p token
    let net := net.setPeer { p with storage := run.storage }
    let net :=
      { net with
        processedTokens := net.processedTokens.set p.peerId run.cache
        audit := net.audit ++ run.audit }
    (net.sendAll amb.now (run.issued.flatMap (tokenMessages p.peerId)), run.outcome.map fun _ => ())
  | .other _ => (net, .ok ())

/-- `deliver_message`, for the message at position `i` in flight.  What the
receiver raises ends the task and nothing else. -/
def deliver (amb : Ambient) (i : ℕ) : Network S :=
  match net.inFlight[i]? with
  | none => net
  | some msg =>
    let net := { net with inFlight := net.inFlight.eraseIdx i }
    match net.findPeer msg.recipientId with
    | none => net
    | some p => (net.receiveMessage iso cfg amb p msg).1

end

variable (net : Network S)

/-- `create_coc_root`. -/
def createCocRoot (amb : Ambient) (p : Peer S) (content : Str)
    (recipientIds : List Str) : Network S × CoCNode :=
  let node := CoCNode.new S (hashContent content) p.peerId p.signingKey recipientIds none amb.now
  (net.setPeer { p with storage := (p.storage.addNode node).addContent (hashContent content) content },
    node)

/-- `forward_coc_message`, of a node that the storage of `p` handed out. -/
def forwardCocMessage (amb : Ambient) (p : Peer S) (parent : CoCNode)
    (recipientIds : List Str) : Network S × CoCNode :=
  let child := (CoCNode.new S parent.contentHash p.peerId p.signingKey recipientIds
    (some parent.nodeHash) amb.now).below parent
  (net.setPeer { p with
    storage := (p.storage.addNode child).addNode (parent.withChild child.nodeHash) }, child)

/-- `initiate_deletion`.  The node stays in the peer's own storage. -/
def initiateDeletion (amb : Ambient) (p : Peer S) (node : CoCNode) :
    Network S × Except CustodyError Unit :=
  match DeletionToken.issue S p.signingKey node p.peerId (amb.nonce 0) amb.now with
  | .error e => (net, .error e)
  | .ok token =>
    let net := { net with
      audit := net.audit ++
        [(⟨"DELETE_ISSUE", p.peerId, auditTarget node.nodeHash, []⟩ : AuditRecord)] }
    (net.sendAll amb.now (tokenMessages p.peerId (token, node.recipientIds)), .ok ())

/-- The `coc_data` messages for a node; the content may differ by recipient. -/
def dataMessages (order : SetOrder) (senderId : Str) (recipientIds : List Str) (node : CoCNode)
    (contentFor : Str → Str) : List Message :=
  recipientIds.map fun recipientId =>
    ⟨senderId, recipientId, .cocData (node.toDict order) (contentFor recipientId)⟩

/-- A peer creates a root and sends it to its recipients. -/
def createAndSend (amb : Ambient) (id content : Str) (recipientIds : List Str) : Network S :=
  match net.findPeer id with
  | none => net
  | some p =>
    let (net, node) := net.createCocRoot amb p content recipientIds
    net.sendAll amb.now (dataMessages amb.order id recipientIds node fun _ => content)

/-- A peer forwards a node it stores and sends the new node to its recipients. -/
def forwardAndSend (amb : Ambient) (id parentHash : Str)
    (recipientIds : List Str) (contentFor : Str → Str) : Network S :=
  match net.findPeer id with
  | none => net
  | some p =>
    match p.storage.getNode parentHash with
    | none => net
    | some parent =>
      let (net, child) := net.forwardCocMessage amb p parent recipientIds
      net.sendAll amb.now (dataMessages amb.order id recipientIds child contentFor)

/-- A peer starts the deletion of a node it stores. -/
def deleteStored (amb : Ambient) (id nodeHash : Str) : Network S :=
  match net.findPeer id with
  | none => net
  | some p =>
    match p.storage.getNode nodeHash with
    | none => net
    | some node => (net.initiateDeletion amb p node).1

/-! ## What the operations leave alone -/

variable (net : Network S) (now : Instant) (p : Peer S) (id : Str) (msg : Message)
  (msgs : List Message)

theorem findPeer_setPeer :
    (net.setPeer p).findPeer id = if p.peerId = id then some p else net.findPeer id :=
  net.peers.get?_set p.peerId id p

theorem peerId_of_findPeer {net : Network S} {id : Str} {p : Peer S}
    (hp : net.findPeer id = some p) : p.peerId = id :=
  net.keyed id p hp

theorem storageOf_of_findPeer {net : Network S} {id : Str} {p : Peer S}
    (hp : net.findPeer id = some p) : net.storageOf id = some p.storage := by
  rw [storageOf, hp, map_some]

theorem storageOf_setPeer :
    (net.setPeer p).storageOf id = if p.peerId = id then some p.storage else net.storageOf id := by
  rw [storageOf, findPeer_setPeer]
  by_cases hid : p.peerId = id
  · rw [if_pos hid, if_pos hid, map_some]
  · rw [if_neg hid, if_neg hid, storageOf]

/-- A peer that changes keeps its key. -/
theorem findKey_setPeer {net : Network S} {p q : Peer S} (hp : net.findPeer q.peerId = some p)
    (hkey : q.signingKey = p.signingKey) : (net.setPeer q).findKey = net.findKey := by
  funext id
  rw [findKey, findPeer_setPeer]
  by_cases hid : q.peerId = id
  · rw [if_pos hid, findKey, ← hid, hp, map_some, map_some, hkey]
  · rw [if_neg hid, findKey]

/-- The two networks have the same peers, but for their offline queues. -/
def SamePeers (net net' : Network S) : Prop :=
  ∀ id, (net.findPeer id).map (fun p => (p.signingKey, p.online, p.storage))
    = (net'.findPeer id).map fun p => (p.signingKey, p.online, p.storage)

namespace SamePeers

theorem refl (net : Network S) : SamePeers net net := fun _ => rfl

theorem trans {net net' net'' : Network S} (h : SamePeers net net') (h' : SamePeers net' net'') :
    SamePeers net net'' := fun id => (h id).trans (h' id)

variable {net net' : Network S} (h : SamePeers net net')

include h

theorem storageOf_eq (id : Str) : net'.storageOf id = net.storageOf id := by
  have hid := congrArg (Option.map fun q => q.2.2) (h id)
  rw [map_map, map_map] at hid
  exact hid.symm

theorem findKey_eq : net'.findKey = net.findKey := by
  funext id
  have hid := congrArg (Option.map fun q => S.verifyKey q.1) (h id)
  rw [map_map, map_map] at hid
  exact hid.symm

theorem online_eq (id : Str) :
    (net'.findPeer id).map Peer.online = (net.findPeer id).map Peer.online := by
  have hid := congrArg (Option.map fun q => q.2.1) (h id)
  rw [map_map, map_map] at hid
  exact hid.symm

theorem nodeAt_eq (id x : Str) : net'.nodeAt id x = net.nodeAt id x := by
  rw [nodeAt, nodeAt, h.storageOf_eq]

end SamePeers

theorem samePeers_routeMessage : SamePeers net (net.routeMessage now msg) := by
  intro id
  rw [routeMessage]
  cases hp : net.findPeer msg.recipientId with
  | none => rfl
  | some p =>
    dsimp only
    split
    · rfl
    · rw [findPeer_setPeer]
      have hid := peerId_of_findPeer hp
      by_cases heq : p.peerId = id
      · rw [if_pos heq, ← heq, hid, hp]
        rfl
      · rw [if_neg heq]

theorem samePeers_sendAll : SamePeers net (net.sendAll now msgs) := by
  induction msgs generalizing net with
  | nil => exact .refl net
  | cons msg msgs ih => exact (samePeers_routeMessage net now msg).trans (ih _)

theorem processedTokens_routeMessage :
    (net.routeMessage now msg).processedTokens = net.processedTokens := by
  rw [routeMessage]
  split
  · rfl
  · split <;> rfl

@[simp] theorem processedTokens_sendAll :
    (net.sendAll now msgs).processedTokens = net.processedTokens := by
  induction msgs generalizing net with
  | nil => rfl
  | cons msg msgs ih => exact (ih _).trans (processedTokens_routeMessage net now msg)

/-- Every registered peer is online. -/
def AllOnline (net : Network S) : Prop := ∀ id p, net.findPeer id = some p → p.online = true

theorem AllOnline.of_samePeers {net net' : Network S} (h : SamePeers net net')
    (honline : net.AllOnline) : net'.AllOnline := by
  intro id p hp
  have hid := h.online_eq id
  rw [hp, map_some] at hid
  obtain ⟨q, hq, heq⟩ := map_eq_some_iff.mp hid.symm
  exact heq ▸ honline id q hq

variable {net : Network S}

theorem AllOnline.setPeer (honline : net.AllOnline) {p : Peer S}
    (hp : p.online = true) : (net.setPeer p).AllOnline := by
  intro id q hq
  rw [findPeer_setPeer] at hq
  split at hq
  · rw [← some_inj.mp hq]
    exact hp
  · exact honline id q hq

theorem AllOnline.withInFlight (honline : net.AllOnline) (msgs : List Message) :
    { net with inFlight := msgs }.AllOnline := honline

/-- The message can be delivered. -/
def Deliverable (net : Network S) (msg : Message) : Bool := (net.findPeer msg.recipientId).isSome

/-- With every peer online, what is sent to a registered peer is in flight. -/
theorem inFlight_sendAll (honline : net.AllOnline) (now : Instant)
    (msgs : List Message) :
    (net.sendAll now msgs).inFlight = net.inFlight ++ msgs.filter net.Deliverable := by
  induction msgs generalizing net with
  | nil => rw [List.filter_nil, List.append_nil]; rfl
  | cons msg msgs ih =>
    have hroute : net.routeMessage now msg
        = { net with inFlight := net.inFlight ++ [msg].filter net.Deliverable } := by
      rw [routeMessage, List.filter_singleton, Deliverable]
      cases hp : net.findPeer msg.recipientId with
      | none => simp
      | some p => simp [honline _ p hp]
    show ((net.routeMessage now msg).sendAll now msgs).inFlight = _
    rw [hroute, ih (by exact honline)]
    show net.inFlight ++ [msg].filter net.Deliverable ++ msgs.filter net.Deliverable = _
    rw [List.append_assoc, ← List.filter_append, List.singleton_append]

/-! ## Received messages -/

section

variable {iso : IsoReader} {cfg : EngineConfig} {net : Network S} {amb : Ambient}
  {msg : Message} {p : Peer S}

/-- A token changes the storage of its receiver only. -/
theorem storageOf_receive_token {token : DeletionToken} (hbody : msg.body = .deletionToken token)
    (id : Str) :
    (net.receiveMessage iso cfg amb p msg).1.storageOf id
      = if p.peerId = id then some (net.runToken iso cfg amb p token).storage
        else net.storageOf id := by
  rw [receiveMessage, hbody]
  dsimp only
  rw [(samePeers_sendAll _ _ _).storageOf_eq]
  exact storageOf_setPeer net { p with storage := (net.runToken iso cfg amb p token).storage } id

/-- A node changes the storage of its receiver only. -/
theorem storageOf_receive_cocData {dict : NodeDict} {content : Str} {node : CoCNode}
    (hbody : msg.body = .cocData dict content) (hnode : CoCNode.fromDict dict = .ok node)
    (id : Str) :
    (net.receiveMessage iso cfg amb p msg).1.storageOf id
      = if p.peerId = id then some (p.storage.receiveNode node content)
        else net.storageOf id := by
  rw [receiveMessage, hbody]
  dsimp only
  rw [hnode]
  exact storageOf_setPeer net { p with storage := p.storage.receiveNode node content } id

theorem processedTokens_receive_cocData {dict : NodeDict} {content : Str}
    (hbody : msg.body = .cocData dict content) :
    (net.receiveMessage iso cfg amb p msg).1.processedTokens = net.processedTokens := by
  rw [receiveMessage, hbody]
  dsimp only
  split <;> rfl

/-- No message changes a key. -/
theorem findKey_receiveMessage (hp : net.findPeer p.peerId = some p) :
    (net.receiveMessage iso cfg amb p msg).1.findKey = net.findKey := by
  rw [receiveMessage]
  split
  · split
    · rfl
    · exact findKey_setPeer hp rfl
  · dsimp only
    rw [(samePeers_sendAll _ _ _).findKey_eq]
    exact findKey_setPeer (q := { p with storage := _ }) hp rfl
  · rfl

end

/-! ## Deliveries -/

section

variable {iso : IsoReader} {cfg : EngineConfig} {net : Network S} {amb : Ambient} {i : ℕ}
  {msg : Message} {p : Peer S}

variable (hmsg : net.inFlight[i]? = some msg)
include hmsg

/-- A message for nobody is lost. -/
theorem deliver_of_absent (hp : net.findPeer msg.recipientId = none) :
    net.deliver iso cfg amb i = { net with inFlight := net.inFlight.eraseIdx i } := by
  rw [deliver, hmsg]
  dsimp only
  have hp' : { net with inFlight := net.inFlight.eraseIdx i }.findPeer msg.recipientId = none := hp
  rw [hp']

variable (hp : net.findPeer msg.recipientId = some p)
include hp

theorem deliver_of_present :
    net.deliver iso cfg amb i
      = ({ net with inFlight := net.inFlight.eraseIdx i }.receiveMessage iso cfg amb p msg).1 := by
  rw [deliver, hmsg]
  dsimp only
  have hp' : { net with inFlight := net.inFlight.eraseIdx i }.findPeer msg.recipientId = some p := hp
  rw [hp']

/-- A delivered node is stored. -/
theorem deliver_cocData (order : SetOrder) {node : CoCNode}
    (hnode : node.signature ≠ some []) {content : Str}
    (hbody : msg.body = .cocData (node.toDict order) content) :
    net.deliver iso cfg amb i
      = { net with inFlight := net.inFlight.eraseIdx i }.setPeer
          { p with storage := p.storage.receiveNode node content } := by
  rw [deliver_of_present hmsg hp, receiveMessage, hbody]
  dsimp only
  rw [CoCNode.fromDict_toDict order hnode]

/-- A delivered token is processed, and the tokens for the children are sent. -/
theorem deliver_token {token : DeletionToken} (hbody : msg.body = .deletionToken token) :
    net.deliver iso cfg amb i
      = ({ net with inFlight := net.inFlight.eraseIdx i }.setPeer
            { p with storage := (net.runToken iso cfg amb p token).storage } |> fun net' =>
          { net' with
            processedTokens :=
              net.processedTokens.set p.peerId (net.runToken iso cfg amb p token).cache
            audit := net.audit ++ (net.runToken iso cfg amb p token).audit }.sendAll amb.now
            ((net.runToken iso cfg amb p token).issued.flatMap (tokenMessages p.peerId))) := by
  rw [deliver_of_present hmsg hp, receiveMessage, hbody]
  rfl

end

/-! ## Values for examples -/

/-- Noon. -/
def noon : Ambient := ⟨⟨63902865600000000, by decide⟩, fun _ => "0", .sorted⟩

/-- So many seconds after noon. -/
def afterNoon (n : Fin 3600) : Instant :=
  ⟨noon.now.1 + n * 1000000, by
    have hnoon : noon.now.1 = 63902865600000000 := rfl
    have hmax : datetimeMax = 315537897600000000 := by decide
    omega⟩

/-- Three peers that have just met. -/
def trio : Network .tagged :=
  start [("alice", (1 : UInt8)), ("bob", (2 : UInt8)), ("mallory", (3 : UInt8))]

/-- A document of alice's for bob. -/
def memo : CoCNode :=
  .new .tagged (hashContent "budget") "alice" (1 : UInt8) ["bob"] none noon.now

theorem signature_memo : memo.signature ≠ some [] := fun h =>
  SignatureScheme.tagged.sign_ne_nil _ _ (some_inj.mp h)

end Network

end TrustFlow.Custody
