import TrustFlow.Protocol.Relay

/-!
# The paths of envelopes

A network of peers that gossip: who knows whom changes at any time, frames are delayed,
lost and duplicated, and a peer waits between the receipt of an envelope and its relay.

* `addPeer`, `removePeer`, `gossip` — the calls of a peer; a peer never knows itself.
* `takeIn` — `_handle_received` up to the call of `_forward_gossip`; `completes_takeIn`
  says that the two together are the whole.
* `GossipNetwork` — the peers, every frame that was sent, and the relays that are due.
* `OnRoute` — the path of an envelope leads from its origin to its sender without repetitions,
  not to its target, and its length and the time to live add up.
* `gossip_paths` — **every envelope that is ever sent is on its route**, and its path is the way
  that it took.

Frames that are no envelopes change nothing of this and are left out.
-/

namespace TrustFlow.Protocol

open Library List GossipPeer

namespace GossipPeer

variable {S : SignatureScheme}

/-! ## Calls -/

variable (peer : GossipPeer S)

/-- `remove_peer`. -/
def removePeer (peerId : Str) : GossipPeer S :=
  { peer with
    peers := peer.peers.erase peerId
    peerKeys := peer.peerKeys.erase peerId }

/-- `min(..., key=lambda p: p.last_seen)`: the first of the least. -/
def oldest : List PeerInfo → Option PeerInfo
  | [] => none
  | info :: infos =>
    some (infos.foldl (fun best info => if info.lastSeen < best.lastSeen then info else best) info)

/-- `_evict_oldest_peer`. -/
def evictOldestPeer : GossipPeer S :=
  match oldest peer.peers.values with
  | none => peer
  | some info => peer.removePeer info.peerId

/-- `register_peer_key`. -/
def registerPeerKey (peerId : Str) (key : S.VerifyKey) : GossipPeer S :=
  { peer with peerKeys := peer.peerKeys.set peerId key }

/-- `add_peer`. -/
def addPeer (maxPeers : ℕ) (now : ℚ) (peer : GossipPeer S) (peerId address : Str)
    (verifyKey : Option S.VerifyKey) : GossipPeer S :=
  if peerId = peer.peerId then peer
  else
    let peer :=
      if maxPeers ≤ peer.peers.entries.length ∧ (peer.peers.get? peerId).isNone then
        peer.evictOldestPeer
      else peer
    let peer := { peer with peers := peer.peers.set peerId ⟨peerId, address, now⟩ }
    match verifyKey with
    | none => peer
    | some key => peer.registerPeerKey peerId key

variable (sur : Surroundings)

/-- The envelope of a message, before it is signed. -/
def unsigned (peerId messageId : Str) (payload : Payload) : GossipEnvelope where
  msgId := (sha256Hex (encodeUtf8 (List.intercalate [':']
    [peerId, (Number.float (.finite sur.now)).text, messageId]))).take 32
  payload := payload
  originId := peerId
  ttl := defaultTtl
  timestamp := .float (.finite sur.now)
  path := [peerId]
  signature := []

/-- `gossip`, of a message with the given id and dictionary: the peer, and the frame with its
targets. -/
def gossip (sampler : Sampler) (signingKey : S.SigningKey)
    (peer : GossipPeer S) (messageId : Str) (payload : Payload) :
    GossipPeer S × Except PyError (Bytes × List Str) :=
  let env := unsigned sur peer.peerId messageId payload
  match env.signingData with
  | none => (peer, .error .typeError)
  | some data =>
    let env := { env with signature := hexEncode (S.sign signingKey (encodeUtf8 data)) }
    let peer := { peer with seen := peer.seen.markSeen (decimalValue sur.now) env.msgId }
    (peer, env.toBytes.map fun data => (data, peer.selectGossipTargets sampler []))

/-- `_handle_received`, up to the call of `_forward_gossip`: the peer, and the envelope of the
call if it comes to it. -/
def takeIn (peer : GossipPeer S) (senderId : Str) (data : Bytes) :
    GossipPeer S × Option GossipEnvelope :=
  match GossipEnvelope.fromBytes sur data with
  | .error _ => (peer, none)
  | .ok env =>
    let now := decimalValue sur.now
    let peer := peer.touch now senderId
    let known := peer.seen.hasSeen now env.msgId
    let peer := { peer with seen := known.1 }
    if known.2 then (peer, none)
    else
      match peer.peerKeys.get? env.originId with
      | none => (peer, none)
      | some key =>
        match env.verify S key with
        | .error _ => (peer, none)
        | .ok false => (peer, none)
        | .ok true =>
          if timestampValid now env.timestamp then
            ({ peer with seen := peer.seen.markSeen now env.msgId },
              if 1 < env.ttl then some (relayed sur peer.peerId env) else none)
          else (peer, none)

/-- Whom an envelope is not relayed to. -/
def excluded (senderId : Str) (env : GossipEnvelope) : List Str := env.path ++ [senderId, env.originId]

/-- The result of `_handle_received` is what `_forward_gossip` makes of its first half. -/
def Completes (sampler : Sampler) (senderId : Str) (half : GossipPeer S × Option GossipEnvelope)
    (whole : Handled S) : Prop :=
  whole.peer = half.1 ∧ ∀ frame, whole.outcome = .ok (some frame) ↔
    ∃ env, half.2 = some env ∧ half.1.forwardGossip sampler env (excluded senderId env) = .ok frame

variable (sur : Surroundings) (sampler : Sampler) (peer : GossipPeer S) (senderId : Str)

theorem completes_none (peer : GossipPeer S) (dispatched : List Message)
    {outcome : Except PyError (Option (Bytes × List Str))} (h : ∀ frame, outcome ≠ .ok (some frame)) :
    Completes sampler senderId (peer, none) ⟨peer, dispatched, outcome⟩ := by
  refine ⟨rfl, fun frame => iff_of_false (h frame) ?_⟩
  rintro ⟨env, hnone, -⟩
  cases hnone

theorem completes_relay (env : GossipEnvelope) :
    Completes sampler senderId
      ({ peer with seen := peer.seen.markSeen (decimalValue sur.now) env.msgId },
        if 1 < env.ttl then some (relayed sur peer.peerId env) else none)
      (peer.relay sur sampler senderId env) := by
  refine ⟨?_, fun frame => ?_⟩
  · rw [relay]
    dsimp only
    split <;> rfl
  rw [outcome_relay_eq]
  split
  · have hexcluded : excluded senderId (relayed sur peer.peerId env)
        = (relayed sur peer.peerId env).path ++ [senderId, env.originId] := rfl
    simp only [Option.some.injEq, exists_eq_left', hexcluded]
    generalize forwardGossip _ sampler _ _ = result
    cases result with
    | error e => exact iff_of_false (by rintro ⟨⟩) (by rintro ⟨⟩)
    | ok frame' => simp [Except.map]
  · refine iff_of_false (by rintro ⟨⟩) ?_
    rintro ⟨env', hnone, -⟩
    cases hnone

/-- **The two halves of `_handle_received`**, one right after the other. -/
theorem completes_takeIn (data : Bytes) :
    Completes sampler senderId (peer.takeIn sur senderId data)
      (peer.handleReceived sur sampler senderId data) := by
  have hnone : ∀ frame, (.ok none : Except PyError (Option (Bytes × List Str))) ≠ .ok (some frame) := by
    rintro frame ⟨⟩
  rw [handleReceived, takeIn]
  cases GossipEnvelope.fromBytes sur data with
  | error e =>
    dsimp only
    split <;> exact completes_none _ _ _ _ hnone
  | ok env =>
    dsimp only
    cases ((peer.touch (decimalValue sur.now) senderId).seen.hasSeen (decimalValue sur.now)
        env.msgId).2 with
    | true => exact completes_none _ _ _ _ hnone
    | false =>
      rw [if_neg Bool.false_ne_true, if_neg Bool.false_ne_true]
      cases (peer.touch (decimalValue sur.now) senderId).peerKeys.get? env.originId with
      | none => exact completes_none _ _ _ _ hnone
      | some key =>
        dsimp only
        cases env.verify S key with
        | error e => exact completes_none _ _ _ _ (by rintro frame ⟨⟩)
        | ok valid =>
          cases valid with
          | false => exact completes_none _ _ _ _ hnone
          | true =>
            dsimp only
            cases timestampValid (decimalValue sur.now) env.timestamp with
            | false => exact completes_none _ _ _ _ hnone
            | true =>
              rw [if_pos rfl, if_pos rfl]
              exact completes_relay sur sampler _ senderId env

/-! ## What the calls leave alone -/

/-- The peer has this id and does not know itself. -/
def Selfless (id : Str) (peer : GossipPeer S) : Prop := peer.peerId = id ∧ peer.peers.get? id = none

namespace Selfless

variable {id : Str} {peer : GossipPeer S} (h : Selfless id peer)
include h

theorem removePeer (peerId : Str) : Selfless id (peer.removePeer peerId) := by
  refine ⟨h.1, ?_⟩
  show (peer.peers.erase peerId).get? id = none
  rw [Dict.get?_erase, h.2, ite_self]

theorem evictOldestPeer : Selfless id peer.evictOldestPeer := by
  rw [GossipPeer.evictOldestPeer]
  split
  · exact h
  · exact h.removePeer _

theorem addPeer (maxPeers : ℕ) (now : ℚ) (peerId address : Str) (verifyKey : Option S.VerifyKey) :
    Selfless id (peer.addPeer maxPeers now peerId address verifyKey) := by
  rw [GossipPeer.addPeer]
  split
  · exact h
  rename_i hother
  have hevicted : Selfless id (if maxPeers ≤ peer.peers.entries.length ∧
      (peer.peers.get? peerId).isNone then peer.evictOldestPeer else peer) := by
    split
    · exact h.evictOldestPeer
    · exact h
  dsimp only
  generalize (if maxPeers ≤ peer.peers.entries.length ∧ (peer.peers.get? peerId).isNone then
    peer.evictOldestPeer else peer) = peer' at hevicted
  have hset : (peer'.peers.set peerId ⟨peerId, address, now⟩).get? id = none := by
    rw [Dict.get?_set_of_ne _ _ fun heq => hother (heq.trans h.1.symm)]
    exact hevicted.2
  cases verifyKey with
  | none => exact ⟨hevicted.1, hset⟩
  | some key => exact ⟨hevicted.1, hset⟩

theorem touch (now : ℚ) (senderId : Str) : Selfless id (peer.touch now senderId) := by
  rw [GossipPeer.touch]
  split
  · exact h
  · rename_i info hinfo
    refine ⟨h.1, ?_⟩
    show (peer.peers.set senderId _).get? id = none
    rw [Dict.get?_set_of_ne, h.2]
    rintro rfl
    cases h.2.symm.trans hinfo

theorem takeIn (sur : Surroundings) (senderId : Str) (data : Bytes) :
    Selfless id (peer.takeIn sur senderId data).1 := by
  rw [GossipPeer.takeIn]
  split
  · exact h
  rename_i env _
  have htouch := h.touch (decimalValue sur.now) senderId
  dsimp only
  split
  · exact htouch
  split
  · exact htouch
  split
  · exact htouch
  · exact htouch
  split
  · exact htouch
  · exact htouch

theorem gossip (sur : Surroundings) (sampler : Sampler)
    (signingKey : S.SigningKey) (messageId : Str) (payload : Payload) :
    Selfless id (peer.gossip sur sampler signingKey messageId payload).1 := by
  rw [GossipPeer.gossip]
  dsimp only
  split <;> exact h

end Selfless

/-- Envelopes go to known peers that are not excluded. -/
theorem mem_selectGossipTargets {peer : GossipPeer S} {sampler : Sampler} {exclude : List Str}
    {target : Str} (h : target ∈ peer.selectGossipTargets sampler exclude) :
    target ∈ peer.peers.keys ∧ target ∉ exclude := by
  have havailable : target ∈ peer.peers.keys.filter fun id => !exclude.contains id := by
    rw [selectGossipTargets] at h
    split at h
    · exact h
    · exact (sampler.subperm_sample _ _).subset h
  obtain ⟨hknown, hexclude⟩ := mem_filter.mp havailable
  exact ⟨hknown, by simpa using hexclude⟩

/-- An envelope that is to be relayed was read from the frame. -/
theorem exists_of_takeIn {sur : Surroundings} {peer : GossipPeer S} {senderId : Str} {data : Bytes}
    {env' : GossipEnvelope} (h : (peer.takeIn sur senderId data).2 = some env') :
    ∃ env, GossipEnvelope.fromBytes sur data = .ok env ∧ 1 < env.ttl ∧
      env' = relayed sur peer.peerId env := by
  have hid : (peer.touch (decimalValue sur.now) senderId).peerId = peer.peerId := by
    rw [touch]
    split <;> rfl
  rw [takeIn] at h
  split at h
  · cases h
  rename_i env hdata
  dsimp only at h
  split at h
  · cases h
  split at h
  · cases h
  split at h
  · cases h
  · cases h
  split at h
  · dsimp only at h
    split at h
    · rename_i httl
      exact ⟨env, hdata, httl, hid ▸ (Option.some.inj h).symm⟩
    · cases h
  · cases h

/-- What a peer sends of its own. -/
theorem exists_of_gossip {sur : Surroundings} {sampler : Sampler} {signingKey : S.SigningKey}
    {peer : GossipPeer S} {messageId : Str} {v : Json} (hv : v.Unique) {data : Bytes}
    {targets : List Str}
    (h : (peer.gossip sur sampler signingKey messageId (.ofJson v)).2 = .ok (data, targets)) :
    (∃ env, Decodes data env ∧ env.path = [peer.peerId] ∧ env.originId = peer.peerId ∧
      env.ttl = defaultTtl) ∧ ∀ target ∈ targets, target ∈ peer.peers.keys := by
  rw [gossip] at h
  dsimp only at h
  split at h
  · cases h
  rename_i signed hsigned
  dsimp only at h
  generalize henv : { unsigned sur peer.peerId messageId (.ofJson v) with
    signature := hexEncode (S.sign signingKey (encodeUtf8 signed)) } = env at h
  obtain ⟨data', hbytes, hdecodes⟩ := GossipEnvelope.fromBytes_toBytes
    (show env.payload = .ofJson v by rw [← henv]; rfl) hv
  rw [hbytes] at h
  obtain ⟨rfl, rfl⟩ := Prod.mk.inj (Except.ok.inj h)
  refine ⟨⟨env, hdecodes, ?_, ?_, ?_⟩, fun target htarget => (mem_selectGossipTargets htarget).1⟩
  · rw [← henv]
    rfl
  · rw [← henv]
    rfl
  · rw [← henv]
    rfl

end GossipPeer

/-! ## The network -/

/-- A peer of a network, with its key and `max_peers`. -/
structure Member (S : SignatureScheme) where
  peer : GossipPeer S
  signingKey : S.SigningKey
  maxPeers : ℕ

/-- A frame that was sent. -/
structure Frame where
  senderId : Str
  targetId : Str
  data : Bytes

/-- A call of `_forward_gossip` that is due, by a peer with an envelope that it has from the
sender. -/
structure Forwarding where
  peerId : Str
  senderId : Str
  env : GossipEnvelope

/-- The peers, every frame that was sent, and the relays that are due.  A frame stays where it is
when it arrives: it may arrive again, or never. -/
structure GossipNetwork (S : SignatureScheme) where
  members : Dict Str (Member S)
  sent : List Frame
  forwarding : List Forwarding

/-- What may happen in a network: calls at the peer `id`, the arrival of a frame, and a relay
that is due. -/
inductive GossipAct (S : SignatureScheme) where
  | createPeer (peerId : Str) (fanout maxPeers : ℕ) (signingKey : S.SigningKey)
      (handled : MessageType → Bool) (now : ℚ)
  | addPeer (id peerId address : Str) (verifyKey : Option S.VerifyKey) (now : ℚ)
  | removePeer (id peerId : Str)
  | registerPeerKey (id peerId : Str) (key : S.VerifyKey)
  | gossip (id : Str) (sur : Surroundings) (sampler : Sampler) (messageId : Str)
      (message : { v : Json // v.Unique })
  | receive (i : ℕ) (sur : Surroundings)
  | forward (j : ℕ) (sampler : Sampler)

namespace GossipNetwork

variable {S : SignatureScheme}

/-- Nobody is there yet. -/
def empty : GossipNetwork S := ⟨.empty, [], []⟩

/-- A call that changes one peer only. -/
def alter (net : GossipNetwork S) (id : Str) (f : Member S → GossipPeer S) : GossipNetwork S :=
  match net.members.get? id with
  | none => net
  | some member => { net with members := net.members.set id { member with peer := f member } }

/-- A frame goes to its targets; an exception ends the call before. -/
def send (senderId : Str) : Except PyError (Bytes × List Str) → List Frame
  | .error _ => []
  | .ok (data, targets) => targets.map fun targetId => ⟨senderId, targetId, data⟩

/-- One thing happens. -/
def step (net : GossipNetwork S) : GossipAct S → GossipNetwork S
  | .createPeer peerId fanout maxPeers signingKey handled now =>
    { net with
      members := net.members.set peerId
        ⟨⟨peerId, fanout, .empty, .empty, .new now, handled⟩, signingKey, maxPeers⟩ }
  | .addPeer id peerId address verifyKey now =>
    net.alter id fun member =>
      member.peer.addPeer member.maxPeers now peerId address verifyKey
  | .removePeer id peerId => net.alter id fun member => member.peer.removePeer peerId
  | .registerPeerKey id peerId key => net.alter id fun member => member.peer.registerPeerKey peerId key
  | .gossip id sur sampler messageId message =>
    match net.members.get? id with
    | none => net
    | some member =>
      let result := member.peer.gossip sur sampler member.signingKey messageId (.ofJson message)
      { net with
        members := net.members.set id { member with peer := result.1 }
        sent := net.sent ++ send id result.2 }
  | .receive i sur =>
    match net.sent[i]? with
    | none => net
    | some frame =>
      match net.members.get? frame.targetId with
      | none => net
      | some member =>
        let result := member.peer.takeIn sur frame.senderId frame.data
        { net with
          members := net.members.set frame.targetId { member with peer := result.1 }
          forwarding := net.forwarding ++
            (result.2.map fun env => ⟨frame.targetId, frame.senderId, env⟩).toList }
  | .forward j sampler =>
    match net.forwarding[j]? with
    | none => net
    | some relay =>
      match net.members.get? relay.peerId with
      | none => net
      | some member =>
        { net with
          sent := net.sent ++ send relay.peerId (member.peer.forwardGossip sampler relay.env
            (GossipPeer.excluded relay.senderId relay.env))
          forwarding := net.forwarding.eraseIdx j }

/-- One after the other. -/
def run (acts : List (GossipAct S)) : GossipNetwork S := acts.foldl step empty

end GossipNetwork

/-! ## Routes -/

/-- An envelope on its way from a sender to a target. -/
structure OnRoute (senderId targetId : Str) (env : GossipEnvelope) : Prop where
  origin : env.path.head? = some env.originId
  nodup : env.path.Nodup
  sender : env.path.getLast? = some senderId
  target : targetId ∉ env.path
  alive : 1 ≤ env.ttl
  total : env.ttl + env.path.length = defaultTtl + 1

namespace OnRoute

variable {senderId targetId : Str} {env : GossipEnvelope}

/-- The origin sends its envelope to somebody else. -/
theorem start (hpath : env.path = [senderId]) (horigin : env.originId = senderId)
    (httl : env.ttl = defaultTtl) (htarget : targetId ≠ senderId) : OnRoute senderId targetId env := by
  refine ⟨?_, ?_, ?_, ?_, ?_, ?_⟩
  · rw [hpath, horigin, List.head?_cons]
  · rw [hpath]
    exact nodup_singleton senderId
  · rw [hpath, List.getLast?_singleton]
  · rw [hpath]
    exact fun hmem => htarget (mem_singleton.mp hmem)
  · rw [httl]
    decide
  · rw [hpath, httl, length_singleton, Nat.cast_one]

/-- **The target relays the envelope**: it enters itself, and leaves out whom the path names. -/
theorem relay (h : OnRoute senderId targetId env) (httl : 1 < env.ttl) (sur : Surroundings)
    {next : Str} (hnext : next ∉ (GossipPeer.relayed sur targetId env).path) :
    OnRoute targetId next (GossipPeer.relayed sur targetId env) := by
  have hpath : (relayed sur targetId env).path = env.path ++ [targetId] := rfl
  have hlives : (relayed sur targetId env).ttl = env.ttl - 1 := rfl
  refine ⟨?_, ?_, ?_, hnext, ?_, ?_⟩
  · rw [hpath, List.head?_append, h.origin]
    rfl
  · rw [hpath]
    refine List.Nodup.append h.nodup (nodup_singleton targetId) ?_
    exact disjoint_singleton.mpr h.target
  · rw [hpath, List.getLast?_concat]
  · rw [hlives]
    omega
  · have htotal := h.total
    rw [hpath, hlives, length_append, length_singleton, Nat.cast_add, Nat.cast_one]
    omega

/-- **No copy makes more than `DEFAULT_TTL` hops.** -/
theorem hops (h : OnRoute senderId targetId env) : (env.path.length : ℤ) ≤ defaultTtl := by
  have halive := h.alive
  have htotal := h.total
  omega

end OnRoute

/-- The envelope is its sender's own, or the copy of one that was sent to its sender. -/
def Comes (sent : List Frame) (senderId : Str) (env : GossipEnvelope) : Prop :=
  env.path = [senderId] ∨ ∃ earlier ∈ sent, ∃ received, GossipPeer.Decodes earlier.data received ∧
    earlier.targetId = senderId ∧ received.SameSigned env ∧ env.path = received.path ++ [senderId]

/-- The frame holds an envelope on its route, whose path is the way that it took. -/
structure Routed (sent : List Frame) (frame : Frame) (env : GossipEnvelope) : Prop where
  decodes : GossipPeer.Decodes frame.data env
  route : OnRoute frame.senderId frame.targetId env
  comes : Comes sent frame.senderId env

theorem Routed.mono {sent sent' : List Frame} {frame : Frame} {env : GossipEnvelope}
    (h : Routed sent frame env) (hsent : sent ⊆ sent') : Routed sent' frame env := by
  refine ⟨h.decodes, h.route, h.comes.imp_right ?_⟩
  rintro ⟨earlier, hearlier, hcopy⟩
  exact ⟨earlier, hsent hearlier, hcopy⟩

namespace GossipNetwork

variable {S : SignatureScheme} {net : GossipNetwork S}

/-- The relay is that of a frame which was sent to the peer. -/
def Due (sent : List Frame) (relay : Forwarding) : Prop :=
  ∃ frame ∈ sent, frame.targetId = relay.peerId ∧ ∃ sur env,
    GossipEnvelope.fromBytes sur frame.data = .ok env ∧ 1 < env.ttl ∧
      relay.env = GossipPeer.relayed sur relay.peerId env

/-- What holds throughout. -/
structure Sound (net : GossipNetwork S) : Prop where
  members : ∀ id member, net.members.get? id = some member → member.peer.Selfless id
  sent : ∀ frame ∈ net.sent, ∃ env, Routed net.sent frame env
  forwarding : ∀ relay ∈ net.forwarding, Due net.sent relay

namespace Sound

section

variable (h : Sound net)
include h

theorem setMember {id : Str} {member : Member S} (hpeer : member.peer.Selfless id) :
    Sound { net with members := net.members.set id member } := by
  refine ⟨fun id' member' hget => ?_, h.sent, h.forwarding⟩
  rw [Dict.get?_set] at hget
  split at hget
  · rename_i hid
    rw [← hid, ← Option.some.inj hget]
    exact hpeer
  · exact h.members id' member' hget

theorem alter (id : Str) {f : Member S → GossipPeer S}
    (hf : ∀ member, member.peer.Selfless id → (f member).Selfless id) : Sound (net.alter id f) := by
  rw [GossipNetwork.alter]
  split
  · exact h
  · rename_i member hmember
    exact h.setMember (hf member (h.members id member hmember))

/-- More frames are sent. -/
theorem sendMore {frames : List Frame}
    (hframes : ∀ frame ∈ frames, ∃ env, Routed net.sent frame env) :
    Sound { net with sent := net.sent ++ frames } := by
  have hmore : net.sent ⊆ net.sent ++ frames := subset_append_left _ _
  refine ⟨h.members, fun frame hframe => ?_, fun relay hrelay => ?_⟩
  · have hold : ∃ env, Routed net.sent frame env :=
      (mem_append.mp hframe).elim (h.sent frame) (hframes frame)
    obtain ⟨env, henv⟩ := hold
    exact ⟨env, henv.mono hmore⟩
  · obtain ⟨frame, hframe, hdue⟩ := h.forwarding relay hrelay
    exact ⟨frame, hmore hframe, hdue⟩

/-- A peer sends a message of its own. -/
theorem routed_gossip {id : Str} {member : Member S}
    (hmember : net.members.get? id = some member) (sur : Surroundings) (sampler : Sampler)
    (messageId : Str) (message : { v : Json // v.Unique }) :
    ∀ frame ∈ send id (member.peer.gossip sur sampler member.signingKey messageId
      (.ofJson message)).2, ∃ env, Routed net.sent frame env := by
  intro frame hframe
  obtain ⟨hid, hself⟩ := h.members id member hmember
  cases hresult : (member.peer.gossip sur sampler member.signingKey messageId
      (.ofJson message)).2 with
  | error e =>
    rw [hresult] at hframe
    cases hframe
  | ok result =>
    rw [hresult] at hframe
    obtain ⟨targetId, htarget, rfl⟩ := mem_map.mp hframe
    obtain ⟨⟨env, hdecodes, hpath, horigin, httl⟩, hknown⟩ :=
      exists_of_gossip message.2 hresult
    rw [hid] at hpath horigin
    refine ⟨env, hdecodes, .start hpath horigin httl fun hsame => ?_, .inl hpath⟩
    have hkey := Dict.mem_keys.mp (hknown targetId htarget)
    rw [show targetId = id from hsame, hself] at hkey
    cases hkey

/-- A peer relays an envelope. -/
theorem routed_forward {relay : Forwarding} (hrelay : relay ∈ net.forwarding)
    (peer : GossipPeer S) (sampler : Sampler) :
    ∀ frame ∈ send relay.peerId (peer.forwardGossip sampler relay.env
      (GossipPeer.excluded relay.senderId relay.env)), ∃ env, Routed net.sent frame env := by
  intro frame hframe
  obtain ⟨earlier, hearlier, htarget, sur, env, hdata, httl, hrelayed⟩ :=
    h.forwarding relay hrelay
  obtain ⟨received, hreceived⟩ := h.sent earlier hearlier
  obtain rfl : received = env := Except.ok.inj ((hreceived.decodes sur).symm.trans hdata)
  rw [forwardGossip] at hframe
  cases hbytes : relay.env.toBytes with
  | error e =>
    rw [hbytes] at hframe
    cases hframe
  | ok data =>
    rw [hbytes] at hframe
    obtain ⟨targetId, hselected, rfl⟩ := mem_map.mp hframe
    have hexcluded := (mem_selectGossipTargets hselected).2
    rw [hrelayed] at hbytes hexcluded
    obtain ⟨hdecodes, hsame⟩ := decodes_relayed hdata hbytes
    have hroute := hreceived.route
    rw [htarget] at hroute
    refine ⟨_, hdecodes, hroute.relay httl sur fun hmem => ?_, .inr ?_⟩
    · exact hexcluded (mem_append_left _ hmem)
    · exact ⟨earlier, hearlier, received, hreceived.decodes, htarget, hsame, rfl⟩

/-- **One step** keeps every envelope on its route. -/
theorem step (act : GossipAct S) : Sound (net.step act) := by
  cases act with
  | createPeer peerId fanout maxPeers signingKey handled now => exact h.setMember ⟨rfl, rfl⟩
  | addPeer id peerId address verifyKey now =>
    exact h.alter id fun member hmember => hmember.addPeer _ now peerId address verifyKey
  | removePeer id peerId => exact h.alter id fun member hmember => hmember.removePeer peerId
  | registerPeerKey id peerId key => exact h.alter id fun member hmember => hmember
  | gossip id sur sampler messageId message =>
    rw [GossipNetwork.step]
    split
    · exact h
    · rename_i member hmember
      have hsent := h.sendMore (h.routed_gossip hmember sur sampler messageId message)
      exact hsent.setMember ((h.members id member hmember).gossip _ _ _ _ _)
  | receive i sur =>
    rw [GossipNetwork.step]
    split
    · exact h
    rename_i frame hframe
    split
    · exact h
    rename_i member hmember
    have hpeer := h.members frame.targetId member hmember
    have htaken := hpeer.takeIn sur frame.senderId frame.data
    refine ⟨(h.setMember htaken).members, h.sent, fun relay hrelay => ?_⟩
    rcases mem_append.mp hrelay with hrelay | hrelay
    · exact h.forwarding relay hrelay
    · obtain ⟨env', henv', rfl⟩ := Option.map_eq_some_iff.mp (Option.mem_toList.mp hrelay)
      obtain ⟨env, hdata, httl, hrelayed⟩ := exists_of_takeIn henv'
      rw [hpeer.1] at hrelayed
      exact ⟨frame, mem_of_getElem? hframe, rfl, sur, env, hdata, httl, hrelayed⟩
  | forward j sampler =>
    rw [GossipNetwork.step]
    split
    · exact h
    rename_i relay hrelay
    split
    · exact h
    rename_i member hmember
    have hsent := h.sendMore (h.routed_forward (mem_of_getElem? hrelay) member.peer sampler)
    exact ⟨hsent.members, hsent.sent, fun relay' hrelay' =>
      hsent.forwarding relay' (mem_of_mem_eraseIdx hrelay')⟩

end

theorem empty : Sound (empty : GossipNetwork S) := by
  constructor
  · rintro id member ⟨⟩
  · rintro frame ⟨⟩
  · rintro relay ⟨⟩

/-- **Every run** keeps every envelope on its route. -/
theorem run (acts : List (GossipAct S)) : Sound (run acts) := by
  suffices ∀ net : GossipNetwork S, Sound net → Sound (acts.foldl GossipNetwork.step net) from
    this _ empty
  induction acts with
  | nil => exact fun net h => h
  | cons act acts ih => exact fun net h => ih _ (h.step act)

end Sound

/-- **Paths and hops.**  In every run, whoever is told of whom, whatever targets are drawn, and
however frames are delayed, lost and repeated: a frame that a peer sends to a target holds an
envelope whose path leads from the origin to the sender without repetitions and not to the
target, with a time to live of at least one that adds up with its length.  So it makes at most
`DEFAULT_TTL` hops, and as the path is the way that it took, it never comes back to a peer that
relayed it. -/
theorem gossip_paths (acts : List (GossipAct S)) {frame : Frame} (hframe : frame ∈ (run acts).sent) :
    ∃ env, Routed (run acts).sent frame env ∧ (env.path.length : ℤ) ≤ defaultTtl := by
  obtain ⟨env, henv⟩ := (Sound.run acts).sent frame hframe
  exact ⟨env, henv, henv.route.hops⟩

/-! ### A message that is passed on -/

/-- Alice, who knows bob, gossips a message with no type; it arrives at bob, who knows carol,
and bob forwards it. -/
def passedOn : List (GossipAct .tagged) :=
  [.createPeer "alice" 3 50 (1 : UInt8) (fun _ => true) 5,
    .createPeer "bob" 3 50 (2 : UInt8) (fun _ => true) 5,
    .registerPeerKey "bob" "alice" (1 : UInt8),
    .addPeer "alice" "bob" [] none 5,
    .addPeer "bob" "carol" [] none 5,
    .gossip "alice" GossipPeer.quiet GossipPeer.takeFirst "1"
      ⟨.obj GossipPeer.untyped, by decide, trivial, trivial, trivial, trivial⟩,
    .receive 0 GossipPeer.quiet,
    .forward 0 GossipPeer.takeFirst]

/-- The theorem at bob's frame for carol. -/
theorem gossip_paths_passedOn : ∃ frame ∈ (run passedOn).sent,
    (frame.senderId, frame.targetId) = ("bob".toList, "carol".toList) ∧
      ∃ env, Routed (run passedOn).sent frame env ∧ (env.path.length : ℤ) ≤ defaultTtl := by
  have hsent : (run passedOn).sent.map (fun frame => (frame.senderId, frame.targetId))
      = [("alice".toList, "bob".toList), ("bob", "carol")] := by
    decide +kernel
  have hmem : ("bob".toList, "carol".toList)
      ∈ (run passedOn).sent.map fun frame => (frame.senderId, frame.targetId) := by
    rw [hsent]
    exact mem_cons_of_mem _ mem_cons_self
  obtain ⟨frame, hframe, hends⟩ := mem_map.mp hmem
  exact ⟨frame, hframe, hends, gossip_paths passedOn hframe⟩

end GossipNetwork

end TrustFlow.Protocol
