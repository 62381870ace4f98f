import TrustFlow.Protocol.Paths

/-!
# Broadcasts

The manager `GossipNetwork` of `network/gossip.py` creates peers, makes them known to each other
and broadcasts a message by the `gossip` of one of them.  `start_all` passes on addresses and no
keys, and a peer that has no key of the origin drops an envelope before it calls a handler.

* `createPeer`, `startAll`, `built` — how the manager sets up its network.
* `handlerCalls` — how often a peer calls the handler of a type in a run.
* `handlerCalls_eq_zero` — **without keys no handler is ever called**, whatever is gossiped and
  however frames are delayed, lost and repeated.
* `not_reaches_broadcast` — so a broadcast reaches none of the other peers.
-/

namespace TrustFlow.Protocol

open Library List

variable {S : SignatureScheme}

/-! ## Peers without keys -/

namespace GossipPeer

/-- The peer has nobody's key. -/
def Keyless (peer : GossipPeer S) : Prop := ∀ originId, peer.peerKeys.get? originId = none

namespace Keyless

variable {peer : GossipPeer S}

variable (h : peer.Keyless)
include h

theorem removePeer (peerId : Str) : (peer.removePeer peerId).Keyless := by
  intro originId
  show (peer.peerKeys.erase peerId).get? originId = none
  rw [Dict.get?_erase, h originId, ite_self]

theorem addPeer (maxPeers : ℕ) (now : ℚ) (peerId address : Str) :
    (peer.addPeer maxPeers now peerId address none).Keyless := by
  rw [GossipPeer.addPeer]
  split
  · exact h
  · dsimp only
    -- room for the newcomer is made by a `remove_peer`
    split
    · rw [evictOldestPeer]
      split
      · exact h
      · exact h.removePeer _
    · exact h

theorem takeIn (sur : Surroundings) (senderId : Str) (data : Bytes) :
    (peer.takeIn sur senderId data).1.Keyless := by
  intro originId
  rw [GossipPeer.takeIn]
  split
  · exact h originId
  · simp [h _]

theorem gossip (sur : Surroundings) (sampler : Sampler)
    (signingKey : S.SigningKey) (messageId : Str) (payload : Payload) :
    (peer.gossip sur sampler signingKey messageId payload).1.Keyless := by
  rw [GossipPeer.gossip]
  dsimp only
  split <;> exact h

/-- **An envelope of an unknown origin** is dropped before any handler is called. -/
theorem dispatched_eq_nil {data : Bytes} {env : GossipEnvelope}
    (hdata : Decodes data env) (sur : Surroundings) (sampler : Sampler) (senderId : Str) :
    (peer.handleReceived sur sampler senderId data).dispatched = [] := by
  rw [handleReceived, hdata sur]
  dsimp only
  split
  · rfl
  · rw [peerKeys_touch, h env.originId]

end Keyless

end GossipPeer

/-! ## Networks -/

/-- The act hands a key over. -/
def GossipAct.handsKey : GossipAct S → Bool
  | .addPeer _ _ _ verifyKey _ => verifyKey.isSome
  | .registerPeerKey _ _ _ => true
  | _ => false

namespace GossipNetwork

/-- Nobody has a key of anybody else. -/
def Keyless (net : GossipNetwork S) : Prop :=
  ∀ id member, net.members.get? id = some member → member.peer.Keyless

namespace Keyless

variable {net : GossipNetwork S}

theorem setMember (h : Keyless net) (id : Str) {member : Member S} (hpeer : member.peer.Keyless)
    (sent : List Frame) (forwarding : List Forwarding) :
    Keyless ⟨net.members.set id member, sent, forwarding⟩ := by
  intro id' member' hget
  rw [Dict.get?_set] at hget
  split at hget
  · rw [← Option.some.inj hget]
    exact hpeer
  · exact h id' member' hget

theorem alter (h : Keyless net) (id : Str) {f : Member S → GossipPeer S}
    (hf : ∀ member, member.peer.Keyless → (f member).Keyless) : Keyless (net.alter id f) := by
  rw [GossipNetwork.alter]
  split
  · exact h
  · rename_i member hmember
    exact h.setMember id (hf member (h id member hmember)) _ _

/-- Only who is handed a key has one. -/
theorem step (h : Keyless net) {act : GossipAct S} (hact : act.handsKey = false) :
    Keyless (net.step act) := by
  cases act with
  | createPeer peerId fanout maxPeers signingKey handled now =>
    exact h.setMember peerId (fun _ => rfl) _ _
  | addPeer id peerId address verifyKey now =>
    obtain rfl : verifyKey = none := by simpa [GossipAct.handsKey] using hact
    exact h.alter id fun member hpeer => hpeer.addPeer _ now peerId address
  | removePeer id peerId => exact h.alter id fun member hpeer => hpeer.removePeer peerId
  | registerPeerKey id peerId key => cases hact
  | gossip id sur sampler messageId message =>
    rw [GossipNetwork.step]
    split
    · exact h
    · rename_i member hmember
      exact h.setMember id ((h id member hmember).gossip _ _ _ _ _) _ _
  | receive i sur =>
    rw [GossipNetwork.step]
    split
    · exact h
    rename_i frame _
    split
    · exact h
    · rename_i member hmember
      exact h.setMember frame.targetId ((h _ member hmember).takeIn _ _ _) _ _
  | forward j sampler =>
    rw [GossipNetwork.step]
    split
    · exact h
    split <;> exact h

theorem foldl (h : Keyless net) {acts : List (GossipAct S)}
    (hacts : ∀ act ∈ acts, act.handsKey = false) : Keyless (acts.foldl GossipNetwork.step net) :=
  List.foldlRecOn acts _ h fun _ hnet act hact => hnet.step (hacts act hact)

end Keyless

/-! ## Calls of handlers -/

/-- The messages that an act gives to handlers of the peer `id`. -/
def dispatched (sampler : Sampler) (id : Str) (net : GossipNetwork S) : GossipAct S → List Message
  | .receive i sur =>
    match net.sent[i]? with
    | none => []
    | some frame =>
      if frame.targetId = id then
        match net.members.get? id with
        | none => []
        | some member =>
          (member.peer.handleReceived sur sampler frame.senderId frame.data).dispatched
      else []
  | _ => []

/-- The handler that gets the message is the one of the type. -/
def isOf (type : MessageType) (m : Message) : Bool :=
  match m.get? "msg_type" with
  | some (.messageType t) => t = type
  | _ => false

/-- How often the peer `id` calls its handler of a type, in a run. -/
def handlerCalls (sampler : Sampler) (type : MessageType) (id : Str) :
    GossipNetwork S → List (GossipAct S) → ℕ
  | _, [] => 0
  | net, act :: acts =>
    (net.dispatched sampler id act).countP (isOf type)
      + handlerCalls sampler type id (net.step act) acts

variable {net : GossipNetwork S}

/-- Every frame in a network holds an envelope, and nobody can check its signature. -/
theorem dispatched_eq_nil (hsound : Sound net) (hkeys : Keyless net)
    (sampler : Sampler) (id : Str) (act : GossipAct S) : net.dispatched sampler id act = [] := by
  cases act with
  | receive i sur =>
    rw [dispatched]
    split
    · rfl
    rename_i frame hframe
    split
    · split
      · rfl
      · rename_i member hmember
        obtain ⟨env, henv⟩ := hsound.sent frame (mem_of_getElem? hframe)
        exact (hkeys id member hmember).dispatched_eq_nil henv.decodes sur sampler _
    · rfl
  | _ => rfl

/-- **Without keys no handler is ever called.** -/
theorem handlerCalls_eq_zero (hsound : Sound net) (hkeys : Keyless net)
    (sampler : Sampler) (type : MessageType) (id : Str) {acts : List (GossipAct S)}
    (hacts : ∀ act ∈ acts, act.handsKey = false) : handlerCalls sampler type id net acts = 0 := by
  induction acts generalizing net with
  | nil => rfl
  | cons act acts ih =>
    rw [forall_mem_cons] at hacts
    rw [handlerCalls, dispatched_eq_nil hsound hkeys, ih (hsound.step act) (hkeys.step hacts.1)
      hacts.2]
    rfl

/-! ## The manager -/

/-- The arguments of a `create_peer`, with the key that the peer makes for itself and the types
for which handlers are registered. -/
structure Seat (S : SignatureScheme) where
  peerId : Str
  fanout : ℕ
  signingKey : S.SigningKey
  handled : MessageType → Bool
  now : ℚ

/-- `create_peer`; `max_peers` has its default. -/
def createPeer (seat : Seat S) : GossipAct S :=
  .createPeer seat.peerId seat.fanout 50 seat.signingKey seat.handled seat.now

/-- `start_all`, of the peers that were created: each gets the addresses of the others. -/
def startAll (address : Str → Str) (clock : Str → Str → ℚ) (ids : List Str) : List (GossipAct S) :=
  ids.flatMap fun id => (ids.filter fun other => other ≠ id).map fun other =>
    .addPeer id other (address other) none (clock id other)

/-- The network that a manager built and started. -/
def built (address : Str → Str) (clock : Str → Str → ℚ) (seats : List (Seat S)) : GossipNetwork S :=
  let created := run (seats.map createPeer)
  (startAll address clock created.members.keys).foldl step created

variable (address : Str → Str) (clock : Str → Str → ℚ) (seats : List (Seat S))

theorem sound_built : Sound (built address clock seats) :=
  List.foldlRecOn _ _ (Sound.run _) fun _ hnet act _ => hnet.step act

/-- The manager hands no keys over. -/
theorem keyless_built : Keyless (built address clock seats) := by
  have hempty : Keyless (empty : GossipNetwork S) := by rintro id member ⟨⟩
  have hcreated : Keyless (run (seats.map createPeer)) := by
    refine hempty.foldl fun act hact => ?_
    obtain ⟨seat, -, rfl⟩ := mem_map.mp hact
    rfl
  refine hcreated.foldl fun act hact => ?_
  obtain ⟨id, -, hact⟩ := mem_flatMap.mp hact
  obtain ⟨other, -, rfl⟩ := mem_map.mp hact
  rfl

/-- In the run, every peer but the origin calls its handler of the type exactly once. -/
def Reaches (sampler : Sampler) (type : MessageType) (origin : Str) (net : GossipNetwork S)
    (acts : List (GossipAct S)) : Prop :=
  ∀ id ∈ net.members.keys, id ≠ origin → handlerCalls sampler type id net acts = 1

/-- Two peers are not all the same. -/
theorem exists_mem_keys_ne (h : 2 ≤ net.members.keys.length)
    (origin : Str) : ∃ id ∈ net.members.keys, id ≠ origin := by
  by_contra hall
  have hsubset : net.members.keys ⊆ [origin] := by
    intro id hid
    by_contra hne
    exact hall ⟨id, hid, fun heq => hne (mem_singleton.mpr heq)⟩
  have hnodup : net.members.keys.Nodup := net.members.nodup
  have hlength := (subperm_of_subset hnodup hsubset).length_le
  exact absurd (h.trans hlength) (by simp)

/-- **A broadcast reaches nobody.**  Take any network of two peers or more that a manager built
with `create_peer` and `start_all`, any of its peers as the one that gossips, any message, and
whatever happens then, as long as nobody hands keys over: the frames may arrive all in their
order, or late, or repeatedly, and other peers may gossip as well.  The other peers do not call
the handler for the message. -/
theorem not_reaches_broadcast (address : Str → Str) (clock : Str → Str → ℚ) (seats : List (Seat S))
    (htwo : 2 ≤ (built address clock seats).members.keys.length) (origin : Str) (sur : Surroundings)
    (drawn sampler : Sampler) (messageId : Str) (message : { v : Json // v.Unique })
    (type : MessageType) (rest : List (GossipAct S)) (hrest : ∀ act ∈ rest, act.handsKey = false) :
    ¬ Reaches sampler type origin (built address clock seats)
      (.gossip origin sur drawn messageId message :: rest) := by
  intro hreaches
  obtain ⟨id, hid, hne⟩ := exists_mem_keys_ne htwo origin
  have hzero : handlerCalls sampler type id (built address clock seats)
      (.gossip origin sur drawn messageId message :: rest) = 0 :=
    handlerCalls_eq_zero (sound_built address clock seats) (keyless_built address clock seats)
      sampler type id (forall_mem_cons.mpr ⟨rfl, hrest⟩)
  exact absurd ((hreaches id hid hne).symm.trans hzero) Nat.one_ne_zero

/-! ### Alice and bob -/

/-- Two peers with handlers for everything. -/
def aliceAndBob : GossipNetwork .tagged :=
  built (fun _ => []) (fun _ _ => 5) [⟨"alice", 3, (1 : UInt8), fun _ => true, 5⟩,
    ⟨"bob", 3, (2 : UInt8), fun _ => true, 5⟩]

/-- A heartbeat of alice's. -/
def heartbeatMessage : { v : Json // v.Unique } :=
  ⟨.obj GossipPeer.heartbeat, by decide, trivial, trivial, trivial, trivial⟩

/-- Alice gossips a heartbeat, and it arrives. -/
def heartbeatArrives : List (GossipAct .tagged) :=
  [.gossip "alice" GossipPeer.quiet GossipPeer.takeFirst "1" heartbeatMessage,
    .receive 0 GossipPeer.quiet]

theorem not_reaches_broadcast_bob :
    ¬ Reaches GossipPeer.takeFirst .heartbeat "alice" aliceAndBob heartbeatArrives :=
  not_reaches_broadcast _ _ _ (by decide) _ _ _ _ _ _ _ _ (by decide)

/-- **Bob never hears of it**: the frame was sent to bob and arrived, and no handler was called. -/
theorem heartbeat_unheard :
    (heartbeatArrives.foldl step aliceAndBob).sent.map (fun frame => (frame.senderId, frame.targetId))
        = [("alice".toList, "bob".toList)] ∧
      handlerCalls GossipPeer.takeFirst .heartbeat "bob" aliceAndBob heartbeatArrives = 0 :=
  ⟨by decide,
    handlerCalls_eq_zero (sound_built _ _ _) (keyless_built _ _ _) _ _ _ (by decide)⟩

end GossipNetwork

end TrustFlow.Protocol
