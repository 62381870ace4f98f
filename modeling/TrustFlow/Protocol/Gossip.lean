import Mathlib.Algebra.Order.Field.Rat
import TrustFlow.Library.Signature
import TrustFlow.Protocol.Message

/-!
# Gossip

`network/gossip.py`: envelopes, the cache of seen messages, and
`_handle_received`, which a peer runs on every frame it receives.

* `GossipEnvelope` — the envelope with its signature, to and from bytes.
* `MessageCache` — the messages seen in the last five minutes.
* `handleReceived` — duplicates, signature of the origin, timestamp, dispatch to
  a handler, and relay while the time to live lasts.

One call reads the clock once.  Handlers are outside; the result of a call names
the messages that were given to one.  An envelope field of another type than the
declared one, which the dataclass does not check, makes the frame unreadable
here.

A step is one call of `handleReceived`.  The clock, the nonces and `str()`
(`Surroundings`), the choice of `random.sample` (`Sampler`) and the signatures are
parameters; sockets and the anti-entropy exchange are left out.
-/

namespace TrustFlow.Protocol

open Library

/-! ## Envelopes -/

/-- `GossipEnvelope`. -/
structure GossipEnvelope where
  msgId : Str
  payload : Payload
  originId : Str
  ttl : ℤ
  timestamp : Number
  path : List Str
  signature : Str

/-- `DEFAULT_TTL`. -/
def defaultTtl : ℤ := 10

/-- A string. -/
def readStr : Json → Option Str
  | .str s => some s
  | _ => none

/-- An integer. -/
def readInt : Json → Option ℤ
  | .int z => some z
  | _ => none

/-- A list of strings. -/
def readPath : Json → Option (List Str)
  | .arr vs => vs.mapM readStr
  | _ => none

/-- A field with a default. -/
def readField {α : Type} (fs : List (Str × Json)) (name : Str) (default : α)
    (read : Json → Option α) : Option α :=
  match Assoc.get? name fs with
  | none => some default
  | some v => read v

namespace GossipEnvelope

/-- The names of the fields. -/
def names : List Str :=
  ["msg_id", "payload", "origin_id", "ttl", "timestamp",
    "path", "signature"]

variable (env : GossipEnvelope)

/-- `_get_signing_data`; `none` is the `TypeError` of `json.dumps`. -/
def signingData : Option Str :=
  env.payload.toJson.map fun v => List.intercalate ['|']
    [env.originId, env.timestamp.text, env.msgId, sha256Hex (encodeUtf8 (dumpsSorted false v))]

/-- `verify`. -/
def verify (S : SignatureScheme) (key : S.VerifyKey) (env : GossipEnvelope) : Except PyError Bool :=
  if env.signature = [] then .ok false
  else
    match env.signingData with
    | none => .error .typeError
    | some data =>
      match hexDecode env.signature with
      | none => .ok false
      | some signature => .ok (S.verify key (encodeUtf8 data) signature)

/-- The fields of an envelope whose payload has the JSON form `v`. -/
def wireFields (v : Json) : List (Str × Json) :=
  [("msg_id", .str env.msgId), ("payload", v), ("origin_id", .str env.originId),
    ("ttl", .int env.ttl), ("timestamp", env.timestamp.toJson),
    ("path", .arr (env.path.map .str)), ("signature", .str env.signature)]

/-- `to_dict`, as far as it has a JSON form. -/
def toDict : Option Json :=
  env.payload.toJson.map fun v => .obj (env.wireFields v)

/-- `to_bytes`. -/
def toBytes : Except PyError Bytes :=
  match env.toDict with
  | none => .error .typeError
  | some v => .ok (encodeUtf8 (dumps false v))

/-- `from_dict`.  The data class stores fields of any type; here a frame in which a field has
another type than its declaration is not read (`undeclared`). -/
def fromDict (sur : Surroundings) : Json → Except PyError GossipEnvelope
  | .obj fs =>
    if fs.all fun f => names.contains f.1 then
      match Assoc.get? "msg_id".toList fs, Assoc.get? "payload".toList fs,
        Assoc.get? "origin_id".toList fs with
      | some msgId, some payload, some originId =>
        match readStr msgId, readStr originId, readField fs "ttl" defaultTtl readInt,
          readField fs "timestamp" (.float (.finite sur.now)) Number.ofJson,
          readField fs "path" [] readPath, readField fs "signature" [] readStr with
        | some msgId, some originId, some ttl, some timestamp, some path, some signature =>
          .ok ⟨msgId, .ofJson payload, originId, ttl, timestamp, path, signature⟩
        | _, _, _, _, _, _ => .error .undeclared
      | _, _, _ => .error .typeError
    else .error .typeError
  | _ => .error .typeError

/-- `from_bytes`. -/
def fromBytes (sur : Surroundings) (data : Bytes) : Except PyError GossipEnvelope :=
  match (decodeUtf8 data).bind loads with
  | none => .error .valueError
  | some v => fromDict sur v

end GossipEnvelope

/-! ## Seen messages -/

/-- `MessageCache`. -/
structure MessageCache where
  cache : Dict Str ℚ
  maxSize : ℕ
  ttl : ℚ
  lastCleanup : ℚ

namespace MessageCache

/-- The cache of a new peer. -/
def new (now : ℚ) : MessageCache := ⟨.empty, 10000, 300, now⟩

/-- The oldest entries that do not fit. -/
def surplus (maxSize : ℕ) (cache : Dict Str ℚ) : List Str :=
  ((cache.entries.insertionSort fun e f => e.2 ≤ f.2).take
    (cache.entries.length - maxSize)).map Prod.fst

variable (c : MessageCache)

/-- `_maybe_cleanup`. -/
def maybeCleanup (now : ℚ) : MessageCache :=
  if now - c.lastCleanup < 60 then c
  else
    let live := c.cache.filter fun _ time => !decide (time < now - c.ttl)
    { c with
      cache := live.filter fun id _ => !(surplus c.maxSize live).contains id
      lastCleanup := now }

/-- `has_seen`. -/
def hasSeen (now : ℚ) (msgId : Str) : MessageCache × Bool :=
  let c := c.maybeCleanup now
  match c.cache.get? msgId with
  | none => (c, false)
  | some time =>
    if c.ttl < now - time then ({ c with cache := c.cache.erase msgId }, false) else (c, true)

/-- `mark_seen`. -/
def markSeen (now : ℚ) (msgId : Str) : MessageCache :=
  { c with cache := c.cache.set msgId now }.maybeCleanup now

end MessageCache

/-! ## Peers -/

/-- `PeerInfo`. -/
structure PeerInfo where
  peerId : Str
  address : Str
  lastSeen : ℚ

/-- `random.sample`: some `k` of the elements. -/
structure Sampler where
  sample : ℕ → List Str → List Str
  length_sample : ∀ k l, k ≤ l.length → (sample k l).length = k
  subperm_sample : ∀ k l, (sample k l).Subperm l

/-- `GossipPeer`; `handled` has the types with a registered handler. -/
structure GossipPeer (S : SignatureScheme) where
  peerId : Str
  fanout : ℕ
  peers : Dict Str PeerInfo
  peerKeys : Dict Str S.VerifyKey
  seen : MessageCache
  handled : MessageType → Bool

/-- What a call of `_handle_received` leaves behind: the peer, the messages given
to a handler, and the frame handed on with its targets, or the exception. -/
structure Handled (S : SignatureScheme) where
  peer : GossipPeer S
  dispatched : List Message
  outcome : Except PyError (Option (Bytes × List Str))

namespace GossipPeer

variable {S : SignatureScheme} (peer : GossipPeer S)

/-- `_select_gossip_targets`. -/
def selectGossipTargets (sampler : Sampler) (exclude : List Str) : List Str :=
  let available := peer.peers.keys.filter fun id => !exclude.contains id
  if available.length ≤ peer.fanout then available else sampler.sample peer.fanout available

/-- `_forward_gossip`: the frame is made even if nobody is left to send it to. -/
def forwardGossip (sampler : Sampler) (env : GossipEnvelope)
    (exclude : List Str) : Except PyError (Bytes × List Str) :=
  env.toBytes.map fun data => (data, peer.selectGossipTargets sampler exclude)

/-- `_dispatch_message`. -/
def dispatch (m : Message) : List Message :=
  match m.get? "msg_type" with
  | some (.messageType t) => if peer.handled t then [m] else []
  | _ => []

/-- `update_last_seen` of the sender, if it is known. -/
def touch (now : ℚ) (senderId : Str) : GossipPeer S :=
  match peer.peers.get? senderId with
  | none => peer
  | some info => { peer with peers := peer.peers.set senderId { info with lastSeen := now } }

/-- The part of `_handle_received` after an envelope passed the checks. -/
def relay (sur : Surroundings) (sampler : Sampler) (peer : GossipPeer S) (senderId : Str)
    (env : GossipEnvelope) : Handled S :=
  let peer := { peer with seen := peer.seen.markSeen (decimalValue sur.now) env.msgId }
  let decoded := deserializeMessage sur env.payload
  let dispatched := match decoded.2 with
    | .ok m => peer.dispatch m
    | .error _ => []
  -- the envelope keeps the payload as decoding left it
  let env := { env with payload := decoded.1, ttl := env.ttl - 1 }
  if 0 < env.ttl then
    let env := { env with path := env.path ++ [peer.peerId] }
    ⟨peer, dispatched,
      (peer.forwardGossip sampler env (env.path ++ [senderId, env.originId])).map some⟩
  else ⟨peer, dispatched, .ok none⟩

/-- `_handle_received`. -/
def handleReceived (sur : Surroundings) (sampler : Sampler) (peer : GossipPeer S) (senderId : Str)
    (data : Bytes) : Handled S :=
  match GossipEnvelope.fromBytes sur data with
  | .error _ =>
    match deserializeBytes sur data with
    | .ok m => ⟨peer, peer.dispatch m, .ok none⟩
    | .error _ => ⟨peer, [], .ok none⟩
  | .ok env =>
    let now := decimalValue sur.now
    let peer := peer.touch now senderId
    let known := peer.seen.hasSeen now env.msgId
    let peer := { peer with seen := known.1 }
    if known.2 then ⟨peer, [], .ok none⟩
    else
      match peer.peerKeys.get? env.originId with
      | none => ⟨peer, [], .ok none⟩
      | some key =>
        match env.verify S key with
        | .error e => ⟨peer, [], .error e⟩
        | .ok false => ⟨peer, [], .ok none⟩
        | .ok true =>
          if timestampValid now env.timestamp then relay sur sampler peer senderId env
          else ⟨peer, [], .ok none⟩

end GossipPeer

end TrustFlow.Protocol
