import TrustFlow.Custody.Storage
import TrustFlow.Protocol.Message

/-!
# Deletion over the network

The coordinator's `DELETE_MESSAGE` event signs a deletion token with the owner's
key and has the owner's `NetworkPeer` broadcast it; a subscriber decodes the frame
and hands it to `_handle_deletion`.  Three functions build the text that is signed
or checked, each with a time of its own: the coordinator signs with
`datetime.now(timezone.utc).isoformat()`, the message is stamped with `time.time()`
when it is built, and the receiver checks with the message's stamp.

## Main results

* `not_mem_text` — no number prints with a `T`, every date of `isoformat` has one,
  so the text that is checked is never the text that was signed;
* `deserializeBytes_toBytes` — a token survives `to_bytes` and
  `deserialize_message`;
* `handleBroadcast_eq_self_iff` — when a delivered token does nothing, by the key
  that the receiver has on record;
* `networked_deletion_iff` — a token of the coordinator removes the node only
  where nothing is checked, and there a token of anybody else removes it too.

A step is the arrival of one frame (`receive`).  Signatures and both clocks are
parameters; sockets, heartbeats and the status of other peers are left out.
-/

namespace TrustFlow.Protocol

open Custody List
open Library

/-! ## Stamps -/

/-- The digits of a number are no letters. -/
theorem digitChar_ne_T {d : ℕ} (hd : d < 10) : Nat.digitChar d ≠ 'T' := by
  interval_cases d <;> decide

theorem not_mem_numeral (n : ℕ) : 'T' ∉ numeral 10 n := by
  intro hmem
  obtain ⟨d, hd, hT⟩ := mem_numeral (by decide) hmem
  exact digitChar_ne_T hd hT.symm

/-- No float prints with a `T`. -/
theorem not_mem_decimalText (d : Decimal) : 'T' ∉ d.text := by
  simp only [Decimal.text, mem_append, not_or]
  refine ⟨?_, not_mem_numeral d.whole, ?_, ?_⟩
  · split <;> decide
  · unfold fractionText
    split
    · exact not_mem_nil
    · rw [mem_cons, mem_map, not_or]
      refine ⟨by decide, ?_⟩
      rintro ⟨digit, -, hT⟩
      exact digitChar_ne_T digit.2 hT
  · cases d.exponent with
    | none => exact not_mem_nil
    | some e =>
      rw [exponentText, twoDigits, mem_cons, mem_cons, not_or, not_or]
      refine ⟨by decide, ?_, ?_⟩
      · split <;> decide
      · split
        · rw [mem_cons, not_or]
          exact ⟨by decide, not_mem_numeral _⟩
        · exact not_mem_numeral _

/-- **No number prints with a `T`.** -/
theorem not_mem_text (n : Number) : 'T' ∉ n.text := by
  cases n with
  | int z =>
    intro hmem
    rcases mem_showInt hmem with hminus | ⟨d, hd, hT⟩
    · exact absurd hminus (by decide)
    · exact digitChar_ne_T hd hT.symm
  | float f =>
    cases f with
    | finite d => exact not_mem_decimalText d
    | nan => decide
    | posInf => decide
    | negInf => decide

/-- No date of `isoformat` is the text of a number. -/
theorem isoformat_ne_text (t : ℕ) (n : Number) : isoformat t ≠ n.text := by
  intro heq
  refine not_mem_text n (heq ▸ ?_)
  exact mem_append_right _ mem_cons_self

/-! ## Tokens -/

/-- `DeletionTokenMessage`. -/
structure DeletionTokenMessage where
  senderId : Str
  timestamp : Number
  msgId : Str
  signature : Str
  nodeHash : Str
  originatorId : Str
  tokenSignature : Str
  cascade : Bool
  reason : Str
  deriving DecidableEq

namespace DeletionTokenMessage

variable (m : DeletionTokenMessage)

/-- The message object. -/
def toMessage : Message where
  cls := .deletionToken
  fields :=
    [("sender_id", .json (.str m.senderId)),
      ("msg_type", .messageType .deletionToken),
      ("timestamp", .json m.timestamp.toJson),
      ("msg_id", .json (.str m.msgId)),
      ("signature", .json (.str m.signature)),
      ("node_hash", .json (.str m.nodeHash)),
      ("originator_id", .json (.str m.originatorId)),
      ("token_signature", .json (.str m.tokenSignature)),
      ("cascade", .json (.bool m.cascade)),
      ("reason", .json (.str m.reason))]

/-- The token that a message is; `none` is a field of another type than the
declared one. -/
def ofMessage (m : Message) : Option DeletionTokenMessage :=
  match m.get? "sender_id", m.get? "timestamp", m.get? "msg_id",
    m.get? "signature", m.get? "node_hash", m.get? "originator_id",
    m.get? "token_signature", m.get? "cascade", m.get? "reason" with
  | some (.json (.str senderId)), some (.json timestamp), some (.json (.str msgId)),
      some (.json (.str signature)), some (.json (.str nodeHash)), some (.json (.str originatorId)),
      some (.json (.str tokenSignature)), some (.json (.bool cascade)), some (.json (.str reason)) =>
      (Number.ofJson timestamp).map fun timestamp => {
        senderId, timestamp, msgId, signature, nodeHash, originatorId, tokenSignature, cascade, reason }
  | _, _, _, _, _, _, _, _, _ => none

/-- The text that the receiver checks the token's signature for. -/
def tokenData : Str := m.nodeHash ++ m.originatorId ++ m.timestamp.text

/-- The arguments of the constructor in `broadcast_deletion`. -/
def arguments (senderId nodeHash originatorId tokenSignature : Str) : PyObject :=
  [("sender_id", .json (.str senderId)), ("node_hash", .json (.str nodeHash)),
    ("originator_id", .json (.str originatorId)),
    ("token_signature", .json (.str tokenSignature)), ("cascade", .json (.bool true))]

/-- The token that these arguments make. -/
def stamped (sur : Surroundings) (senderId nodeHash originatorId tokenSignature : Str) :
    DeletionTokenMessage where
  senderId
  timestamp := .float (.finite sur.now)
  msgId := (sha256Hex (encodeUtf8 (sur.str (.json (.str senderId)) ++ [':'] ++
    sur.str (.json (.float (.finite sur.now))) ++ [':'] ++ MessageType.deletionToken.value))).take 16
  signature := []
  nodeHash
  originatorId
  tokenSignature
  cascade := true
  reason := []

variable (sur : Surroundings) (senderId nodeHash originatorId tokenSignature : Str)

theorem construct_arguments :
    construct sur .deletionToken (arguments senderId nodeHash originatorId tokenSignature)
      = .ok (stamped sur senderId nodeHash originatorId tokenSignature).toMessage := by
  rfl

/-- The names of the fields. -/
def names : List Str :=
  ["sender_id", "msg_type", "timestamp", "msg_id", "signature", "node_hash", "originator_id",
    "token_signature", "cascade", "reason"].map String.toList

theorem ofMessage_toMessage : ofMessage m.toMessage = some m := by
  have hread : ofMessage m.toMessage = (Number.ofJson m.timestamp.toJson).map fun timestamp =>
      { m with timestamp } := rfl
  rw [hread, Number.ofJson_toJson, Option.map_some]

/-- **The round trip of a token.** -/
theorem deserializeBytes_toBytes {m : DeletionTokenMessage} (hid : m.msgId ≠ []) :
    deserializeBytes sur m.toMessage.toBytes = .ok m.toMessage := by
  have hunique : (Json.obj m.toMessage.toDict).Unique := by
    refine ⟨?_, trivial, trivial, ?_, trivial, trivial, trivial, trivial, trivial, trivial, trivial,
      trivial⟩
    · show names.Nodup
      decide
    · cases m.timestamp <;> trivial
  rw [deserializeBytes, Message.toBytes, decodeUtf8_encodeUtf8, Option.bind_some,
    loads_dumps false hunique]
  cases hmsg : m.msgId with
  | nil => exact absurd hmsg hid
  | cons c cs =>
    cases m
    subst hmsg
    rfl

theorem msgId_stamped_ne_nil :
    (stamped sur senderId nodeHash originatorId tokenSignature).msgId ≠ [] := by
  intro hnil
  have hlength := congrArg List.length hnil
  simp [stamped] at hlength

end DeletionTokenMessage

/-! ## Peers -/

/-- A share as `_handle_share` keeps it. -/
structure StoredShare where
  index : ℤ
  data : Str
  threshold : ℤ
  total : ℤ
  sender : Str

/-- `NetworkPeer`; `publishing` says whether it has its PUB socket. -/
structure NetworkPeer (S : SignatureScheme) where
  peerId : Str
  signingKey : S.SigningKey
  storage : InMemoryStorage
  shares : Dict Str StoredShare
  content : Dict Str Bytes
  peerKeys : Dict Str S.VerifyKey
  publishing : Bool

/-- What `_handle_deletion` returns. -/
inductive DeletionResult where
  | deleted (nodeHash : Str)
  | invalidSignature
  | notFound
  deriving DecidableEq

namespace NetworkPeer

variable {S : SignatureScheme} (p : NetworkPeer S)

/-- `register_peer_key`. -/
def registerPeerKey (peerId : Str) (key : S.VerifyKey) : NetworkPeer S :=
  { p with peerKeys := p.peerKeys.set peerId key }

variable (m : DeletionTokenMessage)

/-- The check of `_handle_deletion`: `none` is the `ValueError` of
`bytes.fromhex`.  Without a key there is no check. -/
def checksToken : Option Bool :=
  match p.peerKeys.get? m.originatorId with
  | none => some true
  | some key => (hexDecode m.tokenSignature).map fun signature =>
    S.verify key (encodeUtf8 m.tokenData) signature

/-- The removal of `_handle_deletion`. -/
def removeNode (nodeHash : Str) (node : CoCNode) : NetworkPeer S :=
  { p with
    storage := p.storage.removeNode nodeHash
    shares := p.shares.erase node.contentHash
    content := p.content.erase node.contentHash }

/-- `_handle_deletion`. -/
def handleDeletion :
    Except PyError (DeletionResult × NetworkPeer S) :=
  match p.checksToken m with
  | none => .error .valueError
  | some false => .ok (.invalidSignature, p)
  | some true =>
    match p.storage.getNode m.nodeHash with
    | some node => .ok (.deleted m.nodeHash, p.removeNode m.nodeHash node)
    | none => .ok (.notFound, p)

/-- `_handle_broadcast` of a token: exceptions are caught. -/
def handleBroadcast : NetworkPeer S :=
  match p.handleDeletion m with
  | .ok (_, p) => p
  | .error _ => p

/-- A frame on a SUB socket that holds a token; `undeclared` is any other. -/
def receive (sur : Surroundings) (p : NetworkPeer S) (data : Bytes) :
    Except PyError (NetworkPeer S) :=
  match deserializeBytes sur data with
  | .error e => .error e
  | .ok message =>
    match message.cls, DeletionTokenMessage.ofMessage message with
    | .deletionToken, some m => .ok (p.handleBroadcast m)
    | _, _ => .error .undeclared

/-- `broadcast_deletion`, as the frame on the PUB socket. -/
def broadcastDeletion (sur : Surroundings) (p : NetworkPeer S)
    (nodeHash originatorId signature : Str) : Except PyError (Option Bytes) :=
  (construct sur .deletionToken
    (DeletionTokenMessage.arguments p.peerId nodeHash originatorId signature)).map fun message =>
      if p.publishing then some message.toBytes else none

variable {p : NetworkPeer S} {m : DeletionTokenMessage}

/-- The token has a signature by the key's holder of the text it is checked for. -/
def SignedBy (key : S.VerifyKey) (m : DeletionTokenMessage) : Prop :=
  ∃ signature, hexDecode m.tokenSignature = some signature ∧
    S.verify key (encodeUtf8 m.tokenData) signature = true

theorem getNode_removeNode {nodeHash : Str} {node : CoCNode} :
    (p.removeNode nodeHash node).storage.getNode nodeHash = none := by
  rw [removeNode, InMemoryStorage.getNode_removeNode, if_pos rfl]

theorem removeNode_ne {node : CoCNode} (hnode : p.storage.getNode m.nodeHash = some node) :
    p.removeNode m.nodeHash node ≠ p := by
  intro heq
  have hgone : (p.removeNode m.nodeHash node).storage.getNode m.nodeHash = none :=
    getNode_removeNode
  rw [heq, hnode] at hgone
  cases hgone

/-- The check passes if every key on record is one whose holder signed. -/
theorem checksToken_iff :
    p.checksToken m = some true ↔
      ∀ key, p.peerKeys.get? m.originatorId = some key → SignedBy key m := by
  rw [checksToken]
  cases hkey : p.peerKeys.get? m.originatorId with
  | none => simp
  | some key => simp [SignedBy, Option.map_eq_some_iff]

theorem handleBroadcast_of_checks (hchecks : p.checksToken m = some true) {node : CoCNode}
    (hnode : p.storage.getNode m.nodeHash = some node) :
    p.handleBroadcast m = p.removeNode m.nodeHash node := by
  simp only [handleBroadcast, handleDeletion, hchecks, hnode]

theorem handleBroadcast_of_not (h : p.checksToken m ≠ some true ∨ p.storage.getNode m.nodeHash = none) :
    p.handleBroadcast m = p := by
  cases hchecks : p.checksToken m with
  | none => simp only [handleBroadcast, handleDeletion, hchecks]
  | some checks =>
    cases checks with
    | false => simp only [handleBroadcast, handleDeletion, hchecks]
    | true =>
      have hnode := h.resolve_left fun hne => hne hchecks
      simp only [handleBroadcast, handleDeletion, hchecks, hnode]

/-- **A delivered token does nothing** if its node is not stored, or if it is not
signed under the key on record; otherwise it does something. -/
theorem handleBroadcast_eq_self_iff :
    p.handleBroadcast m = p ↔
      p.storage.getNode m.nodeHash = none ∨
        ∃ key, p.peerKeys.get? m.originatorId = some key ∧ ¬ SignedBy key m := by
  have hchecks : p.checksToken m ≠ some true ↔
      ∃ key, p.peerKeys.get? m.originatorId = some key ∧ ¬ SignedBy key m := by
    rw [Ne, checksToken_iff]
    push Not
    rfl
  rw [← hchecks]
  constructor
  · intro hself
    by_contra hneither
    push Not at hneither
    obtain ⟨hstored, hpasses⟩ := hneither
    obtain ⟨node, hnode⟩ := Option.ne_none_iff_exists'.mp hstored
    exact removeNode_ne hnode ((handleBroadcast_of_checks hpasses hnode).symm.trans hself)
  · exact fun h => handleBroadcast_of_not h.symm

theorem receive_toBytes (sur : Surroundings) (hid : m.msgId ≠ []) :
    p.receive sur m.toMessage.toBytes = .ok (p.handleBroadcast m) := by
  have hcls : m.toMessage.cls = .deletionToken := rfl
  simp only [receive, DeletionTokenMessage.deserializeBytes_toBytes sur hid, hcls,
    DeletionTokenMessage.ofMessage_toMessage]

end NetworkPeer

/-! ## The coordinator -/

namespace NetworkCoordinator

variable {S : SignatureScheme}

/-- `_find_peer`: by the whole id, or the first peer whose id has the text in it. -/
def findPeer (identifier : Str) (peers : Dict Str (NetworkPeer S)) : Option (Str × NetworkPeer S) :=
  match peers.get? identifier with
  | some peer => some (identifier, peer)
  | none => peers.entries.find? fun entry =>
    identifier.isPrefixOf entry.1 || decide (identifier <:+: entry.1)

/-- The text that the coordinator signs. -/
def tokenData (nodeHash originatorId : Str) (timestamp : Instant) : Str :=
  nodeHash ++ originatorId ++ isoformat timestamp.1

/-- `_event_delete_message`: the frame that is broadcast, and the peers. -/
def eventDeleteMessage (sur : Surroundings) (timestamp : Instant) (identifier nodeHash : Str)
    (peers : Dict Str (NetworkPeer S)) :
    Except PyError (Option Bytes × Dict Str (NetworkPeer S)) :=
  match findPeer identifier peers with
  | none => .ok (none, peers)
  | some (key, originator) =>
    match originator.storage.getNode nodeHash with
    | none => .ok (none, peers)
    | some node =>
      if node.ownerId ≠ originator.peerId then .ok (none, peers)
      else do
        let signature := hexEncode (S.sign originator.signingKey
          (encodeUtf8 (tokenData nodeHash originator.peerId timestamp)))
        let frame ← originator.broadcastDeletion sur nodeHash originator.peerId signature
        .ok (frame, peers.set key
          { originator with storage := originator.storage.removeNode nodeHash })

variable {peers : Dict Str (NetworkPeer S)} {identifier key nodeHash : Str}
  {originator receiver : NetworkPeer S} {node : CoCNode}

/-- The token that the event broadcasts. -/
def issued (sur : Surroundings) (timestamp : Instant) (originator : NetworkPeer S) (nodeHash : Str) :
    DeletionTokenMessage :=
  .stamped sur originator.peerId nodeHash originator.peerId
    (hexEncode (S.sign originator.signingKey
      (encodeUtf8 (tokenData nodeHash originator.peerId timestamp))))

variable (sur : Surroundings) (timestamp : Instant)

theorem eventDeleteMessage_eq (hfind : findPeer identifier peers = some (key, originator))
    (hnode : originator.storage.getNode nodeHash = some node)
    (howner : node.ownerId = originator.peerId) (hpublishing : originator.publishing = true) :
    eventDeleteMessage sur timestamp identifier nodeHash peers
      = .ok (some (issued sur timestamp originator nodeHash).toMessage.toBytes,
          peers.set key { originator with storage := originator.storage.removeNode nodeHash }) := by
  have hframe := DeletionTokenMessage.construct_arguments sur originator.peerId nodeHash
    originator.peerId (hexEncode (S.sign originator.signingKey
      (encodeUtf8 (tokenData nodeHash originator.peerId timestamp))))
  simp only [eventDeleteMessage, hfind, hnode, howner, ne_eq, not_true_eq_false, if_false,
    NetworkPeer.broadcastDeletion, hframe, hpublishing, if_true]
  rfl

section

variable (hideal : S.Binds originator.signingKey
  (encodeUtf8 (tokenData nodeHash originator.peerId timestamp)))
include hideal

/-- **The token of the event is not signed** for the text that it is checked for. -/
theorem not_signedBy_issued : ¬ NetworkPeer.SignedBy (S.verifyKey originator.signingKey)
        (issued sur timestamp originator nodeHash) := by
  rintro ⟨signature, hdecode, hverify⟩
  have hsignature : signature = S.sign originator.signingKey
      (encodeUtf8 (tokenData nodeHash originator.peerId timestamp)) :=
    Option.mem_unique hdecode (hexDecode_hexEncode _)
  rw [hsignature] at hverify
  -- the two texts differ in the stamp only
  have htext := encodeUtf8_injective (hideal _ hverify)
  exact isoformat_ne_text _ _ (append_cancel_left htext).symm

section

variable (hkey : ∀ key, receiver.peerKeys.get? originator.peerId = some key → key = S.verifyKey originator.signingKey)
include hkey

/-- The check of the event's token: it fails under the originator's key, and is
left out where no key is on record. -/
theorem checksToken_issued_iff :
    receiver.checksToken (issued sur timestamp originator nodeHash) = some true ↔
      receiver.peerKeys.get? originator.peerId = none := by
  rw [NetworkPeer.checksToken_iff]
  constructor
  · intro hsigned
    cases hregistered : receiver.peerKeys.get? originator.peerId with
    | none => rfl
    | some key =>
      have hkeyed := hsigned key hregistered
      rw [hkey key hregistered] at hkeyed
      exact absurd hkeyed (not_signedBy_issued sur timestamp hideal)
  · intro hnone key hregistered
    have hsome : receiver.peerKeys.get? originator.peerId = some key := hregistered
    cases hnone.symm.trans hsome

/-- What the event's token does to a receiver that stores its node. -/
theorem removed_issued_iff (hstored : receiver.storage.getNode nodeHash ≠ none) :
    (receiver.handleBroadcast (issued sur timestamp originator nodeHash)).storage.getNode nodeHash
        = none ↔
      receiver.peerKeys.get? originator.peerId = none := by
  rw [← checksToken_issued_iff sur timestamp hideal hkey]
  constructor
  · intro hremoved
    by_contra hchecks
    rw [NetworkPeer.handleBroadcast_of_not (.inl hchecks)] at hremoved
    exact hstored hremoved
  · intro hchecks
    obtain ⟨node, hnode⟩ := Option.ne_none_iff_exists'.mp hstored
    rw [NetworkPeer.handleBroadcast_of_checks hchecks hnode]
    exact NetworkPeer.getNode_removeNode

end

end

/-- **Deletion over the network.**  The event of a node's owner broadcasts a token;
at a receiver that stores the node and has no other key on record for the owner
than the owner's, it removes the node if and only if no key is on record.  A token
that the owner did not sign removes nothing if and only if a key is on record or
its node is not stored. -/
theorem networked_deletion_iff (sur sur' : Surroundings) (timestamp : Instant)
    (hfind : findPeer identifier peers = some (key, originator))
    (hnode : originator.storage.getNode nodeHash = some node)
    (howner : node.ownerId = originator.peerId) (hpublishing : originator.publishing = true)
    (hideal : S.Binds originator.signingKey
      (encodeUtf8 (tokenData nodeHash originator.peerId timestamp)))
    (hkey : ∀ key, receiver.peerKeys.get? originator.peerId = some key →
      key = S.verifyKey originator.signingKey)
    (hstored : receiver.storage.getNode nodeHash ≠ none) :
    (∃ frame peers' receiver',
        eventDeleteMessage sur timestamp identifier nodeHash peers = .ok (some frame, peers') ∧
        receiver.receive sur' frame = .ok receiver' ∧
        (receiver'.storage.getNode nodeHash = none ↔
          receiver.peerKeys.get? originator.peerId = none)) ∧
      ∀ m : DeletionTokenMessage, m.originatorId = originator.peerId →
        ¬ NetworkPeer.SignedBy (S.verifyKey originator.signingKey) m →
        (receiver.handleBroadcast m = receiver ↔
          receiver.peerKeys.get? originator.peerId ≠ none ∨
            receiver.storage.getNode m.nodeHash = none) := by
  refine ⟨⟨_, _, _, eventDeleteMessage_eq sur timestamp hfind hnode howner hpublishing,
    NetworkPeer.receive_toBytes sur' (DeletionTokenMessage.msgId_stamped_ne_nil sur _ _ _ _),
    removed_issued_iff sur timestamp hideal hkey hstored⟩, ?_⟩
  intro m horiginator hunsigned
  rw [NetworkPeer.handleBroadcast_eq_self_iff, horiginator, or_comm, Option.ne_none_iff_exists']
  refine or_congr_left (exists_congr fun key => and_iff_left_of_imp fun hregistered => ?_)
  rwa [hkey key hregistered]

/-! ### A node on two peers -/

/-- The time at which the node is deleted. -/
def firstInstant : Instant := ⟨0, datetimeMax_pos⟩

/-- What the calls take from outside. -/
def epoch : Surroundings := ⟨.ofNat 0, [], fun _ => []⟩

theorem recipients_memo : List.Pairwise (fun s t => keyLe s t = true) [("bob" : Str)] :=
  List.pairwise_singleton _ _

/-- A node of `alice`. -/
def memo : CoCNode :=
  ⟨2, "n0", "c0", none, "alice", ["bob"], isoformat 0, ∅, 0, none, recipients_memo⟩

/-- A scheme that tells the text of the event from all others. -/
abbrev scheme : SignatureScheme :=
  .marking (encodeUtf8 (tokenData memo.nodeHash "alice" firstInstant))

/-- A peer that stores the node. -/
def holder (peerId : Str) (keys : Dict Str scheme.VerifyKey) : NetworkPeer scheme :=
  ⟨peerId, (), InMemoryStorage.empty.addNode memo, .empty, .empty, keys, true⟩

/-- The peers that the coordinator runs. -/
def running : Dict Str (NetworkPeer scheme) :=
  Dict.empty.set "alice" (holder "alice" .empty)

/-- A peer that knows the key of `alice`. -/
def informed : NetworkPeer scheme := (holder "bob" .empty).registerPeerKey "alice" ()

theorem find_running :
    findPeer "alice" running = some ("alice".toList, holder "alice" .empty) := rfl

theorem getNode_holder (peerId : Str) (keys : Dict Str scheme.VerifyKey) :
    (holder peerId keys).storage.getNode memo.nodeHash = some memo :=
  InMemoryStorage.getNode_addNode_self _ memo

theorem key_of_scheme (receiver : NetworkPeer scheme) (key : scheme.VerifyKey)
    (_ : receiver.peerKeys.get? "alice" = some key) : key = scheme.verifyKey () := rfl

theorem getNode_informed : informed.storage.getNode memo.nodeHash ≠ none := by
  have hstored : informed.storage.getNode memo.nodeHash = some memo := getNode_holder _ _
  rw [hstored]
  exact Option.some_ne_none memo

/-- `bob` knows the key of `alice`: no token that `alice` did not sign removes the
node. -/
theorem networked_deletion_informed :
    ∃ receiver : NetworkPeer scheme, receiver = informed ∧
      ∀ m : DeletionTokenMessage, m.originatorId = "alice" →
        ¬ NetworkPeer.SignedBy (scheme.verifyKey ()) m → receiver.handleBroadcast m = receiver := by
  have hboth := networked_deletion_iff epoch epoch firstInstant find_running (getNode_holder _ _) rfl
    rfl (SignatureScheme.binds_marking _) (key_of_scheme informed) getNode_informed
  exact ⟨informed, rfl, fun m horiginator hunsigned =>
    (hboth.2 m horiginator hunsigned).mpr (.inl (by decide))⟩

/-- `bob` knows the key of `alice`, and keeps the node that `alice` deletes; a peer
that does not know it drops the node for a token without a signature. -/
theorem networked_deletion_fails :
    (∃ frame peers' receiver',
        eventDeleteMessage epoch firstInstant "alice" memo.nodeHash running
          = .ok (some frame, peers') ∧
        informed.receive epoch frame = .ok receiver' ∧
        receiver'.storage.getNode memo.nodeHash ≠ none) ∧
      ∃ m : DeletionTokenMessage, m.originatorId = "alice".toList ∧
        ¬ NetworkPeer.SignedBy (scheme.verifyKey ()) m ∧
        ((holder "bob" .empty).handleBroadcast m).storage.getNode memo.nodeHash = none := by
  refine ⟨⟨_, _, _, eventDeleteMessage_eq epoch firstInstant find_running (getNode_holder _ _) rfl rfl,
    NetworkPeer.receive_toBytes epoch (DeletionTokenMessage.msgId_stamped_ne_nil epoch _ _ _ _), ?_⟩,
    .stamped epoch "mallory" memo.nodeHash "alice" [], rfl, ?_, ?_⟩
  · intro hremoved
    have hnone := (removed_issued_iff epoch firstInstant (SignatureScheme.binds_marking _)
      (key_of_scheme informed) getNode_informed).mp hremoved
    exact absurd hnone (by decide)
  · rintro ⟨signature, hdecode, hverify⟩
    have hempty : signature = [] := Option.some.inj hdecode.symm
    have hmarked := hempty.symm.trans (of_decide_eq_true hverify)
    exact absurd hmarked.symm (cons_ne_nil _ _)
  · rw [NetworkPeer.handleBroadcast_of_checks rfl (getNode_holder _ _)]
    exact NetworkPeer.getNode_removeNode

end NetworkCoordinator

end TrustFlow.Protocol
