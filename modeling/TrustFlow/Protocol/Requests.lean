import TrustFlow.Protocol.NetworkPeer
import TrustFlow.Protocol.WireFormat

/-!
# The handlers of a network peer

`peer_process.py`: a decoded message goes to the handler that is registered for its
type, and the handlers keep shares, content and nodes in three stores.

* `type_of_deserializeDict` — the type of a decoded message is the one its class sets, and
  one class serves several types of the wire.
* `request_dispatch_iff` — which requests reach the handler of their type.
* `deletion_keeps_iff` — when a deletion leaves the stores as its rule says: content goes
  with the last node that refers to it.
-/

namespace TrustFlow.Protocol

open Custody Library List Assoc MessageClass

/-! ## Dispatch -/

/-- The type that a dictionary has on the wire. -/
def wireType (data : PyObject) : Option MessageType :=
  match Assoc.get? "msg_type".toList data with
  | some (.json (.str s)) => MessageType.ofValue s
  | some (.messageType t) => some t
  | _ => none

theorem get?_of_baseInit {sur : Surroundings} {fields fields' : PyObject}
    (hinit : baseInit sur fields = .ok fields') {name : Str} (hname : name ≠ "msg_id") :
    Assoc.get? name fields' = Assoc.get? name fields := by
  rw [baseInit] at hinit
  dsimp only at hinit
  split at hinit
  · rw [Except.ok.inj hinit]
  · split at hinit
    · cases hinit
    · rw [← Except.ok.inj hinit, get?_set, if_neg hname.symm]

/-- A constructor sets the type of its class, whatever it is given. -/
theorem type_of_construct {sur : Surroundings} {cls : MessageClass} {t : MessageType}
    (hown : cls.ownType = some t) {data : PyObject} {m : Message}
    (hok : construct sur cls data = .ok m) : m.get? "msg_type" = some (.messageType t) := by
  rw [construct] at hok
  dsimp only at hok
  split at hok
  · split at hok
    · cases hok
    · rw [postInit_eq] at hok
      obtain ⟨fields, hinit, rfl⟩ := map_eq_ok.mp hok
      show get? _ fields = _
      rw [get?_of_baseInit hinit (by decide), type_fillNonce, setType, hown, get?_set, if_pos rfl]
  · cases hok

/-- **The type of a decoded message** is the one that the class of the wire's type sets. -/
theorem type_of_deserializeDict {sur : Surroundings} {data : PyObject} {t u : MessageType}
    (ht : wireType data = some t) (hown : (ofType t).ownType = some u) {m : Message}
    (hok : (deserializeDict sur data).2 = .ok m) :
    m.get? "msg_type" = some (.messageType u) := by
  have hdict : deserializeDict sur data = fromDict sur (ofType t) data := by
    rw [wireType] at ht
    rw [deserializeDict]
    split at ht
    · next s hs => rw [hs]; dsimp only; rw [ht]; rfl
    · next v hv => rw [hv, ← Option.some.inj ht]
    · cases ht
  rw [hdict, fromDict] at hok
  dsimp only at hok
  split at hok
  · exact type_of_construct hown hok
  · cases hok

/-- What `_handle_request` answers: the data of a handler, its exception, or that
there is none. -/
inductive Reply where
  | success (data : PyObject)
  | failed (e : PyError)
  | unknownType

namespace NetworkPeer

variable {S : SignatureScheme}

/-- A message handler, with the peer that it leaves. -/
abbrev Handler (S : SignatureScheme) := NetworkPeer S → Message → Except PyError PyObject × NetworkPeer S

/-- The answer that a handler gives. -/
def answer (handler : Option (Handler S)) (p : NetworkPeer S) (m : Message) : Reply × NetworkPeer S :=
  match handler with
  | none => (.unknownType, p)
  | some handler => match handler p m with
    | (.ok data, p) => (.success data, p)
    | (.error e, p) => (.failed e, p)

/-- `_handle_request`, over `_message_handlers`. -/
def handleRequest (handlers : MessageType → Option (Handler S)) (p : NetworkPeer S) (m : Message) :
    Except PyError (Reply × NetworkPeer S) :=
  match m.get? "msg_type" with
  | none => .error .attributeError
  | some (.messageType t) => .ok (answer (handlers t) p m)
  | some v => if v.hashable then .ok (answer none p m) else .error .typeError

/-- The lookup of the two request handlers. -/
def lookUp {α : Type} (stored : Dict Str α) (name : String) (toJson : α → Json) (m : Message) :
    Except PyError PyObject :=
  let found (b : Bool) : Str × PyValue := ("found", .json (.bool b))
  match m.get? "content_hash" with
  | none => .error .attributeError
  | some (.json (.str contentHash)) =>
    match stored.get? contentHash with
    | some value => .ok [found true, (name.toList, .json (toJson value))]
    | none => .ok [found false]
  | some v => if v.hashable then .ok [found false] else .error .typeError

/-- A share as `_handle_request_share` sends it. -/
def shareJson (s : StoredShare) : Json :=
  .obj [("index", .int s.index), ("data", .str s.data),
    ("threshold", .int s.threshold), ("total", .int s.total),
    ("from", .str s.sender)]

/-- `_handle_request_share`. -/
def handleRequestShare : Handler S := fun p m => (lookUp p.shares "share" shareJson m, p)

/-- `_handle_request_content`. -/
def handleRequestContent : Handler S := fun p m =>
  (lookUp p.content "content" (fun bs => .str (hexEncode bs)) m, p)

/-- The handlers of a peer: those of the two requests, and any others. -/
def registered (others : MessageType → Option (Handler S)) : MessageType → Option (Handler S)
  | .requestShare => some handleRequestShare
  | .requestContent => some handleRequestContent
  | t => others t

/-- **Which requests reach the handler of their type.**  A decoded message of a registered
class keeps the type of the wire, and `_handle_request` runs the handler of that type, if and
only if the type is none of the three that share a class with another.  A content request is
answered as a share request is. -/
theorem request_dispatch_iff {sur : Surroundings} {data : PyObject} {t : MessageType}
    (ht : wireType data = some t) (hregistered : ofType t ≠ .network) {m : Message}
    (hok : (deserializeDict sur data).2 = .ok m) :
    ((m.get? "msg_type" = some (.messageType t) ∧
        ∀ handlers (p : NetworkPeer S), handleRequest handlers p m = .ok (answer (handlers t) p m)) ↔
      t ∉ [MessageType.requestContent, .reconstructRequest, .error]) ∧
    (t = .requestContent → ∀ others (p : NetworkPeer S),
      handleRequest (registered others) p m = .ok (answer (some handleRequestShare) p m)) := by
  have hown : ∃ u, (ofType t).ownType = some u ∧
      (u = t ↔ t ∉ [MessageType.requestContent, .reconstructRequest, .error]) := by
    cases t with
    | deletionAck => exact absurd rfl hregistered
    | peerDiscovery => exact absurd rfl hregistered
    | _ => exact ⟨_, rfl, by decide⟩
  obtain ⟨u, hu, hsame⟩ := hown
  have htype := type_of_deserializeDict ht hu hok
  constructor
  · rw [← hsame, htype]
    constructor
    · rintro ⟨⟨⟩, -⟩
      rfl
    · rintro rfl
      refine ⟨rfl, fun handlers p => ?_⟩
      rw [handleRequest, htype]
  · rintro rfl others p
    obtain rfl : MessageType.requestShare = u := Option.some.inj hu
    rw [handleRequest, htype]
    rfl

/-! ## Stores -/

/-- A message that the handlers of the stores take. -/
inductive Delivery where
  | share (contentHash : Str) (stored : StoredShare)
  | content (contentHash encryptedContent : Str)
  | cocNode (node : CoCNode)
  | deletionToken (m : DeletionTokenMessage)

variable (p : NetworkPeer S)

/-- `_handle_share`, `_handle_content`, `_handle_coc_node` and `_handle_deletion`; an
exception leaves the peer as it is. -/
def handle : Delivery → NetworkPeer S
  | .share contentHash stored => { p with shares := p.shares.set contentHash stored }
  | .content contentHash encryptedContent =>
    match hexDecode encryptedContent with
    | none => p
    | some bs => { p with content := p.content.set contentHash bs }
  | .cocNode node => { p with storage := p.storage.addNode node }
  | .deletionToken m => p.handleBroadcast m

/-- An entry for `h` goes if and only if no stored node has the content hash `h`. -/
def GoesWithLast {α : Type} (before after : Dict Str α) (s : InMemoryStorage) (h : Str) : Prop :=
  before.get? h ≠ none →
    (after.get? h = none ↔ ∀ nodeHash n, s.getNode nodeHash = some n → n.contentHash ≠ h)

/-- The rule for the deletion of a node with content hash `h`: its content and its share go
with the last node. -/
def KeepsReferenced (m : DeletionTokenMessage) (h : Str) : Prop :=
  let p' := p.handle (.deletionToken m)
  GoesWithLast p.content p'.content p'.storage h ∧ GoesWithLast p.shares p'.shares p'.storage h

/-- **When a deletion keeps referenced content.**  After any messages, a deletion that
removes a node follows the rule if and only if no other node has its content hash, or there is
neither content nor share for it. -/
theorem deletion_keeps_iff (deliveries : List Delivery)
    {m : DeletionTokenMessage} {node : CoCNode}
    (hchecks : (deliveries.foldl handle p).checksToken m = some true)
    (hnode : (deliveries.foldl handle p).storage.getNode m.nodeHash = some node) :
    (deliveries.foldl handle p).KeepsReferenced m node.contentHash ↔
      (∀ nodeHash n, (deliveries.foldl handle p).storage.getNode nodeHash = some n →
          nodeHash ≠ m.nodeHash → n.contentHash ≠ node.contentHash) ∨
        (deliveries.foldl handle p).content.get? node.contentHash = none ∧
          (deliveries.foldl handle p).shares.get? node.contentHash = none := by
  generalize deliveries.foldl handle p = q at *
  have hremoved : q.handle (.deletionToken m) = q.removeNode m.nodeHash node :=
    handleBroadcast_of_checks hchecks hnode
  have hremaining : (∀ nodeHash n, (q.storage.removeNode m.nodeHash).getNode nodeHash = some n →
        n.contentHash ≠ node.contentHash) ↔
      ∀ nodeHash n, q.storage.getNode nodeHash = some n → nodeHash ≠ m.nodeHash →
        n.contentHash ≠ node.contentHash := by
    refine forall₂_congr fun nodeHash n => ?_
    rw [InMemoryStorage.getNode_removeNode]
    split
    · next heq => simp [heq]
    · next hne => exact ⟨fun h hget _ => h hget, fun h hget => h hget (Ne.symm hne)⟩
  have herased : ∀ {α : Type} (d : Dict Str α),
      (d.erase node.contentHash).get? node.contentHash = none := by
    intro α d
    rw [Dict.get?_erase, if_pos rfl]
  rw [← hremaining]
  simp only [KeepsReferenced, GoesWithLast, hremoved, removeNode, herased, true_iff]
  tauto

/-! ### A node and its reply -/

open NetworkCoordinator

/-- A second node with the content of the first. -/
def reply : CoCNode := { memo with nodeHash := "n1" }

/-- `bob` gets both nodes and their content. -/
def letters : List Delivery :=
  [.cocNode memo, .cocNode reply, .content memo.contentHash "01"]

/-- A token for a node, from nobody that `bob` knows. -/
def tokenFor (nodeHash : Str) : DeletionTokenMessage :=
  .stamped epoch "bob" nodeHash "bob" []

/-- A node with another content. -/
def invoice : CoCNode := { memo with nodeHash := "n2", contentHash := "c2" }

/-- `bob`, who stores the first node, gets the invoice, the content of the node and a share
of it. -/
def parcels : List Delivery :=
  [.cocNode invoice, .content memo.contentHash "01",
    .share memo.contentHash ⟨1, "02", 2, 3, "alice"⟩]

/-- `bob` deletes the node: its content and its share were stored and go with it, and the
invoice stays. -/
theorem deletion_keeps_invoice :
    let p := parcels.foldl handle (holder "bob" .empty)
    let p' := p.handle (.deletionToken (tokenFor memo.nodeHash))
    p.content.get? memo.contentHash = some [1] ∧
      p.shares.get? memo.contentHash = some ⟨1, "02", 2, 3, "alice"⟩ ∧
      p'.storage.getNode invoice.nodeHash = some invoice ∧
      p.KeepsReferenced (tokenFor memo.nodeHash) memo.contentHash := by
  refine ⟨rfl, rfl, rfl, (deletion_keeps_iff (holder "bob" .empty) parcels
    (m := tokenFor memo.nodeHash) rfl rfl).mpr (.inl fun nodeHash n hget hne => ?_)⟩
  have hnode : ((InMemoryStorage.empty.addNode memo).addNode invoice).getNode nodeHash = some n :=
    hget
  rw [InMemoryStorage.getNode_addNode, InMemoryStorage.getNode_addNode,
    if_neg (Ne.symm hne : memo.nodeHash ≠ nodeHash)] at hnode
  split at hnode
  · rw [← Option.some.inj hnode]
    decide
  · cases hnode

/-- `bob` deletes the first node: the content of the second is gone. -/
theorem deletion_drops_referenced :
    let p := letters.foldl handle (holder "bob" .empty)
    let p' := p.handle (.deletionToken (tokenFor memo.nodeHash))
    p.content.get? memo.contentHash = some [1] ∧ p'.content.get? memo.contentHash = none ∧
      p'.storage.getNode reply.nodeHash = some reply ∧ reply.contentHash = memo.contentHash := by
  refine ⟨rfl, rfl, rfl, rfl⟩

/-- A request for the content, or for a share of it. -/
def requestOf (t : MessageType) : PyObject :=
  [("msg_type", .json (.str t.value)), ("sender_id", .json (.str "alice")),
    ("msg_id", .json (.str "1")),
    ("content_hash", .json (.str memo.contentHash))]

theorem request_dispatch_share : ∃ m,
    (deserializeDict epoch (requestOf .requestShare)).2 = .ok m ∧
      ∀ handlers (p : NetworkPeer scheme),
        handleRequest handlers p m = .ok (answer (handlers .requestShare) p m) :=
  ⟨_, rfl, ((@request_dispatch_iff scheme epoch (requestOf .requestShare) .requestShare rfl
    (by decide) _ rfl).1.mpr (by decide)).2⟩

/-- `bob` has the content and says that it is not found. -/
theorem content_request_unanswered : ∃ m,
    wireType (requestOf .requestContent) = some .requestContent ∧
      (deserializeDict epoch (requestOf .requestContent)).2 = .ok m ∧
      m.get? "msg_type".toList = some (.messageType .requestShare) ∧
      let p := letters.foldl handle (holder "bob" .empty)
      handleRequest (registered fun _ => none) p m
          = .ok (.success [("found", .json (.bool false))], p) ∧
        (handleRequestContent p m).1 = .ok [("found", .json (.bool true)),
          ("content", .json (.str "01"))] := by
  refine ⟨_, rfl, rfl, rfl, rfl, rfl⟩

end NetworkPeer

end TrustFlow.Protocol
