import Mathlib.Data.Rat.Defs
import TrustFlow.Library.Json
import TrustFlow.Library.Sha256

/-!
# Wire messages

`network/protocol.py`: the message classes and `deserialize_message`.

* `MessageType`, `PeerStatus` — the enumerations, with their wire values.
* `MessageClass` — the dataclasses, by their own fields and defaults.
* `construct` — `cls(**data)` with `__post_init__`.
* `fromDict` — `from_dict`, which puts enumeration members into the dictionary
  it is given, in place of the strings.
* `deserializeMessage` — the message of a payload, and what the call leaves of
  the payload.

Dataclasses do not check the types of their fields, so a field holds any value.
The clock, the random nonces and `str()` of a value are taken from outside
(`Surroundings`).
-/

namespace TrustFlow.Protocol

open Library Option Assoc

/-! ## Enumerations -/

/-- `MessageType`. -/
inductive MessageType where
  | share | cocNode | content | deletionToken | deletionAck | peerStatus | peerDiscovery | heartbeat
  | requestShare | requestContent | reconstructRequest | response | error | keyExchange
  | keyExchangeAck
  deriving DecidableEq

namespace MessageType

/-- The value of a member. -/
def value : MessageType → Str
  | share => "share"
  | cocNode => "coc_node"
  | content => "content"
  | deletionToken => "deletion_token"
  | deletionAck => "deletion_ack"
  | peerStatus => "peer_status"
  | peerDiscovery => "peer_discovery"
  | heartbeat => "heartbeat"
  | requestShare => "request_share"
  | requestContent => "request_content"
  | reconstructRequest => "reconstruct"
  | response => "response"
  | error => "error"
  | keyExchange => "key_exchange"
  | keyExchangeAck => "key_exchange_ack"

/-- The members, in the order of the class. -/
def members : List MessageType :=
  [share, cocNode, content, deletionToken, deletionAck, peerStatus, peerDiscovery, heartbeat,
    requestShare, requestContent, reconstructRequest, response, error, keyExchange, keyExchangeAck]

/-- `MESSAGE_TYPE_MAP.get`. -/
def ofValue (s : Str) : Option MessageType := members.find? fun t => t.value = s

end MessageType

/-- `PeerStatus`. -/
inductive PeerStatus where
  | online | offline | unknown
  deriving DecidableEq

namespace PeerStatus

/-- The value of a member. -/
def value : PeerStatus → Str
  | online => "online"
  | offline => "offline"
  | unknown => "unknown"

/-- `PEER_STATUS_MAP.get`. -/
def ofValue (s : Str) : Option PeerStatus := [online, offline, unknown].find? fun t => t.value = s

end PeerStatus

/-! ## Values -/

/-- The exceptions that can occur. -/
inductive PyError where
  | keyError | typeError | attributeError | valueError
  /-- A value of another type than the declared one where the code relies on it;
  what follows is not modelled. -/
  | undeclared
  deriving DecidableEq

/-- A value in a dictionary: one that came from JSON, or an enumeration member. -/
inductive PyValue where
  | json (v : Json)
  | messageType (t : MessageType)
  | peerStatus (s : PeerStatus)

/-- A dictionary with string keys. -/
abbrev PyObject := List (Str × PyValue)

/-- The digits of a decimal are all zero. -/
def isZero (d : Decimal) : Bool := d.whole = 0 && d.fraction.all fun digit => digit.1 = 0

namespace PyValue

/-- `bool(v)`. -/
def truthy : PyValue → Bool
  | json .null => false
  | json (.bool b) => b
  | json (.int z) => decide (z ≠ 0)
  | json (.float (.finite d)) => !isZero d
  | json (.float _) => true
  | json (.str s) => !s.isEmpty
  | json (.arr vs) => !vs.isEmpty
  | json (.obj fs) => !fs.isEmpty
  | messageType _ => true
  | peerStatus _ => true

/-- Whether the value can be a dictionary key. -/
def hashable : PyValue → Bool
  | json (.arr _) => false
  | json (.obj _) => false
  | _ => true

/-- `v.value`; only enumeration members have it. -/
def enumValue : PyValue → Option Str
  | json _ => none
  | messageType t => some t.value
  | peerStatus s => some s.value

/-- What `json.dumps` makes of the value; it has no form for members. -/
def toJson : PyValue → Option Json
  | json v => some v
  | messageType _ => none
  | peerStatus _ => none

end PyValue

/-- What a call takes from outside: `time.time()`, `secrets.token_hex(16)` and
`str()`. -/
structure Surroundings where
  now : Decimal
  nonce : Str
  str : PyValue → Str

/-! ## Message classes -/

/-- The message classes. -/
inductive MessageClass where
  | network | share | deletionToken | cocNode | peerStatus | content | request | response | heartbeat
  | keyExchange | keyExchangeAck
  deriving DecidableEq

/-- A message object. -/
structure Message where
  cls : MessageClass
  fields : PyObject

/-- An attribute of a message. -/
def Message.get? (m : Message) (name : Str) : Option PyValue := Assoc.get? name m.fields

namespace MessageClass

/-- A string default. -/
def text (name : String) : Str × PyValue := (name.toList, .json (.str []))

/-- The fields that a class adds, with their defaults. -/
def ownFields : MessageClass → PyObject
  | network => []
  | share =>
    [("share_index", .json (.int 0)), text "share_data", text "content_hash",
      ("threshold", .json (.int 0)), ("total_shares", .json (.int 0)),
      text "metadata"]
  | deletionToken =>
    [text "node_hash", text "originator_id", text "token_signature",
      ("cascade", .json (.bool true)), text "reason"]
  | cocNode =>
    [("node_data", .json (.obj [])), text "parent_hash", text "content_hash",
      text "watermark_key"]
  | peerStatus =>
    [text "peer_id", ("status", .peerStatus .unknown), text "address",
      ("capabilities", .json (.arr []))]
  | content =>
    [text "content_hash", text "encrypted_content", ("timelock_expiry", .json (.int 0)),
      ("encryption_metadata", .json (.obj []))]
  | request =>
    [text "request_type", text "content_hash", ("additional_params", .json (.obj []))]
  | response =>
    [text "request_id", ("success", .json (.bool true)), ("data", .json (.obj [])),
      text "error_message"]
  | heartbeat => [("sequence", .json (.int 0)), ("load", .json (.int 0))]
  | keyExchange => [text "public_key", text "peer_address", text "nonce"]
  | keyExchangeAck =>
    [text "public_key", text "peer_address", text "original_nonce", text "response_nonce"]

/-- The type that `__post_init__` sets. -/
def ownType : MessageClass → Option MessageType
  | network => none
  | share => some .share
  | deletionToken => some .deletionToken
  | cocNode => some .cocNode
  | peerStatus => some .peerStatus
  | content => some .content
  | request => some .requestShare
  | response => some .response
  | heartbeat => some .heartbeat
  | keyExchange => some .keyExchange
  | keyExchangeAck => some .keyExchangeAck

/-- The field that `__post_init__` fills with a nonce. -/
def nonceField : MessageClass → Option Str
  | keyExchange => some "nonce"
  | keyExchangeAck => some "response_nonce"
  | _ => none

/-- `MESSAGE_CLASSES.get(msg_type, NetworkMessage)`. -/
def ofType : MessageType → MessageClass
  | .share => share
  | .cocNode => cocNode
  | .deletionToken => deletionToken
  | .peerStatus => peerStatus
  | .content => content
  | .requestShare => request
  | .requestContent => request
  | .reconstructRequest => request
  | .response => response
  | .error => response
  | .heartbeat => heartbeat
  | .keyExchange => keyExchange
  | .keyExchangeAck => keyExchangeAck
  | .deletionAck => network
  | .peerDiscovery => network

end MessageClass

/-- What `json.dumps` gets for a field from `to_dict`: members by their values. -/
def PyValue.wire : PyValue → Json
  | json v => v
  | messageType t => .str t.value
  | peerStatus s => .str s.value

/-- `to_dict`. -/
def Message.toDict (m : Message) : List (Str × Json) := m.fields.map fun f => (f.1, f.2.wire)

/-- `to_bytes`. -/
def Message.toBytes (m : Message) : Bytes := encodeUtf8 (dumps false (.obj m.toDict))

/-! ## Construction -/

section

variable (sur : Surroundings)

/-- The fields of a class with their defaults; `sender_id` has none. -/
def defaults (cls : MessageClass) : PyObject :=
  ("msg_type", .messageType .heartbeat) ::
    ("timestamp", .json (.float (.finite sur.now))) :: MessageClass.text "msg_id" ::
    MessageClass.text "signature" :: cls.ownFields

/-- `NetworkMessage.__post_init__`. -/
def baseInit (fields : PyObject) : Except PyError PyObject :=
  let get (name : String) : PyValue := (Assoc.get? name.toList fields).getD (.json .null)
  if (get "msg_id").truthy then .ok fields
  else
    match (get "msg_type").enumValue with
    | none => .error .attributeError
    | some value =>
      let text := sur.str (get "sender_id") ++ [':'] ++ sur.str (get "timestamp") ++ [':'] ++ value
      .ok (Assoc.set "msg_id" (.json (.str ((sha256Hex (encodeUtf8 text)).take 16))) fields)

/-- `__post_init__`. -/
def postInit (cls : MessageClass) (fields : PyObject) : Except PyError PyObject :=
  let fields := match cls.ownType with
    | none => fields
    | some t => Assoc.set "msg_type" (.messageType t) fields
  let fields := match cls.nonceField with
    | none => fields
    | some name =>
      if ((Assoc.get? name fields).getD (.json .null)).truthy then fields
      else Assoc.set name (.json (.str sur.nonce)) fields
  baseInit sur fields

/-- `cls(**data)`. -/
def construct (cls : MessageClass) (data : PyObject) : Except PyError Message :=
  let names := "sender_id".toList :: (defaults sur cls).map Prod.fst
  if data.all fun entry => names.contains entry.1 then
    match Assoc.get? "sender_id".toList data with
    | none => .error .typeError
    | some senderId =>
      let fields := ("sender_id".toList, senderId) :: (defaults sur cls).map fun entry =>
        (entry.1, (Assoc.get? entry.1 data).getD entry.2)
      (postInit sur cls fields).map fun fields => ⟨cls, fields⟩
  else .error .typeError

/-- `data[key] = MAP[data[key]]`, if that is a string; `none` is `KeyError`. -/
def retype (key : Str) (read : Str → Option PyValue) (data : PyObject) : Option PyObject :=
  match Assoc.get? key data with
  | some (.json (.str s)) => (read s).map fun member => Assoc.set key member data
  | _ => some data

/-- The conversions of `from_dict`: what they leave of the dictionary, and
whether they succeed. -/
def retypeFields (cls : MessageClass) (data : PyObject) : PyObject × Bool :=
  match retype "msg_type" (fun s => (MessageType.ofValue s).map .messageType) data with
  | none => (data, false)
  | some data =>
    if cls = .peerStatus then
      match retype "status" (fun s => (PeerStatus.ofValue s).map .peerStatus) data with
      | none => (data, false)
      | some data => (data, true)
    else (data, true)

/-- `from_dict`, with what it leaves of its argument. -/
def fromDict (cls : MessageClass) (data : PyObject) : PyObject × Except PyError Message :=
  let r := retypeFields cls data
  (r.1, if r.2 then construct sur cls r.1 else .error .keyError)

/-- `deserialize_message` of a dictionary. -/
def deserializeDict (data : PyObject) : PyObject × Except PyError Message :=
  match Assoc.get? "msg_type".toList data with
  | none => (data, .error .keyError)
  | some (.json (.str s)) =>
    fromDict sur (((MessageType.ofValue s).map MessageClass.ofType).getD .network) data
  | some (.messageType t) => fromDict sur (.ofType t) data
  | some v => if v.hashable then fromDict sur .network data else (data, .error .typeError)

end

/-! ## Payloads -/

/-- The dictionary of a JSON object. -/
def ofFields (fs : List (Str × Json)) : PyObject := fs.map fun f => (f.1, .json f.2)

/-- A payload: a dictionary, or another value. -/
inductive Payload where
  | dict (data : PyObject)
  | plain (v : Json)

/-- The payload that a JSON value is. -/
def Payload.ofJson : Json → Payload
  | .obj fs => .dict (ofFields fs)
  | v => .plain v

/-- The JSON fields of a dictionary, if all its values have a JSON form. -/
def toJsonFields : PyObject → Option (List (Str × Json))
  | [] => some []
  | (k, v) :: data => v.toJson.bind fun v => (toJsonFields data).map fun fs => (k, v) :: fs

/-- What `json.dumps` makes of the payload; `none` is `TypeError`. -/
def Payload.toJson : Payload → Option Json
  | dict data => (toJsonFields data).map .obj
  | plain v => some v

variable (sur : Surroundings)

/-- `deserialize_message` of a JSON value that nobody else holds. -/
def deserializeValue : Json → Except PyError Message
  | .obj fs => (deserializeDict sur (ofFields fs)).2
  | _ => .error .typeError

/-- `deserialize_message(payload)`, with what it leaves of the payload. -/
def deserializeMessage : Payload → Payload × Except PyError Message
  | .dict data => (.dict (deserializeDict sur data).1, (deserializeDict sur data).2)
  | .plain (.str s) =>
    (.plain (.str s), match loads s with
      | none => .error .valueError
      | some v => deserializeValue sur v)
  | .plain v => (.plain v, deserializeValue sur v)

/-- `deserialize_message(data)` for bytes. -/
def deserializeBytes (data : Bytes) : Except PyError Message :=
  match (decodeUtf8 data).bind loads with
  | none => .error .valueError
  | some v => deserializeValue sur v

/-! ## Timestamps -/

/-- A number. -/
inductive Number where
  | int (z : ℤ)
  | float (f : PyFloat)
  deriving DecidableEq

/-- The value of a decimal literal. -/
def decimalValue (d : Decimal) : ℚ :=
  let digits := d.fraction.foldl (fun n digit => n * 10 + digit.1) d.whole
  (if d.negative then -1 else 1) * digits * (10 : ℚ) ^ (d.exponent.getD 0 - d.fraction.length)

namespace Number

/-- The number as a JSON value. -/
def toJson : Number → Json
  | int z => .int z
  | float f => .float f

/-- The number that a JSON value is, if any. -/
def ofJson : Json → Option Number
  | .int z => some (int z)
  | .float f => some (float f)
  | _ => none

/-- `f"\x7bx\x7d"`. -/
def text : Number → Str
  | int z => showInt z
  | float (.finite d) => d.text
  | float .nan => ['n', 'a', 'n']
  | float .posInf => ['i', 'n', 'f']
  | float .negInf => ['-', 'i', 'n', 'f']

@[simp] theorem ofJson_toJson (n : Number) : ofJson n.toJson = some n := by
  cases n <;> rfl

end Number

/-- `MESSAGE_MAX_AGE_SECONDS`. -/
def messageMaxAgeSeconds : ℚ := 300

/-- `MESSAGE_MAX_FUTURE_SECONDS`. -/
def messageMaxFutureSeconds : ℚ := 60

/-- The verdict of `validate_message_timestamp` and of the method of the same
purpose.  Differences are exact here. -/
def timestampValid (now : ℚ) (timestamp : Number) : Bool :=
  let within (t : ℚ) : Bool :=
    !decide (messageMaxAgeSeconds < now - t) && !decide (now - t < -messageMaxFutureSeconds)
  match timestamp with
  | .int z => within z
  | .float (.finite d) => within (decimalValue d)
  -- no comparison with a NaN holds
  | .float .nan => true
  | .float .posInf => false
  | .float .negInf => false

/-! ## What is left of a payload -/

/-- The payload is a dictionary whose `msg_type` is a string. -/
def Payload.StringTyped : Payload → Prop
  | dict data => ∃ s, Assoc.get? "msg_type".toList data = some (.json (.str s))
  | plain _ => False

theorem get?_ofFields (k : Str) (fs : List (Str × Json)) :
    Assoc.get? k (ofFields fs) = (Assoc.get? k fs).map .json := by
  induction fs with
  | nil => rfl
  | cons f fs ih =>
    show get? k ((f.1, .json f.2) :: ofFields fs) = _
    rw [get?, get?, ih]
    split <;> rfl

@[simp] theorem toJsonFields_ofFields (fs : List (Str × Json)) :
    toJsonFields (ofFields fs) = some fs := by
  induction fs with
  | nil => rfl
  | cons f fs ih =>
    show toJsonFields ((f.1, .json f.2) :: ofFields fs) = _
    rw [toJsonFields, ih]
    rfl

/-- A payload that came from JSON goes back to it. -/
@[simp] theorem Payload.toJson_ofJson (v : Json) : (Payload.ofJson v).toJson = some v := by
  cases v with
  | obj fs =>
    show (toJsonFields (ofFields fs)).map Json.obj = _
    rw [toJsonFields_ofFields, map_some]
  | _ => rfl

/-- A dictionary that holds a member has no JSON form. -/
theorem toJsonFields_eq_none {data : PyObject} {k : Str} {t : MessageType}
    (h : Assoc.get? k data = some (.messageType t)) : toJsonFields data = none := by
  induction data with
  | nil => cases h
  | cons entry data ih =>
    obtain ⟨k', v⟩ := entry
    rw [get?] at h
    rw [toJsonFields]
    split at h
    · have hv : v = .messageType t := some_inj.mp h
      rw [hv]
      rfl
    · rw [ih h]
      cases v.toJson <;> rfl

theorem get?_retype_of_ne {key key' : Str} {read : Str → Option PyValue} {data data' : PyObject}
    (hne : key ≠ key') (h : retype key read data = some data') :
    Assoc.get? key' data' = Assoc.get? key' data := by
  rw [retype] at h
  split at h
  · obtain ⟨member, -, rfl⟩ := map_eq_some_iff.mp h
    rw [get?_set, if_neg hne]
  · rw [some_inj.mp h]

/-- The conversions fail at once, or leave a member in place of the string. -/
theorem retypeFields_of_str (cls : MessageClass) {data : PyObject} {s : Str}
    (hs : Assoc.get? "msg_type".toList data = some (.json (.str s))) :
    retypeFields cls data = (data, false) ∨
      ∃ t, Assoc.get? "msg_type".toList (retypeFields cls data).1 = some (.messageType t) := by
  rw [retypeFields]
  split
  · exact .inl rfl
  rename_i data₁ hdata₁
  have hmember : ∃ t, get? "msg_type".toList data₁ = some (.messageType t) := by
    rw [retype, hs] at hdata₁
    obtain ⟨member, hmember, rfl⟩ := map_eq_some_iff.mp hdata₁
    obtain ⟨t, -, rfl⟩ := map_eq_some_iff.mp hmember
    exact ⟨t, by rw [get?_set, if_pos rfl]⟩
  right
  split
  · split
    · exact hmember
    · rename_i data₂ hdata₂
      rw [get?_retype_of_ne (by decide) hdata₂]
      exact hmember
  · exact hmember

/-- What decoding leaves of a dictionary whose type is a string. -/
theorem deserializeMessage_of_stringTyped {v : Json}
    (hv : (Payload.ofJson v).StringTyped) :
    deserializeMessage sur (.ofJson v) = (.ofJson v, .error .keyError) ∨
      (deserializeMessage sur (.ofJson v)).1.toJson = none := by
  cases v with
  | obj fs =>
    obtain ⟨s, hget⟩ := hv
    have hdict : ∃ cls, deserializeDict sur (ofFields fs) = fromDict sur cls (ofFields fs) := by
      rw [deserializeDict, hget]
      exact ⟨_, rfl⟩
    obtain ⟨cls, hdict⟩ := hdict
    show (Payload.dict (deserializeDict sur (ofFields fs)).1, (deserializeDict sur (ofFields fs)).2)
        = (Payload.dict (ofFields fs), .error .keyError) ∨
      (toJsonFields (deserializeDict sur (ofFields fs)).1).map Json.obj = none
    rw [hdict, fromDict]
    dsimp only
    rcases retypeFields_of_str cls hget with hfail | ⟨t, ht⟩
    · rw [hfail]
      exact .inl rfl
    · rw [toJsonFields_eq_none ht]
      exact .inr rfl
  | _ => exact absurd hv id

variable {sur : Surroundings}

/-- **Decoding spoils the payload.**  Once a message was decoded from a
dictionary whose type is a string, the dictionary has no JSON form any more. -/
theorem toJson_deserializeMessage_eq_none {v : Json} (hv : (Payload.ofJson v).StringTyped)
    {m : Message} (hok : (deserializeMessage sur (.ofJson v)).2 = .ok m) :
    (deserializeMessage sur (.ofJson v)).1.toJson = none := by
  rcases deserializeMessage_of_stringTyped sur hv with hfail | hnone
  · rw [hfail] at hok
    cases hok
  · exact hnone

/-- Any other payload is left as it is. -/
theorem deserializeMessage_eq_self {v : Json} (hv : ¬ (Payload.ofJson v).StringTyped) :
    (deserializeMessage sur (.ofJson v)).1 = .ofJson v := by
  cases v with
  | obj fs =>
    have hkeep : ∀ w, get? "msg_type".toList (ofFields fs) = some w →
        (∀ s, w ≠ .json (.str s)) → (fromDict sur .network (ofFields fs)).1 = ofFields fs := by
      intro w hw hstr
      rw [fromDict, retypeFields, retype, hw]
      cases w with
      | json u =>
        cases u with
        | str s => exact absurd rfl (hstr s)
        | _ => rfl
      | _ => rfl
    show Payload.dict (deserializeDict sur (ofFields fs)).1 = .dict (ofFields fs)
    rw [deserializeDict]
    split
    · rfl
    · rename_i s hs
      exact absurd ⟨s, hs⟩ hv
    · rename_i t ht
      rw [get?_ofFields] at ht
      obtain ⟨u, -, hjson⟩ := map_eq_some_iff.mp ht
      cases hjson
    · rename_i w hstr _ hw
      split
      · rw [hkeep w hw hstr]
      · rfl
  | str s => rfl
  | _ => rfl

/-- What still has a JSON form after decoding is unchanged. -/
theorem deserializeMessage_eq_self_of_toJson {v w : Json}
    (hw : (deserializeMessage sur (.ofJson v)).1.toJson = some w) :
    (deserializeMessage sur (.ofJson v)).1 = .ofJson v := by
  by_cases hv : (Payload.ofJson v).StringTyped
  · rcases deserializeMessage_of_stringTyped sur hv with hfail | hnone
    · rw [hfail]
    · cases hnone.symm.trans hw
  · exact deserializeMessage_eq_self hv

end TrustFlow.Protocol
