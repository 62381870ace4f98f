import TrustFlow.Protocol.Gossip

/-!
# Relayed envelopes

What a peer hands on of an envelope that passed all checks.

* `GossipEnvelope.fromBytes_toBytes` — an envelope with a JSON payload survives
  the wire.
* `SameSigned` — two envelopes agree in all that the signature covers, and in the
  signature.
* `Copies` — the frames that go back to a given one over any number of relays.
* `relaysFaithfully_iff` — **a peer relays an envelope faithfully if and only if
  its payload is not a dictionary with a string type.**  Decoding such a payload
  leaves an enumeration member in it, `json.dumps` then raises `TypeError`, and
  nothing is handed on.  Whatever is handed on is a faithful copy.
-/

namespace TrustFlow.Protocol

open Library GossipEnvelope

namespace GossipEnvelope

/-! ## Envelopes on the wire -/

theorem mapM_readStr (l : List Str) : (l.map Json.str).mapM readStr = some l := by
  induction l with
  | nil => rfl
  | cons s l ih =>
    rw [List.map_cons, List.mapM_cons, ih]
    rfl

theorem uniqueItems_map_str (l : List Str) : UniqueItems (l.map Json.str) := by
  refine uniqueItems_iff.mpr fun v hv => ?_
  obtain ⟨s, -, rfl⟩ := List.mem_map.mp hv
  trivial

theorem unique_wireFields (env : GossipEnvelope) {v : Json} (hv : v.Unique) :
    (Json.obj (env.wireFields v)).Unique := by
  refine ⟨?_, trivial, hv, trivial, trivial, ?_, uniqueItems_map_str env.path, trivial, trivial⟩
  · show names.Nodup
    decide
  · cases env.timestamp <;> trivial

theorem fromDict_wireFields (sur : Surroundings) {env : GossipEnvelope} {v : Json}
    (hpayload : env.payload = .ofJson v) : fromDict sur (.obj (env.wireFields v)) = .ok env := by
  have hnames : ((env.wireFields v).all fun f => names.contains f.1) = true := rfl
  have hpath : readField (env.wireFields v) "path" [] readPath = some env.path :=
    mapM_readStr env.path
  have htime : readField (env.wireFields v) "timestamp" (.float (.finite sur.now))
      Number.ofJson = some env.timestamp := Number.ofJson_toJson env.timestamp
  rw [fromDict, if_pos hnames, hpath, htime]
  cases env
  cases hpayload
  rfl

/-- **The round trip of an envelope** whose payload is a JSON value. -/
theorem fromBytes_toBytes {env : GossipEnvelope} {v : Json} (hpayload : env.payload = .ofJson v)
    (hv : v.Unique) :
    ∃ data, env.toBytes = .ok data ∧ ∀ sur, fromBytes sur data = .ok env := by
  have hdict : env.toDict = some (.obj (env.wireFields v)) := by
    rw [toDict, hpayload, Payload.toJson_ofJson, Option.map_some]
  refine ⟨_, by rw [toBytes, hdict], fun sur => ?_⟩
  rw [fromBytes, decodeUtf8_encodeUtf8, Option.bind_some, loads_dumps false (unique_wireFields env hv)]
  exact fromDict_wireFields sur hpayload

/-- The payload of an envelope from the wire is a JSON value. -/
theorem exists_payload_of_fromBytes {sur : Surroundings} {data : Bytes} {env : GossipEnvelope}
    (h : fromBytes sur data = .ok env) : ∃ v : Json, v.Unique ∧ env.payload = .ofJson v := by
  rw [fromBytes] at h
  split at h
  · cases h
  rename_i w hw
  obtain ⟨s, -, hloads⟩ := Option.bind_eq_some_iff.mp hw
  have hunique := unique_of_loads hloads
  cases w with
  | obj fs =>
    rw [fromDict] at h
    split at h
    · split at h
      · rename_i payload _ _ hpayload _
        split at h
        · rw [← Except.ok.inj h]
          refine ⟨payload, ?_, rfl⟩
          exact uniqueFields_iff.mp hunique.2 _ (Assoc.mem_of_get? hpayload)
        · cases h
      · cases h
    · cases h
  | _ => cases h

/-- The envelopes agree in the signature and in all that it covers. -/
structure SameSigned (env env' : GossipEnvelope) : Prop where
  msgId : env'.msgId = env.msgId
  payload : env'.payload = env.payload
  originId : env'.originId = env.originId
  timestamp : env'.timestamp = env.timestamp
  signature : env'.signature = env.signature

theorem SameSigned.trans {env env' env'' : GossipEnvelope} (h : SameSigned env env')
    (h' : SameSigned env' env'') : SameSigned env env'' :=
  ⟨h'.msgId.trans h.msgId, h'.payload.trans h.payload, h'.originId.trans h.originId,
    h'.timestamp.trans h.timestamp, h'.signature.trans h.signature⟩

/-- The verdict on a signature depends on nothing else. -/
theorem SameSigned.verify_eq {env env' : GossipEnvelope} (h : SameSigned env env')
    (S : SignatureScheme) (key : S.VerifyKey) : env'.verify S key = env.verify S key := by
  rw [verify, verify, signingData, signingData, h.msgId, h.payload, h.originId, h.timestamp,
    h.signature]

end GossipEnvelope

namespace GossipPeer

variable {S : SignatureScheme}

/-! ## What a peer hands on -/

variable (sur : Surroundings) (sampler : Sampler) (peer : GossipPeer S) (now : ℚ) (senderId : Str)
  (env : GossipEnvelope)

@[simp] theorem seen_touch : (peer.touch now senderId).seen = peer.seen := by
  rw [touch]
  split <;> rfl

@[simp] theorem peerKeys_touch : (peer.touch now senderId).peerKeys = peer.peerKeys := by
  rw [touch]
  split <;> rfl

/-- The envelope as it is relayed. -/
def relayed (sur : Surroundings) (peerId : Str) (env : GossipEnvelope) : GossipEnvelope :=
  { env with
    payload := (deserializeMessage sur env.payload).1
    ttl := env.ttl - 1
    path := env.path ++ [peerId] }

/-- A relay that lasts is a call of `_forward_gossip` with the envelope as it is relayed. -/
theorem outcome_relay_eq :
    (peer.relay sur sampler senderId env).outcome
      = if 1 < env.ttl then
          (forwardGossip { peer with seen := peer.seen.markSeen (decimalValue sur.now) env.msgId }
            sampler (relayed sur peer.peerId env)
            ((relayed sur peer.peerId env).path ++ [senderId, env.originId])).map some
        else .ok none := by
  rw [relay]
  by_cases httl : 1 < env.ttl
  · have hlives : 0 < env.ttl - 1 := by omega
    rw [if_pos httl]
    dsimp only
    rw [if_pos hlives]
    rfl
  · have hdead : ¬ 0 < env.ttl - 1 := by omega
    rw [if_neg httl]
    dsimp only
    rw [if_neg hdead]

/-- The frame that a relay hands on. -/
theorem outcome_relay :
    ∃ targets, (peer.relay sur sampler senderId env).outcome
      = if 1 < env.ttl then (relayed sur peer.peerId env).toBytes.map fun data => some (data, targets)
        else .ok none := by
  refine ⟨selectGossipTargets
    { peer with seen := peer.seen.markSeen (decimalValue sur.now) env.msgId } sampler
    ((relayed sur peer.peerId env).path ++ [senderId, env.originId]), ?_⟩
  rw [outcome_relay_eq, forwardGossip]
  cases (relayed sur peer.peerId env).toBytes <;> rfl

/-- What a relay hands on is the envelope as it is relayed. -/
theorem toBytes_of_outcome_relay {sur : Surroundings} {sampler : Sampler} {peer : GossipPeer S}
    {senderId : Str} {env : GossipEnvelope} {data : Bytes} {targets : List Str}
    (h : (peer.relay sur sampler senderId env).outcome = .ok (some (data, targets))) :
    (relayed sur peer.peerId env).toBytes = .ok data := by
  obtain ⟨targets', houtcome⟩ := outcome_relay sur sampler peer senderId env
  rw [houtcome] at h
  split at h
  · cases hbytes : (relayed sur peer.peerId env).toBytes with
    | error e =>
      rw [hbytes] at h
      cases h
    | ok bytes =>
      rw [hbytes] at h
      cases h
      rfl
  · cases h

/-- The envelopes that a peer has to relay: validly signed by a known origin, with
a fresh timestamp, not seen before, to live for more than one hop, and with a
payload that decodes to a message. -/
structure Relayable (sur : Surroundings) (peer : GossipPeer S) (env : GossipEnvelope)
    (key : S.VerifyKey) : Prop where
  known : peer.peerKeys.get? env.originId = some key
  signed : env.verify S key = .ok true
  fresh : timestampValid (decimalValue sur.now) env.timestamp = true
  unseen : (peer.seen.hasSeen (decimalValue sur.now) env.msgId).2 = false
  lives : 1 < env.ttl
  decodable : ∃ m, (deserializeMessage sur env.payload).2 = .ok m

section

variable {sur : Surroundings} {peer : GossipPeer S} {senderId : Str} {data : Bytes}
  {env : GossipEnvelope} {key : S.VerifyKey}

/-- Such an envelope gets past the checks. -/
theorem handleReceived_of_relayable (sampler : Sampler)
    (hdata : GossipEnvelope.fromBytes sur data = .ok env) (h : Relayable sur peer env key)
    (senderId : Str) :
    ∃ peer' : GossipPeer S, peer.handleReceived sur sampler senderId data
      = peer'.relay sur sampler senderId env := by
  rw [handleReceived, hdata]
  dsimp only
  rw [seen_touch, peerKeys_touch, h.unseen, h.known]
  dsimp only
  rw [if_neg Bool.false_ne_true, h.signed]
  dsimp only
  rw [if_pos h.fresh]
  exact ⟨_, rfl⟩

/-- Where a frame comes from that a peer hands on. -/
theorem exists_of_outcome {sampler : Sampler} {data' : Bytes} {targets : List Str}
    (h : (peer.handleReceived sur sampler senderId data).outcome = .ok (some (data', targets))) :
    ∃ env id, GossipEnvelope.fromBytes sur data = .ok env ∧
      (relayed sur id env).toBytes = .ok data' := by
  rw [handleReceived] at h
  split at h
  · split at h <;> cases h
  rename_i env hdata
  dsimp only at h
  split at h
  · cases h
  split at h
  · cases h
  split at h
  · cases h
  · cases h
  split at h
  · exact ⟨env, _, hdata, toBytes_of_outcome_relay h⟩
  · cases h

end

/-! ## Faithful relays -/

/-- The frame is that of an envelope, whoever reads it and when. -/
def Decodes (data : Bytes) (env : GossipEnvelope) : Prop :=
  ∀ sur, GossipEnvelope.fromBytes sur data = .ok env

/-- The peer hands on a frame that decodes to an envelope with the same signed
contents, which verifies again. -/
def RelaysFaithfully (sur : Surroundings) (sampler : Sampler) (peer : GossipPeer S) (senderId : Str)
    (data : Bytes) (env : GossipEnvelope) (key : S.VerifyKey) : Prop :=
  ∃ data' targets env',
    (peer.handleReceived sur sampler senderId data).outcome = .ok (some (data', targets)) ∧
      Decodes data' env' ∧ env.SameSigned env' ∧ env'.verify S key = .ok true

/-- The frames that peers hand on of a frame, over any number of hops. -/
inductive Copies (S : SignatureScheme) (data : Bytes) : Bytes → Prop where
  | self : Copies S data data
  | relay {sur : Surroundings} {sampler : Sampler} {peer : GossipPeer S} {senderId : Str}
      {copy data' : Bytes} {targets : List Str} : Copies S data copy →
      (peer.handleReceived sur sampler senderId copy).outcome = .ok (some (data', targets)) →
      Copies S data data'

section

variable {sur : Surroundings} {sampler : Sampler} {peer : GossipPeer S} {senderId : Str}
  {data : Bytes} {env : GossipEnvelope} {key : S.VerifyKey}

section

variable (hdata : GossipEnvelope.fromBytes sur data = .ok env)
include hdata

/-- An envelope whose payload survives decoding is relayed with the same signed
contents. -/
theorem exists_toBytes_relayed (id : Str)
    (hkept : (deserializeMessage sur env.payload).1 = env.payload) :
    ∃ data', (relayed sur id env).toBytes = .ok data' ∧ Decodes data' (relayed sur id env) ∧
      env.SameSigned (relayed sur id env) := by
  obtain ⟨v, hv, hpayload⟩ := exists_payload_of_fromBytes hdata
  have hrelayed : (relayed sur id env).payload = .ofJson v := hkept.trans hpayload
  obtain ⟨data', hbytes, hdecodes⟩ := fromBytes_toBytes hrelayed hv
  exact ⟨data', hbytes, hdecodes, rfl, hkept, rfl, rfl, rfl⟩

/-- A frame of a relayed envelope is read as that envelope. -/
theorem decodes_relayed {id : Str}
    {data' : Bytes} (hbytes : (relayed sur id env).toBytes = .ok data') :
    Decodes data' (relayed sur id env) ∧ env.SameSigned (relayed sur id env) := by
  obtain ⟨v, -, hpayload⟩ := exists_payload_of_fromBytes hdata
  -- the frame exists, so the payload still has a JSON form
  have hkept : (deserializeMessage sur env.payload).1 = env.payload := by
    cases hjson : (deserializeMessage sur env.payload).1.toJson with
    | none =>
      have hnone : (relayed sur id env).toDict = none := by
        rw [GossipEnvelope.toDict]
        exact congrArg _ hjson
      rw [GossipEnvelope.toBytes, hnone] at hbytes
      cases hbytes
    | some w =>
      rw [hpayload] at hjson ⊢
      exact deserializeMessage_eq_self_of_toJson hjson
  obtain ⟨data'', hbytes', hdecodes, hsame⟩ := exists_toBytes_relayed hdata id hkept
  rw [hbytes, Except.ok.injEq] at hbytes'
  exact ⟨hbytes' ▸ hdecodes, hsame⟩

/-- **What is handed on is a faithful copy.** -/
theorem decodes_of_outcome {data' : Bytes} {targets : List Str}
    (h : (peer.handleReceived sur sampler senderId data).outcome = .ok (some (data', targets))) :
    ∃ env', Decodes data' env' ∧ env.SameSigned env' := by
  obtain ⟨env₁, id, hdata₁, hbytes⟩ := exists_of_outcome h
  obtain rfl : env₁ = env := Except.ok.inj (hdata₁.symm.trans hdata)
  exact ⟨_, decodes_relayed hdata hbytes⟩

end

/-- Every copy has the signed contents of the first frame. -/
theorem decodes_of_copies (hdata : Decodes data env) {copy : Bytes} (hcopy : Copies S data copy) :
    ∃ env', Decodes copy env' ∧ env.SameSigned env' := by
  induction hcopy with
  | self => exact ⟨env, hdata, rfl, rfl, rfl, rfl, rfl⟩
  | relay _ houtcome ih =>
    obtain ⟨env₁, hdecodes, hsame⟩ := ih
    obtain ⟨env₂, hdecodes₂, hsame₂⟩ := decodes_of_outcome (hdecodes _) houtcome
    exact ⟨env₂, hdecodes₂, hsame.trans hsame₂⟩

/-- An envelope with a string type is not relayed: `_handle_received` raises. -/
theorem outcome_of_stringTyped (hdata : GossipEnvelope.fromBytes sur data = .ok env)
    (h : Relayable sur peer env key) (htyped : env.payload.StringTyped) :
    (peer.handleReceived sur sampler senderId data).outcome = .error .typeError := by
  obtain ⟨peer', hhandled⟩ := handleReceived_of_relayable sampler hdata h senderId
  obtain ⟨targets, houtcome⟩ := outcome_relay sur sampler peer' senderId env
  obtain ⟨v, -, hpayload⟩ := exists_payload_of_fromBytes hdata
  obtain ⟨m, hm⟩ := h.decodable
  rw [hpayload] at hm htyped
  have hnone : (relayed sur peer'.peerId env).toDict = none := by
    rw [GossipEnvelope.toDict]
    show (deserializeMessage sur env.payload).1.toJson.map _ = none
    rw [hpayload, toJson_deserializeMessage_eq_none htyped hm, Option.map_none]
  rw [hhandled, houtcome, if_pos h.lives, GossipEnvelope.toBytes, hnone]
  rfl

theorem relaysFaithfully_of_not_stringTyped (hdata : GossipEnvelope.fromBytes sur data = .ok env)
    (h : Relayable sur peer env key) (htyped : ¬ env.payload.StringTyped) :
    RelaysFaithfully sur sampler peer senderId data env key := by
  obtain ⟨peer', hhandled⟩ := handleReceived_of_relayable sampler hdata h senderId
  obtain ⟨targets, houtcome⟩ := outcome_relay sur sampler peer' senderId env
  obtain ⟨v, -, hpayload⟩ := exists_payload_of_fromBytes hdata
  have hkept : (deserializeMessage sur env.payload).1 = env.payload := by
    rw [hpayload] at htyped ⊢
    exact deserializeMessage_eq_self htyped
  obtain ⟨data', hbytes, hdecodes, hsame⟩ := exists_toBytes_relayed hdata peer'.peerId hkept
  refine ⟨data', targets, _, ?_, hdecodes, hsame, (hsame.verify_eq S key).trans h.signed⟩
  rw [hhandled, houtcome, if_pos h.lives, hbytes]
  rfl

/-- **A peer relays an envelope faithfully if and only if its payload is not a
dictionary with a string type**; and every copy that reaches anyone verifies. -/
theorem relaysFaithfully_iff (sampler : Sampler) (senderId : Str)
    (hdata : GossipEnvelope.fromBytes sur data = .ok env) (h : Relayable sur peer env key) :
    (RelaysFaithfully sur sampler peer senderId data env key ↔ ¬ env.payload.StringTyped) ∧
      (Decodes data env → ∀ copy, Copies S data copy →
        ∃ env', Decodes copy env' ∧ env.SameSigned env' ∧ env'.verify S key = .ok true) := by
  refine ⟨⟨?_, relaysFaithfully_of_not_stringTyped hdata h⟩, ?_⟩
  · rintro ⟨data', targets, env', houtcome, -⟩ htyped
    rw [outcome_of_stringTyped hdata h htyped] at houtcome
    cases houtcome
  · intro hdecodes copy hcopy
    obtain ⟨env', hdecodes', hsame⟩ := decodes_of_copies hdecodes hcopy
    exact ⟨env', hdecodes', hsame, (hsame.verify_eq S key).trans h.signed⟩

end

/-! ## Two envelopes -/

/-- Five seconds after the epoch. -/
def five : Decimal := .ofNat 5

/-- Fixed surroundings. -/
def quiet : Surroundings := ⟨five, "0", fun _ => []⟩

/-- An envelope of alice's, signed. -/
def sealedEnvelope (fs : List (Str × Json)) : GossipEnvelope :=
  { msgId := "m"
    payload := .ofJson (.obj fs)
    originId := "alice"
    ttl := defaultTtl
    timestamp := .float (.finite five)
    path := ["alice"]
    signature := hexEncode (SignatureScheme.tagged.sign (1 : UInt8) (encodeUtf8
      (List.intercalate ['|'] ["alice", (Number.float (.finite five)).text, "m",
        sha256Hex (encodeUtf8 (dumpsSorted false (.obj fs)))]))) }

/-- Bob, who knows alice's key, and carol to relay to. -/
def bob : GossipPeer .tagged where
  peerId := "bob"
  fanout := 3
  peers := Dict.empty.set "carol" ⟨"carol", [], 5⟩
  peerKeys := Dict.empty.set "alice" (1 : UInt8)
  seen := .new (decimalValue five)
  handled _ := true

/-- A sampler that takes the first elements. -/
def takeFirst : Sampler where
  sample k l := l.take k
  length_sample k l hk := by rw [List.length_take, min_eq_left hk]
  subperm_sample k l := (List.take_sublist k l).subperm

/-- The fields of a message with no type. -/
def untyped : List (Str × Json) :=
  [("sender_id", .str "alice"), ("msg_type", .null),
    ("msg_id", .str "1")]

/-- The theorem at a message with no type: it is relayed. -/
theorem relaysFaithfully_untyped :
    ∃ data, RelaysFaithfully quiet takeFirst bob "alice" data (sealedEnvelope untyped)
      (1 : UInt8) := by
  have hunique : (Json.obj untyped).Unique := ⟨by decide, trivial, trivial, trivial, trivial⟩
  obtain ⟨data, -, hdata⟩ := fromBytes_toBytes
    (show (sealedEnvelope untyped).payload = .ofJson (.obj untyped) from rfl) hunique
  have hrelayable : Relayable quiet bob (sealedEnvelope untyped) (1 : UInt8) :=
    ⟨rfl, by decide +kernel, by decide +kernel, by decide +kernel, by decide, ⟨_, rfl⟩⟩
  refine ⟨data, (relaysFaithfully_iff takeFirst "alice" (hdata quiet) hrelayable).1.mpr ?_⟩
  rintro ⟨s, hs⟩
  cases hs

/-- The fields of a heartbeat. -/
def heartbeat : List (Str × Json) :=
  [("sender_id", .str "alice"), ("msg_type", .str "heartbeat"),
    ("msg_id", .str "1")]

/-- A heartbeat of alice's that bob should relay, and does not. -/
theorem not_relaysFaithfully_heartbeat :
    ∃ data, Decodes data (sealedEnvelope heartbeat) ∧
      Relayable quiet bob (sealedEnvelope heartbeat) (1 : UInt8) ∧
      (bob.handleReceived quiet takeFirst "alice" data).outcome = .error .typeError ∧
      ¬ RelaysFaithfully quiet takeFirst bob "alice" data (sealedEnvelope heartbeat)
        (1 : UInt8) := by
  have hunique : (Json.obj heartbeat).Unique := ⟨by decide, trivial, trivial, trivial, trivial⟩
  obtain ⟨data, -, hdata⟩ := fromBytes_toBytes
    (show (sealedEnvelope heartbeat).payload = .ofJson (.obj heartbeat) from rfl) hunique
  have hrelayable : Relayable quiet bob (sealedEnvelope heartbeat) (1 : UInt8) :=
    ⟨rfl, by decide +kernel, by decide +kernel, by decide +kernel, by decide, ⟨_, rfl⟩⟩
  have houtcome : (bob.handleReceived quiet takeFirst "alice" data).outcome
      = .error .typeError :=
    outcome_of_stringTyped (hdata quiet) hrelayable ⟨"heartbeat", rfl⟩
  refine ⟨data, hdata, hrelayable, houtcome, ?_⟩
  rintro ⟨data', targets, env', hrelayed, -⟩
  cases houtcome.symm.trans hrelayed

end GossipPeer

end TrustFlow.Protocol
