import TrustFlow.Library.Outcome
import TrustFlow.Protocol.Gossip

/-!
# From a message to bytes and back

`network/protocol.py`: what `to_bytes` sends `deserialize_message` reads, by itself and inside a
`SignedEnvelope`.

* `Wireable` — a value that a field can be sent with: a JSON value, and for the status of a peer
  a member of the enumeration.
* `Formed` — a message as a constructor leaves it: the fields of its class in their order, the
  type of its class, an id and a nonce that are not empty.
* `formed_of_construct` — **every constructor makes such a message**.
* `Formed.deserializeBytes` — **what is decoded is the message**: the enumeration members come
  back, and `__post_init__` finds nothing left to fill in.
* `SignedEnvelope`, `wrap`, `unwrapAndVerify` — the signed form.
* `wire_round_trip` — both together.
-/

namespace TrustFlow.Protocol

open Library List Assoc MessageClass

/-! ## Message classes -/

namespace MessageClass

/-- The names of the fields of a class. -/
def fieldNames (cls : MessageClass) : List Str :=
  "sender_id" :: "msg_type" :: "timestamp" :: "msg_id" ::
    "signature" :: cls.ownFields.map Prod.fst

theorem map_fst_defaults (sur : Surroundings) (cls : MessageClass) :
    "sender_id".toList :: (defaults sur cls).map Prod.fst = cls.fieldNames := rfl

theorem nodup_fieldNames (cls : MessageClass) : cls.fieldNames.Nodup := by
  cases cls <;> decide

/-- A class that sets a type is the class of that type. -/
theorem ofType_ownType {cls : MessageClass} {t : MessageType} (h : cls.ownType = some t) :
    ofType t = cls := by
  cases cls with
  | network => cases h
  | _ => rw [← Option.some.inj h]; rfl

/-- The nonce is a field of its own. -/
theorem nonceField_spec (cls : MessageClass) : ∀ name ∈ cls.nonceField,
    name ∈ cls.fieldNames ∧ name ≠ "msg_type" ∧ name ≠ "msg_id" ∧
      cls ≠ .peerStatus := by
  cases cls with
  | keyExchange => rintro name ⟨⟩; decide
  | keyExchangeAck => rintro name ⟨⟩; decide
  | _ => rintro name ⟨⟩

/-- The status is a field of the class that has one. -/
theorem status_mem_fieldNames : "status".toList ∈ fieldNames .peerStatus := by decide

end MessageClass

theorem MessageType.ofValue_value (t : MessageType) : ofValue t.value = some t := by
  cases t <;> decide

theorem PeerStatus.ofValue_value (s : PeerStatus) : ofValue s.value = some s := by
  cases s <;> decide

/-! ## Messages as they are constructed -/

/-- A value that a field of a class can be sent with. -/
def Wireable (cls : MessageClass) (name : Str) (v : PyValue) : Prop :=
  if cls = .peerStatus ∧ name = "status" then ∃ s, v = .peerStatus s
  else ∃ j : Json, v = .json j ∧ j.Unique

theorem Wireable.of_str {cls : MessageClass} {name : Str} (s : Str)
    (h : ¬ (cls = .peerStatus ∧ name = "status")) : Wireable cls name (.json (.str s)) := by
  rw [Wireable, if_neg h]
  exact ⟨_, rfl, trivial⟩

/-- The values that are given to a constructor can be sent; the type is set by the class. -/
def Representable (cls : MessageClass) (data : PyObject) : Prop :=
  ∀ name v, Assoc.get? name data = some v → name ≠ "msg_type" → Wireable cls name v

/-- A message as its constructor leaves it. -/
structure Formed (m : Message) (t : MessageType) : Prop where
  own : m.cls.ownType = some t
  names : m.fields.map Prod.fst = m.cls.fieldNames
  type : m.get? "msg_type" = some (.messageType t)
  msgId : ∃ v, m.get? "msg_id" = some v ∧ v.truthy = true
  nonce : ∀ name ∈ m.cls.nonceField, ∃ v, m.get? name = some v ∧ v.truthy = true
  values : ∀ name v, m.get? name = some v → name ≠ "msg_type" → Wireable m.cls name v

/-- The defaults are JSON values, but for the status of a peer. -/
theorem json_of_mem_ownFields (cls : MessageClass) : ∀ entry ∈ cls.ownFields,
    cls = .peerStatus ∧ entry = ("status".toList, .peerStatus .unknown) ∨
      ∃ j : Json, entry.2 = .json j ∧ j.Unique := by
  cases cls <;> unfold ownFields <;>
    repeat' first
      | exact forall_mem_nil _
      | refine forall_mem_cons.mpr ⟨?_, ?_⟩
      | exact .inr ⟨_, rfl, trivial⟩
      | exact .inr ⟨_, rfl, nodup_nil, trivial⟩
      | exact .inl ⟨rfl, rfl⟩

/-- The status is the only member of an enumeration among them. -/
theorem wireable_ownFields (cls : MessageClass) :
    ∀ entry ∈ cls.ownFields, Wireable cls entry.1 entry.2 := by
  intro entry hentry
  rw [Wireable]
  split
  · next hstatus =>
      obtain ⟨rfl, hname⟩ := hstatus
      have hnodup : (ownFields .peerStatus).map Prod.fst |>.Nodup :=
        (nodup_fieldNames .peerStatus).sublist (sublist_append_right
          ["sender_id".toList, "msg_type", "timestamp", "msg_id",
            "signature"] _)
      have hget := get?_of_mem hnodup (show (entry.1, entry.2) ∈ _ from hentry)
      rw [hname] at hget
      exact ⟨.unknown, (Option.some.inj hget).symm⟩
  · next hplain =>
      rcases json_of_mem_ownFields cls entry hentry with ⟨hcls, rfl⟩ | h
      · exact absurd ⟨hcls, rfl⟩ hplain
      · exact h

theorem wireable_defaults (sur : Surroundings) (cls : MessageClass) :
    ∀ entry ∈ defaults sur cls, entry.1 ≠ "msg_type" → Wireable cls entry.1 entry.2 := by
  intro entry hentry hne
  have hplain : ∀ (name : Str) (j : Json), name ≠ "status" → j.Unique →
      Wireable cls name (.json j) := by
    intro name j hname hj
    rw [Wireable, if_neg fun h => hname h.2]
    exact ⟨j, rfl, hj⟩
  rcases mem_cons.mp hentry with rfl | hentry
  · exact absurd rfl hne
  rcases mem_cons.mp hentry with rfl | hentry
  · exact hplain _ _ (show "timestamp".toList ≠ _ by decide) trivial
  rcases mem_cons.mp hentry with rfl | hentry
  · exact hplain _ _ (show "msg_id".toList ≠ _ by decide) trivial
  rcases mem_cons.mp hentry with rfl | hentry
  · exact hplain _ _ (show "signature".toList ≠ _ by decide) trivial
  exact wireable_ownFields cls entry hentry

/-- Fields of a class that can be sent. -/
structure Fielded (cls : MessageClass) (fields : PyObject) : Prop where
  names : fields.map Prod.fst = cls.fieldNames
  values : Representable cls fields

namespace Fielded

variable {cls : MessageClass} {fields : PyObject}

theorem exists_get? (h : Fielded cls fields) {name : Str} (hname : name ∈ cls.fieldNames) :
    ∃ v, Assoc.get? name fields = some v :=
  exists_get?_of_mem (h.names ▸ hname)

theorem set (h : Fielded cls fields) {name : Str} (hname : name ∈ cls.fieldNames) {v : PyValue}
    (hv : name ≠ "msg_type" → Wireable cls name v) :
    Fielded cls (Assoc.set name v fields) where
  names := by
    rw [keys_set, if_pos (h.names ▸ hname), h.names]
  values name' w hget hne := by
    rw [get?_set] at hget
    split at hget
    · next hsame =>
        subst hsame
        rw [← Option.some.inj hget]
        exact hv hne
    · exact h.values name' w hget hne

end Fielded

section

variable {sur : Surroundings} {cls : MessageClass} {t : MessageType} {m : Message}

/-- The values that are given, and the defaults for the others. -/
theorem fielded_defaults {data : PyObject} {senderId : PyValue}
    (hsender : Assoc.get? "sender_id".toList data = some senderId)
    (hdata : Representable cls data) :
    Fielded cls (("sender_id", senderId) :: (defaults sur cls).map fun entry =>
      (entry.1, (Assoc.get? entry.1 data).getD entry.2)) where
  names := by
    rw [map_cons, map_map, ← map_fst_defaults sur cls]
    rfl
  values name v hget hne := by
    rw [get?] at hget
    split at hget
    · next hname =>
        obtain rfl : "sender_id" = name := hname
        rw [← Option.some.inj hget]
        exact hdata _ _ hsender hne
    · rw [get?_map fun name v => (get? name data).getD v] at hget
      obtain ⟨default, hdefault, rfl⟩ := Option.map_eq_some_iff.mp hget
      cases hgiven : get? name data with
      | some v => exact hdata name v hgiven hne
      | none => exact wireable_defaults sur cls _ (mem_of_get? hdefault) hne

/-- The type that `__post_init__` sets. -/
def setType (cls : MessageClass) (fields : PyObject) : PyObject :=
  match cls.ownType with
  | none => fields
  | some t => Assoc.set "msg_type" (.messageType t) fields

/-- The nonce that `__post_init__` fills in. -/
def fillNonce (sur : Surroundings) (cls : MessageClass) (fields : PyObject) : PyObject :=
  match cls.nonceField with
  | none => fields
  | some name =>
    if ((Assoc.get? name fields).getD (.json .null)).truthy then fields
    else Assoc.set name (.json (.str sur.nonce)) fields

theorem postInit_eq (fields : PyObject) :
    postInit sur cls fields = baseInit sur (fillNonce sur cls (setType cls fields)) := rfl

theorem setType_spec (hown : cls.ownType = some t) {fields : PyObject} (hfields : Fielded cls fields) :
    Fielded cls (setType cls fields) ∧
      Assoc.get? "msg_type".toList (setType cls fields) = some (.messageType t) := by
  rw [setType, hown]
  refine ⟨hfields.set (mem_cons_of_mem _ mem_cons_self) fun h => absurd rfl h, ?_⟩
  exact (get?_set _ _ _ _).trans (if_pos rfl)

theorem type_fillNonce (fields : PyObject) : Assoc.get? "msg_type".toList (fillNonce sur cls fields)
    = Assoc.get? "msg_type".toList fields := by
  rw [fillNonce]
  cases hfield : cls.nonceField with
  | none => rfl
  | some name =>
    dsimp only
    split
    · rfl
    · rw [get?_set, if_neg (cls.nonceField_spec name hfield).2.1]

theorem fillNonce_spec (hnonce : sur.nonce ≠ []) {fields : PyObject} (hfields : Fielded cls fields) :
    Fielded cls (fillNonce sur cls fields) ∧
      ∀ name ∈ cls.nonceField,
        ∃ v, Assoc.get? name (fillNonce sur cls fields) = some v ∧ v.truthy = true := by
  rw [fillNonce]
  cases hfield : cls.nonceField with
  | none => exact ⟨hfields, fun name h => by cases h⟩
  | some name =>
    obtain ⟨hmem, -, -, hcls⟩ := cls.nonceField_spec name hfield
    obtain ⟨v, hv⟩ := hfields.exists_get? hmem
    dsimp only
    rw [hv, Option.getD_some]
    by_cases htruthy : v.truthy = true
    · rw [if_pos htruthy]
      refine ⟨hfields, ?_⟩
      rintro _ ⟨⟩
      exact ⟨v, hv, htruthy⟩
    · rw [if_neg htruthy]
      refine ⟨hfields.set hmem fun _ => .of_str _ fun h => hcls h.1, ?_⟩
      rintro _ ⟨⟩
      refine ⟨_, (get?_set _ _ _ _).trans (if_pos rfl), ?_⟩
      simpa [PyValue.truthy] using hnonce

/-- An id that is there is kept. -/
theorem baseInit_of_truthy {fields : PyObject} {v : PyValue}
    (hv : Assoc.get? "msg_id".toList fields = some v) (htruthy : v.truthy = true) :
    baseInit sur fields = .ok fields := by
  have hgiven : ((get? "msg_id".toList fields).getD (.json .null)).truthy = true := by
    rw [hv]
    exact htruthy
  rw [baseInit]
  exact if_pos hgiven

/-- An id that is missing is a digest. -/
theorem baseInit_of_falsy {fields : PyObject} {v : PyValue}
    (hv : Assoc.get? "msg_id".toList fields = some v) (hfalsy : ¬ v.truthy = true)
    (htype : Assoc.get? "msg_type".toList fields = some (.messageType t)) :
    ∃ s : Str, s ≠ [] ∧
      baseInit sur fields = .ok (Assoc.set "msg_id" (.json (.str s)) fields) := by
  have hmissing : ¬ ((get? "msg_id".toList fields).getD (.json .null)).truthy = true := by
    rw [hv]
    exact hfalsy
  rw [baseInit]
  dsimp only
  rw [if_neg hmissing, htype]
  refine ⟨_, ?_, rfl⟩
  simp [sha256Hex_ne_nil]

/-- `__post_init__`: the type, an id and a nonce are there. -/
theorem postInit_formed (hown : cls.ownType = some t) (hnonce : sur.nonce ≠ [])
    {fields fields' : PyObject} (hfields : Fielded cls fields)
    (hinit : postInit sur cls fields = .ok fields') : Formed ⟨cls, fields'⟩ t := by
  obtain ⟨htyped, htype⟩ := setType_spec hown hfields
  obtain ⟨hfilled, hfilledNonce⟩ := fillNonce_spec hnonce htyped
  have hkept := @type_fillNonce sur cls (setType cls fields)
  rw [postInit_eq] at hinit
  generalize fillNonce sur cls (setType cls fields) = filled at hinit hfilled hkept hfilledNonce
  rw [htype] at hkept
  have hmemId : "msg_id".toList ∈ cls.fieldNames := by simp [fieldNames]
  obtain ⟨v, hv⟩ := hfilled.exists_get? hmemId
  by_cases htruthy : v.truthy = true
  · rw [baseInit_of_truthy hv htruthy] at hinit
    obtain rfl := Except.ok.inj hinit
    exact ⟨hown, hfilled.names, hkept, ⟨v, hv, htruthy⟩, hfilledNonce, hfilled.values⟩
  · obtain ⟨s, hs, hbase⟩ : ∃ s : Str, s ≠ [] ∧
        baseInit sur filled = .ok (set "msg_id" (.json (.str s)) filled) :=
      baseInit_of_falsy hv htruthy hkept
    rw [hbase] at hinit
    obtain rfl := Except.ok.inj hinit
    have hlast := hfilled.set hmemId fun _ => Wireable.of_str s fun h => absurd h.2 (by decide)
    refine ⟨hown, hlast.names, ?_, ⟨.json (.str s), ?_, ?_⟩, fun name hname => ?_, hlast.values⟩
    · exact (get?_set _ _ _ _).trans ((if_neg (by decide)).trans hkept)
    · exact (get?_set _ _ _ _).trans (if_pos rfl)
    · simpa [PyValue.truthy] using hs
    · obtain ⟨w, hw, hwTruthy⟩ := hfilledNonce name hname
      refine ⟨w, ?_, hwTruthy⟩
      have hne := (cls.nonceField_spec name hname).2.2.1
      exact (get?_set _ _ _ _).trans ((if_neg hne.symm).trans hw)

/-- **Every constructor makes a message that is formed.** -/
theorem formed_of_construct (hown : cls.ownType = some t) (hnonce : sur.nonce ≠ []) {data : PyObject}
    (hdata : Representable cls data)
    (hm : construct sur cls data = .ok m) : m.cls = cls ∧ Formed m t := by
  rw [construct] at hm
  dsimp only at hm
  split at hm
  swap
  · cases hm
  split at hm
  · cases hm
  next senderId hsender =>
  obtain ⟨fields', hinit, rfl⟩ := map_eq_ok.mp hm
  exact ⟨rfl, postInit_formed hown hnonce (fielded_defaults hsender hdata) hinit⟩

/-! ## Decoding -/

namespace Formed

theorem exists_get? (h : Formed m t) {name : Str} (hname : name ∈ m.cls.fieldNames) :
    ∃ v, m.get? name = some v :=
  exists_get?_of_mem (h.names ▸ hname)

/-- `__post_init__` finds nothing left to fill in. -/
theorem postInit_eq_self (h : Formed m t) (sur : Surroundings) :
    postInit sur m.cls m.fields = .ok m.fields := by
  have htyped : setType m.cls m.fields = m.fields := by
    rw [setType, h.own]
    exact set_eq_self h.type
  have hfilled : fillNonce sur m.cls m.fields = m.fields := by
    rw [fillNonce]
    cases hfield : m.cls.nonceField with
    | none => rfl
    | some name =>
      obtain ⟨v, hv, htruthy⟩ := h.nonce name hfield
      refine if_pos ?_
      rw [show get? name m.fields = some v from hv]
      exact htruthy
  obtain ⟨v, hv, htruthy⟩ := h.msgId
  rw [postInit_eq, htyped, hfilled, baseInit_of_truthy hv htruthy]

/-- A constructor that is given the fields of the message makes it. -/
theorem construct_eq (h : Formed m t) (sur : Surroundings) {data : PyObject}
    (hget : ∀ name, Assoc.get? name data = m.get? name) : construct sur m.cls data = .ok m := by
  have hall : (data.all fun entry =>
      ("sender_id".toList :: (defaults sur m.cls).map Prod.fst).contains entry.1) = true := by
    refine all_eq_true.mpr fun entry hentry => contains_iff_mem.mpr ?_
    rw [map_fst_defaults, ← h.names]
    obtain ⟨v, hv⟩ := exists_get?_of_mem (mem_map_of_mem hentry)
    rw [hget] at hv
    exact mem_keys_of_get? hv
  obtain ⟨senderId, hsender⟩ := h.exists_get? mem_cons_self
  have hfields : ("sender_id".toList, senderId) :: ((defaults sur m.cls).map fun entry =>
      (entry.1, (get? entry.1 data).getD entry.2)) = m.fields := by
    have hkeys : (("sender_id".toList, senderId) :: ((defaults sur m.cls).map fun entry =>
        (entry.1, (get? entry.1 data).getD entry.2))).map Prod.fst = m.cls.fieldNames := by
      rw [map_cons, map_map, ← map_fst_defaults sur m.cls]
      rfl
    refine ext_keys (hkeys.trans h.names.symm) (hkeys ▸ m.cls.nodup_fieldNames) fun name => ?_
    show _ = m.get? name
    rw [get?]
    split
    · next hname =>
        obtain rfl : "sender_id" = name := hname
        exact hsender.symm
    · next hname =>
        rw [get?_map fun name v => (get? name data).getD v, hget]
        cases hdefault : get? name (defaults sur m.cls) with
        | none =>
          -- the name is that of no field
          have hnone : name ∉ m.fields.map Prod.fst := by
            rw [h.names, ← map_fst_defaults sur m.cls, mem_cons, not_or]
            exact ⟨fun hsame => hname hsame.symm, get?_eq_none.mp hdefault⟩
          exact (get?_eq_none.mpr hnone).symm
        | some v =>
          have hmem : name ∈ m.cls.fieldNames := by
            rw [← map_fst_defaults sur m.cls]
            exact mem_cons_of_mem _ (mem_keys_of_get? hdefault)
          obtain ⟨w, hw⟩ := h.exists_get? hmem
          rw [hw]
          rfl
  rw [construct]
  dsimp only
  rw [if_pos hall, hget, hsender]
  dsimp only
  rw [hfields, h.postInit_eq_self]
  rfl

theorem get?_toDict (m : Message) (name : Str) :
    Assoc.get? name m.toDict = (m.get? name).map PyValue.wire :=
  get?_map (fun _ v => PyValue.wire v) name m.fields

/-- The enumeration members come back, the other values are those of the message. -/
theorem retypeFields_eq (h : Formed m t) :
    ∃ data, retypeFields m.cls (ofFields m.toDict) = (data, true) ∧
      ∀ name, Assoc.get? name data = m.get? name := by
  have hwire : ∀ name, get? name (ofFields m.toDict) = (m.get? name).map fun v => .json v.wire := by
    intro name
    rw [get?_ofFields, get?_toDict, Option.map_map]
    rfl
  have hplain : ∀ name, name ≠ "msg_type".toList →
      ¬ (m.cls = .peerStatus ∧ name = "status") →
      get? name (ofFields m.toDict) = m.get? name := by
    intro name hne hnot
    rw [hwire]
    cases hv : m.get? name with
    | none => rfl
    | some v =>
      have hvalue := h.values name v hv hne
      rw [Wireable, if_neg hnot] at hvalue
      obtain ⟨j, rfl, -⟩ := hvalue
      rfl
  have htype : retype "msg_type" (fun s => (MessageType.ofValue s).map .messageType)
      (ofFields m.toDict) = some (set "msg_type".toList (.messageType t) (ofFields m.toDict)) := by
    rw [retype, hwire, h.type]
    show ((MessageType.ofValue t.value).map _).map _ = _
    rw [MessageType.ofValue_value]
    rfl
  rw [retypeFields, htype]
  dsimp only
  by_cases hcls : m.cls = .peerStatus
  · -- the status is a member as well
    obtain ⟨v, hv⟩ := h.exists_get? (hcls ▸ status_mem_fieldNames)
    have hvalue := h.values _ v hv (by decide)
    rw [Wireable, if_pos ⟨hcls, rfl⟩] at hvalue
    obtain ⟨s, rfl⟩ := hvalue
    have hstatus : retype "status" (fun s => (PeerStatus.ofValue s).map .peerStatus)
        (set "msg_type" (.messageType t) (ofFields m.toDict))
          = some (set "status".toList (.peerStatus s)
              (set "msg_type" (.messageType t) (ofFields m.toDict))) := by
      rw [retype, get?_set, if_neg (by decide), hwire, hv]
      show ((PeerStatus.ofValue s.value).map _).map _ = _
      rw [PeerStatus.ofValue_value]
      rfl
    rw [if_pos hcls, hstatus]
    refine ⟨_, rfl, fun name => ?_⟩
    rw [get?_set, get?_set]
    split
    · next hname => rw [← hname, hv]
    · next hname =>
        split
        · next hname' => rw [← hname', h.type]
        · next hname' => exact hplain name (Ne.symm hname') fun hboth => hname hboth.2.symm
  · rw [if_neg hcls]
    refine ⟨_, rfl, fun name => ?_⟩
    rw [get?_set]
    split
    · next hname => rw [← hname, h.type]
    · next hname => exact hplain name (Ne.symm hname) fun hboth => hcls hboth.1

/-- The dictionary of a message is one of JSON values without repeated keys. -/
theorem unique_toDict (h : Formed m t) : (Json.obj m.toDict).Unique := by
  have hkeys : m.toDict.map Prod.fst = m.cls.fieldNames := by
    rw [Message.toDict, map_map, ← h.names]
    rfl
  refine ⟨hkeys ▸ m.cls.nodup_fieldNames, uniqueFields_iff.mpr fun entry hentry => ?_⟩
  obtain ⟨⟨name, v⟩, hmem, rfl⟩ := mem_map.mp hentry
  have hv : m.get? name = some v :=
    get?_of_mem (h.names.symm ▸ m.cls.nodup_fieldNames) hmem
  by_cases hname : name = "msg_type"
  · subst hname
    obtain rfl := Option.mem_unique h.type hv
    trivial
  · have hvalue := h.values name v hv hname
    rw [Wireable] at hvalue
    split at hvalue
    · obtain ⟨s, rfl⟩ := hvalue
      trivial
    · obtain ⟨j, rfl, hj⟩ := hvalue
      exact hj

/-- **What is decoded is the message.** -/
theorem deserializeBytes (h : Formed m t) (sur : Surroundings) :
    deserializeBytes sur m.toBytes = .ok m := by
  obtain ⟨data, hretype, hget⟩ := h.retypeFields_eq
  have htype : get? "msg_type".toList (ofFields m.toDict) = some (.json (.str t.value)) := by
    rw [get?_ofFields, get?_toDict, h.type]
    rfl
  rw [Protocol.deserializeBytes, Message.toBytes, decodeUtf8_encodeUtf8, Option.bind_some,
    loads_dumps false h.unique_toDict]
  show (deserializeDict sur (ofFields m.toDict)).2 = _
  rw [deserializeDict, htype]
  dsimp only
  rw [MessageType.ofValue_value]
  show (fromDict sur (ofType t) (ofFields m.toDict)).2 = _
  rw [ofType_ownType h.own, fromDict, hretype]
  exact h.construct_eq sur hget

end Formed

end

/-! ## Envelopes -/

/-- `base64.b64encode` and `base64.b64decode`; `none` is an exception. -/
structure Base64 where
  encode : Bytes → Str
  decode : Str → Option Bytes
  decode_encode : ∀ bs, decode (encode bs) = some bs

/-- `SignedEnvelope`. -/
structure SignedEnvelope where
  senderId : Str
  timestamp : Number
  payload : Bytes
  signature : Str

/-- The exceptions of `unwrap_and_verify`; the text of `MessageTimestampError` has the age of
the message. -/
inductive UnwrapError where
  | python (e : PyError)
  | signatureVerification (message : Str)
  | messageTimestamp
  deriving DecidableEq

namespace SignedEnvelope

variable (S : SignatureScheme) (codec : Base64)

/-- `_get_signing_data`. -/
def signingData (e : SignedEnvelope) : Str :=
  e.senderId ++ ['|'] ++ e.timestamp.text ++ ['|'] ++ sha256Hex e.payload

/-- `sign`. -/
def sign (key : S.SigningKey) (e : SignedEnvelope) : SignedEnvelope :=
  { e with signature := hexEncode (S.sign key (encodeUtf8 e.signingData)) }

/-- `verify`. -/
def verify (key : S.VerifyKey) (e : SignedEnvelope) : Bool :=
  if e.signature = [] then false
  else
    match hexDecode e.signature with
    | none => false
    | some signature => S.verify key (encodeUtf8 e.signingData) signature

/-- `to_dict`. -/
def toDict (e : SignedEnvelope) : List (Str × Json) :=
  [("sender_id", .str e.senderId), ("timestamp", e.timestamp.toJson),
    ("payload", .str (codec.encode e.payload)), ("signature", .str e.signature)]

/-- `to_bytes`. -/
def toBytes (e : SignedEnvelope) : Bytes := encodeUtf8 (dumps false (.obj (e.toDict codec)))

/-- `from_dict`.  A field of another type than the declared one makes the envelope
unreadable. -/
def fromDict : Json → Except PyError SignedEnvelope
  | .obj fs =>
    match Assoc.get? "sender_id".toList fs, Assoc.get? "timestamp".toList fs,
      Assoc.get? "payload".toList fs, Assoc.get? "signature".toList fs with
    | some senderId, some timestamp, some payload, some signature =>
      match readStr senderId, Number.ofJson timestamp, readStr payload, readStr signature with
      | some senderId, some timestamp, some payload, some signature =>
        match codec.decode payload with
        | none => .error .valueError
        | some bytes => .ok ⟨senderId, timestamp, bytes, signature⟩
      | _, _, _, _ => .error .undeclared
    | _, _, _, _ => .error .keyError
  | _ => .error .typeError

/-- `from_bytes`. -/
def fromBytes (data : Bytes) : Except PyError SignedEnvelope :=
  match (decodeUtf8 data).bind loads with
  | none => .error .valueError
  | some v => fromDict codec v

/-- `wrap`. -/
def wrap (sur : Surroundings) (m : Message) (senderId : Str) (key : S.SigningKey) : SignedEnvelope :=
  sign S key ⟨senderId, .float (.finite sur.now), m.toBytes, []⟩

end SignedEnvelope

open SignedEnvelope in
/-- `unwrap_and_verify`, at the time `now`. -/
def unwrapAndVerify (S : SignatureScheme) (codec : Base64) (sur : Surroundings) (now : ℚ)
    (getVerifyKey : Str → Option S.VerifyKey) (validateTime : Bool) (data : Bytes) :
    Except UnwrapError (Message × Str) :=
  match fromBytes codec data with
  | .error e => .error (.python e)
  | .ok envelope =>
    match getVerifyKey envelope.senderId with
    | none => .error (.signatureVerification ("Unknown sender: " ++ envelope.senderId))
    | some verifyKey =>
      if envelope.verify S verifyKey = false then
        .error (.signatureVerification ("Invalid signature from " ++ envelope.senderId))
      else if validateTime && !timestampValid now envelope.timestamp then .error .messageTimestamp
      else
        match deserializeBytes sur envelope.payload with
        | .error e => .error (.python e)
        | .ok m => .ok (m, envelope.senderId)

namespace SignedEnvelope

variable {S : SignatureScheme} {codec : Base64}

theorem fromDict_toDict (e : SignedEnvelope) : fromDict codec (.obj (e.toDict codec)) = .ok e := by
  have htimestamp : get? "timestamp".toList (e.toDict codec) = some e.timestamp.toJson := rfl
  have hpayload : get? "payload".toList (e.toDict codec)
      = some (.str (codec.encode e.payload)) := rfl
  have hsignature : get? "signature".toList (e.toDict codec) = some (.str e.signature) := rfl
  have hsender : get? "sender_id".toList (e.toDict codec) = some (.str e.senderId) := rfl
  rw [fromDict, hsender, htimestamp, hpayload, hsignature]
  dsimp only [readStr]
  rw [Number.ofJson_toJson]
  dsimp only
  rw [codec.decode_encode]

/-- An envelope comes back from its bytes. -/
theorem fromBytes_toBytes (e : SignedEnvelope) : fromBytes codec (e.toBytes codec) = .ok e := by
  have hunique : (Json.obj (e.toDict codec)).Unique := by
    refine ⟨?_, uniqueFields_iff.mpr fun entry hentry => ?_⟩
    · exact (show ["sender_id".toList, "timestamp", "payload",
        "signature"].Nodup by decide)
    · rcases mem_cons.mp hentry with rfl | hentry
      · trivial
      rcases mem_cons.mp hentry with rfl | hentry
      · cases e.timestamp <;> trivial
      rcases mem_pair.mp hentry with rfl | rfl <;> trivial
  rw [fromBytes, toBytes, decodeUtf8_encodeUtf8, Option.bind_some, loads_dumps false hunique]
  exact fromDict_toDict e

/-- A signature verifies under the key that belongs to it. -/
theorem verify_sign (key : S.SigningKey) (e : SignedEnvelope) :
    (sign S key e).verify S (S.verifyKey key) = true := by
  have hdata : (sign S key e).signingData = e.signingData := rfl
  have hne : (sign S key e).signature ≠ [] := hexEncode_ne_nil (S.sign_ne_nil _ _)
  rw [verify, if_neg hne, hdata]
  show (match hexDecode (hexEncode _) with
    | none => false
    | some signature => S.verify _ _ signature) = true
  rw [hexDecode_hexEncode]
  exact S.verify_sign key _

end SignedEnvelope

/-! ## The round trip -/

/-- **A message that is sent is the message that is read**, by itself and in a signed envelope
that arrives in time under a key that belongs to the sender. -/
theorem wire_round_trip {sur : Surroundings} {cls : MessageClass} {data : PyObject} {m : Message}
    (hcls : cls ≠ .network) (hnonce : sur.nonce ≠ []) (hdata : Representable cls data)
    (hm : construct sur cls data = .ok m) :
    (∀ sur', deserializeBytes sur' m.toBytes = .ok m) ∧ m.cls = cls ∧
      ∀ (S : SignatureScheme) (codec : Base64) (key : S.SigningKey) (senderId : Str)
        (getVerifyKey : Str → Option S.VerifyKey) (sent received : Surroundings) (now : ℚ)
        (validateTime : Bool), getVerifyKey senderId = some (S.verifyKey key) →
        timestampValid now (.float (.finite sent.now)) = true →
        unwrapAndVerify S codec received now getVerifyKey validateTime
          ((SignedEnvelope.wrap S sent m senderId key).toBytes codec) = .ok (m, senderId) := by
  obtain ⟨t, hown⟩ : ∃ t, cls.ownType = some t := by
    cases cls with
    | network => exact absurd rfl hcls
    | _ => exact ⟨_, rfl⟩
  obtain ⟨hsame, hformed⟩ := formed_of_construct hown hnonce hdata hm
  refine ⟨fun sur' => hformed.deserializeBytes sur', hsame, ?_⟩
  intro S codec key senderId getVerifyKey sent received now validateTime hkey htime
  rw [unwrapAndVerify, SignedEnvelope.fromBytes_toBytes]
  show (match getVerifyKey senderId with
    | none => _
    | some verifyKey => _) = _
  rw [hkey]
  dsimp only
  rw [SignedEnvelope.wrap, SignedEnvelope.verify_sign, if_neg Bool.noConfusion]
  have htimestamp : timestampValid now (SignedEnvelope.sign S key
      ⟨senderId, .float (.finite sent.now), m.toBytes, []⟩).timestamp = true := htime
  have hpayload : (SignedEnvelope.sign S key
      ⟨senderId, .float (.finite sent.now), m.toBytes, []⟩).payload = m.toBytes := rfl
  rw [htimestamp, hpayload, hformed.deserializeBytes received]
  simp [SignedEnvelope.sign]

/-- The functions of the `base64` module. -/
def Base64.standard : Base64 := ⟨b64encode, b64decodeFrom [] 0, b64decodeFrom_b64encode⟩

/-- The clock and the nonces of an example. -/
def atNoon : Surroundings := ⟨.ofNat 100, "ab", fun _ => []⟩

/-- A peer that tells that it is online. -/
def onlineData : PyObject :=
  [("sender_id", .json (.str "alice")), ("msg_id", .json (.str "m1")),
    ("status", .peerStatus .online)]

/-- It tells so to another one ten seconds later. -/
theorem wire_round_trip_status : ∃ m,
    construct atNoon .peerStatus onlineData = .ok m ∧
      deserializeBytes atNoon m.toBytes = .ok m ∧
      unwrapAndVerify .tagged .standard atNoon 110 (fun _ => some (show UInt8 from 7)) true
        ((SignedEnvelope.wrap .tagged atNoon m "alice" (show UInt8 from 7)).toBytes .standard)
          = .ok (m, "alice") := by
  have hdata : Representable .peerStatus onlineData := by
    intro name v hget _
    rcases mem_cons.mp (mem_of_get? hget) with h | hmem
    · obtain ⟨rfl, rfl⟩ := Prod.mk.inj h
      exact .of_str _ (by decide)
    rcases mem_pair.mp hmem with h | h
    · obtain ⟨rfl, rfl⟩ := Prod.mk.inj h
      exact .of_str _ (by decide)
    · obtain ⟨rfl, rfl⟩ := Prod.mk.inj h
      rw [Wireable, if_pos ⟨rfl, rfl⟩]
      exact ⟨_, rfl⟩
  obtain ⟨m, hm⟩ : ∃ m, construct atNoon .peerStatus onlineData = .ok m := ⟨_, rfl⟩
  have hnonce : atNoon.nonce ≠ [] := cons_ne_nil _ _
  obtain ⟨hdecode, -, hunwrap⟩ := wire_round_trip (by decide) hnonce hdata hm
  exact ⟨m, hm, hdecode atNoon, hunwrap .tagged .standard (show UInt8 from 7) "alice" _ atNoon
    atNoon 110 true rfl (by decide +kernel)⟩

end TrustFlow.Protocol
