import TrustFlow.Library.DateTime
import TrustFlow.Library.Json
import TrustFlow.SecretSharing.Shares

/-!
# Time-lock encryption

`coc_framework/core/timelock.py`: contents are encrypted under keys that are deleted
when their time is over.

* `TimeLockMetadata`, `EncryptedContent` — what is handed out, and its dictionary;
  `parse_dumped` reads it back from its JSON text.
* `KeyStore` — the keys with their time of expiry.  A key that is asked for too late
  is deleted, and so is every key that the clean-up meets.
* `TimeLockEngine` — `encrypt`, `decrypt`, `destroy`, `extendTtl`, `getStatus`.
* `Coherent` — every key that is stored is the key of a lock that is not destroyed.
* The order on engines: one has grown out of the other.  A lock that is known stays
  known, and its key stays what it was or is gone (`Held.mono`).

Times of expiry beyond the last year that a `datetime` can hold are errors.

An operation is one step here; `TimeLock.Destruction` takes it apart into its accesses
to the stores.  The clock and the random values (`LockDraw`) come with the operation,
and AES-GCM is a parameter.  The clean-up thread is a step that may come at any time;
that a key is overwritten before it is deleted is left out.
-/

namespace TrustFlow.TimeLock

open Library SecretSharing

/-! ## Encrypted contents -/

/-- `TimeLockStatus`. -/
inductive TimeLockStatus where
  | active
  | expired
  | destroyed
  deriving DecidableEq

/-- The name of a status, as it stands in the metadata. -/
def TimeLockStatus.name : TimeLockStatus → Str
  | .active => "ACTIVE"
  | .expired => "EXPIRED"
  | .destroyed => "DESTROYED"

/-- `TimeLockMetadata`. -/
structure TimeLockMetadata where
  lockId : Str
  contentHash : Str
  createdAt : Str
  expiresAt : Str
  ttlSeconds : ℤ
  status : Str
  deriving DecidableEq

/-- The string under a key. -/
def strField (key : Str) (fields : List (Str × Json)) : Option Str :=
  match Assoc.get? key fields with
  | some (.str s) => some s
  | _ => none

/-- The integer under a key. -/
def intField (key : Str) (fields : List (Str × Json)) : Option ℤ :=
  match Assoc.get? key fields with
  | some (.int z) => some z
  | _ => none

namespace TimeLockMetadata

/-- The names of the fields. -/
def fieldNames : List Str :=
  ["lock_id", "content_hash", "created_at", "expires_at",
    "ttl_seconds", "status"]

variable (metadata : TimeLockMetadata)

/-- `to_dict`. -/
def toDict : Json :=
  .obj (fieldNames.zip [.str metadata.lockId, .str metadata.contentHash, .str metadata.createdAt,
    .str metadata.expiresAt, .int metadata.ttlSeconds, .str metadata.status])

/-- `from_dict`; `none` is the `TypeError` of a missing or an unknown key.  Values of
types that `to_dict` never writes are refused too. -/
def fromDict : Json → Option TimeLockMetadata
  | .obj fields =>
    if fields.all fun field => fieldNames.contains field.1 then do
      let lockId ← strField "lock_id" fields
      let contentHash ← strField "content_hash" fields
      let createdAt ← strField "created_at" fields
      let expiresAt ← strField "expires_at" fields
      let ttlSeconds ← intField "ttl_seconds" fields
      let status ←
        if (Assoc.get? "status".toList fields).isSome then strField "status" fields
        else some (TimeLockStatus.name .active)
      return ⟨lockId, contentHash, createdAt, expiresAt, ttlSeconds, status⟩
    else none
  | _ => none

theorem fromDict_toDict : fromDict metadata.toDict = some metadata :=
  rfl

theorem unique_toDict : metadata.toDict.Unique := by
  have hkeys : fieldNames.Nodup := by decide
  exact ⟨hkeys, trivial, trivial, trivial, trivial, trivial, trivial, trivial⟩

end TimeLockMetadata

/-- `EncryptedContent`. -/
structure EncryptedContent where
  ciphertext : Bytes
  nonce : Bytes
  metadata : TimeLockMetadata
  deriving DecidableEq

namespace EncryptedContent

variable (encrypted : EncryptedContent)

/-- The items of the dictionary. -/
def fields : List (Str × Json) :=
  [("ciphertext", .str (hexEncode encrypted.ciphertext)),
    ("nonce", .str (hexEncode encrypted.nonce)),
    ("metadata", encrypted.metadata.toDict)]

/-- `to_dict`. -/
def toDict : Json := .obj encrypted.fields

/-- `from_dict`; `none` is one of its exceptions. -/
def fromDict : Json → Option EncryptedContent
  | .obj fields => do
      let ciphertext ← (strField "ciphertext" fields).bind hexDecode
      let nonce ← (strField "nonce" fields).bind hexDecode
      let metadata ← (Assoc.get? "metadata".toList fields).bind TimeLockMetadata.fromDict
      return ⟨ciphertext, nonce, metadata⟩
  | _ => none

/-- `json.dumps(encrypted.to_dict())`. -/
def dumped : Str := dumps false encrypted.toDict

/-- `EncryptedContent.from_dict(json.loads(text))`. -/
def parse (text : Str) : Option EncryptedContent := (loads text).bind fromDict

theorem unique_toDict : encrypted.toDict.Unique := by
  have hkeys : ["ciphertext".toList, "nonce", "metadata"].Nodup := by decide
  exact ⟨hkeys, trivial, trivial, encrypted.metadata.unique_toDict, trivial⟩

theorem fromDict_toDict :
    fromDict encrypted.toDict = some encrypted := by
  have hciphertext : strField "ciphertext" encrypted.fields
      = some (hexEncode encrypted.ciphertext) := rfl
  have hnonce : strField "nonce" encrypted.fields = some (hexEncode encrypted.nonce) := rfl
  have hmetadata : Assoc.get? "metadata".toList encrypted.fields
      = some encrypted.metadata.toDict := rfl
  rw [toDict, fromDict, hciphertext, hnonce, hmetadata, Option.bind_some, Option.bind_some,
    Option.bind_some, hexDecode_hexEncode, hexDecode_hexEncode, TimeLockMetadata.fromDict_toDict]
  rfl

/-- **The round trip** of an encrypted content through its JSON text. -/
theorem parse_dumped : parse encrypted.dumped = some encrypted := by
  rw [parse, dumped, loads_dumps false encrypted.unique_toDict, Option.bind_some, fromDict_toDict]

theorem dumped_ne_nil : encrypted.dumped ≠ [] := by
  intro hnil
  have hparse := encrypted.parse_dumped
  rw [hnil, show parse [] = none from rfl] at hparse
  cases hparse

end EncryptedContent

/-! ## The key store -/

/-- `KeyStore`: keys, with their time of expiry. -/
structure KeyStore where
  keys : Dict Str (Bytes × Instant)

namespace KeyStore

variable (store : KeyStore) (lockId : Str)

/-- `store_key`. -/
def storeKey (key : Bytes) (expiry : Instant) : KeyStore :=
  ⟨store.keys.set lockId (key, expiry)⟩

/-- `_secure_wipe` and `del`. -/
def deleteKey : KeyStore := ⟨store.keys.erase lockId⟩

/-- `get_key`. -/
def getKey (now : Instant) (lockId : Str) : KeyStore × Option Bytes :=
  match store.keys.get? lockId with
  | none => (store, none)
  | some (key, expiry) =>
    if now.1 > expiry.1 then (store.deleteKey lockId, none) else (store, some key)

/-- `destroy_key`. -/
def destroyKey : KeyStore × Bool :=
  match store.keys.get? lockId with
  | none => (store, false)
  | some _ => (store.deleteKey lockId, true)

/-- `get_expiry`. -/
def getExpiry : Option Instant :=
  (store.keys.get? lockId).map Prod.snd

/-- `_cleanup_expired`. -/
def cleanupExpired (now : Instant) : KeyStore :=
  ⟨store.keys.filter fun _ entry => decide (¬ now.1 > entry.2.1)⟩

variable {store : KeyStore} {now : Instant} {lockId : Str}

/-- A key that is returned is stored, and its time is not over. -/
theorem getKey_some {key : Bytes} (h : (store.getKey now lockId).2 = some key) :
    (store.getKey now lockId).1 = store ∧
      ∃ expiry, store.keys.get? lockId = some (key, expiry) ∧ now.1 ≤ expiry.1 := by
  unfold getKey at h ⊢
  cases hget : store.keys.get? lockId with
  | none =>
    rw [hget] at h
    cases h
  | some entry =>
    obtain ⟨key', expiry⟩ := entry
    rw [hget] at h
    dsimp only at h ⊢
    by_cases hlate : now.1 > expiry.1
    · rw [if_pos hlate] at h
      cases h
    · rw [if_neg hlate] at h ⊢
      rw [← Option.some.inj h]
      exact ⟨rfl, expiry, rfl, Nat.le_of_not_lt hlate⟩

/-- If no key is returned, none is left. -/
theorem getKey_none (h : (store.getKey now lockId).2 = none) :
    (store.getKey now lockId).1.keys.get? lockId = none := by
  unfold getKey at h ⊢
  cases hget : store.keys.get? lockId with
  | none => exact hget
  | some entry =>
    obtain ⟨key', expiry⟩ := entry
    rw [hget] at h
    dsimp only at h ⊢
    by_cases hlate : now.1 > expiry.1
    · rw [if_pos hlate]
      exact store.keys.get?_erase_self lockId
    · rw [if_neg hlate] at h
      cases h

variable {lockId' : Str}

theorem get?_deleteKey {entry : Bytes × Instant}
    (h : (store.deleteKey lockId).keys.get? lockId' = some entry) :
    store.keys.get? lockId' = some entry := by
  rw [deleteKey, Dict.get?_erase] at h
  split at h
  · cases h
  · exact h

/-- Asking for a key adds none. -/
theorem get?_getKey {entry : Bytes × Instant}
    (h : (store.getKey now lockId).1.keys.get? lockId' = some entry) :
    store.keys.get? lockId' = some entry := by
  unfold getKey at h
  split at h
  · exact h
  · split at h
    · exact get?_deleteKey h
    · exact h

end KeyStore

/-! ## The engine -/

/-- The random values of one `encrypt`: `token_hex(16)`, `token_bytes(32)` and
`token_bytes(12)`. -/
structure LockDraw where
  lockId : Str
  lockId_length : lockId.length = 32
  key : Bytes
  key_length : key.length = 32
  nonce : Bytes

/-- `t + timedelta(seconds=...)`; `none` is an `OverflowError`. -/
def addSeconds (t : Instant) (seconds : ℤ) : Option Instant :=
  let moved : ℤ := t.1 + seconds * 1000000
  if h : moved.toNat < datetimeMax then if 0 ≤ moved then some ⟨moved.toNat, h⟩ else none else none

/-- `TimeLockEngine`. -/
structure TimeLockEngine where
  keyStore : KeyStore
  metadataStore : Dict Str TimeLockMetadata

namespace TimeLockEngine

variable (aes : AesGcm)

/-- The metadata of a new lock. -/
def newMetadata (draw : LockDraw) (now expiry : Instant) (content : Str) (ttlSeconds : ℤ) :
    TimeLockMetadata where
  lockId := draw.lockId
  contentHash := sha256Hex (encodeUtf8 content)
  createdAt := isoformat now.1
  expiresAt := isoformat expiry.1
  ttlSeconds := ttlSeconds
  status := TimeLockStatus.name .active

variable (engine : TimeLockEngine)

/-- `encrypt`; `none` is an `OverflowError`. -/
def encrypt (draw : LockDraw) (now : Instant) (content : Str)
    (ttlSeconds : ℤ) : Option (TimeLockEngine × EncryptedContent) := do
  let expiry ← addSeconds now ttlSeconds
  let metadata := newMetadata draw now expiry content ttlSeconds
  return (
    { keyStore := engine.keyStore.storeKey draw.lockId draw.key expiry
      metadataStore := engine.metadataStore.set draw.lockId metadata },
    { ciphertext := aes.encrypt draw.key draw.nonce (encodeUtf8 content)
      nonce := draw.nonce
      metadata := metadata })

/-- The `try` block of `decrypt`. -/
def openWith (key : Bytes) (encrypted : EncryptedContent) : Option Str := do
  let plaintext ← aes.decrypt key encrypted.nonce encrypted.ciphertext
  let content ← decodeUtf8 plaintext
  if sha256Hex plaintext ≠ encrypted.metadata.contentHash then none else some content

/-- A new status in the metadata of a lock, if there are any. -/
def setStatus (lockId : Str) (status : TimeLockStatus) : TimeLockEngine :=
  match engine.metadataStore.get? lockId with
  | none => engine
  | some metadata =>
    { engine with
      metadataStore := engine.metadataStore.set lockId { metadata with status := status.name } }

/-- `_metadata_store[lock_id].status == "DESTROYED"`. -/
def isMarkedDestroyed (lockId : Str) : Bool :=
  (engine.metadataStore.get? lockId).any fun metadata =>
    decide (metadata.status = TimeLockStatus.name .destroyed)

variable (now : Instant)

/-- `decrypt`. -/
def decrypt (encrypted : EncryptedContent) :
    TimeLockEngine × Option Str :=
  let lockId := encrypted.metadata.lockId
  match engine.keyStore.getKey now lockId with
  | (store, none) =>
    let engine := { engine with keyStore := store }
    (if engine.isMarkedDestroyed lockId then engine else engine.setStatus lockId .expired, none)
  | (store, some key) => ({ engine with keyStore := store }, openWith aes key encrypted)

section

variable (lockId : Str)

/-- `destroy`. -/
def destroy : TimeLockEngine × Bool :=
  match engine.keyStore.destroyKey lockId with
  | (store, false) => ({ engine with keyStore := store }, false)
  | (store, true) => (setStatus { engine with keyStore := store } lockId .destroyed, true)

/-- `get_status`. -/
def getStatus :
    TimeLockEngine × TimeLockStatus :=
  match engine.metadataStore.get? lockId with
  | none => (engine, .destroyed)
  | some metadata =>
    if metadata.status = TimeLockStatus.name .destroyed then (engine, .destroyed)
    else
      match engine.keyStore.getKey now lockId with
      | (store, some _) => ({ engine with keyStore := store }, .active)
      | (store, none) => ({ engine with keyStore := store }, .expired)

/-- `get_remaining_time`, in microseconds. -/
def getRemainingTime : Option ℕ :=
  (engine.keyStore.getExpiry lockId).map fun expiry => expiry.1 - now.1

/-- The metadata of a lock, if there are any, after an extension. -/
def noteExtension (expiry : Instant) (additional : ℤ) :
    TimeLockEngine :=
  match engine.metadataStore.get? lockId with
  | none => engine
  | some metadata =>
    { engine with
      metadataStore := engine.metadataStore.set lockId { metadata with
          expiresAt := isoformat expiry.1
          ttlSeconds := metadata.ttlSeconds + additional } }

/-- `extend_ttl`; `none` is an `OverflowError`. -/
def extendTtl (additional : ℤ) :
    TimeLockEngine × Option Bool :=
  match engine.keyStore.getKey now lockId with
  | (store, none) => ({ engine with keyStore := store }, some false)
  | (store, some key) =>
    let engine := { engine with keyStore := store }
    match store.getExpiry lockId with
    | none => (engine, some false)
    | some currentExpiry =>
      match addSeconds currentExpiry additional with
      | none => (engine, none)
      | some newExpiry =>
        let engine := { engine with keyStore := store.storeKey lockId key newExpiry }
        (engine.noteExtension lockId newExpiry additional, some true)

end

/-- The clean-up of the key store. -/
def cleanup : TimeLockEngine :=
  { engine with keyStore := engine.keyStore.cleanupExpired now }

/-! ## What the operations leave of a lock -/

variable (lockId : Str)

/-- The key of a lock, with its time of expiry. -/
def key? : Option (Bytes × Instant) :=
  engine.keyStore.keys.get? lockId

/-- There are metadata of the lock. -/
def Known : Prop :=
  (engine.metadataStore.get? lockId).isSome = true

instance (engine : TimeLockEngine) (lockId : Str) : Decidable (engine.Known lockId) :=
  inferInstanceAs (Decidable (_ = true))

/-- Every key is the key of an active lock. -/
def Coherent : Prop :=
  ∀ lockId entry, engine.key? lockId = some entry →
    ∃ metadata, engine.metadataStore.get? lockId = some metadata ∧
      metadata.status = TimeLockStatus.name .active

/-- The lock is there at the time: its key is stored and not expired, and it is not
marked as destroyed. -/
def Live : Prop :=
  (∃ key expiry, engine.key? lockId = some (key, expiry) ∧ now.1 ≤ expiry.1) ∧
    ∃ metadata, engine.metadataStore.get? lockId = some metadata ∧
      metadata.status ≠ TimeLockStatus.name .destroyed

/-- One engine has grown out of the other: a lock that was known is known, with the
same key or without one. -/
instance : Preorder TimeLockEngine where
  le engine engine' := ∀ lockId, engine.Known lockId → engine'.Known lockId ∧
    ∀ entry, engine'.key? lockId = some entry → engine.key? lockId = some entry
  le_refl _ _ hknown := ⟨hknown, fun _ h => h⟩
  le_trans _ _ _ h h' lockId hknown :=
    ⟨(h' lockId (h lockId hknown).1).1, fun entry hentry =>
      (h lockId hknown).2 entry ((h' lockId (h lockId hknown).1).2 entry hentry)⟩

/-- What the operations other than `encrypt` do: keys may go, and the metadata of a
lock change only if it has no key. -/
structure Loses (engine engine' : TimeLockEngine) : Prop where
  known : ∀ lockId, engine.Known lockId → engine'.Known lockId
  kept : ∀ lockId entry, engine'.key? lockId = some entry → engine.key? lockId = some entry ∧
    engine'.metadataStore.get? lockId = engine.metadataStore.get? lockId

variable {aes} {engine engine' : TimeLockEngine} {now : Instant} {lockId : Str}

theorem Loses.le (h : engine.Loses engine') : engine ≤ engine' := fun lockId hknown =>
  ⟨h.known lockId hknown, fun entry hentry => (h.kept lockId entry hentry).1⟩

theorem Loses.coherent (h : engine.Loses engine') (hcoherent : engine.Coherent) :
    engine'.Coherent := by
  intro lockId entry hentry
  obtain ⟨hkey, hmetadata⟩ := h.kept lockId entry hentry
  rw [hmetadata]
  exact hcoherent lockId entry hkey

theorem Loses.refl (engine : TimeLockEngine) : engine.Loses engine :=
  ⟨fun _ h => h, fun _ _ h => ⟨h, rfl⟩⟩

/-- Keys go, and nothing else happens. -/
theorem loses_of_keys {store : KeyStore} (h : ∀ lockId entry, store.keys.get? lockId = some entry →
    engine.key? lockId = some entry) : engine.Loses { engine with keyStore := store } :=
  ⟨fun _ hknown => hknown, fun lockId entry hentry => ⟨h lockId entry hentry, rfl⟩⟩

variable {status : TimeLockStatus} {key : Bytes} {expiry : Instant}

theorem known_setStatus (h : engine.Known lockId') :
    (engine.setStatus lockId status).Known lockId' := by
  unfold setStatus
  split
  · exact h
  · unfold Known at h ⊢
    rw [Dict.get?_set]
    split
    · rfl
    · exact h

theorem key?_setStatus (lockId' : Str) :
    (engine.setStatus lockId status).key? lockId' = engine.key? lockId' := by
  unfold setStatus
  split <;> rfl

theorem get?_setStatus_of_ne (hne : lockId ≠ lockId') :
    (engine.setStatus lockId status).metadataStore.get? lockId'
      = engine.metadataStore.get? lockId' := by
  unfold setStatus
  split
  · rfl
  · exact engine.metadataStore.get?_set_of_ne _ hne

/-- The status of a lock without a key may change. -/
theorem Loses.setStatus (h : engine.Loses engine') (hkey : engine'.key? lockId = none)
    (status : TimeLockStatus) : engine.Loses (engine'.setStatus lockId status) where
  known lockId' hknown := known_setStatus (h.known lockId' hknown)
  kept lockId' entry hentry := by
    rw [key?_setStatus] at hentry
    have hne : lockId ≠ lockId' := by
      rintro rfl
      cases hkey.symm.trans hentry
    rw [get?_setStatus_of_ne hne]
    exact h.kept lockId' entry hentry

/-! ### The operations -/

section

variable (engine : TimeLockEngine) (now : Instant) (lockId : Str)

theorem loses_getKey :
    engine.Loses { engine with keyStore := (engine.keyStore.getKey now lockId).1 } :=
  loses_of_keys fun _ _ => KeyStore.get?_getKey

theorem loses_decrypt (encrypted : EncryptedContent) :
    engine.Loses (engine.decrypt aes now encrypted).1 := by
  have hkeys := loses_getKey engine now encrypted.metadata.lockId
  have hnone : (engine.keyStore.getKey now encrypted.metadata.lockId).2 = none →
      (engine.keyStore.getKey now encrypted.metadata.lockId).1.keys.get? encrypted.metadata.lockId
        = none := KeyStore.getKey_none
  unfold decrypt
  dsimp only
  generalize engine.keyStore.getKey now encrypted.metadata.lockId = found at hkeys hnone
  obtain ⟨store, key⟩ := found
  cases key with
  | none =>
    dsimp only at hkeys hnone ⊢
    split
    · exact hkeys
    · exact hkeys.setStatus (hnone rfl) .expired
  | some key => exact hkeys

theorem loses_destroy :
    engine.Loses (engine.destroy lockId).1 := by
  unfold destroy KeyStore.destroyKey
  cases engine.keyStore.keys.get? lockId with
  | none => exact Loses.refl engine
  | some entry =>
    exact (loses_of_keys fun _ _ => KeyStore.get?_deleteKey).setStatus
      (engine.keyStore.keys.get?_erase_self lockId) .destroyed

theorem loses_getStatus :
    engine.Loses (engine.getStatus now lockId).1 := by
  have hkeys := loses_getKey engine now lockId
  unfold getStatus
  split
  · exact Loses.refl engine
  · split
    · exact Loses.refl engine
    · generalize engine.keyStore.getKey now lockId = found at hkeys
      obtain ⟨store, key⟩ := found
      cases key with
      | none => exact hkeys
      | some key => exact hkeys

theorem loses_cleanup :
    engine.Loses (engine.cleanup now) :=
  loses_of_keys fun _ _ h => (Dict.get?_filter.mp h).1

end

variable {encrypted : EncryptedContent}

/-- **Decryption needs the key**, before its time is over. -/
theorem decrypt_some {content : Str}
    (h : (engine.decrypt aes now encrypted).2 = some content) :
    ∃ key expiry, engine.key? encrypted.metadata.lockId = some (key, expiry) ∧
      now.1 ≤ expiry.1 ∧ openWith aes key encrypted = some content := by
  have hsome : ∀ key, (engine.keyStore.getKey now encrypted.metadata.lockId).2 = some key →
      ∃ expiry, engine.key? encrypted.metadata.lockId = some (key, expiry) ∧ now.1 ≤ expiry.1 :=
    fun key hkey => (KeyStore.getKey_some hkey).2
  unfold decrypt at h
  dsimp only at h
  generalize engine.keyStore.getKey now encrypted.metadata.lockId = found at h hsome
  obtain ⟨store, key⟩ := found
  cases key with
  | none => cases h
  | some key =>
    obtain ⟨expiry, hkey, hnow⟩ := hsome key rfl
    exact ⟨key, expiry, hkey, hnow, h⟩

/-- Decryption with a key that is there and not expired. -/
theorem decrypt_of_key
    (hkey : engine.key? encrypted.metadata.lockId = some (key, expiry)) (hnow : now.1 ≤ expiry.1) :
    engine.decrypt aes now encrypted = (engine, openWith aes key encrypted) := by
  have hget : engine.keyStore.getKey now encrypted.metadata.lockId
      = (engine.keyStore, some key) := by
    rw [KeyStore.getKey, show engine.keyStore.keys.get? _ = _ from hkey]
    exact if_neg (Nat.not_lt.mpr hnow)
  rw [decrypt, hget]

/-- A lock is reported active only with a key that is there and not expired. -/
theorem getStatus_active (h : (engine.getStatus now lockId).2 = .active) :
    (engine.getStatus now lockId).1 = engine ∧
      ∃ key expiry, engine.key? lockId = some (key, expiry) ∧ now.1 ≤ expiry.1 := by
  have hsome : ∀ key, (engine.keyStore.getKey now lockId).2 = some key →
      (engine.keyStore.getKey now lockId).1 = engine.keyStore ∧
        ∃ expiry, engine.key? lockId = some (key, expiry) ∧ now.1 ≤ expiry.1 :=
    fun key hkey => KeyStore.getKey_some hkey
  unfold getStatus at h ⊢
  cases hmetadata : engine.metadataStore.get? lockId with
  | none =>
    rw [hmetadata] at h
    cases h
  | some metadata =>
    rw [hmetadata] at h
    dsimp only at h ⊢
    split at h
    · cases h
    · next hstatus =>
        rw [if_neg hstatus]
        generalize engine.keyStore.getKey now lockId = found at h hsome ⊢
        obtain ⟨store, key⟩ := found
        cases key with
        | none => cases h
        | some key =>
          obtain ⟨hstore, expiry, hkey, hnow⟩ := hsome key rfl
          dsimp only at hstore ⊢
          rw [hstore]
          exact ⟨rfl, key, expiry, hkey, hnow⟩

/-- A stored key that is not expired makes its lock live. -/
theorem Coherent.live (hcoherent : engine.Coherent) (hkey : engine.key? lockId = some (key, expiry))
    (hnow : now.1 ≤ expiry.1) : engine.Live now lockId := by
  obtain ⟨metadata, hmetadata, hstatus⟩ := hcoherent lockId _ hkey
  refine ⟨⟨key, expiry, hkey, hnow⟩, metadata, hmetadata, ?_⟩
  rw [hstatus]
  decide

/-- The key of the lock is this one, if it is still there. -/
def Held (engine : TimeLockEngine) (lockId : Str) (key : Bytes) (expiry : Instant) : Prop :=
  engine.Known lockId ∧ ∀ entry, engine.key? lockId = some entry → entry = (key, expiry)

theorem Held.mono (h : engine.Held lockId key expiry) (hle : engine ≤ engine') :
    engine'.Held lockId key expiry :=
  ⟨(hle lockId h.1).1, fun entry hentry => h.2 entry ((hle lockId h.1).2 entry hentry)⟩

/-- What `encrypt` returns. -/
structure Encrypts (aes : AesGcm) (engine : TimeLockEngine) (draw : LockDraw) (now : Instant)
    (content : Str) (ttlSeconds : ℤ) (engine' : TimeLockEngine) (encrypted : EncryptedContent)
    (expiry : Instant) : Prop where
  expires : addSeconds now ttlSeconds = some expiry
  lockId : encrypted.metadata.lockId = draw.lockId
  opens : openWith aes draw.key encrypted = some content
  key : engine'.key? draw.lockId = some (draw.key, expiry)
  metadata : engine'.metadataStore.get? draw.lockId = some encrypted.metadata
  active : encrypted.metadata.status = TimeLockStatus.name .active
  otherKeys : ∀ lockId, draw.lockId ≠ lockId → engine'.key? lockId = engine.key? lockId
  otherMetadata : ∀ lockId, draw.lockId ≠ lockId →
    engine'.metadataStore.get? lockId = engine.metadataStore.get? lockId

variable {draw : LockDraw} {content : Str} {ttlSeconds : ℤ} {encrypted : EncryptedContent}
  {expiry : Instant}

theorem Encrypts.lockId_ne_nil
    (h : Encrypts aes engine draw now content ttlSeconds engine' encrypted expiry) :
    encrypted.metadata.lockId ≠ [] := by
  rw [h.lockId]
  exact List.ne_nil_of_length_eq_add_one draw.lockId_length

theorem encrypt_some
    (h : engine.encrypt aes draw now content ttlSeconds = some (engine', encrypted)) :
    ∃ expiry, Encrypts aes engine draw now content ttlSeconds engine' encrypted expiry := by
  unfold encrypt at h
  cases hexpiry : addSeconds now ttlSeconds with
  | none =>
    rw [hexpiry] at h
    cases h
  | some expiry =>
    rw [hexpiry] at h
    obtain ⟨rfl, rfl⟩ := Prod.mk.inj (Option.some.inj h)
    refine ⟨expiry, hexpiry, rfl, ?_, Dict.get?_set_self _ _ _, Dict.get?_set_self _ _ _, rfl,
      fun lockId hne => Dict.get?_set_of_ne _ _ hne, fun lockId hne => Dict.get?_set_of_ne _ _ hne⟩
    rw [openWith, aes.decrypt_encrypt _ _ _ draw.key_length]
    simp [newMetadata]

variable (h : Encrypts aes engine draw now content ttlSeconds engine' encrypted expiry)
include h

theorem Encrypts.le (hfresh : ¬ engine.Known draw.lockId) : engine ≤ engine' := by
  intro lockId hknown
  have hne : draw.lockId ≠ lockId := fun heq => hfresh (heq ▸ hknown)
  unfold Known at hknown ⊢
  rw [h.otherMetadata lockId hne, h.otherKeys lockId hne]
  exact ⟨hknown, fun _ hentry => hentry⟩

theorem Encrypts.coherent (hcoherent : engine.Coherent) : engine'.Coherent := by
  intro lockId entry hentry
  by_cases hsame : draw.lockId = lockId
  · subst hsame
    exact ⟨_, h.metadata, h.active⟩
  · rw [h.otherMetadata lockId hsame]
    rw [h.otherKeys lockId hsame] at hentry
    exact hcoherent lockId entry hentry

theorem Encrypts.held : engine'.Held draw.lockId draw.key expiry := by
  refine ⟨by rw [Known, h.metadata, Option.isSome_some], fun entry hentry => ?_⟩
  rw [h.key] at hentry
  exact (Option.some.inj hentry).symm

end TimeLockEngine

end TrustFlow.TimeLock
