import Mathlib.Data.Int.ConditionallyCompleteOrder
import TrustFlow.Custody.Storage

/-!
# Deletion tokens

`core/deletion_engine.py`: tokens, the cache of processed tokens, and
`process_token`, which a peer runs on every token it receives.

* `DeletionToken.issue` — `issue_token`, with the check that the issuer owns
  the node.
* `ProcessedTokenCache` — the hashes of processed tokens with the time of
  processing, cleaned up at most once a minute.
* `processToken` — replay check, expiry check, signature of the originator the
  token names, removal of the node, and tokens for the node's children that the
  receiver owns.
* `Accepts` — the checks a token has to pass.  `processToken_of_accepts` and
  `processToken_of_not` say what becomes of a token that passes and of one that
  does not; nothing below unfolds `processToken`.

A call reads the clock once and draws its nonces and set orders from outside
(`Ambient`).  Times are in microseconds, also those that the cache keeps as
floats.  The audit records of a call are part of its result, without the time
stamps and hashes that the log file adds.
-/

namespace TrustFlow.Custody

open Library List InMemoryStorage Option

/-- What a call takes from outside: the clock, the random nonces it may use and
the order in which sets are listed. -/
structure Ambient where
  now : Instant
  nonce : ℕ → Str
  order : SetOrder

/-- The arguments of `audit_log.log_event`. -/
structure AuditRecord where
  eventType : Str
  actor : Str
  target : Str
  details : Str
  deriving DecidableEq

/-- The settings of the deletion engine, in seconds. -/
structure EngineConfig where
  tokenValidity : ℤ
  tombstoneGrace : ℤ

/-- The default settings. -/
def EngineConfig.default : EngineConfig := ⟨300, 300⟩

/-- Seconds in the unit of the clock. -/
def seconds (n : ℤ) : ℤ := n * 1000000

/-! ## Tokens -/

/-- `DeletionToken`. -/
structure DeletionToken where
  nodeHash : Str
  originatorId : Str
  nonce : Str
  timestamp : Str
  signature : Str
  deriving DecidableEq

namespace DeletionToken

variable (t : DeletionToken)

/-- `_get_signing_data`. -/
def signingData : Str :=
  List.intercalate ['|'] [t.nodeHash, t.originatorId, t.nonce, t.timestamp]

/-- The text that `get_hash` hashes. -/
def hashedText : Str := t.signingData ++ ['|'] ++ t.signature

/-- `get_hash`. -/
def getHash : Str := sha256Hex (encodeUtf8 t.hashedText)

/-- `timestamp.replace('Z', '+00:00')`. -/
def replaceZ (s : Str) : Str := s.flatMap fun c => if c = 'Z' then "+00:00" else [c]

/-- `is_expired`. -/
def isExpired (iso : IsoReader) (validity : ℤ) (now : Instant) (t : DeletionToken) : Bool :=
  match iso.read (replaceZ t.timestamp) with
  | none => true
  | some time => decide (seconds validity < now.1 - time)

variable (S : SignatureScheme) (key : S.SigningKey)

/-- A new token, signed. -/
def signed (nodeHash originatorId nonce : Str) (now : Instant) : DeletionToken :=
  let token : DeletionToken := ⟨nodeHash, originatorId, nonce, isoformat now.1, []⟩
  { token with signature := hexEncode (S.sign key (encodeUtf8 token.signingData)) }

/-- `issue_token`, by the peer `originatorId`. -/
def issue (node : CoCNode) (originatorId nonce : Str)
    (now : Instant) : Except CustodyError DeletionToken :=
  if node.ownerId ≠ originatorId then
    .error (.permission "Only the owner of a node can issue a deletion token.")
  else .ok (signed S key node.nodeHash originatorId nonce now)

/-- The signature of the token is one of the holder of the key. -/
def VerifiesUnder (key : S.VerifyKey) (t : DeletionToken) : Prop :=
  ∃ signature, hexDecode t.signature = some signature ∧
    S.verify key (encodeUtf8 t.signingData) signature = true

theorem verifiesUnder_signed
    (nodeHash originatorId nonce : Str) (now : Instant) :
    (signed S key nodeHash originatorId nonce now).VerifiesUnder S (S.verifyKey key) :=
  ⟨_, hexDecode_hexEncode _, S.verify_sign key _⟩

theorem replaceZ_isoformat (t : ℕ) : replaceZ (isoformat t) = isoformat t := by
  have hchar : ∀ c ∈ isoformat t, c ≠ 'Z' := by
    intro c hc
    rcases mem_isoformat hc with ⟨d, hd, rfl⟩ | hc
    · exact (by decide : ∀ d < 10, Nat.digitChar d ≠ 'Z') d hd
    · exact (all_iff_forall_prop.mp (by decide) : ∀ c ∈ ['-', 'T', ':', '.', '+'], c ≠ 'Z') c hc
  have hid : ∀ s : Str, (∀ c ∈ s, c ≠ 'Z') → replaceZ s = s := by
    intro s
    induction s with
    | nil => intro _; rfl
    | cons c s ih =>
      intro hs
      rw [replaceZ, flatMap_cons, if_neg (hs c mem_cons_self)]
      exact congrArg (c :: ·) (ih fun d hd => hs d (mem_cons_of_mem _ hd))
  exact hid _ hchar

/-- A token that the engine issued is not expired while its age is within the
validity. -/
theorem isExpired_eq_false {iso : IsoReader} {validity : ℤ} {now issued : Instant}
    {t : DeletionToken} (ht : t.timestamp = isoformat issued.1)
    (hage : (now.1 : ℤ) - issued.1 ≤ seconds validity) : t.isExpired iso validity now = false := by
  rw [isExpired, ht, replaceZ_isoformat, iso.read_isoformat]
  exact decide_eq_false (not_lt.mpr hage)

end DeletionToken

/-! ## The cache of processed tokens -/

/-- `ProcessedTokenCache`. -/
structure ProcessedTokenCache where
  processed : Dict Str ℤ
  maxAge : ℤ
  lastCleanup : ℤ

namespace ProcessedTokenCache

/-- The cache `_get_token_cache` makes for a peer it meets for the first time. -/
def new (cfg : EngineConfig) (now : Instant) : ProcessedTokenCache :=
  ⟨.empty, seconds (cfg.tokenValidity * 2), now.1⟩

variable (cache : ProcessedTokenCache)

/-- `_maybe_cleanup`. -/
def maybeCleanup (now : Instant) : ProcessedTokenCache :=
  if now.1 - cache.lastCleanup < seconds 60 then cache
  else
    { cache with
      processed := cache.processed.filter fun _ time => decide (now.1 - cache.maxAge < time)
      lastCleanup := now.1 }

/-- The answer of `is_processed`, on a cache that was just cleaned up. -/
def has (tokenHash : Str) : Bool :=
  (cache.processed.get? tokenHash).isSome

/-- `mark_processed`. -/
def markProcessed (tokenHash : Str) (now : Instant) : ProcessedTokenCache :=
  { cache with processed := cache.processed.set tokenHash now.1 }.maybeCleanup now

variable (cache : ProcessedTokenCache) (now : Instant)

/-- A clean-up adds nothing. -/
theorem has_maybeCleanup {cache : ProcessedTokenCache} {h : Str} (hnot : cache.has h = false) :
    (cache.maybeCleanup now).has h = false := by
  rw [maybeCleanup]
  split
  · exact hnot
  · rw [has, isSome_eq_false_iff, isNone_iff_eq_none] at hnot ⊢
    refine eq_none_iff_forall_ne_some.mpr fun time htime => ?_
    rw [(Dict.get?_filter.mp htime).1] at hnot
    cases hnot

/-- Marking a token adds no other token. -/
theorem has_markProcessed {cache : ProcessedTokenCache} {now : Instant} {h h' : Str}
    (hne : h' ≠ h) (hnot : cache.has h = false) : (cache.markProcessed h' now).has h = false := by
  refine has_maybeCleanup now ?_
  rw [has, Dict.get?_set_of_ne _ _ hne]
  exact hnot

/-- There is no clean-up right after a clean-up. -/
theorem lastCleanup_maybeCleanup : now.1 - (cache.maybeCleanup now).lastCleanup < seconds 60 := by
  unfold maybeCleanup
  split
  · assumption
  · dsimp only
    rw [sub_self]
    decide

/-- Marking a token in a cache that was just cleaned up adds its hash, and that is
all, also for the calls that follow at once. -/
theorem has_maybeCleanup_markProcessed (h x : Str) :
    (((cache.maybeCleanup now).markProcessed h now).maybeCleanup now).has x
      = (decide (h = x) || (cache.maybeCleanup now).has x) := by
  have hmark : (cache.maybeCleanup now).markProcessed h now = { cache.maybeCleanup now with
          processed := (cache.maybeCleanup now).processed.set h now.1 } := by
    rw [markProcessed]
    conv_lhs => unfold maybeCleanup
    exact if_pos (lastCleanup_maybeCleanup cache now)
  have hstays : { cache.maybeCleanup now with
      processed := (cache.maybeCleanup now).processed.set h now.1 }.maybeCleanup now
        = { cache.maybeCleanup now with
          processed := (cache.maybeCleanup now).processed.set h now.1 } := by
    conv_lhs => unfold maybeCleanup
    exact if_pos (lastCleanup_maybeCleanup cache now)
  rw [hmark, hstays, has, has, Dict.get?_set]
  by_cases hx : h = x
  · rw [if_pos hx, decide_eq_true hx]
    rfl
  · rw [if_neg hx, decide_eq_false hx, Bool.false_or]

end ProcessedTokenCache

/-! ## Processing a token -/

/-- What a call of `process_token` leaves behind: the receiver's cache and
storage, the audit records, the tokens it issued with the peers they go to, and
the value returned or the exception raised. -/
structure TokenRun where
  cache : ProcessedTokenCache
  storage : InMemoryStorage
  audit : List AuditRecord
  issued : List (DeletionToken × List Str)
  outcome : Except CustodyError Bool

/-- The removal of a node: its content goes with the last node that refers to
it, and leaves a tombstone. -/
def InMemoryStorage.deleteNode (s : InMemoryStorage) (cfg : EngineConfig) (now : Instant)
    (token : DeletionToken) (node : CoCNode) : InMemoryStorage :=
  let s := s.removeNode node.nodeHash
  if s.isContentReferenced node.contentHash then s
  else
    (s.removeContent node.contentHash).addTombstone
      { contentHash := node.contentHash
        deletedAt := isoformat now.1
        deleteAfter := isoformat (now.1 + seconds cfg.tombstoneGrace).toNat
        originatorId := token.originatorId
        nodeHash := node.nodeHash }

namespace InMemoryStorage

variable (s : InMemoryStorage) (cfg : EngineConfig) (now : Instant) (token : DeletionToken)
  (node : CoCNode)

theorem getNode_deleteNode (h : Str) :
    (s.deleteNode cfg now token node).getNode h
      = if node.nodeHash = h then none else s.getNode h := by
  rw [deleteNode]
  split <;> exact s.getNode_removeNode node.nodeHash h

/-- A content goes exactly when the removed node was the last to refer to it. -/
theorem getContent_deleteNode (c : Str) :
    (s.deleteNode cfg now token node).getContent c
      = if node.contentHash = c ∧ (s.removeNode node.nodeHash).isContentReferenced c = false
          then none else s.getContent c := by
  rw [deleteNode]
  cases href : (s.removeNode node.nodeHash).isContentReferenced node.contentHash with
  | true =>
    rw [if_pos rfl, if_neg, getContent_removeNode]
    rintro ⟨rfl, hfalse⟩
    cases href.symm.trans hfalse
  | false =>
    rw [if_neg Bool.false_ne_true, getContent_addTombstone, getContent_removeContent]
    by_cases hc : node.contentHash = c
    · rw [if_pos hc, if_pos ⟨hc, hc ▸ href⟩]
    · rw [if_neg hc, if_neg fun h => hc h.1, getContent_removeNode]

variable {s cfg now token node}

/-- Removing a node with its unreferenced content keeps the others referenced. -/
theorem Referenced.deleteNode (hs : s.Referenced) (hnode : s.getNode node.nodeHash = some node) :
    (s.deleteNode cfg now token node).Referenced := by
  intro c hc
  rw [getContent_deleteNode] at hc
  by_cases hgone : node.contentHash = c ∧ (s.removeNode node.nodeHash).isContentReferenced c = false
  · rw [if_pos hgone] at hc
    cases hc
  · rw [if_neg hgone] at hc
    have hstays : ∀ {h n}, (s.removeNode node.nodeHash).getNode h = some n →
        (s.deleteNode cfg now token node).getNode h = some n := by
      intro h n hn
      rw [getNode_removeNode] at hn
      rw [getNode_deleteNode, hn]
    by_cases hsame : node.contentHash = c
    · -- another node refers to the content
      have href : (s.removeNode node.nodeHash).isContentReferenced c = true :=
        Bool.eq_true_of_not_eq_false fun h => hgone ⟨hsame, h⟩
      obtain ⟨h, n, hn, hcontent⟩ := isContentReferenced_iff.mp href
      exact ⟨h, n, hstays hn, hcontent⟩
    · obtain ⟨h, n, hn, hcontent⟩ := hs c hc
      refine ⟨h, n, hstays ?_, hcontent⟩
      rw [getNode_removeNode, if_neg, hn]
      rintro rfl
      rw [hnode, some_inj] at hn
      exact hsame (hn ▸ hcontent)

end InMemoryStorage

/-- `children_to_delete`: the stored children that the receiver owns. -/
def childrenToDelete (order : SetOrder) (s : InMemoryStorage) (receiver : Str) (node : CoCNode) :
    List CoCNode :=
  (order.list node.childrenHashes).filterMap fun h =>
    (s.getNode h).filter fun child => child.ownerId = receiver

/-- The target field of the engine's audit records. -/
def auditTarget (nodeHash : Str) : Str := "Node: " ++ nodeHash

section

variable (S : SignatureScheme) (iso : IsoReader) (cfg : EngineConfig) (amb : Ambient)
  (findKey : Str → Option S.VerifyKey) (receiver : Str) (key : S.SigningKey)

/-- The tokens for the children, one nonce each.  The children are the
receiver's own, so no call of `issue_token` raises. -/
def cascade (children : List CoCNode) : List (DeletionToken × List Str) :=
  children.zipIdx.filterMap fun (child, i) =>
    (DeletionToken.issue S key child receiver (amb.nonce i) amb.now).toOption.map
      fun token => (token, child.recipientIds)

/-- `process_token`, by the peer `receiver` with signing key `key`.  `findKey`
gives the verify key of a registered peer. -/
def processToken (cache : ProcessedTokenCache) (storage : InMemoryStorage)
    (token : DeletionToken) : TokenRun :=
  let tokenHash := token.getHash
  let fail (details : Str) : AuditRecord :=
    ⟨"DELETE_FAIL", receiver, auditTarget token.nodeHash, details⟩
  let cache := cache.maybeCleanup amb.now
  if cache.has tokenHash then
    ⟨cache, storage, [fail "Replay attack detected"], [], .error (.replayAttack
      ("Token " ++ tokenHash.take 16 ++ " has already been processed"))⟩
  else if token.isExpired iso cfg.tokenValidity amb.now then
    ⟨cache, storage, [fail "Token expired"], [], .error (.tokenExpired
      ("Token " ++ tokenHash.take 16 ++ " has expired"))⟩
  else
    let cache := cache.markProcessed tokenHash amb.now
    match findKey token.originatorId with
    | none => ⟨cache, storage, [], [], .ok false⟩
    | some verifyKey =>
      match hexDecode token.signature with
      | none => ⟨cache, storage, [], [], .error .value⟩
      | some signature =>
        if S.verify verifyKey (encodeUtf8 token.signingData) signature then
          match storage.getNode token.nodeHash with
          | none => ⟨cache, storage, [], [], .ok false⟩
          | some node =>
            let issued := cascade S amb receiver key
              (childrenToDelete amb.order storage receiver node)
            ⟨cache, storage.deleteNode cfg amb.now token node,
              ⟨"DELETE_SUCCESS", receiver, auditTarget node.nodeHash, []⟩ ::
                issued.map fun (t, _) =>
                  ⟨"DELETE_ISSUE", receiver, auditTarget t.nodeHash, []⟩,
              issued, .ok true⟩
        else ⟨cache, storage, [fail "Invalid signature"], [], .ok false⟩

/-- The checks of `process_token`: no replay, not expired, and signed by the
registered peer that the token names as its originator. -/
def Accepts (cache : ProcessedTokenCache) (token : DeletionToken) : Prop :=
  (cache.maybeCleanup amb.now).has token.getHash = false ∧
    token.isExpired iso cfg.tokenValidity amb.now = false ∧
    ∃ verifyKey, findKey token.originatorId = some verifyKey ∧ token.VerifiesUnder S verifyKey

variable {S iso cfg amb findKey receiver key}

theorem mem_childrenToDelete {order : SetOrder} {s : InMemoryStorage} {node child : CoCNode} :
    child ∈ childrenToDelete order s receiver node ↔
      child.nodeHash ∈ node.childrenHashes ∧ s.getNode child.nodeHash = some child ∧
        child.ownerId = receiver := by
  rw [childrenToDelete, mem_filterMap]
  constructor
  · rintro ⟨h, hmem, hchild⟩
    obtain ⟨hget, howner⟩ := filter_eq_some_iff.mp hchild
    have hkey := nodeHash_of_getNode hget
    rw [hkey]
    exact ⟨(order.mem_list _ _).mp hmem, hget, of_decide_eq_true howner⟩
  · rintro ⟨hmem, hget, howner⟩
    refine ⟨child.nodeHash, (order.mem_list _ _).mpr hmem, ?_⟩
    exact filter_eq_some_iff.mpr ⟨hget, decide_eq_true howner⟩

variable {token : DeletionToken} {cache : ProcessedTokenCache} {storage : InMemoryStorage}

/-- A token of the cascade is signed for one of the children and goes to the
recipients of that child. -/
theorem mem_cascade {children : List CoCNode} {recipients : List Str}
    (hmem : (token, recipients) ∈ cascade S amb receiver key children) :
    ∃ child ∈ children, recipients = child.recipientIds ∧ child.ownerId = receiver ∧
      ∃ i, token = .signed S key child.nodeHash receiver (amb.nonce i) amb.now := by
  obtain ⟨⟨child, i⟩, hchild, hissue⟩ := mem_filterMap.mp hmem
  obtain ⟨t, ht, ⟨⟩⟩ := map_eq_some_iff.mp hissue
  by_cases howner : child.ownerId = receiver
  · rw [DeletionToken.issue, if_neg (not_not.mpr howner)] at ht
    exact ⟨child, (mem_zipIdx' hchild).2 ▸ getElem_mem _, rfl, howner, i, (some_inj.mp ht).symm⟩
  · rw [DeletionToken.issue, if_pos howner] at ht
    cases ht

/-- Every child that the receiver owns gets a token. -/
theorem exists_mem_cascade {children : List CoCNode} {child : CoCNode} (hmem : child ∈ children)
    (howner : child.ownerId = receiver) :
    ∃ i, (.signed S key child.nodeHash receiver (amb.nonce i) amb.now, child.recipientIds)
      ∈ cascade S amb receiver key children := by
  obtain ⟨i, hi, rfl⟩ := getElem_of_mem hmem
  refine ⟨i, mem_filterMap.mpr ⟨(children[i], i), ?_, ?_⟩⟩
  · rw [mem_zipIdx_iff_getElem?, List.getElem?_eq_getElem hi]
  · dsimp only
    rw [DeletionToken.issue, if_neg (not_not.mpr howner)]
    rfl

/-- **A token that passes the checks removes its node**, and only that. -/
theorem processToken_of_accepts {node : CoCNode}
    (haccepts : Accepts S iso cfg amb findKey cache token)
    (hnode : storage.getNode token.nodeHash = some node) :
    (processToken S iso cfg amb findKey receiver key cache storage token).storage
        = storage.deleteNode cfg amb.now token node ∧
      (processToken S iso cfg amb findKey receiver key cache storage token).issued
        = cascade S amb receiver key (childrenToDelete amb.order storage receiver node) := by
  obtain ⟨hreplay, hexpired, verifyKey, hfind, signature, hsignature, hverify⟩ := haccepts
  simp only [processToken, hreplay, hexpired, hfind, hsignature, hverify, hnode, if_true,
    Bool.false_eq_true, if_false, and_self]

/-- A token that does not, or whose node is not stored, changes no storage and
is not passed on. -/
theorem processToken_of_not (hnot : ¬ (Accepts S iso cfg amb findKey cache token ∧
      (storage.getNode token.nodeHash).isSome)) :
    (processToken S iso cfg amb findKey receiver key cache storage token).storage = storage ∧
      (processToken S iso cfg amb findKey receiver key cache storage token).issued = [] := by
  rw [processToken]
  dsimp only
  split
  · exact ⟨rfl, rfl⟩
  rename_i hreplay
  split
  · exact ⟨rfl, rfl⟩
  rename_i hexpired
  split
  · exact ⟨rfl, rfl⟩
  rename_i verifyKey hfind
  split
  · exact ⟨rfl, rfl⟩
  rename_i signature hsignature
  split
  · rename_i hverify
    split
    · exact ⟨rfl, rfl⟩
    · rename_i node hnode
      refine absurd ⟨⟨?_, ?_, verifyKey, hfind, signature, hsignature, hverify⟩, ?_⟩ hnot
      · exact Bool.eq_false_iff.mpr hreplay
      · exact Bool.eq_false_iff.mpr hexpired
      · rw [hnode, isSome_some]
  · exact ⟨rfl, rfl⟩

/-- No token brings a node. -/
theorem getNode_of_processToken {h : Str} {n : CoCNode}
    (hn : (processToken S iso cfg amb findKey receiver key cache storage token).storage.getNode h
      = some n) : storage.getNode h = some n := by
  by_cases haccepts : Accepts S iso cfg amb findKey cache token ∧
      (storage.getNode token.nodeHash).isSome
  · obtain ⟨node, hnode⟩ := isSome_iff_exists.mp haccepts.2
    rw [(processToken_of_accepts haccepts.1 hnode).1, getNode_deleteNode] at hn
    split at hn
    · cases hn
    · exact hn
  · rwa [(processToken_of_not haccepts).1] at hn

/-- No token brings a content. -/
theorem getContent_of_processToken {c content : Str}
    (h : (processToken S iso cfg amb findKey receiver key cache storage token).storage.getContent c
      = some content) : storage.getContent c = some content := by
  by_cases haccepts : Accepts S iso cfg amb findKey cache token ∧
      (storage.getNode token.nodeHash).isSome
  · obtain ⟨node, hnode⟩ := isSome_iff_exists.mp haccepts.2
    rw [(processToken_of_accepts haccepts.1 hnode).1, getContent_deleteNode] at h
    split at h
    · cases h
    · exact h
  · rwa [(processToken_of_not haccepts).1] at h

/-- What a call does to the cache. -/
theorem cache_processToken (cache : ProcessedTokenCache) (storage : InMemoryStorage)
    (token : DeletionToken) :
    (processToken S iso cfg amb findKey receiver key cache storage token).cache
        = cache.maybeCleanup amb.now ∨
      (cache.maybeCleanup amb.now).has token.getHash = false ∧
        (processToken S iso cfg amb findKey receiver key cache storage token).cache
          = (cache.maybeCleanup amb.now).markProcessed token.getHash amb.now := by
  rw [processToken]
  dsimp only
  split
  · exact .inl rfl
  rename_i hreplay
  have hreplay := Bool.eq_false_iff.mpr hreplay
  split
  · exact .inl rfl
  split
  · exact .inr ⟨hreplay, rfl⟩
  split
  · exact .inr ⟨hreplay, rfl⟩
  split
  · split <;> exact .inr ⟨hreplay, rfl⟩
  · exact .inr ⟨hreplay, rfl⟩

/-- A token that is neither known nor expired is marked, whatever comes of it. -/
theorem cache_processToken_of_fresh
    (hreplay : (cache.maybeCleanup amb.now).has token.getHash = false)
    (hexpired : token.isExpired iso cfg.tokenValidity amb.now = false) (storage : InMemoryStorage) :
    (processToken S iso cfg amb findKey receiver key cache storage token).cache
      = (cache.maybeCleanup amb.now).markProcessed token.getHash amb.now := by
  simp only [processToken, hreplay, hexpired, Bool.false_eq_true, if_false]
  split
  · rfl
  split
  · rfl
  split
  · split <;> rfl
  · rfl

/-- When a call raises: on a token that was processed before or is expired, and on
a signature of a registered peer that is not hexadecimal. -/
theorem outcome_processToken_iff :
    (∃ b, (processToken S iso cfg amb findKey receiver key cache storage token).outcome = .ok b) ↔
      (cache.maybeCleanup amb.now).has token.getHash = false ∧
        token.isExpired iso cfg.tokenValidity amb.now = false ∧
        ((findKey token.originatorId).isSome → (hexDecode token.signature).isSome) := by
  rw [processToken]
  dsimp only
  cases hreplay : (cache.maybeCleanup amb.now).has token.getHash with
  | true => simp
  | false =>
    cases hexpired : token.isExpired iso cfg.tokenValidity amb.now with
    | true => simp
    | false =>
      cases hfind : findKey token.originatorId with
      | none => simp
      | some verifyKey =>
        cases hsignature : hexDecode token.signature with
        | none => simp
        | some signature =>
          simp only [Bool.false_eq_true, if_false, isSome_some, implies_true, and_self, iff_true]
          split
          · split <;> exact ⟨_, rfl⟩
          · exact ⟨_, rfl⟩

/-- A call adds at most the hash of its own token to the cache. -/
theorem has_processToken {h : Str} (hne : token.getHash ≠ h) (hnot : cache.has h = false) :
    (processToken S iso cfg amb findKey receiver key cache storage token).cache.has h = false := by
  have hclean := ProcessedTokenCache.has_maybeCleanup amb.now hnot
  have hcache : (processToken S iso cfg amb findKey receiver key cache storage token).cache = _ ∨ _ :=
    cache_processToken cache storage token
  rcases hcache with hcache | ⟨-, hcache⟩
  · rw [hcache]
    exact hclean
  · rw [hcache]
    exact ProcessedTokenCache.has_markProcessed hne hclean

/-- A hash that a call leaves in the cache was there or is that of the token. -/
theorem has_of_has_processToken {x : Str}
    (hx : (processToken S iso cfg amb findKey receiver key cache storage token).cache.has x = true) :
    cache.has x = true ∨ x = token.getHash := by
  by_contra hnot
  obtain ⟨hcache, hne⟩ := not_or.mp hnot
  exact absurd hx (Bool.eq_false_iff.mp
    (has_processToken (.symm hne) (Bool.eq_false_iff.mpr hcache)))

section

variable {cache : ProcessedTokenCache} {storage : InMemoryStorage} {token : DeletionToken}
  (haccepts : (storage.getNode token.nodeHash).isSome → Accepts S iso cfg amb findKey cache token)

include haccepts

/-- A token that is accepted where its node is stored leaves the storage without
the node, in any case. -/
theorem getNode_processToken (h : Str) :
    (processToken S iso cfg amb findKey receiver key cache storage token).storage.getNode h
      = if h = token.nodeHash then none else storage.getNode h := by
  cases hnode : storage.getNode token.nodeHash with
  | none =>
    rw [(processToken_of_not fun hnot => by simp [hnode] at hnot).1]
    split
    · rename_i hh
      rw [hh, hnode]
    · rfl
  | some node =>
    rw [(processToken_of_accepts (haccepts (hnode ▸ isSome_some)) hnode).1,
      getNode_deleteNode, nodeHash_of_getNode hnode]
    simp only [eq_comm]

theorem referenced_processToken (hs : storage.Referenced) :
    (processToken S iso cfg amb findKey receiver key cache storage token).storage.Referenced := by
  cases hnode : storage.getNode token.nodeHash with
  | none =>
    rw [(processToken_of_not fun hnot => by simp [hnode] at hnot).1]
    exact hs
  | some node =>
    rw [(processToken_of_accepts (haccepts (hnode ▸ isSome_some)) hnode).1]
    exact hs.deleteNode ((nodeHash_of_getNode hnode).symm ▸ hnode)

/-- Where the tokens come from that a peer issues. -/
theorem mem_issued {t : DeletionToken} {recipients : List Str}
    (hmem : (t, recipients)
      ∈ (processToken S iso cfg amb findKey receiver key cache storage token).issued) :
    ∃ node child, storage.getNode token.nodeHash = some node ∧
      child.nodeHash ∈ node.childrenHashes ∧ storage.getNode child.nodeHash = some child ∧
      child.ownerId = receiver ∧ recipients = child.recipientIds ∧
      ∃ i, t = .signed S key child.nodeHash receiver (amb.nonce i) amb.now := by
  cases hnode : storage.getNode token.nodeHash with
  | none =>
    rw [(processToken_of_not fun hnot => by simp [hnode] at hnot).2] at hmem
    cases hmem
  | some node =>
    rw [(processToken_of_accepts (haccepts (hnode ▸ isSome_some)) hnode).2] at hmem
    obtain ⟨child, hchild, hrecipients, howner, i, ht⟩ := mem_cascade hmem
    obtain ⟨hin, hstored, -⟩ := mem_childrenToDelete.mp hchild
    exact ⟨node, child, rfl, hin, hstored, howner, hrecipients, i, ht⟩

/-- A peer that removes a node issues tokens for its own children of it. -/
theorem exists_mem_issued {node child : CoCNode} (hnode : storage.getNode token.nodeHash = some node)
    (hin : child.nodeHash ∈ node.childrenHashes)
    (hstored : storage.getNode child.nodeHash = some child) (howner : child.ownerId = receiver) :
    ∃ t, (t, child.recipientIds)
        ∈ (processToken S iso cfg amb findKey receiver key cache storage token).issued ∧
      t.nodeHash = child.nodeHash := by
  rw [(processToken_of_accepts (haccepts (hnode ▸ isSome_some)) hnode).2]
  have hchild : child ∈ childrenToDelete amb.order storage receiver node :=
    mem_childrenToDelete.mpr ⟨hin, hstored, howner⟩
  obtain ⟨i, hi⟩ : ∃ i, (.signed S key child.nodeHash receiver (amb.nonce i) amb.now,
      child.recipientIds) ∈ cascade S amb receiver key _ := exists_mem_cascade hchild howner
  exact ⟨_, hi, rfl⟩

end

end

end TrustFlow.Custody
