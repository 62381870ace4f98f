import TrustFlow.Custody.Cascade

/-!
# Offline peers

`go_offline` and `go_online` of `core/network_sim.py`.  Messages for an offline
peer wait in its queue; when it comes back, it handles those that are not too
old, one after the other, and empties the queue.

* `goOnline` — the loop has no handler for exceptions, so the first message that
  raises ends it, and the queue is then not emptied.
* `admissible` — a message is handled without exception, by what the queue and
  the network hold before the peer comes back.
* `drains_iff` — **the queue is drained if and only if every message in it that is
  not too old is admissible.**
* `forgets_iff` — a node is gone after `go_online` if and only if an accepted
  token for it comes before any message that raises, and no copy of the node
  behind it.

A call of `go_online` reads the clock once; the nonces of its messages come from
separate supplies.  `message_ttl_hours` is an argument.
-/

namespace TrustFlow.Custody

open Library List Option

/-- What the message at the given place of a queue takes from outside. -/
def Ambient.turn (amb : Ambient) (i : ℕ) : Ambient :=
  { amb with nonce := fun j => amb.nonce (Nat.pair i j) }

/-- Hours in the unit of the clock. -/
def hours (n : ℤ) : ℤ := seconds (n * 3600)

namespace Network

variable {S : SignatureScheme}

/-- `go_offline`. -/
def goOffline (net : Network S) (id : Str) : Network S :=
  match net.findPeer id with
  | none => net
  | some p => net.setPeer { p with online := false }

/-- The message was queued at most `message_ttl_hours` ago. -/
def isDue (messageTtlHours : ℤ) (now : Instant) (queued : Instant × Message) : Bool :=
  decide (now.1 - queued.1.1 ≤ hours messageTtlHours)

/-- The messages of a queue that are handed to `receive_message`. -/
def due (messageTtlHours : ℤ) (now : Instant) (queue : List (Instant × Message)) : List Message :=
  (queue.filter (isDue messageTtlHours now)).map Prod.snd

/-- What is left after a queue was gone through: the network, the messages handed
to `receive_message`, and the exception, if any. -/
structure QueueRun (S : SignatureScheme) where
  net : Network S
  handed : List Message
  outcome : Except CustodyError Unit

section

variable (iso : IsoReader) (cfg : EngineConfig) (amb : Ambient) (messageTtlHours : ℤ) (id : Str)

/-- The loop of `go_online`, from the message at place `i` on. -/
def processQueue : ℕ → List (Instant × Message) → Network S → QueueRun S
  | _, [], net => ⟨net, [], .ok ()⟩
  | i, queued :: rest, net =>
    if isDue messageTtlHours amb.now queued then
      match net.findPeer id with
      | none => ⟨net, [], .ok ()⟩
      | some p =>
        match net.receiveMessage iso cfg (amb.turn i) p queued.2 with
        | (net, .error e) => ⟨net, [queued.2], .error e⟩
        | (net, .ok ()) =>
          let run := processQueue (i + 1) rest net
          { run with handed := queued.2 :: run.handed }
    else processQueue (i + 1) rest net

/-- `offline_queue.clear()`. -/
def clearQueue (net : Network S) : Network S :=
  match net.findPeer id with
  | none => net
  | some p => net.setPeer { p with offlineQueue := [] }

/-- `go_online`. -/
def goOnline (net : Network S) : QueueRun S :=
  match net.findPeer id with
  | none => ⟨net, [], .ok ()⟩
  | some p =>
    let run := processQueue iso cfg amb messageTtlHours id 0 p.offlineQueue
      (net.setPeer { p with online := true })
    match run.outcome with
    | .error _ => run
    | .ok () => { run with net := run.net.clearQueue id }

/-! ## Messages that do not raise -/

/-- The hash of the token in a message. -/
def tokenHash (msg : Message) : Option Str :=
  match msg.body with
  | .deletionToken token => some token.getHash
  | _ => none

/-- The message is handled without exception, if the messages before it are: a
node can be read; a token is not expired, not processed before, and its signature
is hexadecimal if its originator is registered. -/
def admissible (net : Network S) (before : List Message) (msg : Message) : Bool :=
  match msg.body with
  | .cocData dict _ => (CoCNode.fromDict dict).toOption.isSome
  | .deletionToken token =>
    !((net.tokenCache cfg amb.now id).maybeCleanup amb.now).has token.getHash &&
      !(before.filterMap tokenHash).contains token.getHash &&
      !token.isExpired iso cfg.tokenValidity amb.now &&
      ((net.findKey token.originatorId).isNone || (hexDecode token.signature).isSome)
  | .other _ => true

/-- The messages up to the first that raises. -/
def admitted (net : Network S) : List Message → List Message → List Message
  | _, [] => []
  | before, msg :: rest =>
    if admissible iso cfg amb id net before msg then
      msg :: admitted net (before ++ [msg]) rest
    else []

theorem admitted_cons (net : Network S) (before : List Message) (msg : Message)
    (rest : List Message) :
    admitted iso cfg amb id net before (msg :: rest)
      = if admissible iso cfg amb id net before msg then
          msg :: admitted iso cfg amb id net (before ++ [msg]) rest
        else [] := rfl

end

/-! ## One message -/

/-- What is sent leaves an online peer as it is. -/
theorem findPeer_sendAll {net : Network S} {id : Str} {p : Peer S} (hp : net.findPeer id = some p)
    (honline : p.online = true) (now : Instant) (msgs : List Message) :
    (net.sendAll now msgs).findPeer id = some p := by
  induction msgs generalizing net with
  | nil => exact hp
  | cons msg msgs ih =>
    refine ih ?_
    show (net.routeMessage now msg).findPeer id = some p
    rw [routeMessage]
    split
    · exact hp
    · rename_i q hq
      split
      · exact hp
      · rename_i hoffline
        have hne : q.peerId ≠ id := by
          intro heq
          rw [peerId_of_findPeer hq] at heq
          rw [heq, hp, some_inj] at hq
          exact hoffline (hq ▸ honline)
        rw [findPeer_setPeer, if_neg hne, hp]

variable {iso : IsoReader} {cfg : EngineConfig} {amb : Ambient} {id : Str}

/-- The network while the queue is gone through, when the messages `before` are
done: the peer is online with its queue, the keys are as they were, and its cache
has the tokens of those messages besides. -/
structure Resumed (cfg : EngineConfig) (amb : Ambient) (id : Str) (queue : List (Instant × Message))
    (net : Network S) (before : List Message) (net' : Network S) : Prop where
  keys : net'.findKey = net.findKey
  caches : ∀ h, ((net'.tokenCache cfg amb.now id).maybeCleanup amb.now).has h
    = (((net.tokenCache cfg amb.now id).maybeCleanup amb.now).has h ||
      (before.filterMap tokenHash).contains h)
  peer : ∃ p, net'.findPeer id = some p ∧ p.online = true ∧ p.offlineQueue = queue

section

variable {queue : List (Instant × Message)} {net net' : Network S} {before : List Message}
  {msg : Message} {p : Peer S} (h : Resumed cfg amb id queue net before net')
  (hp : net'.findPeer id = some p) (i : ℕ)

/-- The peer after a message: another storage, and nothing else. -/
theorem findPeer_receiveMessage (hp : net'.findPeer id = some p) (honline : p.online = true) :
    ∃ storage, (net'.receiveMessage iso cfg (amb.turn i) p msg).1.findPeer id
      = some { p with storage } := by
  have hid := peerId_of_findPeer hp
  have hset : ∀ storage, (net'.setPeer { p with storage }).findPeer id
      = some { p with storage } := by
    intro storage
    rw [findPeer_setPeer, if_pos hid]
  unfold receiveMessage
  split
  · split
    · exact ⟨p.storage, hp⟩
    · exact ⟨_, hset _⟩
  · rename_i token _
    obtain ⟨storage, hstorage⟩ : ∃ storage, storage
        = (net'.runToken iso cfg (amb.turn i) p token).storage := ⟨_, rfl⟩
    refine ⟨storage, findPeer_sendAll (p := { p with storage }) ?_ honline _ _⟩
    rw [hstorage]
    exact hset _
  · exact ⟨p.storage, hp⟩

theorem map_eq_ok_iff {x : Except CustodyError Bool} :
    (x.map fun _ => ()) = .ok () ↔ ∃ b, x = .ok b := by
  cases x with
  | error e =>
    constructor
    · intro h
      cases h
    · rintro ⟨b, h⟩
      cases h
  | ok b => exact ⟨fun _ => ⟨b, rfl⟩, fun _ => rfl⟩

include h hp in
/-- A message raises exactly when it is not admissible. -/
theorem Resumed.outcome_iff :
    (net'.receiveMessage iso cfg (amb.turn i) p msg).2 = .ok () ↔
      admissible iso cfg amb id net before msg = true := by
  rw [receiveMessage, admissible]
  cases hbody : msg.body with
  | cocData dict content =>
    dsimp only
    cases CoCNode.fromDict dict with
    | error e =>
      refine iff_of_false ?_ Bool.false_ne_true
      intro h
      cases h
    | ok node => exact ⟨fun _ => rfl, fun _ => rfl⟩
  | deletionToken token =>
    dsimp only
    rw [map_eq_ok_iff, runToken, outcome_processToken_iff, peerId_of_findPeer hp, h.keys]
    show ((net'.tokenCache cfg amb.now id).maybeCleanup amb.now).has token.getHash = false ∧
      token.isExpired iso cfg.tokenValidity amb.now = false ∧ _ ↔ _
    rw [h.caches]
    cases net.findKey token.originatorId with
    | none => simp [and_assoc]
    | some verifyKey => simp [and_assoc]
  | other messageType => exact ⟨fun _ => rfl, fun _ => rfl⟩

include h hp in
/-- The cache after a token that is handled without exception. -/
theorem Resumed.tokenCache_receive {token : DeletionToken} (hbody : msg.body = .deletionToken token)
    (hadmissible : admissible iso cfg amb id net before msg = true) :
    (net'.receiveMessage iso cfg (amb.turn i) p msg).1.tokenCache cfg amb.now id
      = ((net'.tokenCache cfg amb.now id).maybeCleanup amb.now).markProcessed token.getHash
          amb.now := by
  have hid := peerId_of_findPeer hp
  have houtcome := (h.outcome_iff hp i).mpr hadmissible
  rw [receiveMessage, hbody] at houtcome
  obtain ⟨hreplay, hexpired, -⟩ := outcome_processToken_iff.mp (map_eq_ok_iff.mp houtcome)
  rw [receiveMessage, hbody, tokenCache]
  dsimp only
  rw [processedTokens_sendAll]
  dsimp only
  rw [Dict.get?_set, if_pos hid, getD_some, runToken,
    cache_processToken_of_fresh hreplay hexpired, hid]
  rfl

include h hp in
/-- A message that is handled without exception leaves the network resumed. -/
theorem Resumed.receive (hadmissible : admissible iso cfg amb id net before msg = true) :
    Resumed cfg amb id queue net (before ++ [msg])
      (net'.receiveMessage iso cfg (amb.turn i) p msg).1 := by
  have hid := peerId_of_findPeer hp
  obtain ⟨q, hq, honline, hqueue⟩ := h.peer
  obtain rfl : p = q := some_inj.mp (hp.symm.trans hq)
  refine ⟨?_, ?_, ?_⟩
  · rw [findKey_receiveMessage (hid.symm ▸ hp), h.keys]
  · intro x
    rw [filterMap_append]
    cases hbody : msg.body with
    | deletionToken token =>
      have hhash : [msg].filterMap tokenHash = [token.getHash] := by
        rw [filterMap_cons, tokenHash, hbody]
        rfl
      rw [h.tokenCache_receive hp i hbody hadmissible,
        ProcessedTokenCache.has_maybeCleanup_markProcessed, h.caches, hhash, contains_append]
      by_cases hx : token.getHash = x
      · simp [hx]
      · simp [hx, Ne.symm hx]
    | cocData dict content =>
      have hhash : [msg].filterMap tokenHash = [] := by
        rw [filterMap_cons, tokenHash, hbody]
        rfl
      rw [hhash, append_nil, tokenCache, processedTokens_receive_cocData hbody]
      exact h.caches x
    | other messageType =>
      have hhash : [msg].filterMap tokenHash = [] := by
        rw [filterMap_cons, tokenHash, hbody]
        rfl
      rw [hhash, append_nil, receiveMessage, hbody]
      exact h.caches x
  · have hpeer : ∃ storage, (net'.receiveMessage iso cfg (amb.turn i) p msg).1.findPeer id = _ :=
      findPeer_receiveMessage i hp honline
    obtain ⟨storage, hstorage⟩ := hpeer
    exact ⟨_, hstorage, honline, hqueue⟩

end

/-! ## What a message does to a stored node -/

/-- The message carries the node. -/
def brings (n : Str) (msg : Message) : Bool :=
  match msg.body with
  | .cocData dict _ => decide (dict.nodeHash = n)
  | _ => false

/-- The message carries a token for the node, signed by the registered peer that
it names as its originator. -/
def removes (net : Network S) (n : Str) (msg : Message) : Bool :=
  match msg.body with
  | .deletionToken token =>
    decide (token.nodeHash = n) &&
      match net.findKey token.originatorId, hexDecode token.signature with
      | some verifyKey, some signature =>
        S.verify verifyKey (encodeUtf8 token.signingData) signature
      | _, _ => false
  | _ => false

/-- Whether the node is stored after the message. -/
def storedAfter (net : Network S) (n : Str) (stored : Bool) (msg : Message) : Bool :=
  brings n msg || (stored && !removes net n msg)

theorem removes_iff {net : Network S} {n : Str} {msg : Message} :
    removes net n msg = true ↔ ∃ token, msg.body = .deletionToken token ∧ token.nodeHash = n ∧
      ∃ verifyKey, net.findKey token.originatorId = some verifyKey ∧
        token.VerifiesUnder S verifyKey := by
  rw [removes]
  cases msg.body with
  | cocData dict content => exact ⟨fun h => (nomatch h), fun ⟨_, h, _⟩ => (nomatch h)⟩
  | other messageType => exact ⟨fun h => (nomatch h), fun ⟨_, h, _⟩ => (nomatch h)⟩
  | deletionToken token =>
    dsimp only
    rw [Bool.and_eq_true, decide_eq_true_iff]
    constructor
    · rintro ⟨hnode, hverify⟩
      split at hverify
      · rename_i verifyKey signature hkey hsignature
        exact ⟨token, rfl, hnode, verifyKey, hkey, signature, hsignature, hverify⟩
      · cases hverify
    · rintro ⟨token', hbody, hnode, verifyKey, hkey, signature, hsignature, hverify⟩
      obtain rfl := Body.deletionToken.inj hbody
      rw [hkey, hsignature]
      exact ⟨hnode, hverify⟩

section

variable {queue : List (Instant × Message)} {net net' : Network S} {before : List Message}
  {msg : Message} {p : Peer S} (h : Resumed cfg amb id queue net before net')
  (hp : net'.findPeer id = some p) (i : ℕ) (n : Str)

include h hp in
/-- A token that is handled without exception removes its node if it verifies,
and only then. -/
theorem Resumed.isSome_nodeAt_token {token : DeletionToken}
    (hbody : msg.body = .deletionToken token)
    (hadmissible : admissible iso cfg amb id net before msg = true) :
    ((net'.receiveMessage iso cfg (amb.turn i) p msg).1.nodeAt id n).isSome
      = ((net'.nodeAt id n).isSome && !removes net n msg) := by
  have hid := peerId_of_findPeer hp
  have houtcome := (h.outcome_iff hp i).mpr hadmissible
  rw [receiveMessage, hbody] at houtcome
  obtain ⟨hreplay, hexpired, -⟩ := outcome_processToken_iff.mp (map_eq_ok_iff.mp houtcome)
  rw [nodeAt, storageOf_receive_token hbody, if_pos hid, nodeAt, storageOf, hp]
  show ((net'.runToken iso cfg (amb.turn i) p token).storage.getNode n).isSome
    = ((p.storage.getNode n).isSome && !removes net n msg)
  by_cases haccepts : (Accepts S iso cfg (amb.turn i) net'.findKey
      (net'.tokenCache cfg (amb.turn i).now p.peerId) token ∧
        (p.storage.getNode token.nodeHash).isSome)
  · obtain ⟨node, hnode⟩ := isSome_iff_exists.mp haccepts.2
    rw [runToken, (processToken_of_accepts haccepts.1 hnode).1, InMemoryStorage.getNode_deleteNode,
      InMemoryStorage.nodeHash_of_getNode hnode]
    by_cases hn : token.nodeHash = n
    · have hremoves : removes net n msg = true := by
        obtain ⟨verifyKey, hkey, hverifies⟩ := haccepts.1.2.2
        exact removes_iff.mpr ⟨token, hbody, hn, verifyKey, h.keys ▸ hkey, hverifies⟩
      rw [if_pos hn, hremoves, Bool.not_true, Bool.and_false]
      rfl
    · have hremoves : removes net n msg = false := by
        rw [removes, hbody]
        dsimp only
        rw [decide_eq_false hn, Bool.false_and]
      rw [if_neg hn, hremoves, Bool.not_false, Bool.and_true]
  · rw [runToken, (processToken_of_not haccepts).1]
    cases hstored : (p.storage.getNode n).isSome with
    | false => rfl
    | true =>
      rw [Bool.true_and, eq_comm, Bool.not_eq_true', Bool.eq_false_iff]
      intro hremoves
      obtain ⟨token', hbody', hn, verifyKey, hkey, hverifies⟩ := removes_iff.mp hremoves
      obtain rfl := Body.deletionToken.inj (hbody.symm.trans hbody')
      exact haccepts ⟨⟨hreplay, hexpired, verifyKey, h.keys.symm ▸ hkey, hverifies⟩, hn ▸ hstored⟩

include h hp in
/-- What a message that is handled without exception does to a stored node. -/
theorem Resumed.isSome_nodeAt (hadmissible : admissible iso cfg amb id net before msg = true) :
    ((net'.receiveMessage iso cfg (amb.turn i) p msg).1.nodeAt id n).isSome
      = storedAfter net n (net'.nodeAt id n).isSome msg := by
  have hid := peerId_of_findPeer hp
  rw [storedAfter]
  cases hbody : msg.body with
  | deletionToken token =>
    rw [h.isSome_nodeAt_token hp i n hbody hadmissible]
    have hbrings : brings n msg = false := by rw [brings, hbody]
    rw [hbrings, Bool.false_or]
  | cocData dict content =>
    have hremoves : removes net n msg = false := by rw [removes, hbody]
    have hbrings : brings n msg = decide (dict.nodeHash = n) := by rw [brings, hbody]
    rw [admissible, hbody] at hadmissible
    dsimp only at hadmissible
    cases hnode : CoCNode.fromDict dict with
    | error e => rw [hnode] at hadmissible; cases hadmissible
    | ok node =>
      have hhash : node.nodeHash = dict.nodeHash := (CoCNode.hashes_fromDict hnode).1
      rw [hbrings, hremoves, Bool.not_false, Bool.and_true, nodeAt,
        storageOf_receive_cocData hbody hnode, if_pos hid, nodeAt, storageOf, hp, ← hhash]
      exact InMemoryStorage.isSome_receiveNode content n
  | other messageType =>
    have hremoves : removes net n msg = false := by rw [removes, hbody]
    have hbrings : brings n msg = false := by rw [brings, hbody]
    rw [hbrings, hremoves, Bool.not_false, Bool.and_true, Bool.false_or, receiveMessage, hbody]

include h hp in
/-- A message that raises changes no storage. -/
theorem Resumed.nodeAt_of_raises (hraises : ¬ admissible iso cfg amb id net before msg = true) :
    (net'.receiveMessage iso cfg (amb.turn i) p msg).1.nodeAt id n = net'.nodeAt id n := by
  have hid := peerId_of_findPeer hp
  have houtcome := mt (h.outcome_iff hp i).mp hraises
  cases hbody : msg.body with
  | deletionToken token =>
    rw [nodeAt, storageOf_receive_token hbody, if_pos hid, nodeAt, storageOf, hp]
    refine congrArg (fun s => InMemoryStorage.getNode s n) (processToken_of_not ?_).1
    rintro ⟨⟨hreplay, hexpired, verifyKey, -, signature, hsignature, -⟩, -⟩
    rw [receiveMessage, hbody] at houtcome
    refine houtcome (map_eq_ok_iff.mpr (outcome_processToken_iff.mpr ⟨hreplay, hexpired, ?_⟩))
    intro _
    rw [hsignature, isSome_some]
  | cocData dict content =>
    rw [receiveMessage, hbody] at houtcome ⊢
    dsimp only at houtcome ⊢
    cases hnode : CoCNode.fromDict dict with
    | error e => rfl
    | ok node => rw [hnode] at houtcome; exact absurd rfl houtcome
  | other messageType =>
    rw [receiveMessage, hbody] at houtcome
    exact absurd rfl houtcome

end

/-! ## The whole queue -/

/-- What going through the rest of a queue comes to: if all messages are
admissible, all are handed on; otherwise the first that is not ends it.  Either
way the admitted messages, and no others, change what is stored. -/
structure Processed (iso : IsoReader) (cfg : EngineConfig) (amb : Ambient) (id : Str)
    (queue : List (Instant × Message)) (net : Network S) (before msgs : List Message)
    (net' : Network S) (run : QueueRun S) : Prop where
  completes : admitted iso cfg amb id net before msgs = msgs →
    run.outcome = .ok () ∧ run.handed = msgs
  raises : admitted iso cfg amb id net before msgs ≠ msgs → ∃ e, run.outcome = .error e
  peer : ∃ p, run.net.findPeer id = some p ∧ p.offlineQueue = queue
  stored : ∀ n, (run.net.nodeAt id n).isSome
    = (admitted iso cfg amb id net before msgs).foldl (storedAfter net n) (net'.nodeAt id n).isSome

theorem due_cons (messageTtlHours : ℤ) (now : Instant) (queued : Instant × Message)
    (rest : List (Instant × Message)) :
    due messageTtlHours now (queued :: rest)
      = if isDue messageTtlHours now queued then queued.2 :: due messageTtlHours now rest
        else due messageTtlHours now rest := by
  rw [due, filter_cons]
  split <;> rfl

/-- **Going through a queue**, by induction over the messages still to come. -/
theorem Resumed.processed {queue : List (Instant × Message)} {net net' : Network S}
    {before : List Message} (h : Resumed cfg amb id queue net before net') (messageTtlHours : ℤ)
    (i : ℕ) (rest : List (Instant × Message)) :
    Processed iso cfg amb id queue net before (due messageTtlHours amb.now rest) net'
      (processQueue iso cfg amb messageTtlHours id i rest net') := by
  induction rest generalizing net' before i with
  | nil =>
    obtain ⟨p, hp, -, hqueue⟩ := h.peer
    exact ⟨fun _ => ⟨rfl, rfl⟩, fun hne => absurd rfl hne, ⟨p, hp, hqueue⟩, fun _ => rfl⟩
  | cons queued rest ih =>
    rw [due_cons, processQueue]
    split
    · obtain ⟨p, hp, honline, hqueue⟩ := h.peer
      rw [hp]
      dsimp only
      obtain ⟨after, outcome, hreceive⟩ : ∃ after outcome,
          net'.receiveMessage iso cfg (amb.turn i) p queued.2 = (after, outcome) := ⟨_, _, rfl⟩
      have houtcome : outcome = .ok () ↔ admissible iso cfg amb id net before queued.2 = true := by
        rw [← h.outcome_iff hp i, hreceive]
      by_cases hadmissible : admissible iso cfg amb id net before queued.2 = true
      · have hnext := h.receive hp i hadmissible
        have hnode := fun n => h.isSome_nodeAt hp i n hadmissible
        rw [hreceive] at hnext hnode
        rw [hreceive, houtcome.mpr hadmissible]
        have hrest := ih hnext (i + 1)
        have hsplit : admitted iso cfg amb id net before
            (queued.2 :: due messageTtlHours amb.now rest)
              = queued.2 :: admitted iso cfg amb id net (before ++ [queued.2])
                  (due messageTtlHours amb.now rest) := by
          rw [admitted_cons, if_pos hadmissible]
        refine ⟨fun hall => ?_, fun hne => ?_, hrest.peer, fun n => ?_⟩
        · rw [hsplit, List.cons.injEq] at hall
          obtain ⟨hok, hhanded⟩ := hrest.completes hall.2
          exact ⟨hok, congrArg (queued.2 :: ·) hhanded⟩
        · rw [hsplit] at hne
          exact hrest.raises fun hall => hne (congrArg (queued.2 :: ·) hall)
        · rw [hsplit, foldl_cons, ← hnode n]
          exact hrest.stored n
      · have hnode := fun n => h.nodeAt_of_raises hp i n hadmissible
        have hpeer : ∃ storage, (net'.receiveMessage iso cfg (amb.turn i) p queued.2).1.findPeer id
            = _ := findPeer_receiveMessage i hp honline
        obtain ⟨storage, hstorage⟩ := hpeer
        have hsplit : admitted iso cfg amb id net before
            (queued.2 :: due messageTtlHours amb.now rest) = [] := by
          rw [admitted_cons, if_neg hadmissible]
        rw [hreceive] at hnode hstorage
        rw [hreceive]
        cases outcome with
        | ok u => exact absurd rfl (mt houtcome.mp hadmissible)
        | error e =>
          refine ⟨fun hall => ?_, fun _ => ⟨e, rfl⟩, ⟨_, hstorage, hqueue⟩, fun n => ?_⟩
          · cases hsplit.symm.trans hall
          · rw [hsplit, ← hnode n]
            rfl
    · exact ih h (i + 1)

/-- All messages are admitted if and only if each is admissible after those before
it. -/
theorem admitted_eq_self_iff {net : Network S} {before msgs : List Message} :
    admitted iso cfg amb id net before msgs = msgs ↔
      ∀ pre msg rest, msgs = pre ++ msg :: rest →
        admissible iso cfg amb id net (before ++ pre) msg = true := by
  induction msgs generalizing before with
  | nil =>
    refine ⟨fun _ pre msg rest hsplit => ?_, fun _ => rfl⟩
    exact absurd hsplit.symm (append_ne_nil_of_right_ne_nil pre (cons_ne_nil msg rest))
  | cons first msgs ih =>
    rw [admitted_cons]
    constructor
    · intro hall pre msg rest hsplit
      split at hall
      · rename_i hfirst
        cases pre with
        | nil =>
          rw [nil_append, List.cons.injEq] at hsplit
          rw [append_nil, ← hsplit.1]
          exact hfirst
        | cons head pre =>
          rw [cons_append, List.cons.injEq] at hsplit
          have hrest := ih.mp (List.cons.inj hall).2 pre msg rest hsplit.2
          rw [append_assoc, singleton_append, hsplit.1] at hrest
          exact hrest
      · cases hall
    · intro hall
      have hfirst := hall [] first msgs rfl
      rw [append_nil] at hfirst
      rw [if_pos hfirst]
      refine congrArg (first :: ·) (ih.mpr fun pre msg rest hsplit => ?_)
      rw [append_assoc, singleton_append]
      exact hall (first :: pre) msg rest (congrArg (first :: ·) hsplit)

/-- A stored node is gone after some messages if and only if one of them removes
it and none behind brings it back. -/
theorem foldl_storedAfter_eq_false_iff {net : Network S} {n : Str} {msgs : List Message} :
    msgs.foldl (storedAfter net n) true = false ↔
      ∃ pre msg post, msgs = pre ++ msg :: post ∧ removes net n msg = true ∧
        ∀ m ∈ post, brings n m = false := by
  induction msgs using List.reverseRecOn with
  | nil =>
    refine ⟨fun h => (nomatch h), fun ⟨pre, msg, post, hsplit, _⟩ => ?_⟩
    exact absurd hsplit.symm (append_ne_nil_of_right_ne_nil pre (cons_ne_nil msg post))
  | append_singleton msgs last ih =>
    rw [foldl_append, foldl_cons, foldl_nil, storedAfter, Bool.or_eq_false_iff,
      Bool.and_eq_false_iff, Bool.not_eq_false', ih]
    constructor
    · rintro ⟨hlast, ⟨pre, msg, post, rfl, hremoves, hpost⟩ | hremoves⟩
      · refine ⟨pre, msg, post ++ [last], ?_, hremoves, fun m hm => ?_⟩
        · rw [append_assoc, cons_append]
        · rcases mem_append.mp hm with hm | hm
          · exact hpost m hm
          · exact mem_singleton.mp hm ▸ hlast
      · exact ⟨msgs, last, [], rfl, hremoves, fun m hm => (nomatch hm)⟩
    · rintro ⟨pre, msg, post, hsplit, hremoves, hpost⟩
      -- the removal is the last message, or comes before it
      induction post using List.reverseRecOn with
      | nil =>
        obtain ⟨rfl, hmsg⟩ := append_inj' hsplit rfl
        rw [List.cons.injEq] at hmsg
        rw [hmsg.1]
        refine ⟨?_, .inr hremoves⟩
        obtain ⟨token, hbody, -⟩ := removes_iff.mp hremoves
        rw [brings, hbody]
      | append_singleton post final _ =>
        rw [← cons_append, ← append_assoc] at hsplit
        obtain ⟨hmsgs, hfinal⟩ := append_inj' hsplit rfl
        rw [List.cons.injEq] at hfinal
        refine ⟨?_, .inl ⟨pre, msg, post, hmsgs, hremoves, fun m hm => ?_⟩⟩
        · rw [hfinal.1]
          exact hpost final (mem_append_right _ (mem_singleton_self _))
        · exact hpost m (mem_append_left _ hm)

/-! ## Coming back -/

section

variable {net : Network S} {p : Peer S} (hp : net.findPeer id = some p) (messageTtlHours : ℤ)

include hp

/-- The network when the peer has just come back. -/
theorem resumed_start (cfg : EngineConfig) (amb : Ambient) :
    Resumed cfg amb id p.offlineQueue net [] (net.setPeer { p with online := true }) := by
  have hid := peerId_of_findPeer hp
  have hself : net.findPeer p.peerId = some p := by rw [hid, hp]
  refine ⟨findKey_setPeer (q := { p with online := true }) hself rfl, fun h => ?_,
    { p with online := true }, ?_, rfl, rfl⟩
  · show _ = (_ || false)
    rw [Bool.or_false]
    rfl
  · rw [findPeer_setPeer]
    exact if_pos hid

theorem nodeAt_start (n : Str) :
    (net.setPeer { p with online := true }).nodeAt id n = p.storage.getNode n := by
  have hid := peerId_of_findPeer hp
  rw [nodeAt, storageOf_setPeer]
  dsimp only
  rw [if_pos hid]
  rfl

theorem goOnline_eq :
    goOnline iso cfg amb messageTtlHours id net =
      let run := processQueue iso cfg amb messageTtlHours id 0 p.offlineQueue
        (net.setPeer { p with online := true })
      match run.outcome with
      | .error _ => run
      | .ok () => { run with net := run.net.clearQueue id } := by
  rw [goOnline, hp]

/-- The queue is drained if and only if all messages that are not too old are
admitted. -/
theorem drains_iff_admitted :
    ((goOnline iso cfg amb messageTtlHours id net).handed
        = due messageTtlHours amb.now p.offlineQueue ∧
      ((goOnline iso cfg amb messageTtlHours id net).net.findPeer id).map Peer.offlineQueue
        = some []) ↔
      admitted iso cfg amb id net [] (due messageTtlHours amb.now p.offlineQueue)
        = due messageTtlHours amb.now p.offlineQueue := by
  have hrun : Processed iso cfg amb id _ net [] _ _ _ :=
    (resumed_start hp cfg amb).processed messageTtlHours 0 p.offlineQueue
  obtain ⟨q, hq, hqueue⟩ := hrun.peer
  rw [goOnline_eq hp]
  dsimp only
  generalize processQueue iso cfg amb messageTtlHours id 0 p.offlineQueue
    (net.setPeer { p with online := true }) = run at *
  by_cases hcase : admitted iso cfg amb id net [] (due messageTtlHours amb.now p.offlineQueue)
      = due messageTtlHours amb.now p.offlineQueue
  · obtain ⟨hok, hhanded⟩ := hrun.completes hcase
    rw [hok]
    dsimp only
    refine ⟨fun _ => hcase, fun _ => ⟨hhanded, ?_⟩⟩
    rw [clearQueue, hq]
    dsimp only
    rw [findPeer_setPeer]
    dsimp only
    rw [if_pos (peerId_of_findPeer hq), map_some]
  · obtain ⟨e, herror⟩ := hrun.raises hcase
    rw [herror]
    dsimp only
    refine ⟨fun ⟨_, hempty⟩ => ?_, fun hcase' => absurd hcase' hcase⟩
    -- the queue is as it was, so it would have been empty from the start
    rw [hq, map_some, some_inj, hqueue] at hempty
    rw [hempty] at hcase
    exact absurd rfl hcase

/-- **The queue is drained if and only if no message in it raises.**  Drained means
that every message that is not too old was handed to `receive_message`, once and
in the order of the queue, and that the queue is empty. -/
theorem drains_iff :
    ((goOnline iso cfg amb messageTtlHours id net).handed
        = due messageTtlHours amb.now p.offlineQueue ∧
      ((goOnline iso cfg amb messageTtlHours id net).net.findPeer id).map Peer.offlineQueue
        = some []) ↔
      ∀ before msg rest, due messageTtlHours amb.now p.offlineQueue = before ++ msg :: rest →
        admissible iso cfg amb id net before msg = true := by
  rw [drains_iff_admitted hp, admitted_eq_self_iff]
  rfl

/-- What is stored of a node after `go_online`. -/
theorem isSome_nodeAt_goOnline (n : Str) :
    ((goOnline iso cfg amb messageTtlHours id net).net.nodeAt id n).isSome
      = (admitted iso cfg amb id net [] (due messageTtlHours amb.now p.offlineQueue)).foldl
          (storedAfter net n) (p.storage.getNode n).isSome := by
  have hrun : Processed iso cfg amb id _ net [] _ _ _ :=
    (resumed_start hp cfg amb).processed messageTtlHours 0 p.offlineQueue
  have hstays : (goOnline iso cfg amb messageTtlHours id net).net.nodeAt id n
      = (processQueue iso cfg amb messageTtlHours id 0 p.offlineQueue
          (net.setPeer { p with online := true })).net.nodeAt id n := by
    obtain ⟨q, hq, -⟩ := hrun.peer
    rw [goOnline_eq hp]
    dsimp only
    split
    · rfl
    · dsimp only
      rw [clearQueue, hq]
      dsimp only
      rw [nodeAt, storageOf_setPeer]
      dsimp only
      rw [if_pos (peerId_of_findPeer hq), nodeAt, storageOf, hq]
      rfl
  rw [hstays, hrun.stored, nodeAt_start hp]

/-- **A stored node is gone after `go_online` if and only if** a token for it that
verifies is handled before any message raises, and no copy of the node behind
it. -/
theorem forgets_iff {n : Str} (hstored : (p.storage.getNode n).isSome) :
    (goOnline iso cfg amb messageTtlHours id net).net.nodeAt id n = none ↔
      ∃ pre msg post,
        admitted iso cfg amb id net [] (due messageTtlHours amb.now p.offlineQueue)
          = pre ++ msg :: post ∧
        removes net n msg = true ∧ ∀ m ∈ post, brings n m = false := by
  rw [← not_isSome_iff_eq_none, Bool.not_eq_true, isSome_nodeAt_goOnline hp, hstored]
  exact foldl_storedAfter_eq_false_iff

end

/-! ## An absent recipient -/

/-- Bob has alice's document and goes offline. -/
def bobAway : Network .tagged := arrived.goOffline "bob"

/-- Alice deletes the document at noon. -/
def bobMissed : Network .tagged := bobAway.deleteStored noon "alice" memo.nodeHash

/-- Alice. -/
def alicePeer : Peer .tagged := ⟨"alice", (1 : UInt8), true, aliceStorage, []⟩

/-- The token for alice's document, on its way to bob. -/
def memoMessage : Message :=
  ⟨"alice", "bob", .deletionToken (.signed .tagged alicePeer.signingKey memo.nodeHash
    alicePeer.peerId (noon.nonce 0) noon.now)⟩

/-- Bob, away, with the storage. -/
def absentBob (queue : List (Instant × Message)) : Peer .tagged :=
  ⟨"bob", (2 : UInt8), false, InMemoryStorage.empty.receiveNode memo "budget", queue⟩

/-- Bob comes back so many seconds after noon. -/
def back (k : Fin 3600) : Ambient := { noon with now := afterNoon k }

/-- The token waits for bob, who has the document: it is admissible a minute after noon, and not
any more ten minutes after. -/
theorem bobMissed_facts :
    (bobMissed.findPeer "bob").map Peer.offlineQueue = some [(noon.now, memoMessage)] ∧
      (bobMissed.nodeAt "bob" memo.nodeHash).isSome = true ∧
      removes bobMissed memo.nodeHash memoMessage = true ∧
      admissible isoReader .default (back 60) "bob" bobMissed [] memoMessage = true ∧
      admissible isoReader .default (back 600) "bob" bobMissed [] memoMessage = false := by
  decide +kernel

/-- Bob as found when alice has deleted the document. -/
theorem exists_bob : ∃ p, bobMissed.findPeer "bob" = some p ∧
    p.offlineQueue = [(noon.now, memoMessage)] ∧ (p.storage.getNode memo.nodeHash).isSome = true := by
  obtain ⟨hqueue, hstored, -⟩ := bobMissed_facts
  obtain ⟨p, hp, hqueue⟩ := map_eq_some_iff.mp hqueue
  rw [nodeAt_of_findPeer hp] at hstored
  exact ⟨p, hp, hqueue, hstored⟩

/-- Bob comes back a minute after alice deleted the document: it is gone. -/
theorem forgets_memo :
    (goOnline isoReader .default (back 60) 24 "bob" bobMissed).net.nodeAt "bob"
      memo.nodeHash = none := by
  obtain ⟨p, hp, hqueue, hstored⟩ := exists_bob
  obtain ⟨-, -, hremoves, hadmissible, -⟩ := bobMissed_facts
  refine (forgets_iff hp 24 hstored).mpr ⟨[], memoMessage, [], ?_, hremoves, fun m hm => (nomatch hm)⟩
  rw [hqueue]
  show admitted isoReader .default (back 60) "bob" bobMissed [] [memoMessage] = _
  rw [admitted_cons, if_pos hadmissible]
  rfl

/-- Bob comes back ten minutes after and keeps the document, although its token
was handed over. -/
theorem not_forgets_memo :
    (goOnline isoReader .default (back 600) 24 "bob" bobMissed).net.nodeAt "bob"
      memo.nodeHash ≠ none := by
  decide +kernel

/-- All of the queue is handed on and nothing is left of it, when bob comes back. -/
def Drained (k : Fin 3600) : Prop :=
  (goOnline isoReader .default (back k) 24 "bob" bobMissed).handed
      = due 24 (back k).now (absentBob [(noon.now, memoMessage)]).offlineQueue ∧
    ((goOnline isoReader .default (back k) 24 "bob" bobMissed).net.findPeer "bob").map
      Peer.offlineQueue = some []

/-- A minute after, the queue is drained. -/
theorem drains_memo : Drained 60 := by
  obtain ⟨p, hp, hqueue, -⟩ := exists_bob
  obtain ⟨-, -, -, hadmissible, -⟩ := bobMissed_facts
  rw [Drained, absentBob, ← hqueue]
  refine (drains_iff hp 24).mpr fun before msg rest hsplit => ?_
  rw [hqueue] at hsplit
  change [memoMessage] = _ at hsplit
  cases before with
  | nil =>
    rw [nil_append, List.cons.injEq] at hsplit
    rw [← hsplit.1]
    exact hadmissible
  | cons first before => simp at hsplit

/-- Ten minutes after, the expired token raises, and the queue is left as it was. -/
theorem not_drains_memo : ¬ Drained 600 := by
  obtain ⟨p, hp, hqueue, -⟩ := exists_bob
  obtain ⟨-, -, -, -, hadmissible⟩ := bobMissed_facts
  intro hdrained
  rw [Drained, absentBob, ← hqueue] at hdrained
  have hall := (drains_iff_admitted hp 24).mp hdrained
  rw [hqueue] at hall
  change admitted isoReader .default (back 600) "bob" bobMissed [] [memoMessage] = _ at hall
  rw [admitted_cons, if_neg (Bool.eq_false_iff.mp hadmissible)] at hall
  cases hall

end Network

end TrustFlow.Custody
