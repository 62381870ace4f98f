import TrustFlow.Custody.Sharing
import Mathlib.Data.Prod.Lex
import Mathlib.Data.Set.Card
import Mathlib.Order.WellFounded

/-!
# The deliveries after a deletion

An originator deletes a node, and the messages that follow are delivered in the
order sent.  A peer that removes a node issues tokens for those of its children
that it owns, and these go to the recipients of the child.

* `Reached` — the nodes for which a token is issued.
* `drain` — deliveries in the order sent.
* `TokenEffect` — what one delivery does: the copy is gone afterwards, and the
  tokens for the children are on their way.
* `DrainInv` — what holds throughout.  Nodes are removed only where a token was
  due, and whoever is due a token has one on its way.
* `exists_drained` — the deliveries come to an end: each removes a copy, or only
  the message.
-/

namespace TrustFlow.Custody

open Library List Option

namespace Network

variable {S : SignatureScheme}

/-! ## Tokens on their way -/

/-- The nodes for which a token is issued: the root, and from a recipient of a
node, the children that this recipient made. -/
inductive Reached (net : Network S) (root : Str) : Str → Prop where
  | root : Reached net root root
  | child {id h : Str} {node child : CoCNode} : Reached net root h → net.nodeAt id h = some node →
      id ∈ node.recipientIds → child.nodeHash ∈ node.childrenHashes →
      net.nodeAt id child.nodeHash = some child → child.ownerId = id →
      Reached net root child.nodeHash

/-- Copies of a node agree. -/
def Agree (net : Network S) : Prop :=
  ∀ id id' h n n', net.nodeAt id h = some n → net.nodeAt id' h = some n' → n.SameRecord n'

/-- The message carries a token for the node. -/
def Carries (msg : Message) (h : Str) : Prop :=
  ∃ token, msg.body = .deletionToken token ∧ token.nodeHash = h

/-- Every recipient that still stores its copy has a token for it on its way. -/
def Pending (net net' : Network S) (h : Str) : Prop :=
  ∀ id n, net.nodeAt id h = some n → id ∈ n.recipientIds → net'.nodeAt id h ≠ none →
    ∃ msg ∈ net'.inFlight, msg.recipientId = id ∧ Carries msg h

section

variable (iso : IsoReader) (cfg : EngineConfig)

/-- The messages in flight are delivered in the order sent. -/
def drain (net : Network S) (ambs : ℕ → Ambient) : ℕ → Network S
  | 0 => net
  | k + 1 => (drain net ambs k).deliver iso cfg (ambs k) 0

/-- The tokens that are in flight at some time. -/
def tokensOf (net : Network S) (ambs : ℕ → Ambient) : Set DeletionToken :=
  { token | ∃ k, ∃ msg ∈ (net.drain iso cfg ambs k).inFlight, msg.body = .deletionToken token }

/-- No token is delivered after its validity. -/
def Timely (net : Network S) (ambs : ℕ → Ambient) : Prop :=
  ∀ k msg token, (net.drain iso cfg ambs k).inFlight[0]? = some msg →
    msg.body = .deletionToken token → token.isExpired iso cfg.tokenValidity (ambs k).now = false

end

/-- Tokens with the same hash are for the same node. -/
def NoCollision (T : Set DeletionToken) : Prop :=
  ∀ t ∈ T, ∀ t' ∈ T, t.getHash = t'.getHash → t.nodeHash = t'.nodeHash

/-! ## The effect of one token -/

/-- What the delivery of a token to the peer `id` does, whatever becomes of the
token, if the node is gone where it is not accepted. -/
structure TokenEffect (net net' : Network S) (id : Str) (token : DeletionToken)
    (sent : List Message) : Prop where
  keys : net'.findKey = net.findKey
  online : net'.AllOnline
  nodeAt : ∀ id' h, net'.nodeAt id' h
    = if id' = id ∧ h = token.nodeHash then none else net.nodeAt id' h
  cached : ∀ id' cache', net'.processedTokens.get? id' = some cache' → ∀ x, cache'.has x = true →
    (∃ cache, net.processedTokens.get? id' = some cache ∧ cache.has x = true) ∨
      id' = id ∧ x = token.getHash
  referenced : ∀ id' s', net'.storageOf id' = some s' → s'.Referenced
  inFlight : net'.inFlight = net.inFlight.eraseIdx 0 ++ sent
  sound : ∀ msg ∈ sent, ∃ node child t, net.nodeAt id token.nodeHash = some node ∧
    child.nodeHash ∈ node.childrenHashes ∧ net.nodeAt id child.nodeHash = some child ∧
    child.ownerId = id ∧ msg.recipientId ∈ child.recipientIds ∧ msg.body = .deletionToken t ∧
    t.nodeHash = child.nodeHash ∧
    ∃ key, net.findKey t.originatorId = some key ∧ t.VerifiesUnder S key
  complete : ∀ node child, net.nodeAt id token.nodeHash = some node →
    child.nodeHash ∈ node.childrenHashes → net.nodeAt id child.nodeHash = some child →
    child.ownerId = id → ∀ recipientId ∈ child.recipientIds, (net.findKey recipientId).isSome →
    ∃ msg ∈ sent, msg.recipientId = recipientId ∧ Carries msg child.nodeHash

theorem isSome_findKey (net : Network S) (id : Str) :
    (net.findKey id).isSome = (net.findPeer id).isSome := isSome_map

theorem nodeAt_of_findPeer {net : Network S} {id : Str} {p : Peer S}
    (hp : net.findPeer id = some p) (h : Str) : net.nodeAt id h = p.storage.getNode h := by
  rw [nodeAt, storageOf_of_findPeer hp, bind_some]

section

variable {iso : IsoReader} {cfg : EngineConfig} {net : Network S} {amb : Ambient} {msg : Message}
  {token : DeletionToken}

/-- A token for nobody is lost. -/
theorem tokenEffect_of_absent (honline : net.AllOnline)
    (hreferenced : ∀ id s, net.storageOf id = some s → s.Referenced)
    (hmsg : net.inFlight[0]? = some msg) (hp : net.findPeer msg.recipientId = none) :
    TokenEffect net (net.deliver iso cfg amb 0) msg.recipientId token [] := by
  have habsent : ∀ h, net.nodeAt msg.recipientId h = none := by
    intro h
    rw [nodeAt, storageOf, hp]
    rfl
  rw [deliver_of_absent hmsg hp]
  refine ⟨rfl, honline, ?_, ?_, hreferenced, (append_nil _).symm, ?_, ?_⟩
  · intro id h
    split
    · rename_i heq
      rw [heq.1]
      exact habsent h
    · rfl
  · exact fun id cache hcache x hx => .inl ⟨cache, hcache, hx⟩
  · rintro msg ⟨⟩
  · intro node child hnode
    rw [habsent] at hnode
    cases hnode

variable (iso cfg amb) in
/-- The network in which a peer has processed a token and not sent anything yet. -/
theorem exists_deliver_token {p : Peer S} (honline : net.AllOnline)
    (hmsg : net.inFlight[0]? = some msg) (hbody : msg.body = .deletionToken token)
    (hp : net.findPeer msg.recipientId = some p) :
    ∃ net₁ : Network S, net.deliver iso cfg amb 0 = net₁.sendAll amb.now
        ((net.runToken iso cfg amb p token).issued.flatMap (tokenMessages p.peerId)) ∧
      net₁.inFlight = net.inFlight.eraseIdx 0 ∧ net₁.findKey = net.findKey ∧ net₁.AllOnline ∧
      net₁.processedTokens
        = net.processedTokens.set p.peerId (net.runToken iso cfg amb p token).cache ∧
      ∀ id, net₁.storageOf id = if p.peerId = id then
        some (net.runToken iso cfg amb p token).storage else net.storageOf id := by
  refine ⟨_, deliver_token hmsg hp hbody, rfl, ?_, ?_, rfl, ?_⟩
  · have hp' : { net with inFlight := net.inFlight.eraseIdx 0 }.findPeer p.peerId = some p :=
      (peerId_of_findPeer hp).symm ▸ hp
    exact findKey_setPeer (q := { p with storage := _ }) hp' rfl
  · exact (honline.withInFlight _).setPeer (p := { p with storage := _ }) (honline _ p hp)
  · exact fun id => storageOf_setPeer { net with inFlight := net.inFlight.eraseIdx 0 } _ id

/-- A hash in the cache that a peer uses is in a cache that was there. -/
theorem exists_cache_of_has {id x : Str} {now : Instant}
    (hx : (net.tokenCache cfg now id).has x = true) :
    ∃ cache, net.processedTokens.get? id = some cache ∧ cache.has x = true := by
  rw [tokenCache] at hx
  cases hget : net.processedTokens.get? id with
  | none =>
    rw [hget] at hx
    cases hx
  | some cache =>
    rw [hget] at hx
    exact ⟨cache, rfl, hx⟩

/-- **The effect of one token**, signed by its originator, within its validity
and not processed before by a peer that still stores the node. -/
theorem exists_tokenEffect (honline : net.AllOnline)
    (hreferenced : ∀ id s, net.storageOf id = some s → s.Referenced)
    (hmsg : net.inFlight[0]? = some msg) (hbody : msg.body = .deletionToken token)
    (hsigned : ∃ key, net.findKey token.originatorId = some key ∧ token.VerifiesUnder S key)
    (hexpired : token.isExpired iso cfg.tokenValidity amb.now = false)
    (hreplay : ∀ cache, net.processedTokens.get? msg.recipientId = some cache →
      cache.has token.getHash = true → net.nodeAt msg.recipientId token.nodeHash = none) :
    ∃ sent, TokenEffect net (net.deliver iso cfg amb 0) msg.recipientId token sent := by
  cases hp : net.findPeer msg.recipientId with
  | none => exact ⟨[], tokenEffect_of_absent honline hreferenced hmsg hp⟩
  | some p =>
    have hid := peerId_of_findPeer hp
    have hnodeAt := nodeAt_of_findPeer hp
    have haccepts : (p.storage.getNode token.nodeHash).isSome → Accepts S iso cfg amb net.findKey
        (net.tokenCache cfg amb.now p.peerId) token := by
      intro hstored
      refine ⟨ProcessedTokenCache.has_maybeCleanup amb.now (Bool.eq_false_iff.mpr ?_), hexpired,
        hsigned⟩
      intro hhas
      obtain ⟨cache, hget, hx⟩ := exists_cache_of_has hhas
      have hgone := hreplay cache (hid ▸ hget) hx
      rw [← hnodeAt, hgone] at hstored
      cases hstored
    obtain ⟨net₁, hdeliver, hflight, hkeys, honline₁, hprocessed, hstorage⟩ :=
      exists_deliver_token iso cfg amb honline hmsg hbody hp
    have hsame := samePeers_sendAll net₁ amb.now
      ((net.runToken iso cfg amb p token).issued.flatMap (tokenMessages p.peerId))
    rw [hid] at hprocessed hstorage
    rw [hdeliver]
    refine ⟨_, hsame.findKey_eq.trans hkeys, honline₁.of_samePeers hsame, ?_, ?_, ?_,
      hflight ▸ inFlight_sendAll honline₁ _ _, ?_, ?_⟩
    · intro id h
      rw [hsame.nodeAt_eq, nodeAt, hstorage]
      by_cases heq : msg.recipientId = id
      · rw [if_pos heq, bind_some, runToken, getNode_processToken haccepts, ← heq, hnodeAt]
        simp only [true_and]
      · rw [if_neg heq, if_neg fun h => heq h.1.symm]
        rfl
    · intro id cache hget x hx
      rw [processedTokens_sendAll, hprocessed, Dict.get?_set] at hget
      split at hget
      · rename_i heq
        rw [← some_inj.mp hget] at hx
        rcases has_of_has_processToken hx with hx | hx
        · rw [← heq, ← hid]
          exact .inl (exists_cache_of_has hx)
        · exact .inr ⟨heq.symm, hx⟩
      · exact .inl ⟨cache, hget, hx⟩
    · intro id s hs
      rw [hsame.storageOf_eq, hstorage] at hs
      split at hs
      · rw [← some_inj.mp hs]
        exact referenced_processToken haccepts (hreferenced _ _ (storageOf_of_findPeer hp))
      · exact hreferenced id s hs
    · intro msg' hmsg'
      obtain ⟨⟨t, recipients⟩, hissued, hto⟩ :=
        mem_flatMap.mp (mem_of_mem_filter hmsg')
      obtain ⟨recipientId, hrecipient, rfl⟩ := mem_map.mp hto
      obtain ⟨node, child, hnode, hin, hstored, howner, rfl, i, rfl⟩ := mem_issued haccepts hissued
      refine ⟨node, child, _, (hnodeAt _).trans hnode, hin, (hnodeAt _).trans hstored,
        howner.trans hid, hrecipient, rfl, rfl, S.verifyKey p.signingKey, ?_,
        DeletionToken.verifiesUnder_signed S p.signingKey _ _ _ _⟩
      show net.findKey p.peerId = _
      rw [findKey, hid, hp, map_some]
    · intro node child hnode hin hstored howner recipientId hrecipient hknown
      rw [hnodeAt] at hnode hstored
      obtain ⟨t, ht, hhash⟩ :=
        exists_mem_issued haccepts hnode hin hstored (howner.trans hid.symm)
      refine ⟨⟨p.peerId, recipientId, .deletionToken t⟩, mem_filter.mpr ⟨?_, ?_⟩, rfl, t,
        rfl, hhash⟩
      · exact mem_flatMap.mpr ⟨_, ht, mem_map.mpr ⟨recipientId, hrecipient, rfl⟩⟩
      · rw [Deliverable, ← isSome_findKey, hkeys]
        exact hknown

end

/-! ## What holds while the messages are delivered -/

/-- The invariant of the deliveries; `net` is the network before the deletion,
`net'` the present one, and `T` has the tokens that are in flight at some time. -/
structure DrainInv (net : Network S) (root : Str) (T : Set DeletionToken) (net' : Network S) :
    Prop where
  keys : net'.findKey = net.findKey
  online : net'.AllOnline
  kept : ∀ id h n, net'.nodeAt id h = some n → net.nodeAt id h = some n
  removed : ∀ id h n, net.nodeAt id h = some n → net'.nodeAt id h = none →
    net.Reached root h ∧ id ∈ n.recipientIds ∧ Pending net net' h
  flight : ∀ msg ∈ net'.inFlight, ∃ token, msg.body = .deletionToken token ∧
    (∃ key, net.findKey token.originatorId = some key ∧ token.VerifiesUnder S key) ∧
    net.Reached root token.nodeHash ∧
    (∀ n, net.nodeAt msg.recipientId token.nodeHash = some n → msg.recipientId ∈ n.recipientIds) ∧
    Pending net net' token.nodeHash
  cached : ∀ id cache, net'.processedTokens.get? id = some cache → ∀ x, cache.has x = true →
    ∃ t ∈ T, t.getHash = x ∧ net'.nodeAt id t.nodeHash = none
  pending : Pending net net' root
  covered : ∀ id h node child, net.nodeAt id h = some node → child.nodeHash ∈ node.childrenHashes →
    net.nodeAt id child.nodeHash = some child → child.ownerId = id → net'.nodeAt id h = none →
    Pending net net' child.nodeHash
  referenced : ∀ id s, net'.storageOf id = some s → s.Referenced

section

variable {net net' net'' : Network S} {root : Str} {T : Set DeletionToken} {msg : Message}
  {token : DeletionToken} {sent : List Message}
  (heffect : TokenEffect net' net'' msg.recipientId token sent)
  (hmsg : net'.inFlight[0]? = some msg) (hbody : msg.body = .deletionToken token)
include heffect hmsg hbody

/-- A recipient that waits for a token has received it or still waits. -/
theorem Pending.of_tokenEffect {h : Str} (hpending : Pending net net' h) : Pending net net'' h := by
  intro id n hn hlisted hstill
  rw [heffect.nodeAt] at hstill
  split at hstill
  · exact absurd rfl hstill
  rename_i hother
  obtain ⟨msg', hmsg', hto, t, hbody', hhash⟩ := hpending id n hn hlisted hstill
  refine ⟨msg', ?_, hto, t, hbody', hhash⟩
  rw [heffect.inFlight]
  refine mem_append_left _ ?_
  -- the message is not the one that was delivered
  have hne : msg' ≠ msg := by
    rintro rfl
    rw [hbody', Body.deletionToken.injEq] at hbody
    exact hother ⟨hto.symm, hbody ▸ hhash.symm⟩
  cases hflight : net'.inFlight with
  | nil =>
    rw [hflight] at hmsg
    cases hmsg
  | cons first rest =>
    rw [hflight] at hmsg hmsg'
    rcases mem_cons.mp hmsg' with rfl | hrest
    · exact absurd (some_inj.mp hmsg) hne
    · exact hrest

/-- After a peer removed a node, the recipients of its own children of that node
wait for tokens. -/
theorem pending_child (hagree : net.Agree) (hinv : DrainInv net root T net')
    {node child : CoCNode} (hnode : net'.nodeAt msg.recipientId token.nodeHash = some node)
    (hin : child.nodeHash ∈ node.childrenHashes)
    (hstored : net.nodeAt msg.recipientId child.nodeHash = some child)
    (howner : child.ownerId = msg.recipientId) : Pending net net'' child.nodeHash := by
  cases hstored' : net'.nodeAt msg.recipientId child.nodeHash with
  | none => exact (hinv.removed _ _ child hstored hstored').2.2.of_tokenEffect heffect hmsg hbody
  | some child' =>
    have hsame : child' = child :=
      some_inj.mp ((hinv.kept _ _ child' hstored').symm.trans hstored)
    rw [hsame] at hstored'
    intro id n hn hlisted _
    have hrecord := hagree _ _ _ n child hn hstored
    have hknown : (net'.findKey id).isSome := by
      rw [hinv.keys, isSome_findKey]
      obtain ⟨s, hs, -⟩ := bind_eq_some_iff.mp hn
      obtain ⟨p, hp, -⟩ := map_eq_some_iff.mp hs
      rw [hp, isSome_some]
    obtain ⟨msg', hmsg', hto, hcarries⟩ := heffect.complete node child hnode hin hstored' howner id
      (hrecord.recipientIds ▸ hlisted) hknown
    exact ⟨msg', heffect.inFlight ▸ mem_append_right _ hmsg', hto, hcarries⟩

/-- **Every delivery keeps the invariant.** -/
theorem DrainInv.of_tokenEffect (hagree : net.Agree) (hinv : DrainInv net root T net')
    (htoken : token ∈ T) : DrainInv net root T net'' := by
  obtain ⟨token', hbody', hsigned, hreached, hlisted, hpending⟩ :=
    hinv.flight msg (mem_of_getElem? hmsg)
  obtain rfl : token' = token := Body.deletionToken.inj (hbody'.symm.trans hbody)
  have hmono : ∀ h, Pending net net' h → Pending net net'' h := fun h hh =>
    hh.of_tokenEffect heffect hmsg hbody
  have hnone : ∀ id h, net'.nodeAt id h = none → net''.nodeAt id h = none := by
    intro id h hh
    rw [heffect.nodeAt, hh, ite_self]
  -- what is gone now was gone before or is the node of the token
  have hgone : ∀ id h, net''.nodeAt id h = none →
      net'.nodeAt id h = none ∨ id = msg.recipientId ∧ h = token'.nodeHash := by
    intro id h hh
    rw [heffect.nodeAt] at hh
    split at hh
    · exact .inr ‹_›
    · exact .inl hh
  refine ⟨heffect.keys.trans hinv.keys, heffect.online, ?_, ?_, ?_, ?_, hmono _ hinv.pending, ?_,
    heffect.referenced⟩
  · intro id h n hn
    rw [heffect.nodeAt] at hn
    split at hn
    · cases hn
    · exact hinv.kept id h n hn
  · intro id h n hn hh
    rcases hgone id h hh with hh | ⟨rfl, rfl⟩
    · obtain ⟨hreached, hlisted, hpending⟩ := hinv.removed id h n hn hh
      exact ⟨hreached, hlisted, hmono _ hpending⟩
    · exact ⟨hreached, hlisted n hn, hmono _ hpending⟩
  · intro msg' hmsg'
    rw [heffect.inFlight] at hmsg'
    rcases mem_append.mp hmsg' with hmsg' | hmsg'
    · obtain ⟨t, hbody, hsigned, hreached, hlisted, hpending⟩ :=
        hinv.flight msg' (mem_of_mem_eraseIdx hmsg')
      exact ⟨t, hbody, hsigned, hreached, hlisted, hmono _ hpending⟩
    · obtain ⟨node, child, t, hnode, hin, hstored, howner, hrecipient, hbody', hhash, hsigned⟩ :=
        heffect.sound msg' hmsg'
      have hnode₀ := hinv.kept _ _ _ hnode
      have hstored₀ := hinv.kept _ _ _ hstored
      rw [hinv.keys] at hsigned
      refine ⟨t, hbody', hsigned, ?_, ?_, ?_⟩
      · rw [hhash]
        exact .child hreached hnode₀ (hlisted node hnode₀) hin hstored₀ howner
      · intro n hn
        rw [hhash] at hn
        rw [(hagree _ _ _ n child hn hstored₀).recipientIds]
        exact hrecipient
      · rw [hhash]
        exact pending_child heffect hmsg hbody hagree hinv hnode hin hstored₀ howner
  · intro id cache hget x hx
    rcases heffect.cached id cache hget x hx with ⟨cache', hget', hx'⟩ | ⟨rfl, rfl⟩
    · obtain ⟨t, ht, hhash, hh⟩ := hinv.cached id cache' hget' x hx'
      exact ⟨t, ht, hhash, hnone _ _ hh⟩
    · refine ⟨token', htoken, rfl, ?_⟩
      rw [heffect.nodeAt, if_pos ⟨rfl, rfl⟩]
  · intro id h node child hnode hin hstored howner hh
    cases hstill : net'.nodeAt id h with
    | none => exact hmono _ (hinv.covered id h node child hnode hin hstored howner hstill)
    | some node' =>
      obtain rfl : node' = node :=
        some_inj.mp ((hinv.kept id h node' hstill).symm.trans hnode)
      rcases hgone id h hh with hh | ⟨rfl, rfl⟩
      · cases hh.symm.trans hstill
      · exact pending_child heffect hmsg hbody hagree hinv hstill hin hstored howner

end

section

variable {net : Network S} {originator root : Str} {node : CoCNode}

/-- The deletion of a stored node by its owner sends a token to the recipients. -/
theorem exists_deleteStored (hnode : net.nodeAt originator root = some node)
    (howner : node.ownerId = originator) (amb : Ambient) :
    ∃ (net₁ : Network S) (token : DeletionToken), net.deleteStored amb originator root
        = net₁.sendAll amb.now (tokenMessages originator (token, node.recipientIds)) ∧
      net.SamePeers net₁ ∧ net₁.inFlight = net.inFlight ∧
      net₁.processedTokens = net.processedTokens ∧ token.nodeHash = root ∧
      token.timestamp = isoformat amb.now.1 ∧
      ∃ key, net.findKey token.originatorId = some key ∧ token.VerifiesUnder S key := by
  obtain ⟨s, hs, hnode⟩ := bind_eq_some_iff.mp hnode
  obtain ⟨p, hp, rfl⟩ := map_eq_some_iff.mp hs
  have hid := peerId_of_findPeer hp
  rw [deleteStored, hp]
  dsimp only
  rw [hnode]
  dsimp only
  rw [initiateDeletion, DeletionToken.issue, if_neg (not_not.mpr (howner.trans hid.symm)), hid]
  refine ⟨_, _, rfl, .refl _, rfl, rfl, InMemoryStorage.nodeHash_of_getNode hnode, rfl,
    S.verifyKey p.signingKey, ?_, DeletionToken.verifiesUnder_signed S p.signingKey _ _ _ _⟩
  show net.findKey originator = _
  rw [findKey, hp, map_some]

/-- The invariant holds when the deletion has been started. -/
theorem drainInv_deleteStored (hagree : net.Agree) (honline : net.AllOnline)
    (hunprocessed : net.processedTokens = .empty) (hflight : net.inFlight = [])
    (hreferenced : ∀ id s, net.storageOf id = some s → s.Referenced)
    (hnode : net.nodeAt originator root = some node) (howner : node.ownerId = originator)
    (amb : Ambient) (T : Set DeletionToken) :
    DrainInv net root T (net.deleteStored amb originator root) := by
  obtain ⟨net₁, token, hdelete, hsame, hflight₁, hprocessed₁, rfl, -, hsigned⟩ :=
    exists_deleteStored hnode howner amb
  have hsent := hsame.trans (samePeers_sendAll net₁ amb.now
    (tokenMessages originator (token, node.recipientIds)))
  rw [← hdelete] at hsent
  have honline₁ := honline.of_samePeers hsame
  have hinFlight : (net.deleteStored amb originator token.nodeHash).inFlight
      = (tokenMessages originator (token, node.recipientIds)).filter net₁.Deliverable := by
    rw [hdelete, inFlight_sendAll honline₁, hflight₁, hflight, nil_append]
  have hpending : Pending net (net.deleteStored amb originator token.nodeHash) token.nodeHash := by
    intro id n hn hlisted _
    refine ⟨⟨originator, id, .deletionToken token⟩, ?_, rfl, token, rfl, rfl⟩
    rw [hinFlight]
    refine mem_filter.mpr ⟨mem_map.mpr ⟨id, ?_, rfl⟩, ?_⟩
    · rw [← (hagree _ _ _ n node hn hnode).recipientIds]
      exact hlisted
    · obtain ⟨s, hs, -⟩ := bind_eq_some_iff.mp hn
      rw [Deliverable, ← isSome_findKey, hsame.findKey_eq, isSome_findKey]
      obtain ⟨p, hp, -⟩ := map_eq_some_iff.mp hs
      rw [hp, isSome_some]
  refine ⟨hsent.findKey_eq, honline.of_samePeers hsent, ?_, ?_, ?_, ?_, hpending, ?_, ?_⟩
  · intro id h n hn
    rwa [hsent.nodeAt_eq] at hn
  · intro id h n hn hgone
    rw [hsent.nodeAt_eq, hn] at hgone
    cases hgone
  · intro msg hmsg
    rw [hinFlight] at hmsg
    obtain ⟨id, hlisted, rfl⟩ := mem_map.mp (mem_of_mem_filter hmsg)
    refine ⟨token, rfl, hsigned, .root, ?_, hpending⟩
    intro n hn
    rw [(hagree _ _ _ n node hn hnode).recipientIds]
    exact hlisted
  · intro id cache hget
    rw [hdelete, processedTokens_sendAll, hprocessed₁, hunprocessed] at hget
    cases hget
  · intro id h node child hnode _ _ _ hgone
    rw [hsent.nodeAt_eq, hnode] at hgone
    cases hgone
  · intro id s hs
    rw [hsent.storageOf_eq] at hs
    exact hreferenced id s hs

end

/-! ## The deliveries come to an end -/

section

variable {iso : IsoReader} {cfg : EngineConfig} {net net' : Network S} {root : Str}
  {ambs : ℕ → Ambient}

/-- One delivery, while a message is in flight. -/
theorem exists_tokenEffect_drain (htimely : net'.Timely iso cfg ambs)
    (hcollision : NoCollision (net'.tokensOf iso cfg ambs)) {k : ℕ}
    (hinv : DrainInv net root (net'.tokensOf iso cfg ambs) (net'.drain iso cfg ambs k))
    (hflight : (net'.drain iso cfg ambs k).inFlight ≠ []) :
    ∃ msg token sent, (net'.drain iso cfg ambs k).inFlight[0]? = some msg ∧
      msg.body = .deletionToken token ∧ token ∈ net'.tokensOf iso cfg ambs ∧
      TokenEffect (net'.drain iso cfg ambs k) (net'.drain iso cfg ambs (k + 1)) msg.recipientId
        token sent := by
  obtain ⟨msg, rest, hcons⟩ := exists_cons_of_ne_nil hflight
  have hmsg : (net'.drain iso cfg ambs k).inFlight[0]? = some msg := by rw [hcons]; rfl
  obtain ⟨token, hbody, hsigned, -⟩ := hinv.flight msg (mem_of_getElem? hmsg)
  have htoken : token ∈ net'.tokensOf iso cfg ambs :=
    ⟨k, msg, mem_of_getElem? hmsg, hbody⟩
  rw [← hinv.keys] at hsigned
  obtain ⟨sent, heffect⟩ := exists_tokenEffect hinv.online hinv.referenced hmsg hbody hsigned
    (htimely k msg token hmsg hbody) fun cache hget hx => by
      obtain ⟨t, ht, hhash, hgone⟩ := hinv.cached _ cache hget _ hx
      rwa [hcollision t ht token htoken hhash] at hgone
  exact ⟨msg, token, sent, hmsg, hbody, htoken, heffect⟩

theorem drain_succ_of_nil {k : ℕ} (hflight : (net'.drain iso cfg ambs k).inFlight = []) :
    net'.drain iso cfg ambs (k + 1) = net'.drain iso cfg ambs k := by
  rw [drain, deliver, hflight]
  rfl

theorem drain_eq_of_nil {k : ℕ} (hflight : (net'.drain iso cfg ambs k).inFlight = []) (j : ℕ) :
    net'.drain iso cfg ambs (k + j) = net'.drain iso cfg ambs k := by
  induction j with
  | zero => rfl
  | succ j ih =>
    rw [← Nat.add_assoc, drain_succ_of_nil (ih.symm ▸ hflight), ih]

/-- A deletion whose only token leads to no other. -/
theorem timely_noCollision_of_single {msg : Message} {token : DeletionToken}
    (hflight : net'.inFlight = [msg]) (hbody : msg.body = .deletionToken token)
    (hexpired : token.isExpired iso cfg.tokenValidity (ambs 0).now = false)
    (hdone : (net'.drain iso cfg ambs 1).inFlight = []) :
    net'.Timely iso cfg ambs ∧ NoCollision (net'.tokensOf iso cfg ambs) := by
  have hlater : ∀ k, (net'.drain iso cfg ambs (k + 1)).inFlight = [] := by
    intro k
    rw [Nat.add_comm, drain_eq_of_nil hdone]
    exact hdone
  have htokens : ∀ t ∈ net'.tokensOf iso cfg ambs, t = token := by
    rintro t ⟨k, msg', hmsg', hbody'⟩
    cases k with
    | zero =>
      change msg' ∈ net'.inFlight at hmsg'
      rw [hflight, mem_singleton] at hmsg'
      rw [hmsg', hbody] at hbody'
      exact (Body.deletionToken.inj hbody').symm
    | succ k =>
      rw [hlater] at hmsg'
      cases hmsg'
  refine ⟨?_, fun t ht t' ht' _ => by rw [htokens t ht, htokens t' ht']⟩
  intro k msg' token' hmsg' hbody'
  have htoken : token' = token := htokens token' ⟨k, msg', mem_of_getElem? hmsg', hbody'⟩
  cases k with
  | zero => exact htoken ▸ hexpired
  | succ k =>
    rw [hlater] at hmsg'
    cases hmsg'

/-- **The invariant holds throughout.** -/
theorem drainInv_drain (hagree : net.Agree) (htimely : net'.Timely iso cfg ambs)
    (hcollision : NoCollision (net'.tokensOf iso cfg ambs))
    (hinv : DrainInv net root (net'.tokensOf iso cfg ambs) net') (k : ℕ) :
    DrainInv net root (net'.tokensOf iso cfg ambs) (net'.drain iso cfg ambs k) := by
  induction k with
  | zero => exact hinv
  | succ k ih =>
    by_cases hflight : (net'.drain iso cfg ambs k).inFlight = []
    · rw [drain_succ_of_nil hflight]
      exact ih
    · obtain ⟨msg, token, sent, hmsg, hbody, htoken, heffect⟩ :=
        exists_tokenEffect_drain htimely hcollision ih hflight
      exact ih.of_tokenEffect heffect hmsg hbody hagree htoken

/-- The copies that are stored anywhere. -/
def copies (net : Network S) : Set (Str × Str) := { c | (net.nodeAt c.1 c.2).isSome }

theorem finite_copies (net : Network S) : net.copies.Finite := by
  refine (finite_toSet (net.peers.entries.flatMap fun peer =>
    peer.2.storage.nodes.keys.map fun h => (peer.1, h))).subset ?_
  rintro ⟨id, h⟩ hc
  obtain ⟨n, hn⟩ := isSome_iff_exists.mp hc
  obtain ⟨s, hs, hn⟩ := bind_eq_some_iff.mp hn
  obtain ⟨p, hp, rfl⟩ := map_eq_some_iff.mp hs
  refine mem_flatMap.mpr ⟨(id, p), Dict.mem_entries.mpr hp, mem_map.mpr ⟨h, ?_, rfl⟩⟩
  exact Dict.mem_keys.mpr (isSome_iff_exists.mpr ⟨n, hn⟩)

/-- The work that is left: the copies that can still be removed, and the messages
in flight. -/
noncomputable def rank (net : Network S) : ℕ ×ₗ ℕ := toLex (net.copies.ncard, net.inFlight.length)

/-- A delivery removes a copy, or only the message. -/
theorem rank_lt_of_tokenEffect {net'' : Network S} {msg : Message} {token : DeletionToken}
    {sent : List Message} (heffect : TokenEffect net' net'' msg.recipientId token sent)
    (hmsg : net'.inFlight[0]? = some msg) : net''.rank < net'.rank := by
  have hsubset : net''.copies ⊆ net'.copies := by
    rintro ⟨id, h⟩ hc
    change (net''.nodeAt id h).isSome = true at hc
    rw [heffect.nodeAt] at hc
    split at hc
    · cases hc
    · exact hc
  rw [rank, rank, Prod.Lex.toLex_lt_toLex]
  cases hnode : net'.nodeAt msg.recipientId token.nodeHash with
  | some node =>
    refine .inl (Set.ncard_lt_ncard (hsubset.ssubset_of_mem_notMem
      (a := (msg.recipientId, token.nodeHash)) ?_ ?_) net'.finite_copies)
    · show (net'.nodeAt _ _).isSome = true
      rw [hnode, isSome_some]
    · show ¬ (net''.nodeAt _ _).isSome = true
      rw [heffect.nodeAt, if_pos ⟨rfl, rfl⟩]
      exact Bool.false_ne_true
  | none =>
    have hcopies : net''.copies = net'.copies := by
      refine hsubset.antisymm ?_
      rintro ⟨id, h⟩ hc
      change (net'.nodeAt id h).isSome = true at hc
      show (net''.nodeAt id h).isSome = true
      rw [heffect.nodeAt, if_neg]
      · exact hc
      · rintro ⟨rfl, rfl⟩
        rw [hnode] at hc
        cases hc
    have hsent : sent = [] := by
      refine eq_nil_iff_forall_not_mem.mpr fun msg' hmsg' => ?_
      obtain ⟨node, child, t, hsome, -⟩ := heffect.sound msg' hmsg'
      cases hnode.symm.trans hsome
    refine .inr ⟨congrArg Set.ncard hcopies, ?_⟩
    show net''.inFlight.length < net'.inFlight.length
    rw [heffect.inFlight, hsent, append_nil]
    cases hflight : net'.inFlight with
    | nil =>
      rw [hflight] at hmsg
      cases hmsg
    | cons first rest => exact Nat.lt_succ_self _

/-- **The deliveries come to an end.** -/
theorem exists_drained (hagree : net.Agree) (htimely : net'.Timely iso cfg ambs)
    (hcollision : NoCollision (net'.tokensOf iso cfg ambs))
    (hinv : DrainInv net root (net'.tokensOf iso cfg ambs) net') :
    ∃ k, (net'.drain iso cfg ambs k).inFlight = [] := by
  obtain ⟨k, hk⟩ := WellFounded.not_rel_apply_succ (r := (· < ·)) fun k =>
    (net'.drain iso cfg ambs k).rank
  refine ⟨k, ?_⟩
  by_contra hflight
  obtain ⟨msg, token, sent, hmsg, -, -, heffect⟩ := exists_tokenEffect_drain htimely hcollision
    (drainInv_drain hagree htimely hcollision hinv k) hflight
  exact hk (rank_lt_of_tokenEffect heffect hmsg)

end

end Network

end TrustFlow.Custody
