import Mathlib.Data.List.Induction
import TrustFlow.Custody.Network

/-!
# Deletions that race with deliveries

Nodes and deletion tokens reach a peer in any order.  A deleted content leaves a
tombstone that should keep it away for the grace period, but no function that
stores a content looks at tombstones, and a token for a node that has not
arrived yet leaves none.  So a node that arrives after its token is stored.

This module follows one peer through an arbitrary sequence of received
messages.

* `DeletionWins` — while the grace period of a delivered token runs, the content
  of its node is stored only for the sake of another, undeleted node.
* `deletionWins_of_orderly` — this holds in every run in which no node arrives
  while the grace period of a token for it runs, and no token is repeated while
  its node is stored.
* `deletionWins_fails` — a node, its token, and the node again.
-/

namespace TrustFlow.Custody

open Library List InMemoryStorage Option

namespace Network

variable {S : SignatureScheme}

/-- A message that reaches the peer, and when. -/
structure Delivery where
  amb : Ambient
  msg : Message

section

variable (iso : IsoReader) (cfg : EngineConfig) (id : Str) (net : Network S)

/-- The peer `id` receives a message. -/
def receive (d : Delivery) : Network S :=
  match net.findPeer id with
  | none => net
  | some p => (net.receiveMessage iso cfg d.amb p d.msg).1

variable (ds : List Delivery)

/-- The peer receives the messages one after the other. -/
def receiveAll : Network S :=
  ds.foldl (receive iso cfg id) net

/-- A token for the node was delivered, and at time `x` its grace period is not
over. -/
def Deleted (h : Str) (x : ℤ) : Prop :=
  ∃ d ∈ ds, ∃ token, d.msg.body = .deletionToken token ∧ token.nodeHash = h ∧
    x ≤ d.amb.now.1 + seconds cfg.tombstoneGrace

/-- The token comes from `issue_token`, called by the registered owner of the
node, and is not expired. -/
def OwnerIssued (amb : Ambient) (token : DeletionToken) : Prop :=
  ∃ owner node nonce, ∃ issued : Instant, net.findPeer token.originatorId = some owner ∧
    DeletionToken.issue S owner.signingKey node owner.peerId nonce issued = .ok token ∧
    (amb.now.1 : ℤ) - issued.1 ≤ seconds cfg.tokenValidity

/-- Every token of the run is one that an owner issued. -/
def TokensIssued : Prop :=
  ∀ d ∈ ds, ∀ token, d.msg.body = .deletionToken token → OwnerIssued cfg net d.amb token

/-- Whenever a token was delivered whose grace period is not over, the content
of its node is stored only if another stored node has that content, one that is
not deleted itself. -/
def DeletionWins (contentOf : Str → Str) (ds : List Delivery) : Prop :=
  ∀ before after, ds = before ++ after → ∀ x : ℤ, (∀ d ∈ before, (d.amb.now.1 : ℤ) ≤ x) →
    (∀ d ∈ after, x ≤ d.amb.now.1) → ∀ h, Deleted cfg before h x →
    ((receiveAll iso cfg id net before).contentAt id (contentOf h)).isSome →
    ∃ other node, other ≠ h ∧ (receiveAll iso cfg id net before).nodeAt id other = some node ∧
      node.contentHash = contentOf h ∧ ¬ Deleted cfg before other x

/-- The condition on the steps of a run. -/
structure Orderly (net : Network S) (contentOf : Str → Str) (ds : List Delivery) : Prop where
  /-- No node arrives while the grace period of a token for it runs. -/
  data : ∀ before d after, ds = before ++ d :: after → ∀ dict content node,
    d.msg.body = .cocData dict content → CoCNode.fromDict dict = .ok node →
      ¬ Deleted cfg before node.nodeHash d.amb.now.1
  /-- A node hash stands for one content. -/
  record : ∀ d ∈ ds, ∀ dict content node, d.msg.body = .cocData dict content →
    CoCNode.fromDict dict = .ok node → node.contentHash = contentOf node.nodeHash
  /-- A token that is in the cache does not arrive while its node is stored. -/
  fresh : ∀ before d after, ds = before ++ d :: after → ∀ token,
    d.msg.body = .deletionToken token →
      (((receiveAll iso cfg id net before).tokenCache cfg d.amb.now id).maybeCleanup d.amb.now).has
        token.getHash = true →
      (receiveAll iso cfg id net before).nodeAt id token.nodeHash = none

/-- The invariant of a run: contents are referenced, hashes stand for contents,
and no stored node is under deletion. -/
structure RaceInv (contentOf : Str → Str) (ds : List Delivery) (s : InMemoryStorage) : Prop where
  referenced : s.Referenced
  records : ∀ h node, s.getNode h = some node → node.contentHash = contentOf h
  undeleted : ∀ h node, s.getNode h = some node → ∀ x : ℤ,
    (∀ d ∈ ds, (d.amb.now.1 : ℤ) ≤ x) → ¬ Deleted cfg ds h x

end

section

variable {iso : IsoReader} {cfg : EngineConfig} {id : Str} {contentOf : Str → Str}
  {ds : List Delivery} {d : Delivery} {s : InMemoryStorage} {net : Network S}

theorem deleted_concat {h : Str} {x : ℤ} :
    Deleted cfg (ds ++ [d]) h x ↔ Deleted cfg ds h x ∨ Deleted cfg [d] h x := by
  simp only [Deleted, mem_append, or_and_right, exists_or]

variable {dict : NodeDict} {content : Str} {token : DeletionToken} {net₀ : Network S} {p : Peer S}

theorem not_deleted_cocData (hbody : d.msg.body = .cocData dict content) (h : Str) (x : ℤ) :
    ¬ Deleted cfg [d] h x := by
  rintro ⟨d', hd', token, htoken, -⟩
  rw [mem_singleton.mp hd', hbody] at htoken
  cases htoken

theorem not_deleted_token (hbody : d.msg.body = .deletionToken token) {h : Str}
    (hne : h ≠ token.nodeHash) (x : ℤ) : ¬ Deleted cfg [d] h x := by
  rintro ⟨d', hd', token', htoken, rfl, -⟩
  rw [mem_singleton.mp hd', hbody, Body.deletionToken.injEq] at htoken
  exact hne (htoken ▸ rfl)

section

variable (hinv : RaceInv cfg contentOf ds s)
include hinv

/-- A node arrives outside the grace periods of its tokens. -/
theorem raceInv_cocData
    (hbody : d.msg.body = .cocData dict content) {node : CoCNode}
    (hrecord : node.contentHash = contentOf node.nodeHash)
    (hdata : ¬ Deleted cfg ds node.nodeHash d.amb.now.1) :
    RaceInv cfg contentOf (ds ++ [d]) (s.receiveNode node content) where
  referenced := hinv.referenced.receiveNode
    (fun n hn => (hinv.records _ n hn).trans hrecord.symm) content
  records := by
    intro h n hn
    rcases getNode_receiveNode hn with ⟨rfl, hsame⟩ | ⟨-, n', hn', hsame⟩
    · exact hsame.contentHash.trans hrecord
    · exact hsame.contentHash.trans (hinv.records h n' hn')
  undeleted := by
    intro h n hn x hx hdeleted
    have hbefore : Deleted cfg ds h x :=
      (deleted_concat.mp hdeleted).resolve_right (not_deleted_cocData hbody h x)
    rcases getNode_receiveNode hn with ⟨rfl, -⟩ | ⟨-, n', hn', -⟩
    · obtain ⟨d', hd', token, htoken, hnode, hgrace⟩ := hbefore
      have hnow : (d.amb.now.1 : ℤ) ≤ x := hx d (by simp)
      exact hdata ⟨d', hd', token, htoken, hnode, hnow.trans hgrace⟩
    · exact hinv.undeleted h n' hn' x (fun d' hd' => hx d' (by simp [hd'])) hbefore

/-- A message that is no token and stores nothing. -/
theorem raceInv_idle
    (hidle : ∀ h x, ¬ Deleted cfg [d] h x) : RaceInv cfg contentOf (ds ++ [d]) s where
  referenced := hinv.referenced
  records := hinv.records
  undeleted := by
    intro h n hn x hx hdeleted
    exact hinv.undeleted h n hn x (fun d' hd' => hx d' (by simp [hd']))
      ((deleted_concat.mp hdeleted).resolve_right (hidle h x))

/-- A token arrives; afterwards its node is not stored. -/
theorem raceInv_token
    (hbody : d.msg.body = .deletionToken token) {s' : InMemoryStorage}
    (hsub : ∀ h n, s'.getNode h = some n → s.getNode h = some n) (hreferenced : s'.Referenced)
    (hgone : s'.getNode token.nodeHash = none) : RaceInv cfg contentOf (ds ++ [d]) s' where
  referenced := hreferenced
  records h n hn := hinv.records h n (hsub h n hn)
  undeleted := by
    intro h n hn x hx hdeleted
    have hne : h ≠ token.nodeHash := by
      rintro rfl
      cases hgone.symm.trans hn
    exact hinv.undeleted h n (hsub h n hn) x (fun d' hd' => hx d' (by simp [hd']))
      ((deleted_concat.mp hdeleted).resolve_right (not_deleted_token hbody hne x))

end

/-- A token that its owner issued passes the checks, unless it is in the cache. -/
theorem accepts_of_ownerIssued (hissued : OwnerIssued cfg net₀ d.amb token)
    (hkeys : net.findKey = net₀.findKey) {cache : ProcessedTokenCache}
    (hfresh : (cache.maybeCleanup d.amb.now).has token.getHash = false) :
    Accepts S iso cfg d.amb net.findKey cache token := by
  obtain ⟨owner, node, nonce, issued, howner, htoken, hage⟩ := hissued
  have hsigned : token = .signed S owner.signingKey node.nodeHash owner.peerId nonce issued := by
    rw [DeletionToken.issue] at htoken
    split at htoken
    · cases htoken
    · exact (Except.ok.inj htoken).symm
  refine ⟨hfresh, ?_, S.verifyKey owner.signingKey, ?_, ?_⟩
  · refine DeletionToken.isExpired_eq_false ?_ hage
    rw [hsigned]
    rfl
  · rw [hkeys, findKey, howner, map_some]
  · rw [hsigned]
    exact DeletionToken.verifiesUnder_signed _ _ _ _ _ _

/-- **What a token does.**  The token of an owner, unless it is repeated while
its node is stored, removes its node and leaves the other nodes alone. -/
theorem runToken_of_ownerIssued (iso : IsoReader) (hissued : OwnerIssued cfg net₀ d.amb token)
    (hkeys : net.findKey = net₀.findKey)
    (hfresh : ((net.tokenCache cfg d.amb.now p.peerId).maybeCleanup d.amb.now).has token.getHash
      = true → p.storage.getNode token.nodeHash = none) (hreferenced : p.storage.Referenced) :
    (∀ h n, (net.runToken iso cfg d.amb p token).storage.getNode h = some n →
        p.storage.getNode h = some n) ∧
      (net.runToken iso cfg d.amb p token).storage.Referenced ∧
      (net.runToken iso cfg d.amb p token).storage.getNode token.nodeHash = none := by
  cases hnode : p.storage.getNode token.nodeHash with
  | none =>
    have hsame : (net.runToken iso cfg d.amb p token).storage = p.storage :=
      (processToken_of_not fun h => by rw [hnode] at h; cases h.2).1
    rw [hsame]
    exact ⟨fun _ _ hn => hn, hreferenced, hnode⟩
  | some node =>
    have hnew : ((net.tokenCache cfg d.amb.now p.peerId).maybeCleanup d.amb.now).has token.getHash
        = false := by
      refine Bool.eq_false_iff.mpr fun hold => ?_
      have hnone := hfresh hold
      cases hnode.symm.trans hnone
    have hkey := nodeHash_of_getNode hnode
    have hrun : (net.runToken iso cfg d.amb p token).storage
        = p.storage.deleteNode cfg d.amb.now token node :=
      (processToken_of_accepts (accepts_of_ownerIssued hissued hkeys hnew) hnode).1
    rw [hrun]
    refine ⟨?_, hreferenced.deleteNode (hkey.symm ▸ hnode), ?_⟩
    · intro h n hn
      rw [getNode_deleteNode] at hn
      by_cases hh : node.nodeHash = h
      · rw [if_pos hh] at hn
        cases hn
      · rwa [if_neg hh] at hn
    · rw [getNode_deleteNode, if_pos hkey]

section

variable (hp : net.findPeer id = some p)
include hp

theorem storageOf_receive_of_token
    (hbody : d.msg.body = .deletionToken token) :
    (receive iso cfg id net d).storageOf id
      = some (net.runToken iso cfg d.amb p token).storage := by
  rw [receive, hp]
  exact (storageOf_receive_token hbody id).trans (if_pos (peerId_of_findPeer hp))

theorem storageOf_receive_of_cocData
    (hbody : d.msg.body = .cocData dict content) {node : CoCNode}
    (hnode : CoCNode.fromDict dict = .ok node) :
    (receive iso cfg id net d).storageOf id = some (p.storage.receiveNode node content) := by
  rw [receive, hp]
  exact (storageOf_receive_cocData hbody hnode id).trans (if_pos (peerId_of_findPeer hp))

/-- A message that stores nothing. -/
theorem storageOf_receive_of_idle
    (hidle : (net.receiveMessage iso cfg d.amb p d.msg).1 = net) :
    (receive iso cfg id net d).storageOf id = some p.storage := by
  rw [receive, hp]
  dsimp only
  rw [hidle, storageOf, hp, map_some]

end

/-- **One step.**  A message that meets the condition keeps the invariant. -/
theorem raceInv_receive (hkeys : net.findKey = net₀.findKey)
    (hinv : ∀ s, net.storageOf id = some s → RaceInv cfg contentOf ds s)
    (hissued : ∀ token, d.msg.body = .deletionToken token → OwnerIssued cfg net₀ d.amb token)
    (hdata : ∀ dict content node, d.msg.body = .cocData dict content →
      CoCNode.fromDict dict = .ok node →
      ¬ Deleted cfg ds node.nodeHash d.amb.now.1 ∧ node.contentHash = contentOf node.nodeHash)
    (hfresh : ∀ token, d.msg.body = .deletionToken token →
      ((net.tokenCache cfg d.amb.now id).maybeCleanup d.amb.now).has token.getHash = true →
        net.nodeAt id token.nodeHash = none) :
    (receive iso cfg id net d).findKey = net₀.findKey ∧
      ∀ s, (receive iso cfg id net d).storageOf id = some s →
        RaceInv cfg contentOf (ds ++ [d]) s := by
  cases hp : net.findPeer id with
  | none =>
    have hsame : receive iso cfg id net d = net := by rw [receive, hp]
    rw [hsame]
    refine ⟨hkeys, fun s hs => ?_⟩
    rw [storageOf, hp] at hs
    cases hs
  | some p =>
    have hid := peerId_of_findPeer hp
    have hstorage : net.storageOf id = some p.storage := by rw [storageOf, hp, map_some]
    have hinv := hinv p.storage hstorage
    refine ⟨?_, fun s hs => ?_⟩
    · rw [receive, hp]
      exact (findKey_receiveMessage (hid.symm ▸ hp)).trans hkeys
    cases hbody : d.msg.body with
    | cocData dict content =>
      cases hnode : CoCNode.fromDict dict with
      | error e =>
        rw [storageOf_receive_of_idle hp (by rw [receiveMessage, hbody]; dsimp only; rw [hnode]),
          some_inj] at hs
        exact hs ▸ raceInv_idle hinv (not_deleted_cocData hbody)
      | ok node =>
        rw [storageOf_receive_of_cocData hp hbody hnode, some_inj] at hs
        obtain ⟨hlate, hrecord⟩ := hdata dict content node hbody hnode
        exact hs ▸ raceInv_cocData hinv hbody hrecord hlate
    | deletionToken token =>
      rw [storageOf_receive_of_token hp hbody, some_inj] at hs
      have hnone : ((net.tokenCache cfg d.amb.now p.peerId).maybeCleanup d.amb.now).has
          token.getHash = true → p.storage.getNode token.nodeHash = none := by
        intro hold
        have hat := hfresh token hbody (hid ▸ hold)
        rwa [nodeAt, hstorage, bind_some] at hat
      obtain ⟨hsub, hreferenced, hgone⟩ := runToken_of_ownerIssued iso
        (hissued token hbody) hkeys hnone hinv.referenced
      exact hs ▸ raceInv_token hinv hbody hsub hreferenced hgone
    | other messageType =>
      rw [storageOf_receive_of_idle hp (by rw [receiveMessage, hbody]), some_inj] at hs
      refine hs ▸ raceInv_idle hinv fun h x => ?_
      rintro ⟨d', hd', token, htoken, -⟩
      rw [mem_singleton.mp hd', hbody] at htoken
      cases htoken

/-- **Whole runs.**  The invariant holds after every prefix of an orderly run. -/
theorem raceInv_receiveAll {net : Network S} {all : List Delivery}
    (hissued : TokensIssued cfg net all) (horderly : Orderly iso cfg id net contentOf all)
    (hstart : ∀ s, net.storageOf id = some s → RaceInv cfg contentOf [] s)
    {before after : List Delivery} (hsplit : all = before ++ after) :
    (receiveAll iso cfg id net before).findKey = net.findKey ∧
      ∀ s, (receiveAll iso cfg id net before).storageOf id = some s →
        RaceInv cfg contentOf before s := by
  induction before using List.reverseRecOn generalizing after with
  | nil => exact ⟨rfl, hstart⟩
  | append_singleton before d ih =>
    have hcut : all = before ++ d :: after := by rw [hsplit, append_assoc]; rfl
    have hmem : d ∈ all := by rw [hcut]; simp
    obtain ⟨hkeys, hinv⟩ := ih hcut
    rw [receiveAll, foldl_concat]
    refine raceInv_receive hkeys hinv (hissued d hmem) ?_ (horderly.fresh before d after hcut)
    intro dict content node hbody hnode
    exact ⟨horderly.data before d after hcut dict content node hbody hnode,
      horderly.record d hmem dict content node hbody hnode⟩

end

/-- **Deletion wins in orderly runs.**  Start from a storage in which every
content belongs to a node, and let any mix of nodes and owner-issued, unexpired
tokens arrive.  If no node arrives while the grace period of a token for it
runs, and no token in the cache arrives while its node is stored, then no
deleted content comes back during its grace period. -/
theorem deletionWins_of_orderly (iso : IsoReader) (cfg : EngineConfig) (id : Str)
    (contentOf : Str → Str) (net : Network S) (ds : List Delivery)
    (hreferenced : ∀ s, net.storageOf id = some s → s.Referenced)
    (hrecords : ∀ h node, net.nodeAt id h = some node → node.contentHash = contentOf h)
    (hissued : TokensIssued cfg net ds) (horderly : Orderly iso cfg id net contentOf ds) :
    DeletionWins iso cfg id net contentOf ds := by
  have hstart : ∀ s, net.storageOf id = some s → RaceInv cfg contentOf [] s := by
    intro s hs
    refine ⟨hreferenced s hs, fun h node hnode => hrecords h node ?_, ?_⟩
    · rw [nodeAt, hs, bind_some, hnode]
    · rintro h node - x - ⟨d, ⟨⟩, -⟩
  intro before after hsplit x hpast hfuture h hdeleted hcontent
  obtain ⟨-, hinv⟩ := raceInv_receiveAll hissued horderly hstart hsplit
  cases hs : (receiveAll iso cfg id net before).storageOf id with
  | none =>
    rw [contentAt, hs] at hcontent
    cases hcontent
  | some s =>
    have hinv := hinv s hs
    rw [contentAt, hs, bind_some] at hcontent
    obtain ⟨other, node, hnode, heq⟩ := hinv.referenced _ hcontent
    have hundeleted := hinv.undeleted other node hnode x hpast
    refine ⟨other, node, ?_, ?_, heq, hundeleted⟩
    · rintro rfl
      exact hundeleted hdeleted
    · rw [nodeAt, hs, bind_some, hnode]

/-! ## A node, its token, and the node again -/

/-- Alice's document reaches bob. -/
def memoArrives : Delivery :=
  ⟨noon, "alice", "bob", .cocData (memo.toDict .sorted) "budget"⟩

/-- Alice's token for the document. -/
def memoToken : DeletionToken :=
  .signed .tagged (1 : UInt8) memo.nodeHash "alice" "0" noon.now

/-- The token reaches bob. -/
def tokenArrives : Delivery := ⟨noon, "alice", "bob", .deletionToken memoToken⟩

theorem ownerIssued_memoToken : OwnerIssued .default trio noon memoToken :=
  ⟨⟨"alice", (1 : UInt8), true, .empty, []⟩, memo, "0", noon.now, rfl,
    if_neg (not_not.mpr rfl), by decide⟩

/-- No token is known before the first one comes, and in the end bob has the document again and
nothing else. -/
theorem race_facts :
    (((receiveAll isoReader .default "bob" trio [memoArrives]).tokenCache .default noon.now
        "bob").maybeCleanup noon.now).has memoToken.getHash = false ∧
      ((receiveAll isoReader .default "bob" trio
        [memoArrives, tokenArrives, memoArrives]).contentAt "bob"
          (hashContent "budget")).isSome = true ∧
      ((receiveAll isoReader .default "bob" trio
        [memoArrives, tokenArrives, memoArrives]).storageOf "bob").map
          (fun s => s.nodes.keys) = some [memo.nodeHash] := by
  decide +kernel

/-- The theorem at a run of two messages. -/
theorem deletionWins_of_orderly_once :
    DeletionWins isoReader .default "bob" trio (fun _ => hashContent "budget")
      [memoArrives, tokenArrives] := by
  have hcut : ∀ before d after, [memoArrives, tokenArrives] = before ++ d :: after →
      before = [] ∧ d = memoArrives ∨ before = [memoArrives] ∧ d = tokenArrives := by
    rintro (_ | ⟨b, _ | ⟨b', before⟩⟩) d after hsplit
    · exact .inl ⟨rfl, (List.cons.inj hsplit).1.symm⟩
    · obtain ⟨rfl, htail⟩ := List.cons.inj hsplit
      exact .inr ⟨rfl, (List.cons.inj htail).1.symm⟩
    · have hlength := congrArg List.length hsplit
      simp at hlength
  refine deletionWins_of_orderly isoReader .default _ _ trio _ ?_ ?_ ?_ ⟨?_, ?_, ?_⟩
  · rintro s ⟨⟩
    exact referenced_empty
  · rintro h node ⟨⟩
  · intro d hd token htoken
    simp only [mem_cons, not_mem_nil, or_false] at hd
    rcases hd with rfl | rfl
    · cases htoken
    · cases htoken
      exact ownerIssued_memoToken
  · intro before d after hsplit dict content node hbody hnode
    rcases hcut before d after hsplit with ⟨rfl, rfl⟩ | ⟨rfl, rfl⟩
    · rintro ⟨d', ⟨⟩, -⟩
    · cases hbody
  · intro d hd dict content node hbody hnode
    simp only [mem_cons, not_mem_nil, or_false] at hd
    rcases hd with rfl | rfl
    · cases hbody
      rw [CoCNode.fromDict_toDict _ signature_memo, Except.ok.injEq] at hnode
      rw [← hnode]
      rfl
    · cases hbody
  · intro before d after hsplit token hbody hold
    rcases hcut before d after hsplit with ⟨rfl, rfl⟩ | ⟨rfl, rfl⟩
    · cases hbody
    · cases hbody
      exact absurd (race_facts.1.symm.trans hold) Bool.false_ne_true

/-- The document arrives, its token arrives, and the document arrives again:
its content is back, with no other node to need it. -/
theorem deletionWins_fails :
    TokensIssued .default trio [memoArrives, tokenArrives, memoArrives] ∧
      ¬ DeletionWins isoReader .default "bob" trio (fun _ => hashContent "budget")
        [memoArrives, tokenArrives, memoArrives] := by
  obtain ⟨-, hcontent, hkeys⟩ := race_facts
  refine ⟨?_, fun hwins => ?_⟩
  · intro d hd token htoken
    simp only [mem_cons, not_mem_nil, or_false] at hd
    rcases hd with rfl | rfl | rfl
    · cases htoken
    · cases htoken
      exact ownerIssued_memoToken
    · cases htoken
  · obtain ⟨other, node, hne, hnode, -⟩ := hwins [memoArrives, tokenArrives, memoArrives] [] rfl
      noon.now.1 (by simp [memoArrives, tokenArrives]) (by rintro d ⟨⟩) memo.nodeHash
      ⟨tokenArrives, by simp, memoToken, rfl, rfl, by decide⟩ hcontent
    obtain ⟨s, hs, hnode⟩ := bind_eq_some_iff.mp hnode
    rw [hs, map_some, some_inj] at hkeys
    have hmem : other ∈ s.nodes.keys := Dict.mem_keys.mpr (isSome_of_mem hnode)
    rw [hkeys, mem_singleton] at hmem
    exact hne hmem

end Network

end TrustFlow.Custody
