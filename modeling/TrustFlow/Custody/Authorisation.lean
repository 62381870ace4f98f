import TrustFlow.Custody.Network

/-!
# Who may delete a node

A token names the node to be deleted and the peer that deletes it, and carries
a signature.  `issue_token` makes tokens only for the owner of a node.  The
receiver, `process_token`, checks the signature against the key of the peer
that the token names, and does not ask whether that peer owns the node: any
registered peer can have any node deleted.

* `removesOnlyAuthorised_iff` — a call of `process_token` removes nodes only
  under their owner's signature exactly when every token it accepts names the
  owner of the node it finds.
* `removesOnlyAuthorised_fails` — a stranger's token, accepted.
-/

namespace TrustFlow.Custody

open Library InMemoryStorage

variable {S : SignatureScheme}

namespace Network

/-- The token is signed with the key of the registered peer `owner`. -/
def Authorised (net : Network S) (owner : Str) (token : DeletionToken) : Prop :=
  ∃ key, net.findKey owner = some key ∧ token.VerifiesUnder S key

/-- No signature is accepted under the keys of two peers. -/
def KeysSeparate (net : Network S) : Prop :=
  ∀ id id' key key', id ≠ id' → net.findKey id = some key → net.findKey id' = some key' →
    S.Separates key key'

section

variable (iso : IsoReader) (cfg : EngineConfig) (net : Network S) (amb : Ambient) (p : Peer S)
  (token : DeletionToken)

/-- The token passes the checks that `p` makes. -/
def Admits : Prop :=
  Accepts S iso cfg amb net.findKey (net.tokenCache cfg amb.now p.peerId) token

/-- The call removes a node only if the token is signed by the node's owner. -/
def RemovesOnlyAuthorised : Prop :=
  ∀ h node, p.storage.getNode h = some node →
    (net.runToken iso cfg amb p token).storage.getNode h = none →
    net.Authorised node.ownerId token

/-- If the token passes the checks and its node is stored, it names the owner of
the node as its originator. -/
def NamesOwner : Prop :=
  ∀ node, p.storage.getNode token.nodeHash = some node → Admits iso cfg net amb p token →
    token.originatorId = node.ownerId

end

section

variable {iso : IsoReader} {cfg : EngineConfig} {net : Network S} {amb : Ambient} {p : Peer S}
  {token : DeletionToken}

/-- The only node a call can remove is the one the token names. -/
theorem admits_of_removed {h : Str} {node : CoCNode} (hnode : p.storage.getNode h = some node)
    (hremoved : (net.runToken iso cfg amb p token).storage.getNode h = none) :
    h = token.nodeHash ∧ Admits iso cfg net amb p token := by
  by_cases hcall : Admits iso cfg net amb p token ∧ (p.storage.getNode token.nodeHash).isSome
  · obtain ⟨hadmits, hsome⟩ := hcall
    obtain ⟨node', hnode'⟩ := Option.isSome_iff_exists.mp hsome
    rw [runToken, (processToken_of_accepts hadmits hnode').1, getNode_deleteNode] at hremoved
    by_cases hh : node'.nodeHash = h
    · exact ⟨hh ▸ nodeHash_of_getNode hnode', hadmits⟩
    · rw [if_neg hh, hnode] at hremoved
      cases hremoved
  · rw [runToken, (processToken_of_not hcall).1, hnode] at hremoved
    cases hremoved

theorem removed_of_admits {node : CoCNode} (hadmits : Admits iso cfg net amb p token)
    (hnode : p.storage.getNode token.nodeHash = some node) :
    (net.runToken iso cfg amb p token).storage.getNode token.nodeHash = none := by
  rw [runToken, (processToken_of_accepts hadmits hnode).1, getNode_deleteNode,
    if_pos (nodeHash_of_getNode hnode)]

theorem removesOnlyAuthorised_of_namesOwner (howner : NamesOwner iso cfg net amb p token) :
    RemovesOnlyAuthorised iso cfg net amb p token := by
  intro h node hnode hremoved
  obtain ⟨rfl, hadmits⟩ := admits_of_removed hnode hremoved
  obtain ⟨key, hkey, hverify⟩ := hadmits.2.2
  exact ⟨key, howner node hnode hadmits ▸ hkey, hverify⟩

theorem namesOwner_of_removesOnlyAuthorised (hkeys : net.KeysSeparate)
    (hremoves : RemovesOnlyAuthorised iso cfg net amb p token) :
    NamesOwner iso cfg net amb p token := by
  intro node hnode hadmits
  obtain ⟨key, hkey, signature, hsignature, hverify⟩ :=
    hremoves _ node hnode (removed_of_admits hadmits hnode)
  obtain ⟨key', hkey', signature', hsignature', hverify'⟩ := hadmits.2.2
  obtain rfl : signature' = signature := Option.some_inj.mp (hsignature'.symm.trans hsignature)
  by_contra hne
  have hnot := hkeys _ _ _ _ hne hkey' hkey _ _ hverify'
  cases hverify.symm.trans hnot

end

/-- **When removals are authorised.**  For every state of the network, every
peer and every token: if the tokens that pass the receiver's checks name the
owner of the node they find, every removal has the owner's signature; and if no
signature is good for two peers, only then. -/
theorem removesOnlyAuthorised_iff (iso : IsoReader) (cfg : EngineConfig) (net : Network S)
    (amb : Ambient) (p : Peer S) (token : DeletionToken) :
    (NamesOwner iso cfg net amb p token → RemovesOnlyAuthorised iso cfg net amb p token) ∧
      (net.KeysSeparate →
        (RemovesOnlyAuthorised iso cfg net amb p token ↔ NamesOwner iso cfg net amb p token)) :=
  ⟨removesOnlyAuthorised_of_namesOwner, fun hkeys =>
    ⟨namesOwner_of_removesOnlyAuthorised hkeys, removesOnlyAuthorised_of_namesOwner⟩⟩

/-! ## A stranger's token -/

/-- Alice has sent a document to bob. -/
def shared : Network .tagged :=
  (trio.createAndSend noon "alice" "budget" ["bob"]).deliver isoReader .default noon 0

/-- A token for alice's node that mallory made and signed. -/
def strangersToken : DeletionToken :=
  .signed .tagged (3 : UInt8) memo.nodeHash "mallory" "0" noon.now

/-- Bob, with the node in the storage. -/
def bob : Peer .tagged :=
  ⟨"bob", (2 : UInt8), true, InMemoryStorage.empty.receiveNode memo "budget", []⟩

theorem shared_spec :
    shared.findPeer "bob" = some bob ∧ shared.findKey "alice" = some (1 : UInt8) := by
  rw [shared, deliver_cocData (i := 0) rfl rfl .sorted signature_memo rfl]
  exact ⟨(findPeer_setPeer _ _ _).trans (if_pos rfl), rfl⟩

/-- Alice's node is in bob's storage; mallory's token, which does not verify
under alice's key, removes it. -/
theorem removesOnlyAuthorised_fails :
    ∃ p, shared.findPeer "bob" = some p ∧
      ¬ RemovesOnlyAuthorised isoReader .default shared noon p strangersToken := by
  have hstored : bob.storage.getNode memo.nodeHash = some memo := getNode_addNode_self _ _
  have hremoved : (shared.runToken isoReader .default noon bob strangersToken).storage.getNode
      memo.nodeHash = none := by decide +kernel
  have hrejects : (hexDecode strangersToken.signature).all (fun signature =>
      !SignatureScheme.tagged.verify (1 : UInt8) (encodeUtf8 strangersToken.signingData) signature)
        = true := by decide +kernel
  refine ⟨bob, shared_spec.1, fun hremoves => ?_⟩
  obtain ⟨key, hkey, signature, hsignature, hverify⟩ := hremoves _ memo hstored hremoved
  obtain rfl : (1 : UInt8) = key := Option.some_inj.mp (shared_spec.2.symm.trans hkey)
  rw [hsignature, Option.all_some, hverify] at hrejects
  cases hrejects

end Network

end TrustFlow.Custody
