import TrustFlow.Custody.Network

/-!
# Runs of honest peers

Peers that are always online create roots, forward nodes they store, and
receive what they are sent, in any order of delivery.

* `share`, `shareAll` — one action, and a run.
* `created` — the nodes made in a run.
* `ShareInv` — what holds throughout: every stored node is a copy of a created
  one, what is in flight are created nodes, no token was processed, and every
  stored content belongs to a stored node.  It needs that a hash stands for one
  record (`OneRecord`).
-/

namespace TrustFlow.Custody

open Library List InMemoryStorage Option

/-- What an honest peer does, and the delivery of a message in flight. -/
inductive ShareAction where
  | create (id content : Str) (recipientIds : List Str)
  | forward (id parentHash : Str) (recipientIds : List Str) (contentFor : Str → Str)
  | deliver (i : ℕ)

/-- A hash stands for one record. -/
def OneRecord (C : List CoCNode) : Prop :=
  ∀ n ∈ C, ∀ n' ∈ C, n.nodeHash = n'.nodeHash → n.SameRecord n'

namespace Network

variable {S : SignatureScheme}

section

variable (iso : IsoReader) (cfg : EngineConfig)

/-- One action. -/
def share (net : Network S) (step : Ambient × ShareAction) : Network S :=
  match step.2 with
  | .create id content recipientIds => net.createAndSend step.1 id content recipientIds
  | .forward id parentHash recipientIds contentFor =>
    net.forwardAndSend step.1 id parentHash recipientIds contentFor
  | .deliver i => net.deliver iso cfg step.1 i

/-- A run. -/
def shareAll (net : Network S) (steps : List (Ambient × ShareAction)) : Network S :=
  steps.foldl (share iso cfg) net

/-- The node that an action makes. -/
def createdBy (net : Network S) (step : Ambient × ShareAction) : Option CoCNode :=
  match step.2 with
  | .create id content recipientIds =>
    (net.findPeer id).map fun p => (net.createCocRoot step.1 p content recipientIds).2
  | .forward id parentHash recipientIds _ =>
    (net.findPeer id).bind fun p => (p.storage.getNode parentHash).map fun parent =>
      (net.forwardCocMessage step.1 p parent recipientIds).2
  | .deliver _ => none

/-- The nodes made in a run. -/
def created (net : Network S) : List (Ambient × ShareAction) → List CoCNode
  | [] => []
  | step :: steps => (net.createdBy step).toList ++ created (net.share iso cfg step) steps

end

/-- The message brings a node of `C`. -/
def Brings (C : List CoCNode) (msg : Message) : Prop :=
  ∃ (order : SetOrder) (node : CoCNode) (content : Str),
    msg.body = .cocData (node.toDict order) content ∧ node.signature ≠ some [] ∧
      ∃ m ∈ C, node.SameRecord m

/-- The invariant of a run. -/
structure ShareInv (C : List CoCNode) (net : Network S) : Prop where
  online : net.AllOnline
  unprocessed : net.processedTokens = .empty
  stored : ∀ id s, net.storageOf id = some s → ∀ h n, s.getNode h = some n → ∃ m ∈ C, n.SameRecord m
  flight : ∀ msg ∈ net.inFlight, Brings C msg
  referenced : ∀ id s, net.storageOf id = some s → s.Referenced

section

variable {iso : IsoReader} {cfg : EngineConfig} {C : List CoCNode} {net : Network S}

theorem shareInv_start (peers : List (Str × S.SigningKey)) : ShareInv C (start peers) := by
  have hjoin : ∀ net : Network S, ShareInv C net → ∀ id key, ShareInv C (net.addPeer id key) := by
    intro net hinv id key
    have hstorage : ∀ id' s, (net.addPeer id key).storageOf id' = some s →
        s = .empty ∨ net.storageOf id' = some s := by
      intro id' s hs
      rw [addPeer, storageOf_setPeer] at hs
      split at hs
      · exact .inl (some_inj.mp hs).symm
      · exact .inr hs
    refine ⟨hinv.online.setPeer rfl, hinv.unprocessed, ?_, hinv.flight, ?_⟩
    · intro id' s hs h n hn
      rcases hstorage id' s hs with rfl | hs
      · cases hn
      · exact hinv.stored id' s hs h n hn
    · intro id' s hs
      rcases hstorage id' s hs with rfl | hs
      · exact referenced_empty
      · exact hinv.referenced id' s hs
  have hempty : ShareInv C (empty : Network S) := by
    refine ⟨?_, rfl, ?_, ?_, ?_⟩
    · rintro id p ⟨⟩
    · rintro id s ⟨⟩
    · rintro msg ⟨⟩
    · rintro id s ⟨⟩
  suffices ∀ net : Network S, ShareInv C net →
      ShareInv C (peers.foldl (fun net p => net.addPeer p.1 p.2) net) from this _ hempty
  induction peers with
  | nil => exact fun net hinv => hinv
  | cons p peers ih => exact fun net hinv => ih _ (hjoin net hinv p.1 p.2)

variable {s : InMemoryStorage} {id h content : Str} {recipientIds : List Str} {amb : Ambient}

/-- A peer gets a new storage, all of whose records are made in the run. -/
theorem shareInv_setPeer (hinv : ShareInv C net) {p : Peer S} (hp : net.findPeer p.peerId = some p)
    (hstored : ∀ h n, s.getNode h = some n → ∃ m ∈ C, n.SameRecord m) (hreferenced : s.Referenced) :
    ShareInv C (net.setPeer { p with storage := s }) := by
  have hstorage : ∀ id s', (net.setPeer { p with storage := s }).storageOf id = some s' →
      s' = s ∨ net.storageOf id = some s' := by
    intro id s' hs'
    rw [storageOf_setPeer] at hs'
    split at hs'
    · exact .inl (some_inj.mp hs').symm
    · exact .inr hs'
  refine ⟨hinv.online.setPeer (hinv.online _ p hp), hinv.unprocessed, ?_, hinv.flight, ?_⟩
  · intro id s' hs'
    rcases hstorage id s' hs' with rfl | hs'
    · exact hstored
    · exact hinv.stored id s' hs'
  · intro id s' hs'
    rcases hstorage id s' hs' with rfl | hs'
    · exact hreferenced
    · exact hinv.referenced id s' hs'

theorem shareInv_sendAll (hinv : ShareInv C net) (now : Instant) {msgs : List Message}
    (hmsgs : ∀ msg ∈ msgs, Brings C msg) : ShareInv C (net.sendAll now msgs) := by
  have hsame := samePeers_sendAll net now msgs
  refine ⟨hinv.online.of_samePeers hsame, ?_, ?_, ?_, ?_⟩
  · rw [processedTokens_sendAll]
    exact hinv.unprocessed
  · intro id s hs
    rw [hsame.storageOf_eq] at hs
    exact hinv.stored id s hs
  · intro msg hmsg
    rw [inFlight_sendAll hinv.online] at hmsg
    rcases mem_append.mp hmsg with hmsg | hmsg
    · exact hinv.flight msg hmsg
    · exact hmsgs msg (mem_of_mem_filter hmsg)
  · intro id s hs
    rw [hsame.storageOf_eq] at hs
    exact hinv.referenced id s hs

/-! ## One action -/

/-- Two copies of a node are copies of one record, whichever peers hold them and
whichever states of the run they are taken from. -/
theorem sameRecord_of_nodeAt {net' : Network S} (hC : OneRecord C) (hinv : ShareInv C net)
    (hinv' : ShareInv C net') {id' : Str} {n n' : CoCNode} (hn : net.nodeAt id h = some n)
    (hn' : net'.nodeAt id' h = some n') : n.SameRecord n' := by
  obtain ⟨s, hs, hn⟩ := bind_eq_some_iff.mp hn
  obtain ⟨s', hs', hn'⟩ := bind_eq_some_iff.mp hn'
  obtain ⟨m, hm, hrecord⟩ := hinv.stored id s hs h n hn
  obtain ⟨m', hm', hrecord'⟩ := hinv'.stored id' s' hs' h n' hn'
  have hhash : m.nodeHash = m'.nodeHash := by
    rw [← hrecord.nodeHash, ← hrecord'.nodeHash, nodeHash_of_getNode hn, nodeHash_of_getNode hn']
  exact hrecord.trans ((hC m hm m' hm' hhash).trans hrecord'.symm)

/-- A node of `C` that comes to a storage agrees with what is stored there. -/
theorem contentHash_of_stored (hC : OneRecord C)
    (hstored : ∀ h n, s.getNode h = some n → ∃ m ∈ C, n.SameRecord m) {node m : CoCNode}
    (hm : m ∈ C) (hnode : node.SameRecord m) {n : CoCNode} (hn : s.getNode node.nodeHash = some n) :
    n.contentHash = node.contentHash := by
  obtain ⟨m', hm', hrecord⟩ := hstored _ n hn
  have hhash : m'.nodeHash = m.nodeHash := by
    rw [← hrecord.nodeHash, ← hnode.nodeHash, nodeHash_of_getNode hn]
  rw [hrecord.contentHash, (hC m' hm' m hm hhash).contentHash, hnode.contentHash]

theorem brings_dataMessages {order : SetOrder} {senderId : Str} {node : CoCNode}
    {contentFor : Str → Str} (hnode : node ∈ C) (hsigned : node.signature ≠ some []) :
    ∀ msg ∈ dataMessages order senderId recipientIds node contentFor, Brings C msg := by
  intro msg hmsg
  obtain ⟨recipientId, -, rfl⟩ := mem_map.mp hmsg
  exact ⟨order, node, contentFor recipientId, rfl, hsigned, node, hnode, .refl node⟩

theorem shareInv_createAndSend (hC : OneRecord C) (hinv : ShareInv C net)
    (hcreated : ∀ n, net.createdBy (amb, .create id content recipientIds) = some n → n ∈ C) :
    ShareInv C (net.createAndSend amb id content recipientIds) := by
  rw [createAndSend]
  cases hp : net.findPeer id with
  | none => exact hinv
  | some p =>
    have hid := peerId_of_findPeer hp
    obtain ⟨node, hnode⟩ : ∃ node, node = CoCNode.new S (hashContent content) p.peerId
        p.signingKey recipientIds none amb.now := ⟨_, rfl⟩
    have hmem : node ∈ C := by
      apply hcreated
      show (net.findPeer id).map _ = some node
      rw [hp, hnode, map_some, createCocRoot]
    have hsigned : node.signature ≠ some [] := fun h =>
      S.sign_ne_nil _ _ (some_inj.mp (hnode ▸ h))
    have hstored := hinv.stored id p.storage (storageOf_of_findPeer hp)
    have hold : ∀ n, p.storage.getNode node.nodeHash = some n → n.contentHash = node.contentHash :=
      fun n => contentHash_of_stored hC hstored hmem (.refl node)
    show ShareInv C (sendAll (net.setPeer { p with storage := (p.storage.addNode
      (.new S _ p.peerId p.signingKey recipientIds none amb.now)).addContent _ content }) _
        (dataMessages _ _ _ (.new S _ p.peerId p.signingKey recipientIds none amb.now) _))
    rw [← hnode]
    refine shareInv_sendAll ?_ amb.now (brings_dataMessages hmem hsigned)
    refine shareInv_setPeer hinv (hid.symm ▸ hp) ?_ ?_
    · intro h n hn
      rw [getNode_addContent, getNode_addNode] at hn
      split at hn
      · exact ⟨node, hmem, some_inj.mp hn ▸ .refl node⟩
      · exact hstored h n hn
    · refine ((hinv.referenced id p.storage (storageOf_of_findPeer hp)).addNode hold).addContent
        (getNode_addNode_self _ node) ?_ content
      rw [hnode, CoCNode.contentHash_new]

theorem shareInv_forwardAndSend (hC : OneRecord C) (hinv : ShareInv C net) {parentHash : Str}
    {contentFor : Str → Str}
    (hcreated : ∀ n, net.createdBy (amb, .forward id parentHash recipientIds contentFor) = some n →
      n ∈ C) : ShareInv C (net.forwardAndSend amb id parentHash recipientIds contentFor) := by
  rw [forwardAndSend]
  cases hp : net.findPeer id with
  | none => exact hinv
  | some p =>
    dsimp only
    cases hparent : p.storage.getNode parentHash with
    | none => exact hinv
    | some parent =>
      have hid := peerId_of_findPeer hp
      obtain ⟨child, hchild⟩ :
          ∃ child, child = (net.forwardCocMessage amb p parent recipientIds).2 := ⟨_, rfl⟩
      have hmem : child ∈ C := by
        apply hcreated
        show (net.findPeer id).bind _ = some child
        rw [hp, bind_some, hparent, map_some, hchild]
      have hsigned : child.signature ≠ some [] := fun h =>
        S.sign_ne_nil _ _ (some_inj.mp (hchild ▸ h))
      have hstored := hinv.stored id p.storage (storageOf_of_findPeer hp)
      have hold : ∀ n, p.storage.getNode child.nodeHash = some n →
          n.contentHash = child.contentHash :=
        fun n => contentHash_of_stored hC hstored hmem (.refl child)
      have hadded : ∀ h n, (p.storage.addNode child).getNode h = some n →
          ∃ m ∈ C, n.SameRecord m := by
        intro h n hn
        rw [getNode_addNode] at hn
        split at hn
        · exact ⟨child, hmem, some_inj.mp hn ▸ .refl child⟩
        · exact hstored h n hn
      obtain ⟨m, hm, hrecord⟩ := hstored parentHash parent hparent
      have hlinked : (parent.withChild child.nodeHash).SameRecord m :=
        (CoCNode.SameRecord.withChild _ _).trans hrecord
      refine shareInv_sendAll ?_ amb.now (hchild ▸ brings_dataMessages hmem hsigned)
      rw [forwardCocMessage] at hchild ⊢
      dsimp only at hchild ⊢
      rw [← hchild]
      refine shareInv_setPeer hinv (hid.symm ▸ hp) ?_ ?_
      · intro h n hn
        rw [getNode_addNode] at hn
        split at hn
        · exact ⟨m, hm, some_inj.mp hn ▸ hlinked⟩
        · exact hadded h n hn
      · exact ((hinv.referenced id p.storage (storageOf_of_findPeer hp)).addNode hold).addNode
          fun n hn => contentHash_of_stored hC hadded hm hlinked hn

theorem shareInv_deliver (hC : OneRecord C) (hinv : ShareInv C net) (amb : Ambient) (i : ℕ) :
    ShareInv C (net.deliver iso cfg amb i) := by
  cases hmsg : net.inFlight[i]? with
  | none =>
    rw [deliver, hmsg]
    exact hinv
  | some msg =>
    have herased : ShareInv C { net with inFlight := net.inFlight.eraseIdx i } :=
      ⟨hinv.online, hinv.unprocessed, hinv.stored,
        fun msg hmsg => hinv.flight msg (mem_of_mem_eraseIdx hmsg), hinv.referenced⟩
    obtain ⟨order, node, content, hbody, hsigned, m, hm, hrecord⟩ :=
      hinv.flight msg (mem_of_getElem? hmsg)
    cases hp : net.findPeer msg.recipientId with
    | none =>
      rw [deliver_of_absent hmsg hp]
      exact herased
    | some p =>
      rw [deliver_cocData hmsg hp order hsigned hbody]
      have hid := peerId_of_findPeer hp
      have hstored := hinv.stored _ p.storage (storageOf_of_findPeer hp)
      refine shareInv_setPeer herased (hid.symm ▸ hp) ?_ ?_
      · intro h n hn
        rcases getNode_receiveNode hn with ⟨-, hsame⟩ | ⟨-, n', hn', hsame⟩
        · exact ⟨m, hm, hsame.trans hrecord⟩
        · obtain ⟨m', hm', hrecord'⟩ := hstored h n' hn'
          exact ⟨m', hm', hsame.trans hrecord'⟩
      · exact (hinv.referenced _ _ (storageOf_of_findPeer hp)).receiveNode
          (fun n hn => contentHash_of_stored hC hstored hm hrecord hn) content

variable (iso cfg) in
/-- **Every action keeps the invariant.** -/
theorem shareInv_share (hC : OneRecord C) (hinv : ShareInv C net) (step : Ambient × ShareAction)
    (hcreated : ∀ n, net.createdBy step = some n → n ∈ C) :
    ShareInv C (net.share iso cfg step) := by
  obtain ⟨amb, action⟩ := step
  cases action with
  | create id content recipientIds => exact shareInv_createAndSend hC hinv hcreated
  | forward id parentHash recipientIds contentFor =>
    exact shareInv_forwardAndSend hC hinv hcreated
  | deliver i => exact shareInv_deliver hC hinv amb i

/-! ## Nothing is lost -/

theorem isSome_nodeAt_setPeer {p : Peer S} (hp : net.findPeer p.peerId = some p)
    (hgrows : ∀ h, (p.storage.getNode h).isSome → (s.getNode h).isSome)
    (hsome : (net.nodeAt id h).isSome) :
    ((net.setPeer { p with storage := s }).nodeAt id h).isSome := by
  rw [nodeAt, storageOf_setPeer]
  by_cases hid : p.peerId = id
  · rw [if_pos hid, bind_some]
    rw [nodeAt, ← hid, storageOf_of_findPeer hp, bind_some] at hsome
    exact hgrows h hsome
  · rw [if_neg hid]
    exact hsome

theorem isSome_nodeAt_sendAll {now : Instant} {msgs : List Message}
    (hsome : (net.nodeAt id h).isSome) : ((net.sendAll now msgs).nodeAt id h).isSome := by
  rw [(samePeers_sendAll net now msgs).nodeAt_eq]
  exact hsome

/-- **No action removes a node.** -/
theorem isSome_nodeAt_share (hinv : ShareInv C net) (step : Ambient × ShareAction)
    (hsome : (net.nodeAt id h).isSome) : ((net.share iso cfg step).nodeAt id h).isSome := by
  have hadd : ∀ (s : InMemoryStorage) (n : CoCNode) (h : Str), (s.getNode h).isSome →
      ((s.addNode n).getNode h).isSome := by
    intro s n h hs
    rw [getNode_addNode]
    split
    · rfl
    · exact hs
  obtain ⟨amb, action⟩ := step
  cases action with
  | create creator content recipientIds =>
    show ((net.createAndSend amb creator content recipientIds).nodeAt id h).isSome
    rw [createAndSend]
    cases hp : net.findPeer creator with
    | none => exact hsome
    | some p =>
      have hp' := (peerId_of_findPeer hp).symm ▸ hp
      refine isSome_nodeAt_sendAll (isSome_nodeAt_setPeer hp' ?_ hsome)
      intro h hs
      rw [getNode_addContent]
      exact hadd _ _ h hs
  | forward forwarder parentHash recipientIds contentFor =>
    show ((net.forwardAndSend amb forwarder parentHash recipientIds contentFor).nodeAt id h).isSome
    rw [forwardAndSend]
    cases hp : net.findPeer forwarder with
    | none => exact hsome
    | some p =>
      dsimp only
      cases p.storage.getNode parentHash with
      | none => exact hsome
      | some parent =>
        have hp' := (peerId_of_findPeer hp).symm ▸ hp
        exact isSome_nodeAt_sendAll
          (isSome_nodeAt_setPeer hp' (fun h hs => hadd _ _ h (hadd _ _ h hs)) hsome)
  | deliver i =>
    show ((net.deliver iso cfg amb i).nodeAt id h).isSome
    cases hmsg : net.inFlight[i]? with
    | none =>
      rw [deliver, hmsg]
      exact hsome
    | some msg =>
      obtain ⟨order, node, content, hbody, hsigned, -⟩ :=
        hinv.flight msg (mem_of_getElem? hmsg)
      cases hp : net.findPeer msg.recipientId with
      | none =>
        rw [deliver_of_absent hmsg hp]
        exact hsome
      | some p =>
        rw [deliver_cocData hmsg hp order hsigned hbody]
        refine isSome_nodeAt_setPeer ((peerId_of_findPeer hp).symm ▸ hp) ?_ hsome
        intro h hs
        rw [isSome_receiveNode, hs, Bool.or_true]

variable (iso cfg) in
/-- A new root is in the storage of its creator. -/
theorem nodeAt_of_create {creator : Str} {root : CoCNode}
    (hroot : net.createdBy (amb, .create creator content recipientIds) = some root) :
    (net.share iso cfg (amb, .create creator content recipientIds)).nodeAt creator root.nodeHash
        = some root ∧ root.ownerId = creator := by
  obtain ⟨p, hp, rfl⟩ := map_eq_some_iff.mp hroot
  have hid := peerId_of_findPeer hp
  refine ⟨?_, hid⟩
  show (net.createAndSend amb creator content recipientIds).nodeAt creator _ = _
  rw [createAndSend, hp]
  dsimp only
  rw [(samePeers_sendAll _ _ _).nodeAt_eq, nodeAt, createCocRoot]
  dsimp only
  rw [storageOf_setPeer, if_pos hid, bind_some, getNode_addContent]
  exact getNode_addNode_self _ _

/-! ## Runs -/

theorem created_append (steps steps' : List (Ambient × ShareAction)) :
    net.created iso cfg (steps ++ steps')
      = net.created iso cfg steps ++ (net.shareAll iso cfg steps).created iso cfg steps' := by
  induction steps generalizing net with
  | nil => rfl
  | cons step steps ih =>
    rw [cons_append, created, created, ih, append_assoc]
    rfl

/-- **A run keeps the invariant and every stored node.** -/
theorem shareInv_shareAll (hC : OneRecord C) (steps : List (Ambient × ShareAction))
    (hinv : ShareInv C net) (hcreated : ∀ n ∈ net.created iso cfg steps, n ∈ C) :
    ShareInv C (net.shareAll iso cfg steps) ∧ ∀ id h, (net.nodeAt id h).isSome →
      ((net.shareAll iso cfg steps).nodeAt id h).isSome := by
  induction steps generalizing net with
  | nil => exact ⟨hinv, fun _ _ hsome => hsome⟩
  | cons step steps ih =>
    have hfirst : ∀ n, net.createdBy step = some n → n ∈ C := fun n hn =>
      hcreated n (mem_append_left _ (mem_toList.mpr hn))
    obtain ⟨hend, hkeeps⟩ := ih (shareInv_share iso cfg hC hinv step hfirst) fun n hn =>
      hcreated n (mem_append_right _ hn)
    exact ⟨hend, fun id h hsome => hkeeps id h (isSome_nodeAt_share hinv step hsome)⟩

/-- **A root stays with its creator**, whatever is shared before and after. -/
theorem nodeAt_of_created (hC : OneRecord C) (hinv : ShareInv C net)
    {before after : List (Ambient × ShareAction)} {creator : Str} {root : CoCNode}
    (hcreated : ∀ n ∈ net.created iso cfg
      (before ++ (amb, .create creator content recipientIds) :: after), n ∈ C)
    (hroot : (net.shareAll iso cfg before).createdBy (amb, .create creator content recipientIds)
      = some root) :
    ∃ n, (net.shareAll iso cfg
        (before ++ (amb, .create creator content recipientIds) :: after)).nodeAt
          creator root.nodeHash = some n ∧ n.SameRecord root ∧ n.ownerId = creator := by
  rw [created_append] at hcreated
  have hbefore := (shareInv_shareAll hC before hinv fun n hn =>
    hcreated n (mem_append_left _ hn)).1
  have hmem : root ∈ C := hcreated root
    (mem_append_right _ (mem_append_left _ (mem_toList.mpr hroot)))
  have hthen := shareInv_share iso cfg hC hbefore
    (amb, .create creator content recipientIds) fun n hn =>
      hcreated n (mem_append_right _ (mem_append_left _ (mem_toList.mpr hn)))
  obtain ⟨hafter, hkeeps⟩ := shareInv_shareAll hC after hthen fun n hn =>
    hcreated n (mem_append_right _ (mem_append_right _ hn))
  obtain ⟨hstored, howner⟩ := nodeAt_of_create iso cfg hroot
  obtain ⟨n, hn⟩ := isSome_iff_exists.mp (hkeeps creator root.nodeHash (hstored ▸ isSome_some))
  have hsame := sameRecord_of_nodeAt hC hafter hthen hn hstored
  rw [shareAll, foldl_append]
  exact ⟨n, hn, hsame, hsame.ownerId.trans howner⟩

end

end Network

end TrustFlow.Custody
