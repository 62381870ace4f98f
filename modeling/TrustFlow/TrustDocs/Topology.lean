import TrustFlow.TrustDocs.Trace

/-!
# The share tree of a document

The custody nodes of a document after any history of requests about it.

* `ShareEvent`, `shareEvents` — who shared with whom, from which node, in a history of
  requests.
* `Uploaded` — a document as its upload leaves it.
* `Grown` — **the custody nodes of a document are its root and one node for each share**.
* `Grown.handle`, `Grown.serve` — so it stays with every request, and over every history.

A step is one request about the document.  A share request that passes its checks is an
event: it adds one node, below the node that is passed on, and records the recipient.
Every other request of a history leaves the nodes alone.  That the hash of a new node is
not in use yet is assumed with each request (`Orderly`), as SHA-256 is not injective.
-/

namespace TrustFlow.TrustDocs

open Library Custody Stegano List CocStore Option

/-- A share, as it is entered into the custody nodes: the node that is passed on, the new one
below it, and the peers. -/
structure ShareEvent where
  parent : Str
  child : Str
  sharer : Str
  recipient : Str
  deriving DecidableEq

/-- The document that a request is about. -/
def Request.about : Request → Option Uuid
  | .upload .. => none
  | .get documentId => some documentId
  | .download documentId => some documentId
  | .trace documentId => some documentId
  | .share documentId _ => some documentId
  | .revoke documentId _ => some documentId
  | .delete documentId => some documentId
  | .restore documentId _ => some documentId
  | .purge documentId => some documentId

namespace Server

variable {S : SignatureScheme} {words : WordClass}

/-! ## Histories -/

section

variable (words) (server : Server S)

/-- The share that a request enters, if it passes its checks. -/
def shareEvent (call : Call) : Option ShareEvent :=
  match call.request with
  | .share documentId recipientUsername =>
    match server.checkShare call.amb call.user documentId recipientUsername with
    | .error _ => none
    | .ok (doc, share, recipient) =>
      let parentHash := (share.map FileShare.childCocNodeHash).getD doc.cocNodeHash
      match server.parentNode call.amb call.user doc parentHash with
      | .error _ => none
      | .ok (server, parent) =>
        (server.files.get? (sourceFile call.user doc share)).map fun bytes =>
          let (_, child, _) := server.forwardNode words call.amb call.user parent
            recipient.peerId (readText bytes)
          ⟨parentHash, child.nodeHash, call.user.peerId, recipient.peerId⟩
  | _ => none

/-- The shares of a history. -/
def shareEvents (server : Server S) : List Call → List ShareEvent
  | [] => []
  | call :: calls =>
    (server.shareEvent words call).toList
      ++ shareEvents (server.handle words call).1 calls

/-- A request of a user about the document; the hash of a node that it adds is new. -/
structure Orderly (documentId : Uuid) (server : Server S) (call : Call) : Prop where
  about : call.request.about = some documentId
  user : call.user ∈ server.users
  fresh : ∀ e ∈ server.shareEvent words call, server.coc.nodes.get? e.child = none

/-- The requests of a history, one after the other, about one document. -/
def History (documentId : Uuid) (server : Server S) (calls : List Call) : Prop :=
  Along (fun server call => (server.handle words call).1) (Orderly words documentId)
    server calls

end

/-- The tables fit together: users have ids of their own, signatures are read, and recipients
and parents are those of stored nodes and are stored nodes. -/
structure Consistent (server : Server S) : Prop where
  users : (server.users.map User.id).Nodup
  readable : server.coc.Readable
  linked : server.coc.Linked
  parents : ∀ nodeHash row parent, server.coc.nodes.get? nodeHash = some row →
    row.parentHash = some parent → (server.coc.nodes.get? parent).isSome = true

/-- A document as its upload leaves it, among others: a root without parent, children,
recipients and shares. -/
structure Uploaded (server : Server S) (doc : Document) : Prop extends Consistent server where
  document : server.document doc.id = some doc
  root : ∃ row, server.coc.nodes.get? doc.cocNodeHash = some row ∧ row.parentHash = none
  noChildren : server.coc.childrenOf doc.cocNodeHash = []
  noRecipients : server.coc.recorded doc.cocNodeHash = []
  unshared : ∀ share ∈ server.fileShares.rows, share.documentId ≠ doc.id

/-- The hash is the root's, or that of a share. -/
def InTree (doc : Document) (events : List ShareEvent) (nodeHash : Str) : Prop :=
  nodeHash = doc.cocNodeHash ∨ ∃ e ∈ events, e.child = nodeHash

/-- The node that a share passes on is the owner's root, or was shared with the sharer. -/
def Passes (base : Server S) (doc : Document) (events : List ShareEvent) (e : ShareEvent) : Prop :=
  (e.parent = doc.cocNodeHash ∧
      ∃ owner ∈ base.users, owner.id = doc.ownerId ∧ owner.peerId = e.sharer) ∨
    ∃ f ∈ events, f.child = e.parent ∧ f.recipient = e.sharer

/-- The row of a share. -/
structure RowOf (store : CocStore) (e : ShareEvent) (row : NodeRow) : Prop where
  stored : store.nodes.get? e.child = some row
  parentHash : row.parentHash = some e.parent
  ownerPeerId : row.ownerPeerId = e.sharer
  schemaVersion : row.schemaVersion = CoCNode.currentSchema
  depth : ∃ parent, store.nodes.get? e.parent = some parent ∧ row.depth = parent.depth + 1

/-- **The custody nodes of a document after some shares**: those of the start, and one for
each share. -/
structure Grown (base : Server S) (doc : Document) (events : List ShareEvent) (server : Server S) :
    Prop where
  users : server.users = base.users
  document : ∃ status, server.document doc.id = some { doc with status := status }
  readable : server.coc.Readable
  linked : server.coc.Linked
  old : ∀ nodeHash row, base.coc.nodes.get? nodeHash = some row →
    server.coc.nodes.get? nodeHash = some row
  origin : ∀ nodeHash row, server.coc.nodes.get? nodeHash = some row →
    base.coc.nodes.get? nodeHash = some row ∨ ∃ e ∈ events, e.child = nodeHash
  fresh : ∀ e ∈ events, base.coc.nodes.get? e.child = none
  nodup : (events.map ShareEvent.child).Nodup
  row : ∀ e ∈ events, ∃ row, RowOf server.coc e row
  chain : ∀ e ∈ events, Passes base doc events e
  reached : ∀ e ∈ events, AtOrBelow server.coc.childrenOf doc.cocNodeHash e.child
  recorded : ∀ nodeHash, InTree doc events nodeHash → (server.coc.recorded nodeHash).Nodup ∧
    ∀ peerId, peerId ∈ server.coc.recorded nodeHash ↔
      ∃ e ∈ events, e.recipient = peerId ∧ (e.child = nodeHash ∨ e.parent = nodeHash)
  holder : ∀ share ∈ server.fileShares.rows, share.documentId = doc.id →
    ∃ e ∈ events, e.child = share.childCocNodeHash ∧
      ∃ user ∈ server.users, user.id = share.recipientId ∧ user.peerId = e.recipient

variable {base server : Server S} {doc : Document} {events : List ShareEvent}

variable {amb : Ambient} {user : User} {e : ShareEvent} {call : Call}

/-- **An upload** with a new id and a new hash leaves a document like that. -/
theorem Consistent.upload (h : Consistent server) {owner : User} {filename mimeType : Str}
    {content : Bytes}
    (hreply : (server.uploadDocument amb owner filename mimeType content).2 = .ok doc)
    (hnew : server.coc.nodes.get? doc.cocNodeHash = none)
    (hunshared : ∀ share ∈ server.fileShares.rows, share.documentId ≠ doc.id) :
    Uploaded (server.uploadDocument amb owner filename mimeType content).1 doc := by
  unfold uploadDocument at hreply ⊢
  split at hreply
  · cases hreply
  rename_i hsize
  rw [if_neg hsize]
  dsimp only at hreply ⊢
  split at hreply
  · cases hreply
  rename_i documents hinsert
  obtain rfl := Except.ok.inj hreply
  generalize hnode : CoCNode.new S (hashContent (decodeReplace content)) owner.peerId
    server.systemSigningKey [] none amb.now = node at hinsert hnew ⊢
  have hparent : node.parentHash = none := hnode ▸ rfl
  have hrecipients : node.recipientIds = [] := hnode ▸ rfl
  have hcoc : (server.coc.addNode node).recipients = server.coc.recipients := by
    rw [addNode_eq, hrecipients]
    rfl
  have hget := CocStore.get?_addNode hnew
  have hkept : ∀ k, (server.coc.nodes.get? k).isSome →
      ((server.coc.addNode node).nodes.get? k).isSome := by
    intro k hk
    rw [hget]
    split
    · rfl
    · exact hk
  have hold : ∀ {k row parent}, (server.coc.addNode node).nodes.get? k = some row →
      row.parentHash = some parent → server.coc.nodes.get? k = some row := by
    intro k row parent hrow hsome
    rw [hget] at hrow
    split at hrow
    · rw [← some.inj hrow] at hsome
      cases hparent.symm.trans hsome
    · exact hrow
  exact
    { users := h.users
      readable := h.readable.addNode node
      linked := fun entry hentry => hkept _ (h.linked entry (hcoc ▸ hentry))
      parents := fun k row parent hrow hsome => hkept _ (h.parents k row _ (hold hrow hsome) hsome)
      document := Table.get?_eq_some_iff.mpr ⟨(Table.mem_of_insert? hinsert).mpr (.inr rfl), rfl⟩
      root := ⟨_, (hget _).trans (if_pos rfl), hparent⟩
      noChildren := by
        refine eq_nil_iff_forall_not_mem.mpr fun child hmem => ?_
        obtain ⟨row, hrow, hsome⟩ := mem_childrenOf.mp hmem
        cases hnew ▸ h.parents child row _ (hold hrow hsome) hsome
      noRecipients := by
        rw [(recorded_addNode node).1, hrecipients]
        exact ServiceRun.recorded_of_linked h.linked hnew
      unshared := hunshared }

/-- Nothing is shared at the start. -/
theorem Uploaded.grown (h : Uploaded base doc) : Grown base doc [] base where
  users := rfl
  document := ⟨doc.status, h.document⟩
  readable := h.readable
  linked := h.linked
  old _ _ hrow := hrow
  origin _ _ hrow := .inl hrow
  fresh e he := absurd he not_mem_nil
  nodup := nodup_nil
  row e he := absurd he not_mem_nil
  chain e he := absurd he not_mem_nil
  reached e he := absurd he not_mem_nil
  recorded nodeHash hin := by
    rcases hin with rfl | ⟨e, he, -⟩
    · rw [h.noRecipients]
      refine ⟨nodup_nil, fun peerId => iff_of_false not_mem_nil ?_⟩
      rintro ⟨e, he, -⟩
      exact not_mem_nil he
    · exact absurd he not_mem_nil
  holder share hshare hdocument := absurd hdocument (h.unshared share hshare)

namespace Grown

/-- The root and the nodes of the shares are stored. -/
theorem stored (h : Grown base doc events server) (hbase : Uploaded base doc) {nodeHash : Str}
    (hin : InTree doc events nodeHash) : ∃ row, server.coc.nodes.get? nodeHash = some row := by
  rcases hin with rfl | ⟨e, he, rfl⟩
  · obtain ⟨row, hrow, -⟩ := hbase.root
    exact ⟨row, h.old _ _ hrow⟩
  · obtain ⟨row, hrow⟩ := h.row e he
    exact ⟨row, hrow.stored⟩

/-- **The tree of the document** is the root and the nodes of the shares. -/
theorem atOrBelow_iff (h : Grown base doc events server) (hbase : Uploaded base doc)
    {nodeHash : Str} :
    AtOrBelow server.coc.childrenOf doc.cocNodeHash nodeHash ↔ InTree doc events nodeHash := by
  constructor
  · intro hbelow
    induction hbelow with
    | refl => exact .inl rfl
    | @tail parent child _ hstep ih =>
      obtain ⟨row, hrow, hparent⟩ := mem_childrenOf.mp hstep
      rcases h.origin child row hrow with hold | hnew
      · -- nothing of the start lies below the root or below a new node
        rcases ih with rfl | ⟨e, he, rfl⟩
        · have hmem := mem_childrenOf.mpr ⟨row, hold, hparent⟩
          rw [hbase.noChildren] at hmem
          exact absurd hmem not_mem_nil
        · have hstored := hbase.parents child row _ hold hparent
          rw [h.fresh e he] at hstored
          cases hstored
      · exact .inr hnew
  · rintro (rfl | ⟨e, he, rfl⟩)
    · exact .refl
    · exact h.reached e he

end Grown

/-! ## One request -/

theorem nodup_recordAll {recorded peers : List Str} (h : recorded.Nodup) :
    (recordAll recorded peers).Nodup := by
  induction peers generalizing recorded with
  | nil => exact h
  | cons peerId peers ih =>
    rw [recordAll, foldl_cons]
    split
    case isTrue => exact ih h
    case isFalse hnew =>
      refine ih (nodup_append'.mpr ⟨h, nodup_singleton peerId, ?_⟩)
      exact disjoint_singleton.mpr (mt contains_iff_mem.mpr hnew)

/-- What a share does to the server. -/
structure Forwards (base : Server S) (doc : Document) (events : List ShareEvent) (server : Server S)
    (e : ShareEvent) (child : CoCNode) (server' : Server S) : Prop where
  length : e.child.length = 64
  nodeHash : child.nodeHash = e.child
  parentHash : child.parentHash = some e.parent
  ownerId : child.ownerId = e.sharer
  recipientIds : child.recipientIds = [e.recipient]
  schemaVersion : child.schemaVersion = CoCNode.currentSchema
  depth : ∃ parent, server.coc.nodes.get? e.parent = some parent ∧ child.depth = parent.depth + 1
  chain : Passes base doc events e
  coc : server'.coc = (server.coc.addNode child).addRecipient e.parent e.recipient
  users : server'.users = server.users
  shares : ∀ share ∈ server'.fileShares.rows, share ∈ server.fileShares.rows ∨
    share.childCocNodeHash = e.child ∧
      ∃ user ∈ server.users, user.id = share.recipientId ∧ user.peerId = e.recipient

theorem Passes.inTree (h : Passes base doc events e) : InTree doc events e.parent := by
  rcases h with ⟨hroot, -⟩ | ⟨f, hf, hchild, -⟩
  · exact .inl hroot
  · exact .inr ⟨f, hf, hchild⟩

theorem Passes.mono (h : Passes base doc events e) {events' : List ShareEvent}
    (hsubset : events ⊆ events') : Passes base doc events' e := by
  refine h.imp_right ?_
  rintro ⟨f, hf, hrest⟩
  exact ⟨f, hsubset hf, hrest⟩

/-- What a user passes on is the root, or it was shared with them. -/
theorem Grown.passes (h : Grown base doc events server) (hbase : Uploaded base doc)
    {recipient : User} {found : Document} {share : Option FileShare} {recipientUsername : Str}
    (huser : user ∈ server.users)
    (hcheck : server.checkShare amb user doc.id recipientUsername = .ok (found, share, recipient))
    (hparent : e.parent = (share.map FileShare.childCocNodeHash).getD found.cocNodeHash)
    (hsharer : e.sharer = user.peerId) : Passes base doc events e := by
  obtain ⟨status, hdoc⟩ := h.document
  obtain ⟨hfound, howner, -⟩ := checkShare_ok hcheck
  obtain rfl := mem_unique hfound hdoc
  cases share with
  | none =>
    refine .inl ⟨hparent, user, h.users ▸ huser, (howner.mp rfl).symm, hsharer.symm⟩
  | some share =>
    obtain ⟨live, hlive, hrest⟩ := bind_eq_ok.mp hcheck
    obtain ⟨grant, hgrant, hrest⟩ := bind_eq_ok.mp hrest
    obtain rfl := some.inj ((liveDocument_ok hlive).1.symm.trans hdoc)
    have hshare : grant = some share := by
      split at hrest
      · cases hrest
      · split at hrest
        · cases hrest
        · split at hrest
          · cases hrest
          · exact (Prod.mk.inj (Prod.mk.inj (Except.ok.inj hrest)).2).1
    rw [hshare, grantFor] at hgrant
    split at hgrant
    · cases hgrant
    · split at hgrant
      · cases hgrant
      · rename_i held hheld
        obtain rfl := some.inj (Except.ok.inj hgrant)
        obtain ⟨hmem, hdocument, -, hrecipient⟩ := mem_of_activeShare hheld
        obtain ⟨f, hf, hchild, holder, hholder, hid, hpeer⟩ := h.holder held hmem hdocument
        rw [h.users] at huser hholder
        obtain rfl := inj_on_of_nodup_map hbase.users hholder huser (hid.trans hrecipient)
        exact .inr ⟨f, hf, hchild.trans hparent.symm, hpeer.symm.trans hsharer.symm⟩

/-- A stored node is passed on as it is. -/
theorem parentNode_of_stored {found : Document} {parentHash : Str} {row : NodeRow}
    (hcoc : server.coc.Readable) (hrow : server.coc.nodes.get? parentHash = some row) :
    ∃ parent, server.parentNode amb user found parentHash = .ok (server, parent) ∧
      parent.nodeHash = parentHash ∧ parent.depth = row.depth := by
  obtain ⟨parent, hparent, hread⟩ := hcoc.readAs hrow
  refine ⟨parent, ?_, hread.nodeHash.trans (Table.get?_eq_some_iff.mp hrow).2, hread.depth⟩
  rw [parentNode, hparent]

variable (words) in
/-- **A share request** enters its share, or leaves the custody nodes and the shares alone. -/
theorem Grown.share_request (h : Grown base doc events server) (hbase : Uploaded base doc)
    (amb : Ambient) (huser : user ∈ server.users) (recipientUsername : Str) :
    (server.shareEvent words ⟨amb, user, .share doc.id recipientUsername⟩ = none ∧
        (server.handle words ⟨amb, user, .share doc.id recipientUsername⟩).1 = server) ∨
      ∃ e child,
        server.shareEvent words ⟨amb, user, .share doc.id recipientUsername⟩ = some e ∧
          e.sharer = user.peerId ∧
          (∃ recipient, server.userByName recipientUsername = some recipient ∧
            recipient.peerId = e.recipient) ∧
          Forwards base doc events server e child
            (server.handle words ⟨amb, user, .share doc.id recipientUsername⟩).1 := by
  simp only [shareEvent, handle, shareDocument]
  cases hcheck : server.checkShare amb user doc.id recipientUsername with
  | error failure => exact .inl ⟨rfl, rfl⟩
  | ok checked =>
    obtain ⟨found, share, recipient⟩ := checked
    have hpasses : ∀ child recipient, Passes base doc events
        ⟨(share.map FileShare.childCocNodeHash).getD found.cocNodeHash, child, user.peerId,
          recipient⟩ :=
      fun child recipient => h.passes hbase huser hcheck rfl rfl
    obtain ⟨row, hrow⟩ := h.stored hbase (hpasses [] []).inTree
    obtain ⟨parent, hparent, hhash, hdepth⟩ : ∃ parent, server.parentNode amb user found _
      = .ok (server, parent) ∧ _ := parentNode_of_stored h.readable hrow
    dsimp only
    rw [hparent]
    dsimp only
    cases hfile : server.files.get? (sourceFile user found share) with
    | none => exact .inl ⟨rfl, rfl⟩
    | some bytes =>
      right
      dsimp only [map_some]
      have hname := (checkShare_ok hcheck).2.2
      have hrecipient : recipient ∈ server.users := mem_of_find?_eq_some hname
      refine ⟨_, _, rfl, rfl, ⟨recipient, hname, rfl⟩, length_sha256Hex _, rfl,
        congrArg some hhash, rfl, rfl, rfl, ⟨row, hrow, ?_⟩, hpasses _ _, ?_, ?_, ?_⟩
      · rw [← hdepth]
        rfl
      · split
        · rw [← hhash]
          rfl
        · rw [← hhash]
          rfl
      · split <;> rfl
      · intro new hnew
        split at hnew
        · exact .inl hnew
        · rename_i fileShares hinsert
          rcases (Table.mem_of_insert? hinsert).mp hnew with hold | rfl
          · exact .inl hold
          · exact .inr ⟨rfl, recipient, hrecipient, rfl, rfl⟩

namespace Forwards

variable {e : ShareEvent} {child : CoCNode} {server' : Server S}
  (h : Forwards base doc events server e child server')
  (hnew : server.coc.nodes.get? e.child = none)
include h hnew

/-- One row is added. -/
theorem get? (k : Str) : server'.coc.nodes.get? k
    = if e.child = k then some (CocStore.rowOf child) else server.coc.nodes.get? k := by
  rw [h.coc, nodes_addRecipient, CocStore.get?_addNode (h.nodeHash ▸ hnew), h.nodeHash]

theorem get?_of_some {k : Str} {row : NodeRow} (hrow : server.coc.nodes.get? k = some row) :
    server'.coc.nodes.get? k = some row := by
  rw [h.get? hnew, if_neg, hrow]
  rintro rfl
  cases hnew.symm.trans hrow

theorem parent_ne_child : e.parent ≠ e.child := by
  intro heq
  obtain ⟨row, hrow, -⟩ := h.depth
  rw [heq, hnew] at hrow
  cases hrow

/-- The recipient is recorded for the new node, and for the one that is passed on. -/
theorem mem_recorded {k peerId : Str} :
    peerId ∈ server'.coc.recorded k ↔
      peerId ∈ server.coc.recorded k ∨ e.recipient = peerId ∧ (e.child = k ∨ e.parent = k) := by
  have hchild : (server.coc.addNode child).recorded _ = _ ∧ _ := recorded_addNode child
  have hne := h.parent_ne_child hnew
  rw [h.nodeHash, h.recipientIds] at hchild
  rw [h.coc]
  by_cases hparent : e.parent = k
  · rw [← hparent, recorded_addRecipient_self, hchild.2 _ hne.symm, mem_recordAll, mem_singleton]
    simp [eq_comm]
  · rw [recorded_addRecipient_of_ne _ hparent]
    by_cases hk : e.child = k
    · rw [← hk, hchild.1, mem_recordAll, mem_singleton]
      simp [eq_comm]
    · rw [hchild.2 _ hk]
      simp [hparent, hk]

omit hnew in
theorem nodup_recorded {k : Str} (hnodup : (server.coc.recorded k).Nodup) :
    (server'.coc.recorded k).Nodup := by
  have hchild : (server.coc.addNode child).recorded _ = _ ∧ _ := recorded_addNode child
  rw [h.nodeHash, h.recipientIds] at hchild
  have hadded : ((server.coc.addNode child).recorded k).Nodup := by
    by_cases hk : e.child = k
    · rw [← hk, hchild.1]
      exact nodup_recordAll (hk ▸ hnodup)
    · rwa [hchild.2 _ hk]
  rw [h.coc]
  by_cases hparent : e.parent = k
  · rw [← hparent, recorded_addRecipient_self]
    exact nodup_recordAll (hparent ▸ hadded)
  · rwa [recorded_addRecipient_of_ne _ hparent]

theorem childrenOf_subset (k : Str) : server.coc.childrenOf k ⊆ server'.coc.childrenOf k := by
  intro other hother
  obtain ⟨row, hrow, hparent⟩ := mem_childrenOf.mp hother
  exact mem_childrenOf.mpr ⟨row, h.get?_of_some hnew hrow, hparent⟩

theorem atOrBelow {a b : Str} (hbelow : AtOrBelow server.coc.childrenOf a b) :
    AtOrBelow server'.coc.childrenOf a b :=
  Relation.ReflTransGen.mono (fun k _ hmem => h.childrenOf_subset hnew k hmem) _ _ hbelow

/-- The row of the new node. -/
theorem rowOf : RowOf server'.coc e (CocStore.rowOf child) where
  stored := (h.get? hnew _).trans (if_pos rfl)
  parentHash := h.parentHash
  ownerPeerId := h.ownerId
  schemaVersion := h.schemaVersion
  depth := by
    obtain ⟨parent, hparent, hdepth⟩ := h.depth
    exact ⟨parent, h.get?_of_some hnew hparent, hdepth⟩

end Forwards

section

variable (h : Grown base doc events server)
include h

/-- The node of a share is not one of those before. -/
theorem Grown.child_ne
    (hnew : server.coc.nodes.get? e.child = none) {f : ShareEvent} (hf : f ∈ events) :
    f.child ≠ e.child ∧ f.parent ≠ e.child := by
  obtain ⟨row, hrow⟩ := h.row f hf
  obtain ⟨parent, hparent, -⟩ := hrow.depth
  constructor
  · intro heq
    have hstored := hrow.stored
    rw [heq, hnew] at hstored
    cases hstored
  · intro heq
    rw [heq, hnew] at hparent
    cases hparent

/-- **A share** adds one node to the tree. -/
theorem Grown.share (hbase : Uploaded base doc) {child : CoCNode}
    {server' : Server S} (hf : Forwards base doc events server e child server')
    (hnew : server.coc.nodes.get? e.child = none)
    (hdoc : ∃ status, server'.document doc.id = some { doc with status := status }) :
    Grown base doc (events ++ [e]) server' := by
  have hlast : e ∈ events ++ [e] := mem_append_right _ (mem_singleton_self e)
  have hold : ∀ {f}, f ∈ events → f ∈ events ++ [e] := fun hmem => mem_append_left _ hmem
  have hcases : ∀ {f}, f ∈ events ++ [e] → f ∈ events ∨ f = e := fun hmem =>
    (mem_append.mp hmem).imp_right mem_singleton.mp
  have hfresh : base.coc.nodes.get? e.child = none := by
    cases hrow : base.coc.nodes.get? e.child with
    | none => rfl
    | some row => rw [h.old _ _ hrow] at hnew; cases hnew
  refine
    { users := hf.users.trans h.users
      document := hdoc
      readable := hf.coc ▸ (h.readable.addNode child).addRecipient _ _
      linked := fun entry hentry => ?_
      old := fun k row hrow => hf.get?_of_some hnew (h.old k row hrow)
      origin := fun k row hrow => ?_
      fresh := fun f hmem => ?_
      nodup := ?_
      row := fun f hmem => ?_
      chain := fun f hmem => ?_
      reached := fun f hmem => ?_
      recorded := fun k hin => ⟨?_, fun peerId => ?_⟩
      holder := fun share hshare hdocument => ?_ }
  · rw [hf.get? hnew]
    split
    · rfl
    · rename_i hk
      rcases (hf.mem_recorded hnew).mp (mem_recorded.mpr hentry) with hmem | ⟨-, hmem⟩
      · exact h.linked _ (mem_recorded.mp hmem)
      · obtain ⟨parent, hparent, -⟩ := hf.depth
        rw [← hmem.resolve_left hk, hparent]
        rfl
  · rw [hf.get? hnew] at hrow
    split at hrow
    · exact .inr ⟨e, hlast, ‹_›⟩
    · refine (h.origin k row hrow).imp_right ?_
      rintro ⟨f, hmem, hchild⟩
      exact ⟨f, hold hmem, hchild⟩
  · rcases hcases hmem with hmem | rfl
    · exact h.fresh f hmem
    · exact hfresh
  · rw [map_append, map_singleton]
    refine nodup_append'.mpr ⟨h.nodup, nodup_singleton _, ?_⟩
    refine disjoint_singleton.mpr fun hmem => ?_
    obtain ⟨f, hf', heq⟩ := mem_map.mp hmem
    exact (h.child_ne hnew hf').1 heq
  · rcases hcases hmem with hmem | rfl
    · obtain ⟨row, hrow⟩ := h.row f hmem
      obtain ⟨parent, hparent, hdepth⟩ := hrow.depth
      exact ⟨row, hf.get?_of_some hnew hrow.stored, hrow.parentHash, hrow.ownerPeerId,
        hrow.schemaVersion, parent, hf.get?_of_some hnew hparent, hdepth⟩
    · exact ⟨_, hf.rowOf hnew⟩
  · rcases hcases hmem with hmem | rfl
    · exact (h.chain f hmem).mono fun _ => hold
    · exact hf.chain.mono fun _ => hold
  · rcases hcases hmem with hmem | rfl
    · exact hf.atOrBelow hnew (h.reached f hmem)
    · have hparent := hf.atOrBelow hnew ((h.atOrBelow_iff hbase).mpr hf.chain.inTree)
      exact hparent.tail (mem_childrenOf.mpr ⟨_, (hf.rowOf hnew).stored, hf.parentHash⟩)
  · refine hf.nodup_recorded ?_
    rcases hin with hroot | ⟨f, hmem, hchild⟩
    · exact (h.recorded k (.inl hroot)).1
    · rcases hcases hmem with hmem | rfl
      · exact (h.recorded k (.inr ⟨f, hmem, hchild⟩)).1
      · rw [← hchild, ServiceRun.recorded_of_linked h.linked hnew]
        exact nodup_nil
  · have hbefore : peerId ∈ server.coc.recorded k ↔
        ∃ f ∈ events, f.recipient = peerId ∧ (f.child = k ∨ f.parent = k) := by
      by_cases hk : e.child = k
      · rw [← hk, ServiceRun.recorded_of_linked h.linked hnew]
        refine iff_of_false not_mem_nil ?_
        rintro ⟨f, hmem, -, hplace⟩
        exact hplace.elim (h.child_ne hnew hmem).1 (h.child_ne hnew hmem).2
      · refine (h.recorded k ?_).2 peerId
        refine hin.imp_right ?_
        rintro ⟨f, hmem, hchild⟩
        rcases hcases hmem with hmem | rfl
        · exact ⟨f, hmem, hchild⟩
        · exact absurd hchild hk
    rw [hf.mem_recorded hnew, hbefore]
    constructor
    · rintro (⟨f, hmem, hrest⟩ | hrest)
      · exact ⟨f, hold hmem, hrest⟩
      · exact ⟨e, hlast, hrest⟩
    · rintro ⟨f, hmem, hrest⟩
      rcases hcases hmem with hmem | rfl
      · exact .inl ⟨f, hmem, hrest⟩
      · exact .inr hrest
  · rw [hf.users]
    rcases hf.shares share hshare with hmem | ⟨hchild, hrest⟩
    · obtain ⟨f, hf', hrest⟩ := h.holder share hmem hdocument
      exact ⟨f, hold hf', hrest⟩
    · exact ⟨e, hlast, hchild.symm, hrest⟩

/-- A request that leaves users and custody nodes alone. -/
theorem Grown.congr {server' : Server S}
    (husers : server'.users = server.users) (hcoc : server'.coc = server.coc)
    (hdoc : ∃ status, server'.document doc.id = some { doc with status := status })
    (hshares : ∀ share ∈ server'.fileShares.rows, ∃ old ∈ server.fileShares.rows, ∃ status,
      share = { old with status := status }) :
    Grown base doc events server' where
  users := husers.trans h.users
  document := hdoc
  readable := hcoc ▸ h.readable
  linked := hcoc ▸ h.linked
  old := hcoc ▸ h.old
  origin := hcoc ▸ h.origin
  fresh := h.fresh
  nodup := h.nodup
  row := hcoc ▸ h.row
  chain := h.chain
  reached := hcoc ▸ h.reached
  recorded := hcoc ▸ h.recorded
  holder share hshare hdocument := by
    obtain ⟨old, hold, status, rfl⟩ := hshares share hshare
    rw [husers]
    exact h.holder old hold hdocument

/-- The trace of a document whose root is stored changes nothing. -/
theorem Grown.trace (hbase : Uploaded base doc) (amb : Ambient)
    (user : User) : (server.getDocumentTrace amb user doc.id).1 = server := by
  unfold getDocumentTrace
  split
  · rfl
  · rfl
  · rename_i found nodes edges hreply
    obtain ⟨status, hdoc⟩ := h.document
    obtain ⟨live, hlive, hreply⟩ := bind_eq_ok.mp hreply
    obtain ⟨grant, -, hreply⟩ := bind_eq_ok.mp hreply
    obtain ⟨trace, htrace, hreply⟩ := bind_eq_ok.mp hreply
    obtain rfl := some.inj ((liveDocument_ok hlive).1.symm.trans hdoc)
    obtain ⟨root, hroot, hparent⟩ := hbase.root
    obtain ⟨nodes', edges', htrace', -, hmem, -⟩ :=
      traceOf_spec h.readable (h.old _ _ hroot) hparent
    obtain rfl := Except.ok.inj (htrace.symm.trans htrace')
    obtain rfl : nodes' = nodes :=
      (Prod.mk.inj (Prod.mk.inj (Prod.mk.inj (Except.ok.inj hreply)).2).2).1
    have hne : nodes'.isEmpty = false := by
      rw [isEmpty_eq_false_iff]
      rintro rfl
      exact absurd ((hmem _).mpr .refl) not_mem_nil
    rw [hne]
    rfl

end

/-- Only share requests reply with a share. -/
theorem share_of_shared {share : FileShare}
    (h : (server.handle words call).2 = .ok (.shared share)) :
    ∃ documentId recipientUsername, call.request = .share documentId recipientUsername := by
  obtain ⟨amb, user, request⟩ := call
  cases request with
  | share documentId recipientUsername => exact ⟨_, _, rfl⟩
  | upload | get | download | trace | revoke | delete | restore | purge =>
    obtain ⟨reply, -, hreply⟩ := map_eq_ok.mp h
    cases hreply

/-- **Other requests** about the document leave the users and the custody nodes alone. -/
theorem Grown.other_request (h : Grown base doc events server) (hbase : Uploaded base doc)
    (habout : call.request.about = some doc.id)
    (hshare : ∀ documentId recipientUsername, call.request ≠ .share documentId recipientUsername) :
    (server.handle words call).1.users = server.users ∧
      (server.handle words call).1.coc = server.coc := by
  obtain ⟨amb, user, request⟩ := call
  cases request with
  | upload filename mimeType content => cases habout
  | get documentId => exact ⟨rfl, rfl⟩
  | download documentId => exact ⟨rfl, rfl⟩
  | trace documentId =>
    obtain rfl := some.inj habout
    have hsame : (server.handle words ⟨amb, user, .trace doc.id⟩).1 = server :=
      h.trace hbase amb user
    rw [hsame]
    exact ⟨rfl, rfl⟩
  | share documentId recipientUsername => exact absurd rfl (hshare documentId recipientUsername)
  | revoke documentId targetUserId =>
    simp only [Server.handle, revokeShare]
    split
    · exact ⟨rfl, rfl⟩
    · split
      · exact ⟨rfl, rfl⟩
      · split <;> exact ⟨rfl, rfl⟩
  | delete documentId =>
    simp only [Server.handle, deleteDocument]
    split <;> exact ⟨rfl, rfl⟩
  | restore documentId restoreAccess =>
    simp only [Server.handle, restoreDocument]
    split
    · exact ⟨rfl, rfl⟩
    · cases restoreAccess with
      | false => exact ⟨rfl, rfl⟩
      | true => exact ⟨rfl, rfl⟩
  | purge documentId =>
    simp only [Server.handle, purgeDocument]
    split <;> exact ⟨rfl, rfl⟩

theorem shareEvent_eq_none
    (hshare : ∀ documentId recipientUsername, call.request ≠ .share documentId recipientUsername) :
    server.shareEvent words call = none := by
  rw [shareEvent]
  split
  · exact absurd ‹_› (hshare _ _)
  · rfl

/-- **One request** adds what it shares to the tree. -/
theorem Grown.handle (h : Grown base doc events server) (hbase : Uploaded base doc)
    (hcall : Orderly words doc.id server call) :
    Grown base doc (events ++ (server.shareEvent words call).toList)
      (server.handle words call).1 := by
  have hdoc : ∃ status, (server.handle words call).1.document doc.id
      = some { doc with status := status } := by
    obtain ⟨status, hdoc⟩ := h.document
    obtain ⟨status', -, hdoc'⟩ := document_handle hdoc call
    exact ⟨status', hdoc'⟩
  by_cases hshare : ∃ documentId recipientUsername, call.request = .share documentId recipientUsername
  · obtain ⟨amb, user, request⟩ := call
    obtain ⟨documentId, recipientUsername, rfl⟩ := hshare
    obtain rfl := some.inj hcall.about
    rcases h.share_request words hbase amb hcall.user recipientUsername with
        ⟨hnone, hsame⟩ | ⟨e, child, hsome, -, -, hf⟩
    · rw [hnone, hsame, toList_none, append_nil]
      exact h
    · rw [hsome]
      exact h.share hbase hf (hcall.fresh e hsome) hdoc
  · have hnot : ∀ documentId recipientUsername,
        call.request ≠ .share documentId recipientUsername :=
      fun documentId recipientUsername heq => hshare ⟨documentId, recipientUsername, heq⟩
    obtain ⟨husers, hcoc⟩ : (server.handle words call).1.users = server.users ∧ _ :=
      h.other_request hbase hcall.about hnot
    rw [shareEvent_eq_none hnot, toList_none, append_nil]
    refine h.congr husers hcoc hdoc fun share hmem => ?_
    rcases mem_shares_handle hmem with ⟨old, hold, status, -, rfl⟩ | hnew
    · exact ⟨old, hold, status, rfl⟩
    · exact absurd (share_of_shared hnew) hshare

/-- **The tree after a history.** -/
theorem Grown.serve (h : Grown base doc events server) (hbase : Uploaded base doc)
    {calls : List Call} (hcalls : History words doc.id server calls) :
    Grown base doc (events ++ server.shareEvents words calls)
      (server.serve words calls) := by
  induction calls generalizing server events with
  | nil => exact (append_nil events).symm ▸ h
  | cons call calls ih =>
    rw [shareEvents, ← append_assoc]
    exact ih (h.handle hbase hcalls.1) hcalls.2

end Server

end TrustFlow.TrustDocs
