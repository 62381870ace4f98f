import TrustFlow.TrustDocs.Attribution
import TrustFlow.TrustDocs.Topology

/-!
# What a trace tells a recipient

`get_document_trace` of `trustdocs/documents/routes.py` empties the list of edges for
everyone but the owner.  The nodes stay, and each of them names its parent, its children, its
depth, the peer that shared it and the peers it was shared with.

* `SameUpToNames` — two replies are the same, up to the names of the nodes and the order of
  the lists; contents, times and signatures are left out.
* `SameTree` — two histories have the same shares, up to the names of the nodes.
* `trace_same_iff` — **the replies to a recipient are the same exactly if the share trees
  are**.
-/

namespace TrustFlow.TrustDocs

open Library Custody Stegano List CocStore

/-- A share with other names for the nodes. -/
def ShareEvent.rename (ρ : Str → Str) (e : ShareEvent) : ShareEvent :=
  { e with parent := ρ e.parent, child := ρ e.child }

/-- The shares are the same, up to the names of the nodes below the root. -/
def SameTree (rootHash : Str) (events events' : List ShareEvent) : Prop :=
  ∃ ρ : Equiv.Perm Str, ρ rootHash = rootHash ∧ (events.map (ShareEvent.rename ρ)).Perm events'

/-- Who shared with whom is the same in the same tree. -/
theorem SameTree.peers {rootHash : Str} {events events' : List ShareEvent}
    (h : SameTree rootHash events events') :
    (events.map fun e => (e.sharer, e.recipient)).Perm
      (events'.map fun e => (e.sharer, e.recipient)) := by
  obtain ⟨ρ, -, hperm⟩ := h
  have hmap := hperm.map fun e => (e.sharer, e.recipient)
  rwa [map_map] at hmap

namespace Server

variable {S : SignatureScheme} {words : WordClass}

/-! ## Replies -/

/-- A node of a reply without its content hash, its time and its signature. -/
structure NodeView where
  schemaVersion : ℤ
  nodeHash : Str
  parentHash : Option Str
  ownerId : Str
  recipientIds : List Str
  childrenHashes : Finset Str
  depth : ℤ
  ownerUsername : Str
  isOnline : Bool
  filename : Str

/-- What is compared of a node. -/
def TraceNode.view (n : TraceNode) : NodeView where
  schemaVersion := n.node.schemaVersion
  nodeHash := n.node.nodeHash
  parentHash := n.node.parentHash
  ownerId := n.node.ownerId
  recipientIds := n.node.recipientIds
  childrenHashes := n.node.childrenHashes
  depth := n.node.depth
  ownerUsername := n.ownerUsername
  isOnline := n.isOnline
  filename := n.filename

/-- The node with other names for the nodes. -/
def NodeView.rename (ρ : Str → Str) (v : NodeView) : NodeView :=
  { v with
    nodeHash := ρ v.nodeHash
    parentHash := v.parentHash.map ρ
    childrenHashes := v.childrenHashes.image ρ }

/-- **The replies are the same**, up to the names of the nodes and the order of the lists. -/
def SameUpToNames (reply reply' : TraceResponse) : Prop :=
  ∃ ρ : Equiv.Perm Str,
    ((reply.nodes.map TraceNode.view).map (NodeView.rename ρ)).Perm
        (reply'.nodes.map TraceNode.view) ∧
      (reply.edges.map fun edge => (ρ edge.1, ρ edge.2)).Perm reply'.edges

/-- The user may read the document. -/
def HasAccess (server : Server S) (doc : Document) (user : User) : Prop :=
  server.document doc.id = some { doc with status := .active } ∧ ¬ NoActive server doc.id user.id

/-- The node that is seen of a row. -/
def viewOf (store : CocStore) (directory : Directory) (row : NodeRow) : NodeView where
  schemaVersion := row.schemaVersion
  nodeHash := row.nodeHash
  parentHash := row.parentHash
  ownerId := row.ownerPeerId
  recipientIds := sortStrings (store.recorded row.nodeHash)
  childrenHashes := (store.childrenOf row.nodeHash).toFinset
  depth := row.depth
  ownerUsername := ((directory.userMap row.ownerPeerId).getD ("Unknown", false)).1
  isOnline := ((directory.userMap row.ownerPeerId).getD ("Unknown", false)).2
  filename := (directory.docMap row.nodeHash).getD []

variable {base server server' : Server S} {doc : Document} {events events' : List ShareEvent}
  {directory : Directory}

/-- The row is one of the tree below the root of the document. -/
def TreeRow (doc : Document) (server : Server S) (row : NodeRow) : Prop :=
  server.coc.nodes.get? row.nodeHash = some row ∧
    AtOrBelow server.coc.childrenOf doc.cocNodeHash row.nodeHash

/-- The reply shows every row of the tree once, and no edges. -/
def Shows (doc : Document) (server : Server S) (directory : Directory) (reply : TraceResponse) :
    Prop :=
  reply.edges = [] ∧ (reply.nodes.map TraceNode.view).Nodup ∧
    ∀ v, v ∈ reply.nodes.map TraceNode.view ↔
      ∃ row, TreeRow doc server row ∧ viewOf server.coc directory row = v

variable {user : User}

/-- **The reply to a recipient**: the whole tree. -/
theorem HasAccess.reply (haccess : HasAccess server doc user) (howner : doc.ownerId ≠ user.id)
    (hreadable : server.coc.Readable) {root : NodeRow}
    (hroot : server.coc.nodes.get? doc.cocNodeHash = some root) (hparent : root.parentHash = none)
    (amb : Ambient) (directory : Directory) :
    ∃ reply, server.documentTrace amb user directory doc.id = .ok reply ∧
      Shows doc server directory reply := by
  obtain ⟨nodes, edges, htrace, hnodup, hmem, hstored⟩ := traceOf_spec hreadable hroot hparent
  obtain ⟨share, hshare⟩ : ∃ share, server.activeShare amb.plan doc.id user.id = some share :=
    Option.ne_none_iff_exists'.mp fun hnone => haccess.2 (activeShare_eq_none_iff.mp hnone)
  have hhashes : ((augmentNodes directory nodes).map TraceNode.view).map NodeView.nodeHash
      = nodes.map CoCNode.nodeHash := by
    rw [augmentNodes, map_map, map_map]
    rfl
  refine ⟨_, documentTrace_eq haccess.1 rfl howner hshare htrace, rfl, ?_, fun v => ?_⟩
  · exact List.Nodup.of_map NodeView.nodeHash (hhashes ▸ hnodup)
  · -- a node of the reply is read from its row
    have hview : ∀ node row, server.coc.ReadAs row node →
        TraceNode.view ⟨node, ((directory.userMap node.ownerId).getD ("Unknown", false)).1,
          ((directory.userMap node.ownerId).getD ("Unknown", false)).2,
          (directory.docMap node.nodeHash).getD []⟩ = viewOf server.coc directory row := by
      intro node row hread
      simp only [TraceNode.view, viewOf, hread.nodeHash, hread.parentHash, hread.ownerId,
        hread.recipientIds, hread.childrenHashes, hread.depth, hread.schemaVersion]
    rw [augmentNodes, map_map, mem_map]
    constructor
    · rintro ⟨node, hnode, rfl⟩
      obtain ⟨row, hrow, hread⟩ := hreadable.row_of_stored (hstored node hnode)
      have hbelow := (hmem _).mp (mem_map_of_mem hnode)
      exact ⟨row, ⟨hread.nodeHash ▸ hrow, hread.nodeHash ▸ hbelow⟩, (hview node row hread).symm⟩
    · rintro ⟨row, ⟨hrow, hbelow⟩, rfl⟩
      obtain ⟨node, hnode, hhash⟩ := mem_map.mp ((hmem _).mpr hbelow)
      obtain ⟨row', hrow', hread⟩ := hreadable.row_of_stored (hstored node hnode)
      obtain rfl := Option.mem_unique hrow (hhash ▸ hrow')
      exact ⟨node, hnode, hview node row hread⟩

/-! ## Trees and replies -/

namespace Grown

section

variable (h : Grown base doc events server) (hbase : Uploaded base doc)
include h

/-- A node belongs to one share. -/
theorem eq_of_child {e f : ShareEvent} (he : e ∈ events) (hf : f ∈ events)
    (hchild : e.child = f.child) : e = f :=
  inj_on_of_nodup_map h.nodup he hf hchild

include hbase

variable {e : ShareEvent}

theorem child_ne_root (he : e ∈ events) : e.child ≠ doc.cocNodeHash := by
  intro heq
  obtain ⟨root, hroot, -⟩ := hbase.root
  rw [← heq, h.fresh e he] at hroot
  cases hroot

/-- A row of the tree is the root's, or that of a share. -/
theorem treeRow_cases {row : NodeRow} (hrow : TreeRow doc server row) :
    row.nodeHash = doc.cocNodeHash ∧ base.coc.nodes.get? doc.cocNodeHash = some row ∧
        row.parentHash = none ∨
      ∃ e ∈ events, RowOf server.coc e row := by
  rcases (h.atOrBelow_iff hbase).mp hrow.2 with hhash | ⟨e, he, hchild⟩
  · obtain ⟨root, hroot, hparent⟩ := hbase.root
    have hstored := hrow.1
    rw [hhash, h.old _ _ hroot] at hstored
    obtain rfl := Option.some.inj hstored
    exact .inl ⟨hhash, hroot, hparent⟩
  · obtain ⟨found, hfound⟩ := h.row e he
    have hstored := hfound.stored
    rw [hchild, hrow.1] at hstored
    obtain rfl := Option.some.inj hstored
    exact .inr ⟨e, he, hfound⟩

theorem treeRow_of_root : ∃ row, TreeRow doc server row ∧ row.nodeHash = doc.cocNodeHash := by
  obtain ⟨root, hroot, -⟩ := hbase.root
  have hkey : root.nodeHash = doc.cocNodeHash := (Table.get?_eq_some_iff.mp hroot).2
  exact ⟨root, ⟨hkey.symm ▸ h.old _ _ hroot, hkey.symm ▸ .refl⟩, hkey⟩

omit hbase in
theorem treeRow_of_event (he : e ∈ events) :
    ∃ row, TreeRow doc server row ∧ row.nodeHash = e.child ∧ RowOf server.coc e row := by
  obtain ⟨row, hrow⟩ := h.row e he
  have hkey : row.nodeHash = e.child := (Table.get?_eq_some_iff.mp hrow.stored).2
  exact ⟨row, ⟨hkey.symm ▸ hrow.stored, hkey.symm ▸ h.reached e he⟩, hkey, hrow⟩

/-- The children of a node in the tree are its shares. -/
theorem mem_childrenOf {nodeHash child : Str} (hin : InTree doc events nodeHash) :
    child ∈ server.coc.childrenOf nodeHash ↔ ∃ e ∈ events, e.child = child ∧ e.parent = nodeHash := by
  constructor
  · intro hmem
    have hbelow : AtOrBelow server.coc.childrenOf doc.cocNodeHash child :=
      ((h.atOrBelow_iff hbase).mpr hin).tail hmem
    obtain ⟨row, hrow, hparent⟩ := CocStore.mem_childrenOf.mp hmem
    have hkey : row.nodeHash = child := (Table.get?_eq_some_iff.mp hrow).2
    have htree : TreeRow doc server row :=
      ⟨hkey.symm ▸ hrow, hkey.symm ▸ hbelow⟩
    rcases h.treeRow_cases hbase htree with ⟨-, -, hnone⟩ | ⟨e, he, hof⟩
    · cases hparent.symm.trans hnone
    · refine ⟨e, he, ?_, Option.mem_unique hof.parentHash hparent⟩
      exact (Table.get?_eq_some_iff.mp hof.stored).2.symm.trans hkey
  · rintro ⟨e, he, rfl, rfl⟩
    obtain ⟨row, hrow⟩ := h.row e he
    exact CocStore.mem_childrenOf.mpr ⟨row, hrow.stored, hrow.parentHash⟩

end

end Grown

/-- Every share has its counterpart under the other names. -/
structure Embeds (ρ : Equiv.Perm Str) (doc : Document) (events events' : List ShareEvent) : Prop where
  root : ρ doc.cocNodeHash = doc.cocNodeHash
  event : ∀ e ∈ events, e.rename ρ ∈ events'

theorem Embeds.inTree {ρ : Equiv.Perm Str} (h : Embeds ρ doc events events') {nodeHash : Str}
    (hin : InTree doc events nodeHash) : InTree doc events' (ρ nodeHash) := by
  rcases hin with rfl | ⟨e, he, rfl⟩
  · exact .inl h.root
  · exact .inr ⟨_, h.event e he, rfl⟩

theorem sortStrings_eq_of_mem_iff {l l' : List Str} (h : l.Nodup) (h' : l'.Nodup)
    (hmem : ∀ s, s ∈ l ↔ s ∈ l') : sortStrings l = sortStrings l' := by
  have hperm : (sortStrings l).Perm (sortStrings l') :=
    ((perm_insertionSort _ l).trans ((perm_ext_iff_of_nodup h h').mpr hmem)).trans
      (perm_insertionSort _ l').symm
  exact hperm.eq_of_pairwise' (pairwise_sortStrings l) (pairwise_sortStrings l')

section

variable {ρ : Equiv.Perm Str} (h : Grown base doc events server)
  (h' : Grown base doc events' server') (hbase : Uploaded base doc)
  (hto : Embeds ρ doc events events') (hback : Embeds ρ.symm doc events' events)
include h h' hbase hto

variable {nodeHash : Str}

/-- Counterparts lie equally deep. -/
theorem depth_eq_of_embeds
    (hbelow : AtOrBelow server.coc.childrenOf doc.cocNodeHash nodeHash) {row row' : NodeRow}
    (hrow : server.coc.nodes.get? nodeHash = some row)
    (hrow' : server'.coc.nodes.get? (ρ nodeHash) = some row') : row.depth = row'.depth := by
  induction hbelow generalizing row row' with
  | refl =>
    obtain ⟨root, hroot, -⟩ := hbase.root
    rw [h.old _ _ hroot] at hrow
    rw [hto.root, h'.old _ _ hroot] at hrow'
    rw [← Option.some.inj hrow, ← Option.some.inj hrow']
  | @tail parent child hparent hstep ih =>
    obtain ⟨e, he, rfl, rfl⟩ :=
      (h.mem_childrenOf hbase ((h.atOrBelow_iff hbase).mp hparent)).mp hstep
    obtain ⟨found, hfound⟩ := h.row e he
    obtain ⟨found', hfound'⟩ := h'.row _ (hto.event e he)
    obtain ⟨above, habove, hdepth⟩ := hfound.depth
    obtain ⟨above', habove', hdepth'⟩ := hfound'.depth
    obtain rfl := Option.mem_unique hrow hfound.stored
    obtain rfl := Option.mem_unique hrow' hfound'.stored
    rw [hdepth, hdepth', ih habove habove']

include hback

omit hbase in
/-- Counterparts have the same recipients. -/
theorem recorded_eq_of_embeds (hin : InTree doc events nodeHash) :
    sortStrings (server'.coc.recorded (ρ nodeHash)) = sortStrings (server.coc.recorded nodeHash) := by
  obtain ⟨hnodup, hmem⟩ := h.recorded nodeHash hin
  obtain ⟨hnodup', hmem'⟩ := h'.recorded _ (hto.inTree hin)
  refine sortStrings_eq_of_mem_iff hnodup' hnodup fun peerId => ?_
  rw [hmem', hmem]
  constructor
  · rintro ⟨e, he, hpeer, hplace⟩
    refine ⟨_, hback.event e he, hpeer, hplace.imp ?_ ?_⟩
    · exact fun heq => (Equiv.symm_apply_eq ρ).mpr heq
    · exact fun heq => (Equiv.symm_apply_eq ρ).mpr heq
  · rintro ⟨e, he, hpeer, hplace⟩
    exact ⟨_, hto.event e he, hpeer, hplace.imp (congrArg ρ) (congrArg ρ)⟩

/-- Counterparts have the same children. -/
theorem children_eq_of_embeds (hin : InTree doc events nodeHash) :
    (server'.coc.childrenOf (ρ nodeHash)).toFinset
      = (server.coc.childrenOf nodeHash).toFinset.image ρ := by
  ext child
  simp only [mem_toFinset, Finset.mem_image, h.mem_childrenOf hbase hin,
    h'.mem_childrenOf hbase (hto.inTree hin)]
  constructor
  · rintro ⟨e, he, rfl, hparent⟩
    exact ⟨ρ.symm e.child, ⟨_, hback.event e he, rfl, (Equiv.symm_apply_eq ρ).mpr hparent⟩,
      ρ.apply_symm_apply _⟩
  · rintro ⟨child, ⟨e, he, rfl, rfl⟩, rfl⟩
    exact ⟨_, hto.event e he, rfl, rfl⟩

/-- **In the same tree the same is seen**: every row has a counterpart that looks the same
under the other names. -/
theorem view_of_embeds (hdocs : ∀ k, directory.docMap k ≠ none →
      (base.coc.nodes.get? k).isSome = true) {row : NodeRow} (hrow : TreeRow doc server row) :
    ∃ row', TreeRow doc server' row' ∧
      viewOf server'.coc directory row' = (viewOf server.coc directory row).rename ρ := by
  have hhere := (h.atOrBelow_iff hbase).mp hrow.2
  have hin := hto.inTree hhere
  obtain ⟨row', hrow'⟩ := h'.stored hbase hin
  have hkey : row'.nodeHash = ρ row.nodeHash := (Table.get?_eq_some_iff.mp hrow').2
  refine ⟨row', ⟨hkey.symm ▸ hrow', hkey.symm ▸ (h'.atOrBelow_iff hbase).mpr hin⟩, ?_⟩
  have hdepth := depth_eq_of_embeds h h' hbase hto hrow.2 hrow.1 hrow'
  have hnoName : ∀ k, base.coc.nodes.get? k = none → directory.docMap k = none := by
    intro k hk
    by_contra hsome
    have hstored := hdocs k hsome
    rw [hk] at hstored
    cases hstored
  have hfields : row'.parentHash = row.parentHash.map ρ ∧ row'.ownerPeerId = row.ownerPeerId ∧
      row'.schemaVersion = row.schemaVersion ∧
      directory.docMap (ρ row.nodeHash) = directory.docMap row.nodeHash := by
    rcases h.treeRow_cases hbase hrow with ⟨hhash, hroot, hnone⟩ | ⟨e, he, hof⟩
    · rw [hhash, hto.root] at hrow' ⊢
      obtain rfl := Option.some.inj ((h'.old _ _ hroot).symm.trans hrow')
      rw [hnone]
      exact ⟨rfl, rfl, rfl, rfl⟩
    · have hhash : row.nodeHash = e.child := (Table.get?_eq_some_iff.mp hof.stored).2
      obtain ⟨found, hfound⟩ := h'.row _ (hto.event e he)
      rw [hhash] at hrow'
      obtain rfl := Option.some.inj (hfound.stored.symm.trans hrow')
      rw [hof.parentHash, hof.ownerPeerId, hof.schemaVersion, hhash, hnoName _ (h.fresh e he)]
      exact ⟨hfound.parentHash, hfound.ownerPeerId, hfound.schemaVersion,
        hnoName _ (h'.fresh _ (hto.event e he))⟩
  simp only [viewOf, NodeView.rename, hkey, hfields.1, hfields.2.1, hfields.2.2.1, hfields.2.2.2,
    recorded_eq_of_embeds h h' hto hback hhere,
    children_eq_of_embeds h h' hbase hto hback hhere, hdepth]

end

section

variable {ρ : Equiv.Perm Str} (h : Grown base doc events server)
  (h' : Grown base doc events' server') (hbase : Uploaded base doc)
  (hview : ∀ row, TreeRow doc server row → ∃ row', TreeRow doc server' row' ∧
    viewOf server'.coc directory row' = (viewOf server.coc directory row).rename ρ)
include h h' hbase hview

/-- The root looks like no other node: it has no parent. -/
theorem root_of_view : ρ doc.cocNodeHash = doc.cocNodeHash := by
  obtain ⟨row, hrow, hhash⟩ := h.treeRow_of_root hbase
  obtain ⟨row', hrow', hsame⟩ := hview row hrow
  have hnode : row'.nodeHash = ρ row.nodeHash := congrArg NodeView.nodeHash hsame
  have hparent : row'.parentHash = row.parentHash.map ρ := congrArg NodeView.parentHash hsame
  rcases h.treeRow_cases hbase hrow with ⟨-, -, hnone⟩ | ⟨e, he, hof⟩
  · rw [hnone] at hparent
    rcases h'.treeRow_cases hbase hrow' with ⟨hroot, -, -⟩ | ⟨e', -, hof'⟩
    · rw [← hhash, ← hnode, hroot, hhash]
    · cases hof'.parentHash.symm.trans hparent
  · have hchild : row.nodeHash = e.child := (Table.get?_eq_some_iff.mp hof.stored).2
    exact absurd (hchild.symm.trans hhash) (h.child_ne_root hbase he)

/-- The node of a share shows the node above it, and who shared it. -/
theorem event_of_view (he : e ∈ events) :
    ∃ e' ∈ events', e'.child = ρ e.child ∧ e'.parent = ρ e.parent ∧ e'.sharer = e.sharer ∧
      ∀ peerId, peerId ∈ server'.coc.recorded e'.child ↔ peerId ∈ server.coc.recorded e.child := by
  obtain ⟨row, hrow, hhash, hof⟩ := h.treeRow_of_event he
  obtain ⟨row', hrow', hsame⟩ := hview row hrow
  have hnode : row'.nodeHash = ρ row.nodeHash := congrArg NodeView.nodeHash hsame
  have hparent : row'.parentHash = row.parentHash.map ρ := congrArg NodeView.parentHash hsame
  have hsharer : row'.ownerPeerId = row.ownerPeerId := congrArg NodeView.ownerId hsame
  have hrecipients : sortStrings (server'.coc.recorded row'.nodeHash)
      = sortStrings (server.coc.recorded row.nodeHash) := congrArg NodeView.recipientIds hsame
  rw [hof.parentHash] at hparent
  rcases h'.treeRow_cases hbase hrow' with ⟨-, -, hnone⟩ | ⟨e', he', hof'⟩
  · cases hnone.symm.trans hparent
  · have hchild : row'.nodeHash = e'.child := (Table.get?_eq_some_iff.mp hof'.stored).2
    refine ⟨e', he', ?_, ?_, ?_, fun peerId => ?_⟩
    · rw [← hchild, hnode, hhash]
    · exact Option.mem_unique hof'.parentHash hparent
    · rw [← hof'.ownerPeerId, hsharer, hof.ownerPeerId]
    · rw [← hchild, ← hhash, ← mem_sortStrings, hrecipients, mem_sortStrings]

/-- **What is seen gives every share away.**  The recipient of a share is the peer who shared
its node on, or else the only one whom the node names. -/
theorem embeds_of_view : Embeds ρ doc events events' where
  root := root_of_view h h' hbase hview
  event e he := by
    obtain ⟨e', he', hchild, hparent, hsharer, hrecorded⟩ := event_of_view h h' hbase hview he
    have hrecipient : e'.recipient = e.recipient := by
      by_cases hpassed : ∃ f ∈ events, f.parent = e.child
      · obtain ⟨f, hf, hbelow⟩ := hpassed
        obtain ⟨f', hf', -, hparent', hsharer', -⟩ := event_of_view h h' hbase hview hf
        have hholder : ∀ {es : List ShareEvent} {s : Server S}, Grown base doc es s →
            ∀ {a b : ShareEvent}, a ∈ es → b ∈ es → b.parent = a.child →
              a.recipient = b.sharer := by
          intro es s hs a b ha hb hab
          rcases hs.chain b hb with ⟨hroot, -⟩ | ⟨g, hg, hgchild, hgrecipient⟩
          · exact absurd (hab.symm.trans hroot) (hs.child_ne_root hbase ha)
          · rw [← hs.eq_of_child hg ha (hgchild.trans hab), hgrecipient]
        have hbelow' : f'.parent = e'.child := by rw [hparent', hbelow, hchild]
        rw [hholder h' he' hf' hbelow', hsharer', hholder h he hf hbelow]
      · have hmem : e'.recipient ∈ server'.coc.recorded e'.child :=
          ((h'.recorded _ (.inr ⟨e', he', rfl⟩)).2 _).mpr ⟨e', he', rfl, .inl rfl⟩
        obtain ⟨g, hg, hgrecipient, hplace⟩ :=
          ((h.recorded _ (.inr ⟨e, he, rfl⟩)).2 _).mp ((hrecorded _).mp hmem)
        rcases hplace with hgchild | hgparent
        · rw [← hgrecipient, h.eq_of_child hg he hgchild]
        · exact absurd ⟨g, hg, hgparent⟩ hpassed
    have hsame : e.rename ρ = e' := by
      rw [ShareEvent.rename, ← hchild, ← hparent, ← hsharer, ← hrecipient]
    exact hsame ▸ he'

end

theorem rename_symm_event (ρ : Equiv.Perm Str) (e : ShareEvent) :
    (e.rename ρ).rename ρ.symm = e := by
  simp [ShareEvent.rename]

theorem rename_symm_view (ρ : Equiv.Perm Str) (v : NodeView) : (v.rename ρ).rename ρ.symm = v := by
  simp [NodeView.rename, Finset.image_image]

/-- The same tree, share by share. -/
theorem sameTree_iff (h : Grown base doc events server) (h' : Grown base doc events' server') :
    SameTree doc.cocNodeHash events events' ↔
      ∃ ρ : Equiv.Perm Str, Embeds ρ doc events events' ∧ Embeds ρ.symm doc events' events := by
  constructor
  · rintro ⟨ρ, hroot, hperm⟩
    refine ⟨ρ, ⟨hroot, fun e he => hperm.mem_iff.mp (mem_map_of_mem he)⟩,
      (Equiv.symm_apply_eq ρ).mpr hroot.symm, fun e' he' => ?_⟩
    obtain ⟨e, he, rfl⟩ := mem_map.mp (hperm.mem_iff.mpr he')
    rwa [rename_symm_event]
  · rintro ⟨ρ, hto, hback⟩
    have hrename : Function.LeftInverse (ShareEvent.rename ρ.symm) (ShareEvent.rename ρ) :=
      rename_symm_event ρ
    have hnodup : (events.map (ShareEvent.rename ρ)).Nodup :=
      (List.Nodup.of_map _ h.nodup).map hrename.injective
    refine ⟨ρ, hto.root, (perm_ext_iff_of_nodup hnodup (List.Nodup.of_map _ h'.nodup)).mpr ?_⟩
    intro e'
    rw [mem_map]
    constructor
    · rintro ⟨e, he, rfl⟩
      exact hto.event e he
    · exact fun he' => ⟨_, hback.event e' he', rename_symm_event ρ.symm e'⟩

variable {reply reply' : TraceResponse}

/-- The same reply, row by row. -/
theorem sameUpToNames_iff (hreply : Shows doc server directory reply)
    (hreply' : Shows doc server' directory reply') :
    SameUpToNames reply reply' ↔ ∃ ρ : Equiv.Perm Str,
      (∀ row, TreeRow doc server row → ∃ row', TreeRow doc server' row' ∧
        viewOf server'.coc directory row' = (viewOf server.coc directory row).rename ρ) ∧
      ∀ row', TreeRow doc server' row' → ∃ row, TreeRow doc server row ∧
        viewOf server.coc directory row = (viewOf server'.coc directory row').rename ρ.symm := by
  obtain ⟨hedges, hnodup, hmem⟩ := hreply
  obtain ⟨hedges', hnodup', hmem'⟩ := hreply'
  constructor
  · rintro ⟨ρ, hperm, -⟩
    refine ⟨ρ, fun row hrow => ?_, fun row' hrow' => ?_⟩
    · have hseen := mem_map_of_mem (f := NodeView.rename ρ) ((hmem _).mpr ⟨row, hrow, rfl⟩)
      exact (hmem' _).mp (hperm.mem_iff.mp hseen)
    · obtain ⟨v, hv, hsame⟩ := mem_map.mp (hperm.mem_iff.mpr ((hmem' _).mpr ⟨row', hrow', rfl⟩))
      obtain ⟨row, hrow, rfl⟩ := (hmem v).mp hv
      exact ⟨row, hrow, by rw [← hsame, rename_symm_view]⟩
  · rintro ⟨ρ, hto, hback⟩
    have hrename : Function.LeftInverse (NodeView.rename ρ.symm) (NodeView.rename ρ) :=
      rename_symm_view ρ
    refine ⟨ρ, (perm_ext_iff_of_nodup (hnodup.map hrename.injective) hnodup').mpr fun v => ?_, ?_⟩
    · rw [mem_map, hmem']
      constructor
      · rintro ⟨w, hw, rfl⟩
        obtain ⟨row, hrow, rfl⟩ := (hmem w).mp hw
        exact hto row hrow
      · rintro ⟨row', hrow', rfl⟩
        obtain ⟨row, hrow, hsame⟩ := hback row' hrow'
        exact ⟨_, (hmem _).mpr ⟨row, hrow, rfl⟩, by rw [hsame]; exact rename_symm_view ρ.symm _⟩
    · rw [hedges, hedges']
      exact .refl _

/-- **Two trees look the same exactly if they are the same.** -/
theorem sameUpToNames_iff_sameTree (hbase : Uploaded base doc) (h : Grown base doc events server)
    (h' : Grown base doc events' server')
    (hdocs : ∀ k, directory.docMap k ≠ none → (base.coc.nodes.get? k).isSome = true)
    (hreply : Shows doc server directory reply) (hreply' : Shows doc server' directory reply') :
    SameUpToNames reply reply' ↔ SameTree doc.cocNodeHash events events' := by
  rw [sameUpToNames_iff hreply hreply', sameTree_iff h h']
  constructor
  · rintro ⟨ρ, hto, hback⟩
    exact ⟨ρ, embeds_of_view h h' hbase hto, embeds_of_view h' h hbase hback⟩
  · rintro ⟨ρ, hto, hback⟩
    refine ⟨ρ, fun row hrow => ?_, fun row' hrow' => ?_⟩
    · exact view_of_embeds h h' hbase hto hback hdocs hrow
    · exact view_of_embeds h' h hbase hback hto hdocs hrow'

/-- **Topology.**  After any two histories of a document the replies to a recipient are the
same, up to the names of the nodes, exactly if the share trees are. -/
theorem trace_same_iff (hbase : Uploaded base doc) {calls calls' : List Call}
    (hcalls : History words doc.id base calls)
    (hcalls' : History words doc.id base calls') {user : User}
    (howner : doc.ownerId ≠ user.id)
    (haccess : HasAccess (base.serve words calls) doc user)
    (haccess' : HasAccess (base.serve words calls') doc user) (amb amb' : Ambient)
    (hdocs : ∀ k, directory.docMap k ≠ none → (base.coc.nodes.get? k).isSome = true) :
    ∃ reply reply',
      (base.serve words calls).documentTrace amb user directory doc.id = .ok reply ∧
      (base.serve words calls').documentTrace amb' user directory doc.id = .ok reply' ∧
      (SameUpToNames reply reply' ↔ SameTree doc.cocNodeHash (base.shareEvents words calls)
        (base.shareEvents words calls')) := by
  have hgrown := hbase.grown.serve hbase hcalls
  have hgrown' := hbase.grown.serve hbase hcalls'
  rw [nil_append] at hgrown hgrown'
  obtain ⟨root, hroot, hparent⟩ := hbase.root
  obtain ⟨reply, htrace, hshows⟩ :=
    haccess.reply howner hgrown.readable (hgrown.old _ _ hroot) hparent amb directory
  obtain ⟨reply', htrace', hshows'⟩ :=
    haccess'.reply howner hgrown'.readable (hgrown'.old _ _ hroot) hparent amb' directory
  exact ⟨reply, reply', htrace, htrace',
    sameUpToNames_iff_sameTree hbase hgrown hgrown' hdocs hshows hshows'⟩

/-! ## Two histories of the minutes -/

/-- A row of the tree without a parent is the root's. -/
theorem TreeRow.root {row : NodeRow} (hrow : TreeRow doc server row) (hparent : row.parentHash = none) :
    row.nodeHash = doc.cocNodeHash := by
  obtain ⟨hstored, hbelow⟩ := hrow
  generalize hk : row.nodeHash = k at hstored hbelow
  cases hbelow with
  | refl => rfl
  | tail _ hstep =>
    obtain ⟨found, hfound, hsome⟩ := mem_childrenOf.mp hstep
    obtain rfl := Option.mem_unique hstored hfound
    cases hparent.symm.trans hsome

/-- Replies that are the same show the same recipients of the root. -/
theorem Shows.recipients_root (hreply : Shows doc server directory reply)
    (hreply' : Shows doc server' directory reply') (hsame : SameUpToNames reply reply')
    {root : NodeRow} (hroot : server.coc.nodes.get? doc.cocNodeHash = some root)
    (hparent : root.parentHash = none) :
    sortStrings (server'.coc.recorded doc.cocNodeHash)
      = sortStrings (server.coc.recorded doc.cocNodeHash) := by
  obtain ⟨ρ, hto, -⟩ := (sameUpToNames_iff hreply hreply').mp hsame
  have hkey : root.nodeHash = doc.cocNodeHash := (Table.get?_eq_some_iff.mp hroot).2
  obtain ⟨root', hroot', hview⟩ := hto root ⟨hkey.symm ▸ hroot, hkey.symm ▸ .refl⟩
  have hparent' : root'.parentHash = root.parentHash.map ρ := congrArg NodeView.parentHash hview
  rw [hparent] at hparent'
  have hrecipients : sortStrings (server'.coc.recorded root'.nodeHash)
      = sortStrings (server.coc.recorded root.nodeHash) := congrArg NodeView.recipientIds hview
  rwa [hroot'.root hparent', hkey] at hrecipients

/-- The root of the minutes. -/
def minutesRoot : CoCNode :=
  { CoCNode.new .tagged minutes.contentHash alice.peerId (1 : UInt8) [] none ⟨0, datetimeMax_pos⟩ with
    nodeHash := minutes.cocNodeHash }

/-- The office, with the root of the minutes. -/
def desk : Server .tagged := { office with coc := office.coc.addNode minutesRoot }

theorem get?_desk (k : Str) : desk.coc.nodes.get? k
    = if minutes.cocNodeHash = k then some (CocStore.rowOf minutesRoot) else none :=
  CocStore.get?_addNode rfl k

theorem parentHash_desk {k : Str} {row : NodeRow} (h : desk.coc.nodes.get? k = some row) :
    row.parentHash = none := by
  rw [get?_desk] at h
  split at h
  · rw [← Option.some.inj h]
    rfl
  · cases h

theorem uploaded_desk : Uploaded desk minutes where
  document := rfl
  users := by decide
  readable := CocStore.Readable.addNode (fun row hrow => absurd hrow not_mem_nil) minutesRoot
  linked entry hentry := absurd hentry not_mem_nil
  parents k row parent hrow hparent := by
    rw [parentHash_desk hrow] at hparent
    cases hparent
  root := ⟨_, (get?_desk _).trans (if_pos rfl), rfl⟩
  noChildren := by
    refine eq_nil_iff_forall_not_mem.mpr fun child hmem => ?_
    obtain ⟨row, hrow, hparent⟩ := mem_childrenOf.mp hmem
    rw [parentHash_desk hrow] at hparent
    cases hparent
  noRecipients := rfl
  unshared share hshare := absurd hshare not_mem_nil

/-- Alice shares the minutes with bob. -/
def shareWithBob (now : Instant) : Call := ⟨⟨now, 11, Plan.stored _⟩, alice, .share 7 bob.username⟩

/-- The desk after that. -/
def bobsDesk (now : Instant) : Server .tagged :=
  desk.afterShare .least (shareWithBob now).amb alice 7 bob

/-- The hash of a share is longer than the name of the root. -/
theorem ne_root_of_length {k : Str} (h : k.length = 64) : minutes.cocNodeHash ≠ k := by
  rintro rfl
  cases h

/-- The share with bob. -/
theorem shareEvent_desk {now : Instant} (h : (desk.shareEvent .least (shareWithBob now)).isSome) :
    ∃ childHash child,
      desk.shareEvent .least (shareWithBob now)
          = some ⟨minutes.cocNodeHash, childHash, alice.peerId, bob.peerId⟩ ∧
        Forwards desk minutes [] desk ⟨minutes.cocNodeHash, childHash, alice.peerId, bob.peerId⟩ child
          (bobsDesk now) := by
  have halice : alice ∈ desk.users := by decide
  rcases uploaded_desk.grown.share_request .least uploaded_desk (shareWithBob now).amb halice
    bob.username with
    ⟨hnone, -⟩ | ⟨⟨parent, childHash, sharer, peer⟩, child, hevent, rfl, ⟨recipient, hname, rfl⟩,
      hforwards⟩
  · cases hnone ▸ h
  · obtain rfl : bob = recipient := Option.some.inj hname
    obtain ⟨rfl, -⟩ | ⟨f, hf, -⟩ := hforwards.chain
    · exact ⟨childHash, child, hevent, hforwards⟩
    · cases hf

theorem history_shareWithBob {now : Instant}
    (h : (desk.shareEvent .least (shareWithBob now)).isSome) :
    History .least 7 desk [shareWithBob now] := by
  have halice : alice ∈ desk.users := by decide
  refine ⟨⟨rfl, halice, fun e hevent => ?_⟩, trivial⟩
  obtain ⟨childHash, child, hevent', hforwards⟩ := shareEvent_desk h
  obtain rfl := Option.mem_unique hevent' hevent
  exact (get?_desk _).trans (if_neg (ne_root_of_length hforwards.length))

theorem shareEvents_append (calls calls' : List Call) :
    server.shareEvents words (calls ++ calls')
      = server.shareEvents words calls ++ (server.serve words calls).shareEvents words calls' := by
  induction calls generalizing server with
  | nil => rfl
  | cons call calls ih =>
    rw [cons_append, shareEvents, ih, shareEvents, append_assoc, serve, serve, foldl_cons]

/-- Alice deletes the minutes and restores them. -/
def binAndBack : List Call := [⟨at0 0, alice, .delete 7⟩, ⟨at0 0, alice, .restore 7 true⟩]

/-- Alice shares the minutes with bob; or alice deletes and restores them first, and shares
them a microsecond later, so that the node of the share has another hash. -/
theorem trace_same_bob :
    ∃ reply reply',
      (desk.serve .least [shareWithBob ⟨0, datetimeMax_pos⟩]).documentTrace (at0 0) bob
          ⟨fun _ => none, fun _ => none⟩ 7 = .ok reply ∧
        (desk.serve .least (binAndBack ++ [shareWithBob ⟨1, by decide⟩])).documentTrace (at0 1) bob
          ⟨fun _ => none, fun _ => none⟩ 7 = .ok reply' ∧
        SameUpToNames reply reply' := by
  have hback : desk.serve .least binAndBack = desk := rfl
  have hshared : (desk.shareEvent .least (shareWithBob ⟨0, datetimeMax_pos⟩)).isSome ∧
      (desk.shareEvent .least (shareWithBob ⟨1, by decide⟩)).isSome := by decide +kernel
  have haccess : HasAccess (bobsDesk ⟨0, datetimeMax_pos⟩) minutes bob ∧
      HasAccess (bobsDesk ⟨1, by decide⟩) minutes bob := by
    unfold HasAccess NoActive
    decide +kernel
  have hhistory : History .least 7 desk (binAndBack ++ [shareWithBob ⟨1, by decide⟩]) :=
    ⟨⟨rfl, by decide, fun _ h => by cases h⟩, ⟨rfl, by decide, fun _ h => by cases h⟩,
      history_shareWithBob hshared.2⟩
  obtain ⟨reply, reply', htrace, htrace', hiff⟩ := trace_same_iff uploaded_desk
    (history_shareWithBob hshared.1) hhistory (by decide) haccess.1 haccess.2 (at0 0) (at0 1)
    (fun k hk => absurd rfl hk : ∀ k, (⟨fun _ => none, fun _ => none⟩ : Directory).docMap k ≠ none → _)
  refine ⟨reply, reply', htrace, htrace', hiff.mpr ?_⟩
  obtain ⟨childHash, child, hevent, hforwards⟩ := shareEvent_desk hshared.1
  obtain ⟨childHash', child', hevent', hforwards'⟩ := shareEvent_desk hshared.2
  have hevents : desk.shareEvents .least [shareWithBob ⟨0, datetimeMax_pos⟩]
      = [⟨minutes.cocNodeHash, childHash, alice.peerId, bob.peerId⟩] := by
    rw [shareEvents, hevent]
    rfl
  have hevents' : desk.shareEvents .least (binAndBack ++ [shareWithBob ⟨1, by decide⟩])
      = [⟨minutes.cocNodeHash, childHash', alice.peerId, bob.peerId⟩] := by
    rw [shareEvents_append, hback, shareEvents, hevent']
    rfl
  -- the renaming swaps the two nodes of the share and leaves the root alone
  have hroot : Equiv.swap childHash childHash' minutes.cocNodeHash = minutes.cocNodeHash :=
    Equiv.swap_apply_of_ne_of_ne (ne_root_of_length hforwards.length)
      (ne_root_of_length hforwards'.length)
  refine ⟨Equiv.swap childHash childHash', hroot, .of_eq ?_⟩
  rw [hevents, hevents', map_singleton, ShareEvent.rename, hroot, Equiv.swap_apply_left]

/-- The minutes are passed on to carol, by alice or by bob. -/
def carolsDesk (user : User) : Server .tagged :=
  (bobsDesk ⟨0, datetimeMax_pos⟩).afterShare .least (at0 12) user 7 carol

/-- There is a share with bob and one with carol, whoever passed the minutes on; alice passed
on the root, and bob another node. -/
theorem carolsDesk_facts : ∀ user ∈ [alice, bob],
    (carolsDesk user).document 7 = some minutes ∧
      (carolsDesk user).fileShares.rows.map (fun s => (s.documentId, s.recipientId, s.status))
        = [(7, bob.id, .active), (7, carol.id, .active)] ∧
      user ∈ (bobsDesk ⟨0, datetimeMax_pos⟩).users ∧
      ((bobsDesk ⟨0, datetimeMax_pos⟩).shareEvent .least
          ⟨at0 12, user, .share 7 carol.username⟩).map
            (fun e => (e.recipient, decide (e.parent = minutes.cocNodeHash)))
        = some (carol.peerId, decide (user = alice)) := by
  decide +kernel

theorem access_carolsDesk {user : User} (huser : user ∈ [alice, bob]) :
    HasAccess (carolsDesk user) minutes bob ∧
      ∀ userId, NoActive (carolsDesk user) 7 userId ↔ userId ≠ bob.id ∧ userId ≠ carol.id := by
  obtain ⟨hdoc, hshares, -⟩ := carolsDesk_facts user huser
  have hno : ∀ userId, NoActive (carolsDesk user) 7 userId ↔
      (7, userId, .active) ∉ (carolsDesk user).fileShares.rows.map
        fun s => (s.documentId, s.recipientId, s.status) := by
    simp only [NoActive, mem_map, Prod.mk.injEq, not_exists, not_and, implies_true]
  simp only [hshares, mem_cons, Prod.mk.injEq, not_mem_nil, true_and, and_true, or_false,
    not_or] at hno
  exact ⟨⟨hdoc, fun hbob => ((hno bob.id).mp hbob).1 rfl⟩, hno⟩

/-- The root names carol only if it was alice who shared with carol. -/
theorem root_carolsDesk {user : User} (huser : user ∈ [alice, bob]) :
    (carolsDesk user).coc.Readable ∧
      (∃ row, (carolsDesk user).coc.nodes.get? minutes.cocNodeHash = some row ∧
        row.parentHash = none) ∧
      (carol.peerId ∈ (carolsDesk user).coc.recorded minutes.cocNodeHash ↔ user = alice) := by
  obtain ⟨-, -, hmember, hpassed⟩ := carolsDesk_facts user huser
  have hbob : (desk.shareEvent .least (shareWithBob ⟨0, datetimeMax_pos⟩)).isSome ∧
      (bobsDesk ⟨0, datetimeMax_pos⟩).document 7 = some minutes := by decide +kernel
  obtain ⟨childHash, child, -, hforwards⟩ := shareEvent_desk hbob.1
  -- the tree after the share with bob; the share with carol is one more event on top of it
  have hgrown := uploaded_desk.grown.share uploaded_desk hforwards
    ((get?_desk _).trans (if_neg (ne_root_of_length hforwards.length))) ⟨.active, hbob.2⟩
  have hrequest := hgrown.share_request .least uploaded_desk (at0 12) hmember carol.username
  rw [show minutes.id = 7 from rfl] at hrequest
  rcases hrequest with ⟨hnone, -⟩ | ⟨e, child', hevent, -, -, hforwards'⟩
  · cases hnone ▸ hpassed
  · rw [hevent] at hpassed
    have hcarol : e.recipient = carol.peerId := congrArg Prod.fst (Option.some.inj hpassed)
    have halice : e.parent = minutes.cocNodeHash ↔ user = alice :=
      decide_eq_decide.mp (congrArg Prod.snd (Option.some.inj hpassed))
    have hne : child'.nodeHash ≠ minutes.cocNodeHash :=
      hforwards'.nodeHash.symm ▸ (ne_root_of_length hforwards'.length).symm
    have hcarols : Forwards desk minutes [_] (bobsDesk ⟨0, datetimeMax_pos⟩) e child'
        ((bobsDesk ⟨0, datetimeMax_pos⟩).afterShare .least (at0 12) user 7 carol) := hforwards'
    rw [carolsDesk, hcarols.coc, hcarol]
    refine ⟨(hgrown.readable.addNode child').addRecipient _ _, ?_, ?_⟩
    · obtain ⟨root, hroot, hparent⟩ := uploaded_desk.root
      refine ⟨root, ?_, hparent⟩
      rw [nodes_addRecipient, CocStore.get?_addNode_of_ne hne]
      exact hgrown.old _ _ hroot
    · by_cases hparent : e.parent = minutes.cocNodeHash
      · rw [hparent, recorded_addRecipient_self, mem_recordAll]
        exact iff_of_true (.inr (mem_singleton_self _)) (halice.mp hparent)
      · rw [recorded_addRecipient_of_ne _ hparent, (recorded_addNode child').2 _ hne]
        refine iff_of_false (fun hmem => ?_) (mt halice.mpr hparent)
        obtain ⟨f, hf, hrecipient, -⟩ := ((hgrown.recorded _ (.inl rfl)).2 _).mp hmem
        rw [mem_singleton.mp hf] at hrecipient
        exact absurd hrecipient (by decide : bob.peerId ≠ carol.peerId)

/-- **The reply tells the trees apart.**  Alice shares the minutes with bob and carol, or
alice shares them with bob and bob with carol: the same users have access, and bob sees the
difference. -/
theorem trace_tells_trees :
    (∀ userId, NoActive (carolsDesk alice) 7 userId ↔ NoActive (carolsDesk bob) 7 userId) ∧
      ∃ reply reply',
        (carolsDesk alice).documentTrace (at0 0) bob ⟨fun _ => none, fun _ => none⟩ 7 = .ok reply ∧
        (carolsDesk bob).documentTrace (at0 0) bob ⟨fun _ => none, fun _ => none⟩ 7 = .ok reply' ∧
        ¬ SameUpToNames reply reply' := by
  have halice : alice ∈ [alice, bob] := mem_cons_self
  have hbob : bob ∈ [alice, bob] := mem_cons_of_mem _ (mem_singleton_self bob)
  obtain ⟨haccess, hno⟩ := access_carolsDesk halice
  obtain ⟨haccess', hno'⟩ := access_carolsDesk hbob
  obtain ⟨hreadable, ⟨root, hroot, hparent⟩, hcarol⟩ := root_carolsDesk halice
  obtain ⟨hreadable', ⟨root', hroot', hparent'⟩, hcarol'⟩ := root_carolsDesk hbob
  obtain ⟨reply, htrace, hshows⟩ := haccess.reply (by decide) hreadable hroot hparent (at0 0)
    ⟨fun _ => none, fun _ => none⟩
  obtain ⟨reply', htrace', hshows'⟩ := haccess'.reply (by decide) hreadable' hroot' hparent' (at0 0)
    ⟨fun _ => none, fun _ => none⟩
  refine ⟨fun userId => (hno userId).trans (hno' userId).symm, reply, reply', htrace, htrace', ?_⟩
  intro hsame
  have hrecipients := hshows.recipients_root hshows' hsame hroot hparent
  have hseen : carol.peerId ∈ (carolsDesk bob).coc.recorded minutes.cocNodeHash := by
    rw [← mem_sortStrings, hrecipients, mem_sortStrings]
    exact hcarol.mpr rfl
  exact absurd (hcarol'.mp hseen) (by decide)

end Server

end TrustFlow.TrustDocs
