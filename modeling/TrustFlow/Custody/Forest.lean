import Mathlib.Algebra.Order.BigOperators.Group.List
import TrustFlow.Custody.Sharing
import TrustFlow.Library.Forest

/-!
# The forest of custody nodes

Honest peers create roots, forward nodes that they store, and send copies of nodes that
they store.  A copy arrives late, more than once or never, and it may take the place of a
newer one.  Deletion tokens remove nodes.

* `Exchange` — a network with all messages that were sent and all nodes that were made;
  `Exchange.step` is one action.
* `Lineage` — the chain of parents of a hash, among the nodes that were made.
* `Placed` — a stored node that fits in: its children were made from it, and its depth and
  content are those of its lineage.
* `getAllDescendants` — `CoCNode.get_all_descendants`.
* `provenance_forest` — in every reachable state all stored nodes are placed, and the
  descendants of each are found, once each.  It needs that a hash stands for one record.
-/

namespace TrustFlow.Custody

open Library List Option

/-! ## Lineages -/

/-- The hash belongs to a node whose chain of parents has the length and ends in a root
with the content. -/
inductive Lineage (C : List CoCNode) : Str → ℕ → Str → Prop where
  | root {m : CoCNode} {h c : Str} (hm : m ∈ C) (hhash : m.nodeHash = h) (hroot : m.parentHash = none)
      (hcontent : m.contentHash = c) : Lineage C h 0 c
  | child {m : CoCNode} {h p c : Str} {d : ℕ} (hm : m ∈ C) (hhash : m.nodeHash = h)
      (hparent : m.parentHash = some p) (hp : Lineage C p d c) : Lineage C h (d + 1) c

namespace Lineage

variable {C C' : List CoCNode} {h c c' : Str} {d d' : ℕ}

theorem mono (hsub : C ⊆ C') (hl : Lineage C h d c) : Lineage C' h d c := by
  induction hl with
  | root hm hhash hroot hcontent => exact .root (hsub hm) hhash hroot hcontent
  | child hm hhash hparent _ ih => exact .child (hsub hm) hhash hparent ih

/-- A hash that stands for one record has one lineage. -/
theorem unique (hC : OneRecord C) (hl : Lineage C h d c) (hl' : Lineage C h d' c') :
    d = d' ∧ c = c' := by
  induction hl generalizing d' with
  | root hm hhash hroot hcontent =>
    cases hl' with
    | root hm' hhash' hroot' hcontent' =>
      have hsame := hC _ hm _ hm' (hhash.trans hhash'.symm)
      exact ⟨rfl, hcontent.symm.trans (hsame.contentHash.trans hcontent')⟩
    | child hm' hhash' hparent' _ =>
      have hsame := hC _ hm _ hm' (hhash.trans hhash'.symm)
      rw [hsame.parentHash, hparent'] at hroot
      cases hroot
  | child hm hhash hparent _ ih =>
    cases hl' with
    | root hm' hhash' hroot' _ =>
      have hsame := hC _ hm _ hm' (hhash.trans hhash'.symm)
      rw [hsame.parentHash, hroot'] at hparent
      cases hparent
    | child hm' hhash' hparent' hp' =>
      have hsame := hC _ hm _ hm' (hhash.trans hhash'.symm)
      rw [hsame.parentHash, hparent', some_inj] at hparent
      subst hparent
      obtain ⟨rfl, rfl⟩ := ih hp'
      exact ⟨rfl, rfl⟩

/-- The lineage of the parent. -/
theorem of_parent (hC : OneRecord C) (hl : Lineage C h d c) {m : CoCNode} (hm : m ∈ C)
    (hhash : m.nodeHash = h) {p : Str} (hparent : m.parentHash = some p) :
    ∃ d', d = d' + 1 ∧ Lineage C p d' c := by
  cases hl with
  | root hm' hhash' hroot' _ =>
    have hsame := hC _ hm _ hm' (hhash.trans hhash'.symm)
    rw [hsame.parentHash, hroot'] at hparent
    cases hparent
  | child hm' hhash' hparent' hp =>
    have hsame := hC _ hm _ hm' (hhash.trans hhash'.symm)
    rw [hsame.parentHash, hparent', some_inj] at hparent
    exact ⟨_, rfl, hparent ▸ hp⟩

end Lineage

/-- The node fits into the forest of the nodes that were made. -/
structure Placed (C : List CoCNode) (n : CoCNode) : Prop where
  named : n.nodeHash ≠ []
  signed : n.signature ≠ some []
  record : ∃ m ∈ C, n.SameRecord m
  lineage : ∃ d : ℕ, n.depth = d ∧ Lineage C n.nodeHash d n.contentHash
  children : ∀ c ∈ n.childrenHashes, ∃ m ∈ C, m.nodeHash = c ∧ m.parentHash = some n.nodeHash

namespace Placed

variable {C C' : List CoCNode} {n parent : CoCNode}

theorem mono (hsub : C ⊆ C') (h : Placed C n) : Placed C' n where
  named := h.named
  signed := h.signed
  record := by
    obtain ⟨m, hm, hsame⟩ := h.record
    exact ⟨m, hsub hm, hsame⟩
  lineage := by
    obtain ⟨d, hd, hl⟩ := h.lineage
    exact ⟨d, hd, hl.mono hsub⟩
  children c hc := by
    obtain ⟨m, hm, hmade⟩ := h.children c hc
    exact ⟨m, hsub hm, hmade⟩

/-- The node with a child that was made from it. -/
theorem withChild (h : Placed C n) {m : CoCNode} (hm : m ∈ C)
    (hparent : m.parentHash = some n.nodeHash) : Placed C (n.withChild m.nodeHash) where
  named := h.named
  signed := h.signed
  record := by
    obtain ⟨made, hmade, hsame⟩ := h.record
    exact ⟨made, hmade, (CoCNode.SameRecord.withChild n m.nodeHash).trans hsame⟩
  lineage := h.lineage
  children c hc := by
    rcases Finset.mem_insert.mp hc with rfl | hc
    · exact ⟨m, hm, rfl, hparent⟩
    · exact h.children c hc

/-- No node was made from itself. -/
theorem parentHash_ne (hC : OneRecord C) (h : Placed C n) : n.parentHash ≠ some n.nodeHash := by
  intro hself
  obtain ⟨m, hm, hsame⟩ := h.record
  obtain ⟨d, -, hl⟩ := h.lineage
  obtain ⟨d', rfl, hp⟩ := hl.of_parent hC hm hsame.nodeHash.symm (hsame.parentHash.symm.trans hself)
  obtain ⟨hd, -⟩ := hl.unique hC hp
  omega

/-- The node with the depth below its parent. -/
theorem below (hC : OneRecord C) (h : Placed C n) (hparent : Placed C parent)
    (hhash : n.parentHash = some parent.nodeHash) : Placed C (n.below parent) := by
  obtain ⟨m, hm, hsame⟩ := h.record
  obtain ⟨d, -, hl⟩ := h.lineage
  obtain ⟨e, he, hle⟩ := hparent.lineage
  have hmade : m.parentHash = some parent.nodeHash := hsame.parentHash.symm.trans hhash
  obtain ⟨d', rfl, hp⟩ := hl.of_parent hC hm hsame.nodeHash.symm hmade
  obtain ⟨rfl, -⟩ := hp.unique hC hle
  have hrecord := (CoCNode.SameRecord.below n parent).trans hsame
  refine ⟨h.named, h.signed, ⟨m, hm, hrecord⟩, ⟨d' + 1, ?_, hl⟩, h.children⟩
  show parent.depth + 1 = _
  rw [he]
  rfl

end Placed

/-! ## Storages -/

namespace InMemoryStorage

/-- All nodes of the storage are placed. -/
def AllPlaced (C : List CoCNode) (s : InMemoryStorage) : Prop :=
  ∀ h n, s.getNode h = some n → Placed C n

variable {C C' : List CoCNode} {s : InMemoryStorage} {node : CoCNode}

theorem AllPlaced.mono (hsub : C ⊆ C') (h : s.AllPlaced C) : s.AllPlaced C' :=
  fun x n hn => (h x n hn).mono hsub

theorem allPlaced_empty : empty.AllPlaced C := fun _ _ hn => by cases hn

theorem AllPlaced.addNode (h : s.AllPlaced C) (hnode : Placed C node) :
    (s.addNode node).AllPlaced C := by
  intro x n hn
  rw [getNode_addNode] at hn
  split at hn
  · exact some.inj hn ▸ hnode
  · exact h x n hn

theorem AllPlaced.linkParent (hC : OneRecord C) (h : s.AllPlaced C) (hnode : Placed C node) :
    (s.linkParent node).AllPlaced C := by
  unfold InMemoryStorage.linkParent
  split
  case h_1 => exact h
  case h_2 => exact h
  case h_3 parentHash _ hparentHash =>
    split
    case h_1 => exact h
    case h_2 parent hget =>
      have hparent := h parentHash parent hget
      obtain rfl := nodeHash_of_getNode hget
      have hbelow := hnode.below hC hparent hparentHash
      have hne : parent.nodeHash ≠ node.nodeHash := fun heq =>
        hnode.parentHash_ne hC (heq ▸ hparentHash)
      obtain ⟨m, hm, hsame⟩ := hnode.record
      dsimp only
      rw [if_neg hne, hsame.nodeHash]
      exact (h.addNode hbelow).addNode
        (hparent.withChild hm (hsame.parentHash.symm.trans hparentHash))

/-- **Receiving a copy** leaves all nodes placed, whichever copy it replaces. -/
theorem AllPlaced.receiveNode (hC : OneRecord C) (h : s.AllPlaced C) (hnode : Placed C node)
    (content : Str) : (s.receiveNode node content).AllPlaced C := by
  have hadded : ((s.addNode node).addContent node.contentHash content).AllPlaced C :=
    h.addNode hnode
  exact hadded.linkParent hC hnode

end InMemoryStorage

/-! ## Exchanges -/

/-- What happens next.  `send` passes on a copy of a stored node, as it is then; what was
sent may be delivered at any time and any number of times. -/
inductive ExchangeAction (S : SignatureScheme) where
  | join (id : Str) (key : S.SigningKey)
  | create (id content : Str) (recipientIds : List Str)
  | forward (id parentHash : Str) (recipientIds : List Str)
  | send (id nodeHash recipientId content : Str)
  | deliver (i : ℕ)
  | process (id : Str) (token : DeletionToken)

/-- A network, the messages that were sent, and the nodes that were made. -/
structure Exchange (S : SignatureScheme) where
  net : Network S
  sent : List Message
  made : List CoCNode

namespace Exchange

variable {S : SignatureScheme}

/-- Nobody has joined. -/
def start : Exchange S := ⟨.empty, [], []⟩

section

variable (iso : IsoReader) (cfg : EngineConfig) (ex : Exchange S)

/-- The peer receives the message. -/
def receive (amb : Ambient) (id : Str) (msg : Message) : Exchange S :=
  match ex.net.findPeer id with
  | none => ex
  | some p => { ex with net := (ex.net.receiveMessage iso cfg amb p msg).1 }

/-- One action. -/
def step : Ambient × ExchangeAction S → Exchange S
  | (_, .join id key) => { ex with net := ex.net.addPeer id key }
  | (amb, .create id content recipientIds) =>
    match ex.net.findPeer id with
    | none => ex
    | some p =>
      let (net, node) := ex.net.createCocRoot amb p content recipientIds
      { ex with net, made := ex.made ++ [node] }
  | (amb, .forward id parentHash recipientIds) =>
    match ex.net.findPeer id with
    | none => ex
    | some p =>
      match p.storage.getNode parentHash with
      | none => ex
      | some parent =>
        let (net, child) := ex.net.forwardCocMessage amb p parent recipientIds
        { ex with net, made := ex.made ++ [child] }
  | (amb, .send id nodeHash recipientId content) =>
    match ex.net.nodeAt id nodeHash with
    | none => ex
    | some node =>
      { ex with
        sent := ex.sent ++ [⟨id, recipientId, .cocData (node.toDict amb.order) content⟩] }
  | (amb, .deliver i) =>
    match ex.sent[i]? with
    | none => ex
    | some msg => ex.receive iso cfg amb msg.recipientId msg
  | (amb, .process id token) => ex.receive iso cfg amb id ⟨[], id, .deletionToken token⟩

/-- A series of actions. -/
def run (actions : List (Ambient × ExchangeAction S)) : Exchange S :=
  actions.foldl (step iso cfg) ex

end

/-- All nodes that are stored or on their way are placed. -/
structure Sound (C : List CoCNode) (ex : Exchange S) : Prop where
  stored : ∀ id s, ex.net.storageOf id = some s → s.AllPlaced C
  sent : ∀ msg ∈ ex.sent, ∃ order node content,
    msg.body = .cocData (CoCNode.toDict order node) content ∧ Placed C node

variable {iso : IsoReader} {cfg : EngineConfig} {C C' : List CoCNode} {ex : Exchange S}

theorem Sound.mono (hsub : C ⊆ C') (h : Sound C ex) : Sound C' ex where
  stored id s hs := (h.stored id s hs).mono hsub
  sent msg hmsg := by
    obtain ⟨order, node, content, hbody, hplaced⟩ := h.sent msg hmsg
    exact ⟨order, node, content, hbody, hplaced.mono hsub⟩

theorem sound_start : Sound C (start : Exchange S) where
  stored id s hs := by cases hs
  sent _ hmsg := by cases hmsg

/-- A peer is written back with another storage. -/
theorem Sound.setPeer (h : Sound C ex) {p : Peer S} (hp : p.storage.AllPlaced C) :
    Sound C { ex with net := ex.net.setPeer p } where
  stored id s hs := by
    rw [show (Network.setPeer ex.net p).storageOf id = _ from Network.storageOf_setPeer ex.net p id] at hs
    split at hs
    · exact some.inj hs ▸ hp
    · exact h.stored id s hs
  sent := h.sent

theorem Sound.receive (hC : OneRecord C) (h : Sound C ex) (amb : Ambient) {id : Str} {msg : Message}
    (hmsg : msg ∈ ex.sent ∨ ∃ token, msg.body = .deletionToken token) :
    Sound C (ex.receive iso cfg amb id msg) := by
  rw [Exchange.receive]
  cases hfind : ex.net.findPeer id with
  | none => exact h
  | some p =>
    have hp := h.stored id p.storage (Network.storageOf_of_findPeer hfind)
    refine ⟨fun id' s hs => ?_, h.sent⟩
    dsimp only at hs
    rcases hmsg with hmsg | ⟨token, hbody⟩
    · obtain ⟨order, node, content, hbody, hnode⟩ := h.sent msg hmsg
      rw [Network.storageOf_receive_cocData hbody (CoCNode.fromDict_toDict order hnode.signed)] at hs
      split at hs
      · exact some.inj hs ▸ hp.receiveNode hC hnode content
      · exact h.stored id' s hs
    · rw [Network.storageOf_receive_token hbody] at hs
      split at hs
      · rw [← some.inj hs]
        exact fun x n hn => hp x n (getNode_of_processToken hn)
      · exact h.stored id' s hs

/-- The node that a creation adds is placed. -/
theorem placed_new_root (net : Network S) {p : Peer S} {amb : Ambient} {content : Str}
    {recipientIds : List Str} (hmem : (net.createCocRoot amb p content recipientIds).2 ∈ C) :
    Placed C (net.createCocRoot amb p content recipientIds).2 where
  named := sha256Hex_ne_nil _
  signed := fun hnil => S.sign_ne_nil _ _ (some.inj hnil)
  record := ⟨_, hmem, .refl _⟩
  lineage := ⟨0, rfl, .root hmem rfl rfl rfl⟩
  children := fun c hc => absurd hc (Finset.notMem_empty c)

/-- The node that a forward adds is placed. -/
theorem placed_new_child (net : Network S) {p : Peer S} {amb : Ambient} {parent : CoCNode}
    {recipientIds : List Str} (hparent : Placed C parent)
    (hmem : (net.forwardCocMessage amb p parent recipientIds).2 ∈ C) :
    Placed C (net.forwardCocMessage amb p parent recipientIds).2 where
  named := sha256Hex_ne_nil _
  signed := fun hnil => S.sign_ne_nil _ _ (some.inj hnil)
  record := ⟨_, hmem, .refl _⟩
  lineage := by
    obtain ⟨d, hd, hl⟩ := hparent.lineage
    refine ⟨d + 1, ?_, .child hmem rfl rfl hl⟩
    show parent.depth + 1 = _
    rw [hd]
    rfl
  children := fun c hc => absurd hc (Finset.notMem_empty c)

theorem made_receive (amb : Ambient) (id : Str) (msg : Message) :
    (ex.receive iso cfg amb id msg).made = ex.made := by
  rw [receive]
  split <;> rfl

/-- **One action** leaves all nodes placed. -/
theorem Sound.step (h : Sound ex.made ex) {action : Ambient × ExchangeAction S}
    (hC : OneRecord (ex.step iso cfg action).made) :
    Sound (ex.step iso cfg action).made (ex.step iso cfg action) := by
  obtain ⟨amb, action⟩ := action
  cases action with
  | join id key => exact h.setPeer InMemoryStorage.allPlaced_empty
  | create id content recipientIds =>
    rw [Exchange.step]
    cases hfind : ex.net.findPeer id with
    | none => exact h
    | some p =>
      have hgrown := h.mono (subset_append_left ex.made
        [(ex.net.createCocRoot amb p content recipientIds).2])
      have hnew := placed_new_root ex.net (mem_append_right ex.made
        (mem_singleton_self (ex.net.createCocRoot amb p content recipientIds).2))
      have hp := hgrown.stored id p.storage (Network.storageOf_of_findPeer hfind)
      exact ⟨(hgrown.setPeer (hp.addNode hnew)).stored, hgrown.sent⟩
  | forward id parentHash recipientIds =>
    rw [Exchange.step]
    cases hfind : ex.net.findPeer id with
    | none => exact h
    | some p =>
      dsimp only
      cases hget : p.storage.getNode parentHash with
      | none => exact h
      | some parent =>
        have hgrown := h.mono (subset_append_left ex.made
          [(ex.net.forwardCocMessage amb p parent recipientIds).2])
        have hp := hgrown.stored id p.storage (Network.storageOf_of_findPeer hfind)
        have hparent := hp parentHash parent hget
        have hmem := mem_append_right ex.made
          (mem_singleton_self (ex.net.forwardCocMessage amb p parent recipientIds).2)
        have hnew := placed_new_child ex.net hparent hmem
        exact ⟨(hgrown.setPeer ((hp.addNode hnew).addNode (hparent.withChild hmem rfl))).stored,
          hgrown.sent⟩
  | send id nodeHash recipientId content =>
    rw [Exchange.step]
    cases hget : ex.net.nodeAt id nodeHash with
    | none => exact h
    | some node =>
      refine ⟨h.stored, fun msg hmsg => ?_⟩
      rcases mem_append.mp hmsg with hmsg | hmsg
      · exact h.sent msg hmsg
      · obtain ⟨s, hs, hnode⟩ := bind_eq_some_iff.mp hget
        rw [mem_singleton.mp hmsg]
        exact ⟨amb.order, node, content, rfl, h.stored id s hs nodeHash node hnode⟩
  | deliver i =>
    rw [Exchange.step] at hC ⊢
    cases hmsg : ex.sent[i]? with
    | none => exact h
    | some msg =>
      rw [hmsg] at hC
      dsimp only at hC ⊢
      rw [made_receive] at hC ⊢
      exact h.receive hC amb (.inl (mem_of_getElem? hmsg))
  | process id token =>
    rw [Exchange.step] at hC ⊢
    rw [made_receive] at hC ⊢
    exact h.receive hC amb (.inr ⟨token, rfl⟩)

theorem made_step (action : Ambient × ExchangeAction S) :
    ex.made ⊆ (ex.step iso cfg action).made := by
  obtain ⟨amb, action⟩ := action
  cases action with
  | join id key => exact .refl _
  | create id content recipientIds =>
    rw [Exchange.step]
    split
    · exact .refl _
    · exact subset_append_left _ _
  | forward id parentHash recipientIds =>
    rw [Exchange.step]
    split
    · exact .refl _
    · split
      · exact .refl _
      · exact subset_append_left _ _
  | send id nodeHash recipientId content =>
    rw [Exchange.step]
    split <;> exact .refl _
  | deliver i =>
    rw [Exchange.step]
    split
    · exact .refl _
    · rw [made_receive]
      exact .refl _
  | process id token =>
    rw [Exchange.step, made_receive]
    exact .refl _

theorem made_run (actions : List (Ambient × ExchangeAction S)) :
    ex.made ⊆ (ex.run iso cfg actions).made := by
  induction actions generalizing ex with
  | nil => exact .refl _
  | cons action actions ih => exact List.Subset.trans (made_step action) ih

/-- **Every run** leaves all nodes placed. -/
theorem Sound.run (h : Sound ex.made ex) {actions : List (Ambient × ExchangeAction S)}
    (hC : OneRecord (ex.run iso cfg actions).made) :
    Sound (ex.run iso cfg actions).made (ex.run iso cfg actions) := by
  induction actions generalizing ex with
  | nil => exact h
  | cons action actions ih =>
    have hnow : OneRecord (ex.step iso cfg action).made :=
      fun n hn m hm => hC n (made_run actions hn) m (made_run actions hm)
    exact ih (h.step hnow) hC

end Exchange

/-! ## Descendants -/

namespace InMemoryStorage

/-- `get_all_descendants`, with a bound on the depth of the recursion. -/
def getAllDescendants (order : SetOrder) (s : InMemoryStorage) : ℕ → CoCNode → Option (List CoCNode)
  | 0, _ => none
  | depth + 1, node =>
    (order.list node.childrenHashes).foldlM (fun descendants childHash =>
        match s.getNode childHash with
        | none => some descendants
        | some child =>
          (getAllDescendants order s depth child).map (descendants ++ [child] ++ ·)) []

/-- The children of a node that are stored. -/
def storedChildren (order : SetOrder) (s : InMemoryStorage) (node : CoCNode) : List CoCNode :=
  (order.list node.childrenHashes).filterMap s.getNode

/-- The node is reached through stored children. -/
def Descends (s : InMemoryStorage) : CoCNode → CoCNode → Prop :=
  Relation.TransGen fun parent child =>
    child.nodeHash ∈ parent.childrenHashes ∧ s.getNode child.nodeHash = some child

variable {order : SetOrder} {s : InMemoryStorage}

theorem mem_storedChildren {node child : CoCNode} : child ∈ storedChildren order s node ↔
    child.nodeHash ∈ node.childrenHashes ∧ s.getNode child.nodeHash = some child := by
  rw [storedChildren, mem_filterMap]
  constructor
  · rintro ⟨childHash, hmem, hget⟩
    obtain rfl := nodeHash_of_getNode hget
    exact ⟨(order.mem_list _ _).mp hmem, hget⟩
  · rintro ⟨hmem, hget⟩
    exact ⟨_, (order.mem_list _ _).mpr hmem, hget⟩

theorem below_iff_descends {node descendant : CoCNode} :
    Below (storedChildren order s) node descendant ↔ s.Descends node descendant := by
  have hrel : (fun parent child => child ∈ storedChildren order s parent)
      = fun parent child : CoCNode =>
        child.nodeHash ∈ parent.childrenHashes ∧ s.getNode child.nodeHash = some child := by
    funext parent child
    exact propext mem_storedChildren
  rw [Below, hrel]
  rfl

/-- The loop of `get_all_descendants`, for what it finds below each child. -/
theorem foldlM_children (below : CoCNode → Option (List CoCNode)) (hashes : List Str)
    (descendants : List CoCNode) :
    hashes.foldlM (fun descendants childHash =>
          match s.getNode childHash with
          | none => some descendants
          | some child => (below child).map (descendants ++ [child] ++ ·)) descendants
      = ((hashes.filterMap s.getNode).mapM fun child => (below child).map (child :: ·)).map
          (descendants ++ List.flatten ·) := by
  induction hashes generalizing descendants with
  | nil => exact congrArg some (append_nil descendants).symm
  | cons childHash hashes ih =>
    rw [foldlM_cons]
    cases hget : s.getNode childHash with
    | none =>
      rw [filterMap_cons_none hget]
      exact ih descendants
    | some child =>
      rw [filterMap_cons_some hget, mapM_cons]
      dsimp only
      cases below child with
      | none => rfl
      | some found =>
        show List.foldlM _ (descendants ++ [child] ++ found) hashes = _
        rw [ih]
        generalize List.mapM (fun child => (below child).map (child :: ·))
          (hashes.filterMap s.getNode) = rest
        cases rest with
        | none => rfl
        | some rest => simp

/-- `get_all_descendants` walks through the stored children. -/
theorem getAllDescendants_eq_walk (depth : ℕ) (node : CoCNode) :
    getAllDescendants order s depth node = walk (storedChildren order s) depth node := by
  induction depth generalizing node with
  | zero => rfl
  | succ depth ih =>
    rw [getAllDescendants, walk, foldlM_children, funext ih]
    rfl

variable (order) in
/-- **The stored children are those of a forest.** -/
theorem forest_storedChildren {C : List CoCNode} (hC : OneRecord C) (h : s.AllPlaced C) :
    ∃ bound, Forest (storedChildren order s) (fun n => s.getNode n.nodeHash = some n)
      (fun n => n.depth.toNat) bound := by
  refine ⟨(s.nodes.values.map fun n => n.depth.toNat).sum, ?_, ?_, ?_, ?_, ?_⟩
  · exact fun _ _ child hchild => (mem_storedChildren.mp hchild).2
  · intro node _
    refine (order.nodup _).filterMap fun a b n ha hb => ?_
    exact (nodeHash_of_getNode ha).symm.trans (nodeHash_of_getNode hb)
  · intro a b ha hb child hchilda hchildb
    obtain ⟨m, hm, hhash, hparent⟩ := (h _ a ha).children _ (mem_storedChildren.mp hchilda).1
    obtain ⟨m', hm', hhash', hparent'⟩ := (h _ b hb).children _ (mem_storedChildren.mp hchildb).1
    have hsame := hC m hm m' hm' (hhash.trans hhash'.symm)
    have hparents : a.nodeHash = b.nodeHash :=
      mem_unique hparent (hsame.parentHash.trans hparent')
    exact mem_unique ha (hparents ▸ hb)
  · intro a ha child hchild
    obtain ⟨hmem, hget⟩ := mem_storedChildren.mp hchild
    obtain ⟨m, hm, hhash, hparent⟩ := (h _ a ha).children _ hmem
    obtain ⟨d, hd, hl⟩ := (h _ a ha).lineage
    obtain ⟨d', hd', hl'⟩ := (h _ child hget).lineage
    obtain ⟨rfl, -⟩ := hl'.unique hC (.child hm hhash hparent hl)
    rw [hd, hd']
    rfl
  · intro a ha
    exact le_sum_of_mem (mem_map_of_mem (Dict.mem_values.mpr ⟨_, ha⟩))

/-- What is reached is stored. -/
theorem Descends.getNode {node descendant : CoCNode} (h : s.Descends node descendant) :
    s.getNode descendant.nodeHash = some descendant := by
  obtain ⟨_, _, hstep⟩ := Relation.TransGen.tail'_iff.mp h
  exact hstep.2

variable (order) in
/-- **All descendants** of a stored node are found, once each. -/
theorem getAllDescendants_spec {C : List CoCNode} (hC : OneRecord C) (h : s.AllPlaced C)
    {node : CoCNode} (hnode : s.getNode node.nodeHash = some node) :
    ∃ found, (∃ enough, ∀ depth ≥ enough, s.getAllDescendants order depth node = some found) ∧
      (found.map CoCNode.nodeHash).Nodup ∧ ∀ m, m ∈ found ↔ s.Descends node m := by
  obtain ⟨bound, hforest⟩ := forest_storedChildren order hC h
  obtain ⟨found, hfound, hnodup, hmem⟩ :=
    hforest.walk_spec hnode (Nat.lt_add_left _ (Nat.lt_succ_self bound))
  have hbelow : ∀ m, m ∈ found ↔ s.Descends node m :=
    fun m => (hmem m).trans below_iff_descends
  refine ⟨found, ⟨bound + 1, fun depth hdepth => ?_⟩, ?_, hbelow⟩
  · rw [getAllDescendants_eq_walk, hfound depth hdepth]
  · refine hnodup.map_on fun a ha b hb hhash => ?_
    have hget := ((hbelow a).mp ha).getNode
    rw [hhash, ((hbelow b).mp hb).getNode] at hget
    exact (some.inj hget).symm

end InMemoryStorage

/-! ## The forest -/

/-- The stored nodes of all peers form a forest. -/
structure IsForest {S : SignatureScheme} (C : List CoCNode) (net : Network S) : Prop where
  /-- The children of a stored node were made from it. -/
  children : ∀ id p n, net.nodeAt id p = some n → ∀ c ∈ n.childrenHashes,
    ∃ m ∈ C, m.nodeHash = c ∧ m.parentHash = some n.nodeHash
  /-- The depth of a stored node is the length of its chain of parents, and its content is
  that of the root. -/
  lineage : ∀ id h n, net.nodeAt id h = some n →
    ∃ d : ℕ, n.depth = d ∧ Lineage C n.nodeHash d n.contentHash
  /-- The descendants of a stored node are found, however its children are listed, and
  each of them once. -/
  descendants : ∀ order id s, net.storageOf id = some s → ∀ h n, s.getNode h = some n →
    ∃ found, (∃ enough, ∀ depth ≥ enough, s.getAllDescendants order depth n = some found) ∧
      (found.map CoCNode.nodeHash).Nodup ∧ ∀ m, m ∈ found ↔ s.Descends n m

/-- **The provenance forest.**  Whatever honest peers do, and in whichever order, how often
and if at all their messages arrive, the stored nodes form a forest. -/
theorem provenance_forest {S : SignatureScheme} (iso : IsoReader) (cfg : EngineConfig)
    (actions : List (Ambient × ExchangeAction S))
    (hC : OneRecord (Exchange.start.run iso cfg actions).made) :
    IsForest (Exchange.start.run iso cfg actions).made (Exchange.start.run iso cfg actions).net := by
  have hsound := Exchange.sound_start.run hC
  have hplaced : ∀ id h n, (Exchange.start.run iso cfg actions).net.nodeAt id h = some n →
      Placed (Exchange.start.run iso cfg actions).made n := by
    intro id h n hn
    obtain ⟨s, hs, hget⟩ := bind_eq_some_iff.mp hn
    exact hsound.stored id s hs h n hget
  refine ⟨fun id p n hn => (hplaced id p n hn).children,
    fun id h n hn => (hplaced id h n hn).lineage, fun order id s hs h n hn => ?_⟩
  exact InMemoryStorage.getAllDescendants_spec order hC (hsound.stored id s hs)
    (InMemoryStorage.nodeHash_of_getNode hn ▸ hn)

/-! ### A node that comes back -/

open Network (noon memo)

theorem oneRecord_of_nodup {C : List CoCNode} (h : (C.map CoCNode.nodeHash).Nodup) : OneRecord C := by
  intro n hn m hm hhash
  rw [inj_on_of_nodup_map h hn hm hhash]
  exact .refl m

/-- Alice sends bob a node, bob forwards it to alice, and alice's message arrives once
more. -/
def thereAndBack : List (Ambient × ExchangeAction .tagged) :=
  [(noon, .join "alice" (1 : UInt8)), (noon, .join "bob" (2 : UInt8)),
    (noon, .create "alice" "budget" ["bob"]),
    (noon, .send "alice" memo.nodeHash "bob" "budget"), (noon, .deliver 0),
    (noon, .forward "bob" memo.nodeHash ["alice"]), (noon, .deliver 0)]

/-- The two nodes that were made form a forest in the storages of both. -/
theorem provenance_forest_thereAndBack :
    (Exchange.start.run isoReader .default thereAndBack).made.length = 2 ∧
      IsForest (Exchange.start.run isoReader .default thereAndBack).made
        (Exchange.start.run isoReader .default thereAndBack).net := by
  have hmade : (Exchange.start.run isoReader .default thereAndBack).made.length = 2 ∧
      ((Exchange.start.run isoReader .default thereAndBack).made.map CoCNode.nodeHash).Nodup := by
    decide +kernel
  exact ⟨hmade.1, provenance_forest isoReader .default thereAndBack (oneRecord_of_nodup hmade.2)⟩

end TrustFlow.Custody
