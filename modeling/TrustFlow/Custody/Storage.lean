import Mathlib.Data.Finset.Basic
import TrustFlow.Custody.CoCNode

/-!
# The storage of a peer

`InMemoryStorage` of `interfaces/storage_backend.py`: nodes by hash, contents by
content hash, and for each content hash the set of the nodes that carry it.

The index is kept by hand in the source.  Here its agreement with the nodes is
a field of the structure, so every storage that can be built has it, and
`isContentReferenced_iff` is the one fact about the index that the rest of the
development uses.

Each method is one step, and none of them fails.  Tombstones are written and never
read back by a peer, so only `add_tombstone` is here.
-/

namespace TrustFlow.Custody

open Library

/-- `ContentTombstone`. -/
structure ContentTombstone where
  contentHash : Str
  deletedAt : Str
  deleteAfter : Str
  originatorId : Str
  nodeHash : Str
  deriving DecidableEq

/-! ## The index of contents -/

variable (refs : Dict Str (Finset Str))

/-- The nodes indexed under a content hash. -/
def refsOf (contentHash : Str) : Finset Str :=
  (refs.get? contentHash).getD ∅

/-- Discard a node from the set of a content hash, and an empty set with it. -/
def discardRef (contentHash nodeHash : Str) : Dict Str (Finset Str) :=
  match refs.get? contentHash with
  | none => refs
  | some hashes =>
    if hashes.erase nodeHash = ∅ then refs.erase contentHash
    else refs.set contentHash (hashes.erase nodeHash)

/-- Add a node to the set of a content hash. -/
def addRef (contentHash nodeHash : Str) : Dict Str (Finset Str) :=
  refs.set contentHash (insert nodeHash (refsOf refs contentHash))

/-- Take the entry of a stored node out of the index. -/
def forgetNode (nodes : Dict Str CoCNode) (refs : Dict Str (Finset Str)) (nodeHash : Str) :
    Dict Str (Finset Str) :=
  match nodes.get? nodeHash with
  | none => refs
  | some old => discardRef refs old.contentHash nodeHash

/-- The index agrees with the nodes. -/
def Indexes (nodes : Dict Str CoCNode) (refs : Dict Str (Finset Str)) : Prop :=
  ∀ contentHash nodeHash, nodeHash ∈ refsOf refs contentHash ↔
    ∃ n, nodes.get? nodeHash = some n ∧ n.contentHash = contentHash

/-- No set of the index is empty. -/
def NoEmptySet : Prop :=
  ∀ contentHash hashes, refs.get? contentHash = some hashes → hashes.Nonempty

theorem refsOf_discardRef (c h c' : Str) :
    refsOf (discardRef refs c h) c' = if c = c' then (refsOf refs c).erase h else refsOf refs c' := by
  cases hget : refs.get? c with
  | none =>
    by_cases hc : c = c'
    · subst hc
      simp [discardRef, refsOf, hget]
    · simp [discardRef, hget, hc]
  | some hashes =>
    by_cases hc : c = c'
    · subst hc
      by_cases hempty : hashes.erase h = ∅
      · simp [discardRef, refsOf, hget, hempty]
      · simp [discardRef, refsOf, hget, hempty]
    · by_cases hempty : hashes.erase h = ∅
      · simp [discardRef, refsOf, hget, hempty, hc, Dict.get?_erase_of_ne]
      · simp [discardRef, refsOf, hget, hempty, hc, Dict.get?_set_of_ne]

theorem refsOf_addRef (c h c' : Str) :
    refsOf (addRef refs c h) c' = if c = c' then insert h (refsOf refs c) else refsOf refs c' := by
  rw [addRef, refsOf, Dict.get?_set]
  by_cases hc : c = c'
  · simp [hc]
  · simp [hc, refsOf]

theorem noEmptySet_discardRef {refs : Dict Str (Finset Str)} (hrefs : NoEmptySet refs)
    (c h : Str) : NoEmptySet (discardRef refs c h) := by
  intro c' hashes' hget'
  rw [discardRef] at hget'
  cases hget : refs.get? c with
  | none =>
    rw [hget] at hget'
    exact hrefs c' hashes' hget'
  | some hashes =>
    rw [hget] at hget'
    dsimp only at hget'
    by_cases hempty : hashes.erase h = ∅
    · rw [if_pos hempty, Dict.get?_erase] at hget'
      by_cases hc : c = c'
      · rw [if_pos hc] at hget'
        cases hget'
      · rw [if_neg hc] at hget'
        exact hrefs c' hashes' hget'
    · rw [if_neg hempty, Dict.get?_set] at hget'
      by_cases hc : c = c'
      · rw [if_pos hc, Option.some_inj] at hget'
        exact hget' ▸ Finset.nonempty_iff_ne_empty.mpr hempty
      · rw [if_neg hc] at hget'
        exact hrefs c' hashes' hget'

theorem noEmptySet_addRef {refs : Dict Str (Finset Str)} (hrefs : NoEmptySet refs) (c h : Str) :
    NoEmptySet (addRef refs c h) := by
  intro c' hashes' hget'
  rw [addRef, Dict.get?_set] at hget'
  by_cases hc : c = c'
  · rw [if_pos hc, Option.some_inj] at hget'
    exact hget' ▸ Finset.insert_nonempty _ _
  · rw [if_neg hc] at hget'
    exact hrefs c' hashes' hget'

section

variable {nodes : Dict Str CoCNode} {refs : Dict Str (Finset Str)}

theorem noEmptySet_forgetNode (hrefs : NoEmptySet refs) (h : Str) :
    NoEmptySet (forgetNode nodes refs h) := by
  rw [forgetNode]
  cases nodes.get? h with
  | none => exact hrefs
  | some old => exact noEmptySet_discardRef hrefs _ _

/-- A forgotten node is in no set of the index, every other node is where it
was. -/
theorem mem_refsOf_forgetNode (hindex : Indexes nodes refs) (h c h' : Str) :
    h' ∈ refsOf (forgetNode nodes refs h) c ↔ h' ≠ h ∧ h' ∈ refsOf refs c := by
  rw [forgetNode]
  cases hget : nodes.get? h with
  | none =>
    refine ⟨fun hmem => ⟨?_, hmem⟩, And.right⟩
    rintro rfl
    obtain ⟨n, hn, -⟩ := (hindex c h').mp hmem
    cases hget.symm.trans hn
  | some old =>
    rw [refsOf_discardRef]
    by_cases hc : old.contentHash = c
    · rw [if_pos hc, Finset.mem_erase, hc]
    · rw [if_neg hc]
      refine ⟨fun hmem => ⟨?_, hmem⟩, And.right⟩
      rintro rfl
      obtain ⟨n, hn, hcontent⟩ := (hindex c h').mp hmem
      rw [hget, Option.some_inj] at hn
      exact hc (hn ▸ hcontent)

theorem indexes_erase (hindex : Indexes nodes refs) (h : Str) :
    Indexes (nodes.erase h) (forgetNode nodes refs h) := by
  intro c h'
  rw [mem_refsOf_forgetNode hindex, hindex c h', Dict.get?_erase]
  by_cases hh : h = h'
  · simp [hh]
  · simp [hh, Ne.symm hh]

theorem indexes_set (hindex : Indexes nodes refs) (n : CoCNode) :
    Indexes (nodes.set n.nodeHash n)
      (addRef (forgetNode nodes refs n.nodeHash) n.contentHash n.nodeHash) := by
  intro c h
  have hforget := mem_refsOf_forgetNode hindex n.nodeHash c h
  rw [hindex c h] at hforget
  rw [refsOf_addRef, Dict.get?_set]
  by_cases hh : n.nodeHash = h
  · subst hh
    by_cases hc : n.contentHash = c
    · simp [hc]
    · simpa [hc] using hforget
  · by_cases hc : n.contentHash = c
    · subst hc
      simpa [hh, Ne.symm hh] using hforget
    · simpa [hh, Ne.symm hh, hc] using hforget

end

/-! ## Storages -/

/-- `InMemoryStorage`. -/
structure InMemoryStorage where
  nodes : Dict Str CoCNode
  content : Dict Str Str
  contentRefs : Dict Str (Finset Str)
  tombstones : Dict Str ContentTombstone
  keyed : ∀ h n, nodes.get? h = some n → n.nodeHash = h
  indexes : Indexes nodes contentRefs
  noEmptySet : NoEmptySet contentRefs

namespace InMemoryStorage

/-- A new storage. -/
def empty : InMemoryStorage where
  nodes := .empty
  content := .empty
  contentRefs := .empty
  tombstones := .empty
  keyed _ _ h := by cases h
  indexes c h := by simp [refsOf]
  noEmptySet _ _ h := by cases h

instance : Inhabited InMemoryStorage := ⟨empty⟩

variable (s : InMemoryStorage)

/-- `add_node`. -/
def addNode (n : CoCNode) : InMemoryStorage :=
  { s with
    nodes := s.nodes.set n.nodeHash n
    contentRefs := addRef (forgetNode s.nodes s.contentRefs n.nodeHash) n.contentHash n.nodeHash
    keyed := by
      intro h m hm
      rw [Dict.get?_set] at hm
      by_cases hh : n.nodeHash = h
      · rw [if_pos hh, Option.some_inj] at hm
        exact hm ▸ hh
      · rw [if_neg hh] at hm
        exact s.keyed h m hm
    indexes := indexes_set s.indexes n
    noEmptySet := noEmptySet_addRef (noEmptySet_forgetNode s.noEmptySet _) _ _ }

/-- `get_node`. -/
def getNode (nodeHash : Str) : Option CoCNode := s.nodes.get? nodeHash

/-- `remove_node`. -/
def removeNode (nodeHash : Str) : InMemoryStorage :=
  { s with
    nodes := s.nodes.erase nodeHash
    contentRefs := forgetNode s.nodes s.contentRefs nodeHash
    keyed := by
      intro h m hm
      rw [Dict.get?_erase] at hm
      by_cases hh : nodeHash = h
      · rw [if_pos hh] at hm
        cases hm
      · rw [if_neg hh] at hm
        exact s.keyed h m hm
    indexes := indexes_erase s.indexes nodeHash
    noEmptySet := noEmptySet_forgetNode s.noEmptySet _ }

/-- `add_content`. -/
def addContent (contentHash content : Str) : InMemoryStorage :=
  { s with content := s.content.set contentHash content }

variable (contentHash : Str)

/-- `get_content`. -/
def getContent : Option Str := s.content.get? contentHash

/-- `remove_content`. -/
def removeContent : InMemoryStorage :=
  { s with content := s.content.erase contentHash }

/-- `is_content_referenced`. -/
def isContentReferenced : Bool :=
  match s.contentRefs.get? contentHash with
  | none => false
  | some hashes => decide (0 < hashes.card)

/-- `get_all_nodes`. -/
def getAllNodes : List CoCNode := s.nodes.values

/-- `get_nodes_by_content`. -/
def getNodesByContent (order : SetOrder) (s : InMemoryStorage) (contentHash : Str) : List CoCNode :=
  match s.contentRefs.get? contentHash with
  | none => []
  | some hashes => (order.list hashes).filterMap s.nodes.get?

/-- `add_tombstone`. -/
def addTombstone (tombstone : ContentTombstone) : InMemoryStorage :=
  { s with tombstones := s.tombstones.set tombstone.contentHash tombstone }

/-- Every stored content belongs to a stored node. -/
def Referenced : Prop :=
  ∀ c, (s.getContent c).isSome → ∃ h n, s.getNode h = some n ∧ n.contentHash = c

theorem referenced_empty : empty.Referenced := by
  rintro c ⟨⟩

variable (s : InMemoryStorage)

variable (n : CoCNode) (h c content c' : Str)

theorem getNode_addNode :
    (s.addNode n).getNode h = if n.nodeHash = h then some n else s.getNode h :=
  s.nodes.get?_set n.nodeHash h n

@[simp] theorem getNode_addNode_self : (s.addNode n).getNode n.nodeHash = some n :=
  s.nodes.get?_set_self n.nodeHash n

theorem getNode_removeNode (h' : Str) :
    (s.removeNode h).getNode h' = if h = h' then none else s.getNode h' :=
  s.nodes.get?_erase h h'

@[simp] theorem getNode_addContent (h : Str) :
    (s.addContent c content).getNode h = s.getNode h := rfl

@[simp] theorem getContent_addNode : (s.addNode n).getContent c = s.getContent c := rfl

@[simp] theorem getContent_removeNode : (s.removeNode h).getContent c = s.getContent c := rfl

@[simp] theorem getContent_addTombstone (t : ContentTombstone) (c : Str) :
    (s.addTombstone t).getContent c = s.getContent c := rfl

theorem getContent_addContent :
    (s.addContent c content).getContent c' = if c = c' then some content else s.getContent c' :=
  s.content.get?_set c c' content

theorem getContent_removeContent :
    (s.removeContent c).getContent c' = if c = c' then none else s.getContent c' :=
  s.content.get?_erase c c'

variable {s}

theorem nodeHash_of_getNode {h : Str} {n : CoCNode} (hn : s.getNode h = some n) : n.nodeHash = h :=
  s.keyed h n hn

/-- **The index answers for the nodes.** -/
theorem isContentReferenced_iff {c : Str} :
    s.isContentReferenced c = true ↔ ∃ h n, s.getNode h = some n ∧ n.contentHash = c := by
  have hindex := s.indexes c
  rw [isContentReferenced]
  rw [refsOf] at hindex
  cases hget : s.contentRefs.get? c with
  | none =>
    rw [hget] at hindex
    simpa [getNode] using hindex
  | some hashes =>
    rw [hget] at hindex
    obtain ⟨h, hmem⟩ := s.noEmptySet c hashes hget
    refine iff_of_true (by simpa using Finset.card_pos.mpr ⟨h, hmem⟩) ⟨h, (hindex h).mp hmem⟩

theorem mem_getAllNodes {n : CoCNode} : n ∈ s.getAllNodes ↔ s.getNode n.nodeHash = some n := by
  rw [getAllNodes, Dict.mem_values]
  constructor
  · rintro ⟨h, hget⟩
    rwa [← nodeHash_of_getNode hget] at hget
  · exact fun hget => ⟨_, hget⟩

/-- The index leads to the nodes with the content. -/
theorem mem_getNodesByContent {order : SetOrder} {c : Str} {n : CoCNode} :
    n ∈ s.getNodesByContent order c ↔ s.getNode n.nodeHash = some n ∧ n.contentHash = c := by
  have hindex := s.indexes c
  rw [getNodesByContent]
  rw [refsOf] at hindex
  cases hget : s.contentRefs.get? c with
  | none =>
    rw [hget] at hindex
    refine iff_of_false List.not_mem_nil fun hn => ?_
    exact Finset.notMem_empty _ ((hindex n.nodeHash).mpr ⟨n, hn⟩)
  | some hashes =>
    rw [hget] at hindex
    dsimp only
    rw [List.mem_filterMap]
    constructor
    · rintro ⟨h, hmem, hn⟩
      obtain rfl := s.keyed h n hn
      obtain ⟨m, hm, hcontent⟩ := (hindex n.nodeHash).mp ((order.mem_list _ _).mp hmem)
      obtain rfl := Option.mem_unique hn hm
      exact ⟨hn, hcontent⟩
    · rintro ⟨hn, hcontent⟩
      exact ⟨n.nodeHash, (order.mem_list _ _).mpr ((hindex _).mpr ⟨n, hn, hcontent⟩), hn⟩

/-- A new node keeps contents referenced, unless it takes the place of a node
with another content. -/
theorem Referenced.addNode (hs : s.Referenced) {n : CoCNode}
    (hold : ∀ n', s.getNode n.nodeHash = some n' → n'.contentHash = n.contentHash) :
    (s.addNode n).Referenced := by
  intro c hc
  rw [getContent_addNode] at hc
  obtain ⟨h, n', hn', hcontent⟩ := hs c hc
  by_cases hh : n.nodeHash = h
  · refine ⟨h, n, ?_, ?_⟩
    · rw [getNode_addNode, if_pos hh]
    · rw [← hcontent, hold n' (hh ▸ hn')]
  · refine ⟨h, n', ?_, hcontent⟩
    rw [getNode_addNode, if_neg hh, hn']

theorem Referenced.addContent (hs : s.Referenced) {h c : Str} {n : CoCNode}
    (hn : s.getNode h = some n) (hcontent : n.contentHash = c) (content : Str) :
    (s.addContent c content).Referenced := by
  intro c' hc'
  rw [getContent_addContent] at hc'
  by_cases hsame : c = c'
  · exact ⟨h, n, hn, hcontent.trans hsame⟩
  · rw [if_neg hsame] at hc'
    exact hs c' hc'

end InMemoryStorage

end TrustFlow.Custody
