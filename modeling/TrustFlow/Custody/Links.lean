import TrustFlow.Custody.Forest

/-!
# Links between stored nodes

A copy of a node that arrives takes the place of the one that is stored, children and all.
Then it is entered as a child of its parent, if the parent is stored.

* `Missing` — two stored nodes are parent and child, and the parent does not list the
  child; `Linked` — this is the case for none.
* `missing_receiveNode` — what an arrival does to that: it mends the link to the node's own
  parent, and it breaks those that the copy does not list.
* `InOrder` — the last copy of each node lists the children that are stored by then, unless
  they arrive once more.
* `linked_iff_inOrder` — after a series of arrivals at a peer all its nodes are linked exactly
  if the series is in order.
* `late_parent_unlinked` — a child that arrives before its parent is not linked.
-/

namespace TrustFlow.Custody

open Library List Option

namespace InMemoryStorage

variable (s : InMemoryStorage)

/-- Parent and child are stored, and the parent does not list the child. -/
def Missing (p c : Str) : Prop :=
  ∃ parent child, s.getNode p = some parent ∧ s.getNode c = some child ∧
    child.parentHash = some p ∧ c ∉ parent.childrenHashes

/-- Every stored node lists its stored children. -/
def Linked : Prop := ∀ p c, ¬ s.Missing p c

/-- The effect of `coc_data` messages, one after the other. -/
def receiveAll (arrivals : List (CoCNode × Str)) : InMemoryStorage :=
  arrivals.foldl (fun s arrival => s.receiveNode arrival.1 arrival.2) s

/-- The nodes that arrive. -/
def hashesOf (arrivals : List (CoCNode × Str)) : List Str := arrivals.map fun a => a.1.nodeHash

/-- The last copy of each node lists the children that are stored when it arrives, unless
they arrive again later. -/
def InOrder : InMemoryStorage → List (CoCNode × Str) → Prop
  | _, [] => True
  | s, (node, content) :: rest =>
    (node.nodeHash ∉ hashesOf rest → ∀ c child, s.getNode c = some child →
      child.parentHash = some node.nodeHash → c ∉ hashesOf rest → c ∈ node.childrenHashes) ∧
    InOrder (s.receiveNode node content) rest

/-- The node that is stored under the hash, with the other one as a child if that names it as
its parent. -/
def entered (node : CoCNode) (h : Str) (n : CoCNode) : CoCNode :=
  if node.parentHash = some h then n.withChild node.nodeHash else n

variable {C : List CoCNode} {s : InMemoryStorage} {node : CoCNode}

@[simp] theorem parentHash_entered (h : Str) (n : CoCNode) :
    (entered node h n).parentHash = n.parentHash := by
  rw [entered]
  split <;> rfl

theorem mem_childrenHashes_entered {h c : Str} {n : CoCNode} :
    c ∈ (entered node h n).childrenHashes ↔
      node.parentHash = some h ∧ c = node.nodeHash ∨ c ∈ n.childrenHashes := by
  rw [entered]
  by_cases hparent : node.parentHash = some h
  · simp [hparent, CoCNode.withChild]
  · simp [hparent]

/-- **What an arrival stores.**  The copy, as it is, but for its depth; and the parent, with
one more child. -/
theorem getNode_receiveNode_eq (hC : OneRecord C) (hs : s.AllPlaced C) (hnode : Placed C node)
    (content : Str) :
    (∃ n, (s.receiveNode node content).getNode node.nodeHash = some n ∧
        n.childrenHashes = node.childrenHashes ∧ n.parentHash = node.parentHash) ∧
      ∀ h, h ≠ node.nodeHash →
        (s.receiveNode node content).getNode h = (s.getNode h).map (entered node h) := by
  have hself : ((s.addNode node).addContent node.contentHash content).getNode node.nodeHash
      = some node := getNode_addNode_self s node
  have hother : ∀ h, h ≠ node.nodeHash →
      ((s.addNode node).addContent node.contentHash content).getNode h = s.getNode h := by
    intro h hne
    rw [getNode_addContent, getNode_addNode, if_neg hne.symm]
  rw [receiveNode]
  generalize (s.addNode node).addContent node.contentHash content = s₁ at hself hother ⊢
  -- Where the node is not entered, no stored node is its parent.
  have hunlinked : (∀ h, node.parentHash = some h → s.getNode h = none) → ∀ h, h ≠ node.nodeHash →
      s₁.getNode h = (s.getNode h).map (entered node h) := by
    intro hnone h hne
    rw [hother h hne]
    by_cases hparent : node.parentHash = some h
    · rw [hnone h hparent]
      rfl
    · rw [show entered node h = id from funext fun n => if_neg hparent, Option.map_id_fun, id]
  rw [linkParent]
  split
  case h_1 hroot =>
    refine ⟨⟨node, hself, rfl, rfl⟩, hunlinked fun h hparent => ?_⟩
    cases hroot.symm.trans hparent
  case h_2 hempty =>
    refine ⟨⟨node, hself, rfl, rfl⟩, hunlinked fun h hparent => ?_⟩
    obtain rfl := Option.mem_unique hempty hparent
    refine eq_none_iff_forall_ne_some.mpr fun n hn => ?_
    exact (hs [] n hn).named (nodeHash_of_getNode hn)
  case h_3 p _ hparent =>
    cases hget : s₁.getNode p with
    | none =>
      refine ⟨⟨node, hself, rfl, rfl⟩, hunlinked fun h hh => ?_⟩
      obtain rfl := Option.mem_unique hparent hh
      have hne : p ≠ node.nodeHash := by
        rintro rfl
        cases hself.symm.trans hget
      exact (hother p hne).symm.trans hget
    | some parent =>
      obtain rfl := nodeHash_of_getNode hget
      have hne : parent.nodeHash ≠ node.nodeHash := fun heq => hnode.parentHash_ne hC (heq ▸ hparent)
      dsimp only
      rw [if_neg hne]
      refine ⟨⟨node.below parent, ?_, rfl, rfl⟩, fun h hh => ?_⟩
      · rw [getNode_addNode]
        exact (if_neg hne).trans (getNode_addNode_self s₁ (node.below parent))
      · rw [getNode_addNode]
        by_cases hp : parent.nodeHash = h
        · subst hp
          rw [← hother _ hne, hget, map_some, entered, if_pos hparent]
          exact if_pos rfl
        · have hp' : ¬ node.parentHash = some h := fun heq =>
            hp (Option.mem_unique hparent heq)
          rw [show entered node h = id from funext fun n => if_neg hp', Option.map_id_fun, id]
          exact (if_neg hp).trans ((getNode_addNode s₁ _ h).trans
            ((if_neg hh.symm).trans (hother h hh)))

/-- **The missing links after an arrival**: to the children that the copy does not list, and
those that were missing and are not about the node. -/
theorem missing_receiveNode (hC : OneRecord C) (hs : s.AllPlaced C) (hnode : Placed C node)
    (content p c : Str) :
    (s.receiveNode node content).Missing p c ↔
      (p = node.nodeHash ∧ ∃ child, s.getNode c = some child ∧
        child.parentHash = some node.nodeHash ∧ c ∉ node.childrenHashes) ∨
      (p ≠ node.nodeHash ∧ c ≠ node.nodeHash ∧ s.Missing p c) := by
  obtain ⟨⟨n, hn, hchildren, hparent⟩, hother⟩ := getNode_receiveNode_eq hC hs hnode content
  constructor
  · rintro ⟨parent, child, hgetp, hgetc, hparentHash, hnot⟩
    by_cases hc : c = node.nodeHash
    · subst hc
      obtain rfl := Option.mem_unique hn hgetc
      have hp : p ≠ node.nodeHash := by
        rintro rfl
        exact hnode.parentHash_ne hC (hparent.symm.trans hparentHash)
      rw [hother p hp] at hgetp
      obtain ⟨old, -, rfl⟩ := map_eq_some_iff.mp hgetp
      exact absurd (mem_childrenHashes_entered.mpr (.inl ⟨hparent.symm.trans hparentHash, rfl⟩)) hnot
    · rw [hother c hc] at hgetc
      obtain ⟨oldChild, hold, rfl⟩ := map_eq_some_iff.mp hgetc
      rw [parentHash_entered] at hparentHash
      by_cases hp : p = node.nodeHash
      · subst hp
        obtain rfl := Option.mem_unique hn hgetp
        exact .inl ⟨rfl, oldChild, hold, hparentHash, hchildren ▸ hnot⟩
      · rw [hother p hp] at hgetp
        obtain ⟨old, hold', rfl⟩ := map_eq_some_iff.mp hgetp
        refine .inr ⟨hp, hc, old, oldChild, hold', hold, hparentHash, fun hmem => hnot ?_⟩
        exact mem_childrenHashes_entered.mpr (.inr hmem)
  · rintro (⟨rfl, child, hget, hparentHash, hnot⟩ | ⟨hp, hc, parent, child, hgetp, hgetc, hparentHash,
      hnot⟩)
    · have hc : c ≠ node.nodeHash := by
        rintro rfl
        refine (hs _ child hget).parentHash_ne hC ?_
        rw [hparentHash, nodeHash_of_getNode hget]
      refine ⟨n, entered node c child, hn, ?_, ?_, hchildren.symm ▸ hnot⟩
      · rw [hother c hc, hget, map_some]
      · rw [parentHash_entered, hparentHash]
    · refine ⟨entered node p parent, entered node c child, ?_, ?_, ?_, fun hmem => ?_⟩
      · rw [hother p hp, hgetp, map_some]
      · rw [hother c hc, hgetc, map_some]
      · rw [parentHash_entered, hparentHash]
      · rcases mem_childrenHashes_entered.mp hmem with ⟨-, hself⟩ | hold
        · exact hc hself
        · exact hnot hold

/-- The missing links after all arrivals, from any storage. -/
theorem linked_receiveAll (hC : OneRecord C) {arrivals : List (CoCNode × Str)}
    (hs : s.AllPlaced C) (harrivals : ∀ arrival ∈ arrivals, Placed C arrival.1) :
    (s.receiveAll arrivals).Linked ↔ s.InOrder arrivals ∧
      ∀ p c, s.Missing p c → p ∈ hashesOf arrivals ∨ c ∈ hashesOf arrivals := by
  induction arrivals generalizing s with
  | nil =>
    constructor
    · exact fun hlinked => ⟨trivial, fun p c hmissing => absurd hmissing (hlinked p c)⟩
    · rintro ⟨-, hnone⟩ p c hmissing
      rcases hnone p c hmissing with hmem | hmem
      · cases hmem
      · cases hmem
  | cons arrival rest ih =>
    obtain ⟨node, content⟩ := arrival
    have hnode := harrivals _ mem_cons_self
    have hmissing := missing_receiveNode hC hs hnode content
    have hrest := ih (hs.receiveNode hC hnode content)
      fun other hmem => harrivals other (mem_cons_of_mem _ hmem)
    constructor
    · intro hlinked
      obtain ⟨horder, hall⟩ := hrest.mp hlinked
      refine ⟨⟨fun hlast c child hget hparent hagain => ?_, horder⟩, fun p c hold => ?_⟩
      · by_contra hnot
        rcases hall node.nodeHash c ((hmissing _ _).mpr (.inl ⟨rfl, child, hget, hparent, hnot⟩))
          with hmem | hmem
        · exact hlast hmem
        · exact hagain hmem
      · by_cases hp : p = node.nodeHash
        · exact .inl (hp ▸ mem_cons_self)
        by_cases hc : c = node.nodeHash
        · exact .inr (hc ▸ mem_cons_self)
        exact (hall p c ((hmissing p c).mpr (.inr ⟨hp, hc, hold⟩))).imp (mem_cons_of_mem _)
          (mem_cons_of_mem _)
    · rintro ⟨⟨hhead, horder⟩, hall⟩
      refine hrest.mpr ⟨horder, fun p c hnow => ?_⟩
      rcases (hmissing p c).mp hnow with ⟨rfl, child, hget, hparent, hnot⟩ | ⟨hp, hc, hold⟩
      · by_contra hnone
        obtain ⟨hlast, hagain⟩ := not_or.mp hnone
        exact hnot (hhead hlast c child hget hparent hagain)
      · exact (hall p c hold).imp (fun hmem => (mem_cons.mp hmem).resolve_left hp)
          fun hmem => (mem_cons.mp hmem).resolve_left hc

end InMemoryStorage

open InMemoryStorage

/-- The message brings the node with the content. -/
def Message.Brings (msg : Message) (arrival : CoCNode × Str) : Prop :=
  ∃ dict, msg.body = .cocData dict arrival.2 ∧ CoCNode.fromDict dict = .ok arrival.1

/-- **Links after deliveries.**  Messages of honest peers arrive in some order, some of them
more than once, at a peer whose nodes are linked.  In the end its nodes are linked exactly
if the messages came in order. -/
theorem linked_iff_inOrder {S : SignatureScheme} (iso : IsoReader) (cfg : EngineConfig)
    (actions : List (Ambient × ExchangeAction S))
    (hC : OneRecord (Exchange.start.run iso cfg actions).made) {id : Str} {s : InMemoryStorage}
    (hs : (Exchange.start.run iso cfg actions).net.storageOf id = some s) (hlinked : s.Linked)
    {arrivals : List (CoCNode × Str)}
    (hsent : ∀ arrival ∈ arrivals, ∃ msg ∈ (Exchange.start.run iso cfg actions).sent,
      msg.Brings arrival) :
    (s.receiveAll arrivals).Linked ↔ s.InOrder arrivals := by
  have hsound := Exchange.sound_start.run hC
  have harrivals : ∀ arrival ∈ arrivals,
      Placed (Exchange.start.run iso cfg actions).made arrival.1 := by
    intro arrival harrival
    obtain ⟨msg, hmsg, dict, hbody, hdict⟩ := hsent arrival harrival
    obtain ⟨order, node, content, hbody', hplaced⟩ := hsound.sent msg hmsg
    obtain ⟨rfl, -⟩ := Body.cocData.inj (hbody.symm.trans hbody')
    rw [CoCNode.fromDict_toDict order hplaced.signed] at hdict
    exact Except.ok.inj hdict ▸ hplaced
  rw [linked_receiveAll hC (hsound.stored id s hs) harrivals]
  exact and_iff_left fun p c hmissing => absurd hmissing (hlinked p c)

/-! ### A child before its parent -/

open Network (noon memo)

/-- Bob forwards alice's document. -/
def reply : CoCNode :=
  (CoCNode.new .tagged memo.contentHash "bob" (2 : UInt8) ["carol"]
    (some memo.nodeHash) noon.now).below memo

/-- Carol joins when the document and bob's forward of it are on their way. -/
def gathering : List (Ambient × ExchangeAction .tagged) :=
  [(noon, .join "alice" (1 : UInt8)), (noon, .join "bob" (2 : UInt8)),
    (noon, .create "alice" "budget" ["bob"]),
    (noon, .send "alice" memo.nodeHash "bob" "budget"), (noon, .deliver 0),
    (noon, .forward "bob" memo.nodeHash ["carol"]),
    (noon, .send "alice" memo.nodeHash "carol" "budget"),
    (noon, .send "bob" reply.nodeHash "carol" "budget"),
    (noon, .join "carol" (3 : UInt8))]

/-- Both messages for carol arrive, in one order or the other. -/
def arriving (first second : ℕ) : Exchange .tagged :=
  Exchange.start.run isoReader .default
    (gathering ++ [(noon, .deliver first), (noon, .deliver second)])

/-- What carol is sent, that the hashes are distinct, and what carol has in the end. -/
theorem gathering_facts :
    ((Exchange.start.run isoReader .default gathering).sent[1]? = some ⟨"alice",
        "carol", .cocData (memo.toDict .sorted) "budget"⟩ ∧
      (Exchange.start.run isoReader .default gathering).sent[2]? = some ⟨"bob",
        "carol", .cocData (reply.toDict .sorted) "budget"⟩ ∧
      ((Exchange.start.run isoReader .default gathering).made.map CoCNode.nodeHash).Nodup) ∧
    ((arriving 2 1).net.nodeAt "carol" memo.nodeHash).map CoCNode.childrenHashes = some ∅ ∧
      ((arriving 2 1).net.nodeAt "carol" reply.nodeHash).map CoCNode.parentHash
        = some (some memo.nodeHash) ∧
      ((arriving 1 2).net.nodeAt "carol" memo.nodeHash).map CoCNode.childrenHashes
        = some {reply.nodeHash} := by
  decide +kernel

theorem signature_reply : reply.signature ≠ some [] := fun h =>
  SignatureScheme.tagged.sign_ne_nil _ _ (Option.some.inj h)

/-- If the document arrives first, carol's nodes are linked. -/
theorem linked_parent_first :
    (InMemoryStorage.empty.receiveAll [(memo, "budget"), (reply, "budget")]).Linked := by
  obtain ⟨hmemo, hreply, hnodup⟩ := gathering_facts.1
  have hstart : InMemoryStorage.empty.Linked := fun _ _ ⟨_, _, hget, _⟩ => by cases hget
  have hcarol : (Exchange.start.run isoReader .default gathering).net.storageOf "carol"
      = some .empty := (Network.storageOf_setPeer _ _ _).trans (if_pos rfl)
  refine (linked_iff_inOrder isoReader .default gathering (oneRecord_of_nodup hnodup) hcarol hstart
    fun arrival harrival => ?_).mpr ?_
  · rcases mem_cons.mp harrival with rfl | harrival
    · exact ⟨_, mem_of_getElem? hmemo, _, rfl,
        CoCNode.fromDict_toDict .sorted Network.signature_memo⟩
    · rw [mem_singleton.mp harrival]
      exact ⟨_, mem_of_getElem? hreply, _, rfl, CoCNode.fromDict_toDict .sorted signature_reply⟩
  · refine ⟨fun _ _ _ hget => (by cases hget), fun _ c child hget hparent => ?_, trivial⟩
    -- The only node that is stored before the forward is a root.
    rcases getNode_receiveNode hget with ⟨-, hsame⟩ | ⟨-, _, hold, -⟩
    · cases hsame.parentHash.symm.trans hparent
    · cases hold

/-- **A late parent.**  If bob's forward arrives before the document, carol stores both, and
the document does not list the forward; in the other order it does. -/
theorem late_parent_unlinked :
    ((Exchange.start.run isoReader .default
        (gathering ++ [(noon, .deliver 2), (noon, .deliver 1)])).net.nodeAt "carol"
          memo.nodeHash).map CoCNode.childrenHashes = some ∅ ∧
      ((Exchange.start.run isoReader .default
        (gathering ++ [(noon, .deliver 2), (noon, .deliver 1)])).net.nodeAt "carol"
          reply.nodeHash).map CoCNode.parentHash = some (some memo.nodeHash) ∧
      ((Exchange.start.run isoReader .default
        (gathering ++ [(noon, .deliver 1), (noon, .deliver 2)])).net.nodeAt "carol"
          memo.nodeHash).map CoCNode.childrenHashes = some {reply.nodeHash} :=
  gathering_facts.2

end TrustFlow.Custody
