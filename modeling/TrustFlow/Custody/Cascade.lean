import TrustFlow.Custody.Drain

/-!
# How far a deletion reaches

* `InTree` — the root and its descendants, wherever they are stored.
* `Erased` — what the deletion of a root should achieve.
* `Covers` — what it takes: every copy outside the originator's storage is of a
  node that is reached, and is held by a peer the node was sent to.  A peer that
  forwards a node keeps the new node and is not among its recipients, and the
  originator, who is sent no token, issues none for what it forwarded itself.
* `erased_iff_covers` — the two agree.
-/

namespace TrustFlow.Custody

open Library List Option

namespace Network

variable {S : SignatureScheme}

/-! ## The tree -/

/-- The root and its descendants. -/
inductive InTree (net : Network S) (root : Str) : Str → Prop where
  | root : InTree net root root
  | child {id h parentHash : Str} {n : CoCNode} : InTree net root parentHash →
      net.nodeAt id h = some n → n.parentHash = some parentHash → InTree net root h

/-- Every copy of the tree outside the originator's storage is of a node for
which a token is issued, and is held by a recipient of that node. -/
def Covers (net : Network S) (originator root : Str) : Prop :=
  ∀ id h n, id ≠ originator → net.nodeAt id h = some n → net.InTree root h →
    net.Reached root h ∧ id ∈ n.recipientIds

/-- In `net'`, nobody but the originator stores a node of the tree that was
there in `net`, or the content, unless for another node. -/
def Erased (net net' : Network S) (originator root contentHash : Str) : Prop :=
  ∀ id, id ≠ originator →
    (∀ h, net.InTree root h → net'.nodeAt id h = none) ∧
      ((∀ h n, net'.nodeAt id h = some n → n.contentHash = contentHash → net.InTree root h) →
        net'.contentAt id contentHash = none)

/-! ## What is erased -/

section

variable {net net' : Network S} {originator root : Str} {T : Set DeletionToken}

/-- With nothing in flight, every recipient of a node that a token was issued
for has lost its copy. -/
theorem nodeAt_eq_none_of_pending {h : Str} (hpending : Pending net net' h)
    (hdone : net'.inFlight = []) {id : Str} {n : CoCNode} (hn : net.nodeAt id h = some n)
    (hlisted : id ∈ n.recipientIds) : net'.nodeAt id h = none := by
  by_contra hstill
  obtain ⟨msg, hmsg, -⟩ := hpending id n hn hlisted hstill
  rw [hdone] at hmsg
  cases hmsg

theorem pending_of_reached (hinv : DrainInv net root T net') (hdone : net'.inFlight = [])
    {h : Str} (hreached : net.Reached root h) : Pending net net' h := by
  induction hreached with
  | root => exact hinv.pending
  | child _ hnode hlisted hin hstored howner ih =>
    exact hinv.covered _ _ _ _ hnode hin hstored howner
      (nodeAt_eq_none_of_pending ih hdone hnode hlisted)

/-- What is erased when the deliveries are over. -/
theorem erased_iff_of_drained (hinv : DrainInv net root T net') (hdone : net'.inFlight = [])
    (contentHash : Str) :
    Erased net net' originator root contentHash ↔ net.Covers originator root := by
  constructor
  · intro herased id h n hid hn htree
    obtain ⟨hreached, hlisted, -⟩ := hinv.removed id h n hn ((herased id hid).1 h htree)
    exact ⟨hreached, hlisted⟩
  · intro hcovers id hid
    have hgone : ∀ h, net.InTree root h → net'.nodeAt id h = none := by
      intro h htree
      cases hn : net'.nodeAt id h with
      | none => rfl
      | some n =>
        have hn₀ := hinv.kept id h n hn
        obtain ⟨hreached, hlisted⟩ := hcovers id h n hid hn₀ htree
        have hnone := nodeAt_eq_none_of_pending (pending_of_reached hinv hdone hreached) hdone hn₀
          hlisted
        cases hn.symm.trans hnone
    refine ⟨hgone, fun hrelated => ?_⟩
    cases hcontent : net'.contentAt id contentHash with
    | none => rfl
    | some content =>
      -- a stored content belongs to a stored node, and all of those are gone
      obtain ⟨s, hs, hget⟩ := bind_eq_some_iff.mp hcontent
      obtain ⟨h, n, hn, hhash⟩ :=
        hinv.referenced id s hs contentHash (hget ▸ isSome_some)
      have hnode : net'.nodeAt id h = some n := by rw [nodeAt, hs, bind_some, hn]
      have hnone := hgone h (hrelated h n hnode hhash)
      cases hnode.symm.trans hnone

end

section

variable {iso : IsoReader} {cfg : EngineConfig} {peers : List (Str × S.SigningKey)}
  {before after : List (Ambient × ShareAction)} {created deletion : Ambient}
  {originator content : Str} {recipientIds : List Str} {root : CoCNode} {net : Network S}
  {ambs : ℕ → Ambient}

/-- **A deletion erases the tree exactly when it covers it.**  Online peers share
nodes, among them a root of the originator; when all of it has arrived, the
originator deletes the root, and the messages are delivered in the order sent.
That comes to an end, and then the tree is erased if and only if every copy
outside the originator's storage is held by a recipient of a node for which a
token is issued. -/
theorem erased_iff_covers
    (hnet : (start peers).shareAll iso cfg
      (before ++ (created, .create originator content recipientIds) :: after) = net)
    (hroot : ((start peers).shareAll iso cfg before).createdBy
      (created, .create originator content recipientIds) = some root)
    (hrecord : OneRecord ((start peers).created iso cfg
      (before ++ (created, .create originator content recipientIds) :: after)))
    (harrived : net.inFlight = [])
    (htimely : (net.deleteStored deletion originator root.nodeHash).Timely iso cfg ambs)
    (hcollision :
      NoCollision ((net.deleteStored deletion originator root.nodeHash).tokensOf iso cfg ambs)) :
    (∃ k, ((net.deleteStored deletion originator root.nodeHash).drain iso cfg ambs k).inFlight
        = []) ∧
      ∀ k, ((net.deleteStored deletion originator root.nodeHash).drain iso cfg ambs k).inFlight
          = [] →
        (Erased net ((net.deleteStored deletion originator root.nodeHash).drain iso cfg ambs k)
            originator root.nodeHash root.contentHash ↔
          net.Covers originator root.nodeHash) := by
  have hstart := shareInv_start (C := (start peers).created iso cfg
    (before ++ (created, .create originator content recipientIds) :: after)) peers
  obtain ⟨n, hn, -, howner⟩ := nodeAt_of_created hrecord hstart (fun _ hn => hn) hroot
  have hshare := (shareInv_shareAll hrecord _ hstart fun _ hn => hn).1
  rw [hnet] at hn hshare
  have hagree : net.Agree := fun _ _ _ _ _ h h' => sameRecord_of_nodeAt hrecord hshare hshare h h'
  have hinv := drainInv_deleteStored hagree hshare.online hshare.unprocessed harrived
    hshare.referenced hn howner deletion
    ((net.deleteStored deletion originator root.nodeHash).tokensOf iso cfg ambs)
  refine ⟨exists_drained hagree htimely hcollision hinv, fun k hdone => ?_⟩
  exact erased_iff_of_drained (drainInv_drain hagree htimely hcollision hinv k) hdone _

end

/-! ## Two deletions -/

/-- Alice's document for bob. -/
def posting : Ambient × ShareAction := (noon, .create "alice" "budget" ["bob"])

/-- The document is on its way. -/
def posted : Network .tagged := trio.share isoReader .default posting

/-- The document has arrived. -/
def arrived : Network .tagged := posted.share isoReader .default (noon, .deliver 0)

/-- Alice's storage with the document. -/
def aliceStorage : InMemoryStorage :=
  (InMemoryStorage.empty.addNode memo).addContent memo.contentHash "budget"

/-- One token is on its way, in time, and nothing comes after it. -/
def OneToken (net : Network .tagged) : Bool :=
  match net.inFlight with
  | [⟨_, _, .deletionToken token⟩] =>
    !token.isExpired isoReader EngineConfig.default.tokenValidity noon.now &&
      (net.drain isoReader .default (fun _ => noon) 1).inFlight.isEmpty
  | _ => false

theorem timely_of_oneToken {net : Network .tagged} (h : OneToken net = true) :
    net.Timely isoReader .default (fun _ => noon) ∧
      NoCollision (net.tokensOf isoReader .default fun _ => noon) ∧
      (net.drain isoReader .default (fun _ => noon) 1).inFlight = [] := by
  rw [OneToken] at h
  split at h
  · next token hflight =>
      obtain ⟨hexpired, hdone⟩ := Bool.and_eq_true_iff.mp h
      rw [List.isEmpty_iff] at hdone
      obtain ⟨htimely, hcollision⟩ :=
        timely_noCollision_of_single hflight rfl (by simpa using hexpired) hdone
      exact ⟨htimely, hcollision, hdone⟩
  · cases h

/-- A stored node, among the peers and in the storage of one. -/
theorem exists_of_nodeAt {net : Network S} {id h : Str} {n : CoCNode} (hn : net.nodeAt id h = some n) :
    ∃ p, (id, p) ∈ net.peers.entries ∧ (h, n) ∈ p.storage.nodes.entries := by
  obtain ⟨s, hs, hnode⟩ := bind_eq_some_iff.mp hn
  obtain ⟨p, hp, rfl⟩ := map_eq_some_iff.mp hs
  exact ⟨p, Dict.mem_entries.mpr hp, Dict.mem_entries.mpr hnode⟩

theorem oneRecord_memo : OneRecord [memo] := by
  intro n hn n' hn' _
  rw [mem_singleton.mp hn, mem_singleton.mp hn']
  exact .refl memo

/-- Nobody else than bob has received anything. -/
theorem arrived_facts :
    arrived.inFlight.isEmpty = true ∧
      OneToken (arrived.deleteStored noon "alice" memo.nodeHash) = true ∧
      ∀ entry ∈ arrived.peers.entries, ∀ stored ∈ entry.2.storage.nodes.entries,
        entry.1 ≠ "alice" → stored.1 = memo.nodeHash ∧ entry.1 ∈ stored.2.recipientIds := by
  decide +kernel

/-- The theorem at a document that only its recipient has: it is erased. -/
theorem erased_memo :
    ∃ k, ((arrived.deleteStored noon "alice" memo.nodeHash).drain isoReader .default
        (fun _ => noon) k).inFlight = [] ∧
      Erased arrived ((arrived.deleteStored noon "alice" memo.nodeHash).drain isoReader
        .default (fun _ => noon) k) "alice" memo.nodeHash memo.contentHash := by
  obtain ⟨harrived, htoken, hstored⟩ := arrived_facts
  obtain ⟨htimely, hcollision, -⟩ := timely_of_oneToken htoken
  have hnet : (start [("alice", (1 : UInt8)), ("bob", (2 : UInt8)),
      ("mallory", (3 : UInt8))]).shareAll isoReader .default
        ([] ++ (noon, .create "alice" "budget" ["bob"]) :: [(noon, .deliver 0)])
      = arrived := rfl
  obtain ⟨⟨k, hdone⟩, hiff⟩ := erased_iff_covers hnet rfl oneRecord_memo
    (isEmpty_iff.mp harrived) htimely hcollision
  refine ⟨k, hdone, (hiff k hdone).mpr fun id h n hid hn _ => ?_⟩
  obtain ⟨p, hp, hnode⟩ := exists_of_nodeAt hn
  obtain ⟨rfl, hlisted⟩ := hstored _ hp _ hnode hid
  exact ⟨.root, hlisted⟩

/-- The node that alice makes to pass the document on to mallory. -/
def memoCopy : CoCNode :=
  (CoCNode.new .tagged memo.contentHash "alice" (1 : UInt8) ["mallory"]
    (some memo.nodeHash) noon.now).below memo

/-- Alice has passed the document on. -/
def passedOn : Network .tagged := arrived.share isoReader .default
  (noon, .forward "alice" memo.nodeHash ["mallory"] fun _ => "budget")

/-- Mallory has it. -/
def spread : Network .tagged := passedOn.share isoReader .default (noon, .deliver 0)

/-- Mallory stores the new node, and still does when the deletion is over. -/
theorem spread_facts :
    spread.inFlight.isEmpty = true ∧
      OneToken (spread.deleteStored noon "alice" memo.nodeHash) = true ∧
      ((spread.nodeAt "mallory" memoCopy.nodeHash).bind CoCNode.parentHash = some memo.nodeHash) ∧
      (((spread.deleteStored noon "alice" memo.nodeHash).drain isoReader .default
        (fun _ => noon) 1).nodeAt "mallory" memoCopy.nodeHash).isSome = true := by
  decide +kernel

/-- Alice sends a document to bob, passes it on to mallory, and deletes it.  One
token goes to bob, nothing is left in flight, and mallory keeps the node that was
made from the document. -/
theorem not_erased_spread :
    trio.createdBy posting = some memo ∧
      spread = trio.shareAll isoReader .default [posting, (noon, .deliver 0),
        (noon, .forward "alice" memo.nodeHash ["mallory"] fun _ => "budget"),
        (noon, .deliver 0)] ∧
      spread.inFlight = [] ∧
      (spread.deleteStored noon "alice" memo.nodeHash).Timely isoReader .default (fun _ => noon) ∧
      ((spread.deleteStored noon "alice" memo.nodeHash).drain isoReader .default
        (fun _ => noon) 1).inFlight = [] ∧
      ¬ Erased spread ((spread.deleteStored noon "alice" memo.nodeHash).drain isoReader
        .default (fun _ => noon) 1) "alice" memo.nodeHash memo.contentHash := by
  obtain ⟨hflight, htoken, hparent, hkept⟩ := spread_facts
  obtain ⟨htimely, -, hdone⟩ := timely_of_oneToken htoken
  refine ⟨rfl, ?_, isEmpty_iff.mp hflight, htimely, hdone, fun herased => ?_⟩
  · rw [spread, passedOn, arrived, posted, shareAll, foldl_cons, foldl_cons,
      foldl_cons, foldl_cons, foldl_nil]
  obtain ⟨n, hn, hchild⟩ := bind_eq_some_iff.mp hparent
  have hgone := (herased "mallory" (by decide)).1 memoCopy.nodeHash (.child .root hn hchild)
  rw [hgone] at hkept
  cases hkept

end Network

end TrustFlow.Custody
