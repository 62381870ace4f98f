import Mathlib.Logic.Relation
import TrustFlow.Custody.Network
import TrustFlow.Custody.SecretSharing
import TrustFlow.Library.Runs
import TrustFlow.Stegano.Engine

/-!
# The simulation engine

`SimulationEngine` of `simulation_engine.py`: the events of a scenario that create,
forward, reconstruct and delete contents, and the delivery of messages in any order.

* `handleEvent` — one event.  A forwarded message is marked for each recipient if that
  is asked for and possible.  If not, its messages carry the content hash in place of
  the content.
* `Happening`, `run` — events and deliveries, in any order.
* `Genuine` — a text with the given hash, or one that was marked out of such a text.
* `contents_genuine` — **what a peer stores under a hash is genuine**, in every run in
  which no message is forwarded without marks.

The other events of a scenario store no content.  Shares of secrets arrive in messages
of a type that `receive_message` passes over: `_received_shares` stays empty.
-/

namespace TrustFlow.Custody

open Library SecretSharing Stegano SteganoEngine List Option

/-! ## Events -/

/-- `SimulationEngine`.  The engines are there if the settings enable them; the shares
that the peers have received are kept here, by peer and content hash. -/
structure SimulationEngine (S : SignatureScheme) where
  network : Network S
  messageRegistry : Dict Str Str
  receivedShares : Dict Str (Dict Str Share)
  secretSharing : Option SecretSharingEngine
  stegano : Option SteganoEngine

/-- The events that deal with contents.  What `event.get` may not find is an option. -/
inductive Event where
  | createMessage (originatorId content : Str) (recipientIds : List Str) (messageId : Option Str)
  | forwardMessage (senderId : Str) (parentNodeHash parentMessageId : Option Str)
      (recipientIds : List Str) (useWatermark : Bool) (messageId : Option Str)
  | watermarkForward (senderId parentNodeHash : Str) (recipientIds : List Str)
  | reconstructSecret (requesterId contentHash : Str) (contributorIds : List Str)
  | deleteMessage (originatorId : Str) (nodeHash messageId : Option Str)

/-- An event, or the delivery of a message in flight. -/
inductive Happening where
  | event (event : Event)
  | deliver (i : ℕ)

namespace SimulationEngine

variable {S : SignatureScheme} (words : WordClass) (aes : AesGcm) (sim : SimulationEngine S)
  (amb : Ambient)

/-- `_setup_simulation`. -/
def start (peers : List (Str × S.SigningKey)) (enableSecretSharing enableSteganography : Bool) :
    SimulationEngine S where
  network := .start peers
  messageRegistry := .empty
  receivedShares := .empty
  secretSharing := if enableSecretSharing then some ⟨.empty⟩ else none
  stegano := if enableSteganography then some ⟨[]⟩ else none

variable (messageId : Option Str) (nodeHash : Str)

/-- `_register_message`. -/
def registerMessage : SimulationEngine S :=
  match messageId.filter (· ≠ []) with
  | none => sim
  | some messageId => { sim with messageRegistry := sim.messageRegistry.set messageId nodeHash }

/-- The node that an event names: by its hash, or else by a message id. -/
def resolve (nodeHash messageId : Option Str) : Option Str :=
  match nodeHash.filter (· ≠ []) with
  | some nodeHash => some nodeHash
  | none => ((messageId.filter (· ≠ [])).bind sim.messageRegistry.get?).filter (· ≠ [])

/-- `_handle_create_message`. -/
def handleCreateMessage (originatorId content : Str) (recipientIds : List Str)
    (messageId : Option Str) : SimulationEngine S :=
  match sim.network.findPeer originatorId with
  | none => sim
  | some originator =>
    let node := (sim.network.createCocRoot amb originator content recipientIds).2
    { sim with network := sim.network.createAndSend amb originatorId content recipientIds }
      |>.registerMessage messageId node.nodeHash

/-- `forward_with_watermark`: every recipient gets a text of their own. -/
def forwardWithWatermark (engine : SteganoEngine) (senderId parentHash : Str)
    (recipientIds : List Str) (content : Str) : SimulationEngine S :=
  { sim with
    network := sim.network.forwardAndSend amb senderId parentHash recipientIds fun recipientId =>
      embedText words .all content recipientId (isoformat amb.now.1) 0
    stegano := some (recipientIds.foldl registerPeer engine) }

/-- The plain path of `_handle_forward_message`: the messages carry the content
hash. -/
def forwardPlain (senderId parentHash : Str) (recipientIds : List Str) (child : CoCNode) :
    SimulationEngine S :=
  { sim with
    network := sim.network.forwardAndSend amb senderId parentHash recipientIds fun _ =>
      child.contentHash }

/-- What a message may be marked with: the engine, if there is one and the event asks
for it, and the content, if the sender has one that is not empty. -/
def watermarkable (useWatermark : Bool) (sender : Peer S) (parent : CoCNode) :
    Option (SteganoEngine × Str) :=
  if useWatermark then do
    let engine ← sim.stegano
    let content ← (sender.storage.getContent parent.contentHash).filter (· ≠ [])
    return (engine, content)
  else none

/-- `_handle_forward_message`. -/
def handleForwardMessage (senderId : Str) (parentNodeHash parentMessageId : Option Str)
    (recipientIds : List Str) (useWatermark : Bool) (messageId : Option Str) :
    SimulationEngine S :=
  match sim.network.findPeer senderId, sim.resolve parentNodeHash parentMessageId with
  | some sender, some parentHash =>
    match sender.storage.getNode parentHash with
    | none => sim
    | some parent =>
      let child := (sim.network.forwardCocMessage amb sender parent recipientIds).2
      let sent :=
        match sim.watermarkable useWatermark sender parent with
        | some (engine, content) =>
          sim.forwardWithWatermark words amb engine senderId parentHash recipientIds content
        | none => sim.forwardPlain amb senderId parentHash recipientIds child
      sent.registerMessage messageId child.nodeHash
  | _, _ => sim

/-- `_handle_watermark_forward`. -/
def handleWatermarkForward (senderId parentNodeHash : Str) (recipientIds : List Str) :
    SimulationEngine S :=
  match sim.network.findPeer senderId with
  | none => sim
  | some sender =>
    match sender.storage.getNode parentNodeHash with
    | none => sim
    | some parent =>
      match sim.watermarkable true sender parent with
      | none => sim
      | some (engine, content) =>
        sim.forwardWithWatermark words amb engine senderId parentNodeHash recipientIds content

/-- The share that a peer has received. -/
def receivedShare (peerId contentHash : Str) : Option Share :=
  (sim.network.findPeer peerId).bind fun _ =>
    (sim.receivedShares.get? peerId).bind fun shares => shares.get? contentHash

/-- The shares of a reconstruction: those of the contributors, and the requester's own. -/
def collectedShares (requesterId contentHash : Str) (contributorIds : List Str) : List Share :=
  let collected := contributorIds.foldl (fun (collected : Dict Str Share) peerId =>
    match sim.receivedShare peerId contentHash with
    | none => collected
    | some share => collected.set peerId share) .empty
  let shares := collected.entries.map Prod.snd
  match sim.receivedShare requesterId contentHash with
  | none => shares
  | some own => if own ∈ shares then shares else shares ++ [own]

/-- `_handle_reconstruct_secret`; an exception ends the event. -/
def handleReconstructSecret (requesterId contentHash : Str) (contributorIds : List Str) :
    SimulationEngine S :=
  match sim.secretSharing, sim.network.findPeer requesterId,
      sim.collectedShares requesterId contentHash contributorIds with
  | some engine, some requester, first :: rest =>
    match reconstructSecret aes (first :: rest) (engine.hmacKeys.get? first.contentHash) with
    | .ok (some (c :: content)) =>
      { sim with
        network := sim.network.setPeer
          { requester with storage := requester.storage.addContent contentHash (c :: content) } }
    | _ => sim
  | _, _, _ => sim

/-- `_handle_delete_message`. -/
def handleDeleteMessage (originatorId : Str) (nodeHash messageId : Option Str) :
    SimulationEngine S :=
  match sim.resolve nodeHash messageId with
  | none => sim
  | some nodeHash => { sim with network := sim.network.deleteStored amb originatorId nodeHash }

/-- `_handle_event`. -/
def handleEvent : Event → SimulationEngine S
  | .createMessage originatorId content recipientIds messageId =>
    sim.handleCreateMessage amb originatorId content recipientIds messageId
  | .forwardMessage senderId parentNodeHash parentMessageId recipientIds useWatermark messageId =>
    sim.handleForwardMessage words amb senderId parentNodeHash parentMessageId recipientIds
      useWatermark messageId
  | .watermarkForward senderId parentNodeHash recipientIds =>
    sim.handleWatermarkForward words amb senderId parentNodeHash recipientIds
  | .reconstructSecret requesterId contentHash contributorIds =>
    sim.handleReconstructSecret aes requesterId contentHash contributorIds
  | .deleteMessage originatorId nodeHash messageId =>
    sim.handleDeleteMessage amb originatorId nodeHash messageId

variable (iso : IsoReader) (cfg : EngineConfig)

/-- One event or delivery. -/
def step (sim : SimulationEngine S) (next : Ambient × Happening) : SimulationEngine S :=
  match next.2 with
  | .event event => sim.handleEvent words aes next.1 event
  | .deliver i => { sim with network := sim.network.deliver iso cfg next.1 i }

/-- Events and deliveries, one after the other. -/
def run (sim : SimulationEngine S) (happenings : List (Ambient × Happening)) : SimulationEngine S :=
  happenings.foldl (step words aes iso cfg) sim

end SimulationEngine

/-! ## Contents, stored and sent -/

namespace Network

variable {S : SignatureScheme} {P : Str → Str → Prop} {net : Network S} {amb : Ambient}

/-- The message brings no content, or one with the property. -/
def BringsOnly (P : Str → Str → Prop) (msg : Message) : Prop :=
  ∀ dict content, msg.body = .cocData dict content → P dict.contentHash content

/-- Every content has the property with its hash, in the storages and in flight. -/
structure AllContents (P : Str → Str → Prop) (net : Network S) : Prop where
  stored : ∀ id s, net.storageOf id = some s → ∀ c content, s.getContent c = some content →
    P c content
  flight : ∀ msg ∈ net.inFlight, BringsOnly P msg

theorem mem_inFlight_sendAll {now : Instant} {msgs : List Message} {msg : Message}
    (h : msg ∈ (net.sendAll now msgs).inFlight) : msg ∈ net.inFlight ∨ msg ∈ msgs := by
  induction msgs generalizing net with
  | nil => exact .inl h
  | cons first msgs ih =>
    have hroute : ∀ m ∈ (net.routeMessage now first).inFlight, m ∈ net.inFlight ∨ m = first := by
      intro m hm
      rw [routeMessage] at hm
      split at hm
      · exact .inl hm
      · split at hm
        · exact (mem_append.mp hm).imp_right mem_singleton.mp
        · exact .inl hm
    rcases ih h with h | h
    · rcases hroute msg h with h | rfl
      · exact .inl h
      · exact .inr mem_cons_self
    · exact .inr (mem_cons_of_mem _ h)

namespace AllContents

theorem sendAll (h : AllContents P net) {msgs : List Message} (hmsgs : ∀ msg ∈ msgs, BringsOnly P msg)
    (now : Instant) : AllContents P (net.sendAll now msgs) := by
  constructor
  · intro id s hs
    rw [(samePeers_sendAll net now msgs).storageOf_eq] at hs
    exact h.stored id s hs
  · intro msg hmsg
    exact (mem_inFlight_sendAll hmsg).elim (h.flight msg) (hmsgs msg)

/-- A peer gets a new storage. -/
theorem setPeer (h : AllContents P net) (p : Peer S) {s : InMemoryStorage}
    (hs : ∀ c content, s.getContent c = some content → P c content) :
    AllContents P (net.setPeer { p with storage := s }) := by
  refine ⟨fun id s' hs' => ?_, h.flight⟩
  rw [storageOf_setPeer] at hs'
  split at hs'
  · rw [← some_inj.mp hs']
    exact hs
  · exact h.stored id s' hs'

theorem start (peers : List (Str × S.SigningKey)) : AllContents P (Network.start peers) := by
  have hempty : AllContents P (empty : Network S) := by
    constructor
    · rintro id s ⟨⟩
    · rintro msg ⟨⟩
  suffices ∀ net : Network S, AllContents P net →
      AllContents P (peers.foldl (fun net p => net.addPeer p.1 p.2) net) from this _ hempty
  induction peers with
  | nil => exact fun net h => h
  | cons p peers ih =>
    intro net h
    refine ih _ (h.setPeer ⟨p.1, p.2, true, .empty, []⟩ ?_)
    rintro c content ⟨⟩

theorem dataMessages {order : SetOrder} {senderId : Str} {recipientIds : List Str} {node : CoCNode}
    {contentFor : Str → Str} (h : ∀ recipientId, P node.contentHash (contentFor recipientId)) :
    ∀ msg ∈ Network.dataMessages order senderId recipientIds node contentFor, BringsOnly P msg := by
  intro msg hmsg dict content hbody
  obtain ⟨recipientId, -, rfl⟩ := mem_map.mp hmsg
  cases hbody
  exact h recipientId

theorem tokenMessages {senderId : Str} {issued : DeletionToken × List Str} :
    ∀ msg ∈ Network.tokenMessages senderId issued, BringsOnly P msg := by
  intro msg hmsg dict content hbody
  obtain ⟨recipientId, -, rfl⟩ := mem_map.mp hmsg
  cases hbody

variable (h : AllContents P net)
include h

theorem createAndSend {id content : Str} {recipientIds : List Str}
    (hcontent : P (hashContent content) content) :
    AllContents P (net.createAndSend amb id content recipientIds) := by
  rw [Network.createAndSend]
  cases hp : net.findPeer id with
  | none => exact h
  | some p =>
    refine (h.setPeer p ?_).sendAll (dataMessages fun _ => hcontent) amb.now
    intro c stored hstored
    rw [InMemoryStorage.getContent_addContent] at hstored
    split at hstored
    · rename_i hc
      rw [← hc, ← some_inj.mp hstored]
      exact hcontent
    · exact h.stored id p.storage (storageOf_of_findPeer hp) c stored hstored

/-- A node is forwarded with texts that have the property with the hash of its
content. -/
theorem forwardAndSend {id parentHash : Str} {recipientIds : List Str} {contentFor : Str → Str}
    (hcontent : ∀ p parent, net.findPeer id = some p → p.storage.getNode parentHash = some parent →
      ∀ recipientId, P parent.contentHash (contentFor recipientId)) :
    AllContents P (net.forwardAndSend amb id parentHash recipientIds contentFor) := by
  rw [Network.forwardAndSend]
  cases hp : net.findPeer id with
  | none => exact h
  | some p =>
    dsimp only
    cases hparent : p.storage.getNode parentHash with
    | none => exact h
    | some parent =>
      have hmsgs : ∀ msg ∈ Network.dataMessages amb.order id recipientIds
          (net.forwardCocMessage amb p parent recipientIds).2 contentFor, BringsOnly P msg :=
        dataMessages (hcontent p parent hp hparent)
      refine .sendAll (h.setPeer p ?_) hmsgs amb.now
      intro c stored hstored
      rw [InMemoryStorage.getContent_addNode, InMemoryStorage.getContent_addNode] at hstored
      exact h.stored id p.storage (storageOf_of_findPeer hp) c stored hstored

theorem deleteStored {id nodeHash : Str} : AllContents P (net.deleteStored amb id nodeHash) := by
  rw [Network.deleteStored]
  cases net.findPeer id with
  | none => exact h
  | some p =>
    dsimp only
    cases p.storage.getNode nodeHash with
    | none => exact h
    | some node =>
      dsimp only
      rw [initiateDeletion]
      split
      · exact h
      · have haudit : ∀ audit, AllContents P { net with audit } :=
          fun _ => ⟨h.stored, h.flight⟩
        exact (haudit _).sendAll tokenMessages amb.now

/-- **A delivery brings no content but that of the message.** -/
theorem deliver {iso : IsoReader} {cfg : EngineConfig} (i : ℕ) :
    AllContents P (net.deliver iso cfg amb i) := by
  rw [Network.deliver]
  cases hmsg : net.inFlight[i]? with
  | none => exact h
  | some msg =>
    have hbrings := h.flight msg (mem_of_getElem? hmsg)
    have herased : AllContents P { net with inFlight := net.inFlight.eraseIdx i } :=
      ⟨h.stored, fun m hm => h.flight m (mem_of_mem_eraseIdx hm)⟩
    dsimp only
    generalize { net with inFlight := net.inFlight.eraseIdx i } = net' at herased ⊢
    cases hp : net'.findPeer msg.recipientId with
    | none => exact herased
    | some p =>
      have hstored := herased.stored _ _ (storageOf_of_findPeer hp)
      dsimp only
      rw [receiveMessage]
      split
      · rename_i dict content hbody
        split
        · exact herased
        · rename_i node hnode
          refine herased.setPeer p fun c stored hget => ?_
          rw [InMemoryStorage.getContent_receiveNode] at hget
          split at hget
          · rename_i hc
            rw [← hc, ← some_inj.mp hget, (CoCNode.hashes_fromDict hnode).2]
            exact hbrings dict content hbody
          · exact hstored c stored hget
      · rename_i token hbody
        have hcleaned : AllContents P
            (net'.setPeer { p with storage := (net'.runToken iso cfg amb p token).storage }) :=
          herased.setPeer p fun c stored hget =>
            hstored c stored (getContent_of_processToken hget)
        have hnoted : ∀ processedTokens audit, AllContents P
            { net'.setPeer { p with storage := (net'.runToken iso cfg amb p token).storage } with
              processedTokens := processedTokens
              audit } := fun _ _ => ⟨hcleaned.stored, hcleaned.flight⟩
        refine (hnoted _ _).sendAll ?_ amb.now
        intro m hm
        obtain ⟨issued, -, hm⟩ := mem_flatMap.mp hm
        exact tokenMessages m hm
      · exact herased

end AllContents

end Network

/-! ## Genuine contents -/

/-- One text is marked out of another, for some peer at some time. -/
def MarkedOutOf (words : WordClass) (content marked : Str) : Prop :=
  ∃ peerId timestamp, marked = embedText words .all content peerId timestamp 0

/-- A text with the hash, or one that was marked out of such a text, any number of
times. -/
def Genuine (words : WordClass) (contentHash content : Str) : Prop :=
  ∃ original, hashContent original = contentHash ∧
    Relation.ReflTransGen (MarkedOutOf words) original content

section

variable {words : WordClass}

theorem genuine_hashContent (content : Str) : Genuine words (hashContent content) content :=
  ⟨content, rfl, .refl⟩

theorem Genuine.mark {contentHash content : Str} (h : Genuine words contentHash content)
    (peerId timestamp : Str) :
    Genuine words contentHash (embedText words .all content peerId timestamp 0) := by
  obtain ⟨original, hhash, hmarked⟩ := h
  exact ⟨original, hhash, hmarked.tail ⟨peerId, timestamp, rfl⟩⟩

end

namespace SimulationEngine

variable {S : SignatureScheme} {words : WordClass} {aes : AesGcm} {iso : IsoReader}
  {cfg : EngineConfig} {sim : SimulationEngine S} {amb : Ambient}

/-- The next event forwards a message without marks. -/
def forwardsPlain (sim : SimulationEngine S) (next : Ambient × Happening) : Bool :=
  match next.2 with
  | .event (.forwardMessage senderId parentNodeHash parentMessageId _ useWatermark _) =>
    match sim.network.findPeer senderId, sim.resolve parentNodeHash parentMessageId with
    | some sender, some parentHash =>
      (sender.storage.getNode parentHash).any fun parent =>
        (sim.watermarkable useWatermark sender parent).isNone
    | _, _ => false
  | _ => false

@[simp] theorem network_registerMessage :
    (sim.registerMessage messageId nodeHash).network = sim.network := by
  rw [registerMessage]
  split <;> rfl

@[simp] theorem receivedShares_registerMessage :
    (sim.registerMessage messageId nodeHash).receivedShares = sim.receivedShares := by
  rw [registerMessage]
  split <;> rfl

variable (words) in
/-- What holds throughout. -/
structure Sound (sim : SimulationEngine S) : Prop where
  contents : sim.network.AllContents (Genuine words)
  unshared : sim.receivedShares = .empty

theorem Sound.registerMessage (h : Sound words sim) (messageId : Option Str) (nodeHash : Str) :
    Sound words (sim.registerMessage messageId nodeHash) := by
  constructor
  · rw [network_registerMessage]
    exact h.contents
  · rw [receivedShares_registerMessage]
    exact h.unshared

theorem watermarkable_eq_some {useWatermark : Bool} {sender : Peer S} {parent : CoCNode}
    {engine : SteganoEngine} {content : Str}
    (h : sim.watermarkable useWatermark sender parent = some (engine, content)) :
    sender.storage.getContent parent.contentHash = some content := by
  unfold watermarkable at h
  split at h
  · obtain ⟨engine', -, h⟩ := bind_eq_some_iff.mp h
    obtain ⟨content', hcontent, h⟩ := bind_eq_some_iff.mp h
    cases h
    exact (filter_eq_some_iff.mp hcontent).1
  · cases h

/-- **Marked copies of a genuine content are genuine.** -/
theorem Sound.forwardWithWatermark (h : Sound words sim) {engine : SteganoEngine}
    {senderId parentHash : Str} {recipientIds : List Str} {content : Str} {sender : Peer S}
    {parent : CoCNode} (hsender : sim.network.findPeer senderId = some sender)
    (hparent : sender.storage.getNode parentHash = some parent)
    (hcontent : sender.storage.getContent parent.contentHash = some content) :
    Sound words (sim.forwardWithWatermark words amb engine senderId parentHash recipientIds
      content) := by
  refine ⟨h.contents.forwardAndSend fun p parent' hp hparent' recipientId => ?_, h.unshared⟩
  obtain rfl := Option.mem_unique hsender hp
  obtain rfl := Option.mem_unique hparent hparent'
  exact (h.contents.stored senderId sender.storage (Network.storageOf_of_findPeer hsender) _ _
    hcontent).mark recipientId _

/-- Nobody has shares to reconstruct a secret from. -/
theorem collectedShares_of_unshared (h : sim.receivedShares = .empty)
    (requesterId contentHash : Str) (contributorIds : List Str) :
    sim.collectedShares requesterId contentHash contributorIds = [] := by
  have hnone : ∀ peerId, sim.receivedShare peerId contentHash = none := by
    intro peerId
    rw [receivedShare, h]
    cases sim.network.findPeer peerId <;> rfl
  have hcollected : ∀ collected : Dict Str Share, contributorIds.foldl (fun collected peerId =>
      match sim.receivedShare peerId contentHash with
      | none => collected
      | some share => collected.set peerId share) collected = collected := by
    induction contributorIds with
    | nil => exact fun _ => rfl
    | cons peerId peers ih =>
      intro collected
      rw [foldl_cons, hnone, ih]
  rw [collectedShares, hnone, hcollected]
  rfl

/-- Without shares a reconstruction changes nothing. -/
theorem handleReconstructSecret_of_unshared (h : sim.receivedShares = .empty)
    (requesterId contentHash : Str) (contributorIds : List Str) :
    sim.handleReconstructSecret aes requesterId contentHash contributorIds = sim := by
  rw [handleReconstructSecret, collectedShares_of_unshared h]
  split
  case h_1 hshares => cases hshares
  case h_2 => rfl

/-- One event or delivery. -/
theorem Sound.step (h : Sound words sim) {next : Ambient × Happening}
    (hplain : sim.forwardsPlain next = false) : Sound words (sim.step words aes iso cfg next) := by
  obtain ⟨amb, happening⟩ := next
  cases happening with
  | deliver i => exact ⟨h.contents.deliver i, h.unshared⟩
  | event event =>
    cases event with
    | createMessage originatorId content recipientIds messageId =>
      simp only [SimulationEngine.step, handleEvent, handleCreateMessage]
      split
      · exact h
      · have hcreated : Sound words { sim with
            network := sim.network.createAndSend amb originatorId content recipientIds } :=
          ⟨h.contents.createAndSend (genuine_hashContent content), h.unshared⟩
        exact hcreated.registerMessage _ _
    | forwardMessage senderId parentNodeHash parentMessageId recipientIds useWatermark messageId =>
      simp only [SimulationEngine.step, handleEvent, handleForwardMessage]
      split
      · rename_i sender parentHash hsender hresolve
        split
        · exact h
        · rename_i parent hparent
          refine .registerMessage ?_ _ _
          split
          · rename_i engine content hmarks
            exact h.forwardWithWatermark hsender hparent (watermarkable_eq_some hmarks)
          · rename_i hmarks
            rw [forwardsPlain] at hplain
            dsimp only at hplain
            rw [hsender, hresolve] at hplain
            dsimp only at hplain
            rw [hparent, any_some, hmarks] at hplain
            cases hplain
      · exact h
    | watermarkForward senderId parentNodeHash recipientIds =>
      simp only [SimulationEngine.step, handleEvent, handleWatermarkForward]
      split
      · exact h
      · rename_i sender hsender
        split
        · exact h
        · rename_i parent hparent
          split
          · exact h
          · rename_i engine content hmarks
            exact h.forwardWithWatermark hsender hparent (watermarkable_eq_some hmarks)
    | reconstructSecret requesterId contentHash contributorIds =>
      simp only [SimulationEngine.step, handleEvent]
      rw [handleReconstructSecret_of_unshared h.unshared]
      exact h
    | deleteMessage originatorId nodeHash messageId =>
      simp only [SimulationEngine.step, handleEvent, handleDeleteMessage]
      split
      · exact h
      · exact ⟨h.contents.deleteStored, h.unshared⟩

/-- **What a peer stores under a hash is genuine**: in every run in which no message is
forwarded without marks, a text with that hash, or one that was marked out of such a
text. -/
theorem contents_genuine {peers : List (Str × S.SigningKey)}
    {enableSecretSharing enableSteganography : Bool} {happenings : List (Ambient × Happening)}
    (hplain : Along (step words aes iso cfg) (fun sim next => sim.forwardsPlain next = false)
      (start peers enableSecretSharing enableSteganography) happenings)
    {id contentHash content : Str}
    (hcontent : ((start peers enableSecretSharing enableSteganography).run words aes iso cfg
      happenings).network.contentAt id contentHash = some content) :
    Genuine words contentHash content := by
  have hsound : Sound words ((start peers enableSecretSharing enableSteganography).run words aes iso
      cfg happenings) :=
    along_foldl (I := Sound words) (fun _ _ h hplain => h.step hplain)
      ⟨.start peers, rfl⟩ hplain
  obtain ⟨s, hs, hget⟩ := bind_eq_some_iff.mp hcontent
  exact hsound.contents.stored id s hs contentHash content hget

/-! ### A budget -/

/-- Three peers. -/
def scene : SimulationEngine .tagged :=
  start [("alice", (1 : UInt8)), ("bob", (2 : UInt8)), ("mallory", (3 : UInt8))] true true

/-- Alice creates a message for bob and forwards it to mallory; the forwarded message
arrives. -/
def forwarding (useWatermark : Bool) : List (Ambient × Happening) :=
  [(Network.noon, .event (.createMessage "alice" "budget" ["bob"] (some "m1"))),
    (Network.noon, .event (.forwardMessage "alice" none (some "m1") ["mallory"] useWatermark none)),
    (Network.noon, .deliver 1)]

/-- What mallory gets in the two cases, and that nothing is forwarded without marks in the
second. -/
theorem forwarding_facts :
    ((scene.run .least plainAes isoReader .default (forwarding false)).network.contentAt
        "mallory" (hashContent "budget") = some (hashContent "budget") ∧
      hashContent (hashContent "budget") ≠ hashContent "budget") ∧
    ((scene.run .least plainAes isoReader .default (forwarding true)).network.contentAt
        "mallory" (hashContent "budget")).map hashContent ∉ [none, some (hashContent "budget")] ∧
      Along (step .least plainAes isoReader .default)
        (fun sim next => sim.forwardsPlain next = false) scene (forwarding true) := by
  decide +kernel

/-- Mallory's text, if it is marked. -/
theorem marked_content : ∃ content,
    (scene.run .least plainAes isoReader .default (forwarding true)).network.contentAt
        "mallory" (hashContent "budget") = some content ∧
      hashContent content ≠ hashContent "budget" := by
  have hmarked := forwarding_facts.2.1
  generalize (scene.run .least plainAes isoReader .default (forwarding true)).network.contentAt
    "mallory" (hashContent "budget") = stored at hmarked ⊢
  cases stored with
  | none => exact absurd mem_cons_self hmarked
  | some content =>
    refine ⟨content, rfl, fun hsame => hmarked ?_⟩
    rw [Option.map_some, hsame]
    exact mem_cons_of_mem _ mem_cons_self

/-- It is genuine. -/
theorem contents_genuine_mallory : ∃ content,
    (scene.run .least plainAes isoReader .default (forwarding true)).network.contentAt
        "mallory" (hashContent "budget") = some content ∧
      Genuine .least (hashContent "budget") content := by
  obtain ⟨content, hcontent, -⟩ := marked_content
  exact ⟨content, hcontent, contents_genuine forwarding_facts.2.2 hcontent⟩

/-- **Mallory's text has another hash**, in both cases: without marks it is the hash of alice's
text, and with marks it is that text with a mark. -/
theorem contents_not_addressed :
    (∃ content, (scene.run .least plainAes isoReader .default (forwarding false)).network.contentAt
        "mallory" (hashContent "budget") = some content ∧
      hashContent content ≠ hashContent "budget") ∧
    ∃ content, (scene.run .least plainAes isoReader .default (forwarding true)).network.contentAt
        "mallory" (hashContent "budget") = some content ∧
      hashContent content ≠ hashContent "budget" :=
  ⟨⟨hashContent "budget", forwarding_facts.1⟩, marked_content⟩

end SimulationEngine

end TrustFlow.Custody
