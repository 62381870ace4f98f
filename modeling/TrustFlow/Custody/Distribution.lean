import TrustFlow.Custody.Offline
import TrustFlow.Custody.Simulation

/-!
# Secrets in a simulation

The events of a scenario that hand out the shares of a secret, and all others that may come
between that and its reconstruction.

* `ScenarioEvent`, `Occurrence` — every event of a scenario, and the deliveries.
* `handleDistributeShares` — the shares are sent in messages of the type `secret_share`, which
  `receive_message` passes over.
* `receivedShares_play` — **nobody ever has a share**: no event and no delivery writes to the
  shares that a reconstruction reads.
* `reconstruct_iff` — so a reconstruction leaves a content with the requester exactly if it was
  there before.
* `shares_never_arrive` — two of two shares are handed out and delivered, and the secret is not
  reconstructed.
-/

namespace TrustFlow.Custody

open Library SecretSharing Stegano SteganoEngine

/-- The events of a scenario.  `DESTROY_TIMELOCK` is missing: it changes the time-lock engine
only, and no other event reads that.  A `TIMELOCK_CONTENT` comes with whether the time-lock
engine is there and seals the content. -/
inductive ScenarioEvent where
  | content (event : Event)
  | peerOnline (peerId : Str)
  | peerOffline (peerId : Str)
  | distributeShares (originatorId : Str) (call : SplitCall)
  | timelockContent (originatorId : Str) (recipientIds : List Str) (isSealed : Bool)
  | detectLeak (investigatorId : Str) (suspectIds : Option (List Str))

/-- An event, or the delivery of a message in flight. -/
inductive Occurrence where
  | event (event : ScenarioEvent)
  | deliver (i : ℕ)

namespace SimulationEngine

variable {S : SignatureScheme} (words : WordClass) (aes : AesGcm) (iso : IsoReader)
  (cfg : EngineConfig) (messageTtlHours : ℤ) (sim : SimulationEngine S) (amb : Ambient)

/-- Messages of a type that `receive_message` passes over. -/
def otherMessages (messageType senderId : Str) (recipientIds : List Str) : List Message :=
  recipientIds.map fun recipientId => ⟨senderId, recipientId, .other messageType⟩

/-- `_handle_distribute_shares`, with `distribute_shares` of the originator; an exception ends
the event. -/
def handleDistributeShares (originatorId : Str) (call : SplitCall) : SimulationEngine S :=
  match sim.secretSharing, sim.network.findPeer originatorId with
  | some engine, some _ =>
    match engine.splitContent aes call with
    | .error _ => sim
    | .ok (shares, engine) =>
      { sim with
        network := sim.network.sendAll amb.now
          (otherMessages "secret_share" originatorId shares.keys)
        secretSharing := some engine }
  | _, _ => sim

/-- `_handle_timelock_content`. -/
def handleTimelockContent (originatorId : Str) (recipientIds : List Str) (isSealed : Bool) :
    SimulationEngine S :=
  match sim.network.findPeer originatorId with
  | some _ =>
    if isSealed then
      { sim with
        network := sim.network.sendAll amb.now
          (otherMessages "timelocked_content" originatorId recipientIds) }
    else sim
  | none => sim

/-- `_handle_detect_leak`, but for what it logs. -/
def handleDetectLeak (investigatorId : Str) (suspectIds : Option (List Str)) : SimulationEngine S :=
  match sim.stegano, sim.network.findPeer investigatorId with
  | some engine, some _ =>
    { sim with stegano := some ((suspectIds.getD sim.network.peers.keys).foldl registerPeer engine) }
  | _, _ => sim

/-- `_handle_event`. -/
def handleScenarioEvent : ScenarioEvent → SimulationEngine S
  | .content event => sim.handleEvent words aes amb event
  | .peerOnline peerId =>
    { sim with network := (Network.goOnline iso cfg amb messageTtlHours peerId sim.network).net }
  | .peerOffline peerId => { sim with network := sim.network.goOffline peerId }
  | .distributeShares originatorId call => sim.handleDistributeShares aes amb originatorId call
  | .timelockContent originatorId recipientIds isSealed =>
    sim.handleTimelockContent amb originatorId recipientIds isSealed
  | .detectLeak investigatorId suspectIds => sim.handleDetectLeak investigatorId suspectIds

/-- One event or delivery. -/
def happen (sim : SimulationEngine S) (next : Ambient × Occurrence) : SimulationEngine S :=
  match next.2 with
  | .event event => sim.handleScenarioEvent words aes iso cfg messageTtlHours next.1 event
  | .deliver i => { sim with network := sim.network.deliver iso cfg next.1 i }

/-- A scenario, with its deliveries. -/
def play (sim : SimulationEngine S) (occurrences : List (Ambient × Occurrence)) :
    SimulationEngine S :=
  occurrences.foldl (happen words aes iso cfg messageTtlHours) sim

/-! ## Received shares -/

variable {words aes iso cfg messageTtlHours sim amb}

theorem receivedShares_handleEvent (event : Event) :
    (sim.handleEvent words aes amb event).receivedShares = sim.receivedShares := by
  cases event with
  | createMessage originatorId content recipientIds messageId =>
    rw [handleEvent, handleCreateMessage]
    split
    · rfl
    · rw [receivedShares_registerMessage]
  | forwardMessage senderId parentNodeHash parentMessageId recipientIds useWatermark messageId =>
    rw [handleEvent, handleForwardMessage]
    split
    · split
      · rfl
      · dsimp only
        rw [receivedShares_registerMessage]
        split <;> rfl
    · rfl
  | watermarkForward senderId parentNodeHash recipientIds =>
    rw [handleEvent, handleWatermarkForward]
    split
    · rfl
    · split
      · rfl
      · split <;> rfl
  | reconstructSecret requesterId contentHash contributorIds =>
    rw [handleEvent, handleReconstructSecret]
    split
    · split <;> rfl
    · rfl
  | deleteMessage originatorId nodeHash messageId =>
    rw [handleEvent, handleDeleteMessage]
    split <;> rfl

/-- One event or delivery. -/
theorem receivedShares_happen (next : Ambient × Occurrence) :
    (sim.happen words aes iso cfg messageTtlHours next).receivedShares = sim.receivedShares := by
  obtain ⟨amb, occurrence⟩ := next
  cases occurrence with
  | deliver i => rfl
  | event event =>
    cases event with
    | content event => exact receivedShares_handleEvent event
    | peerOnline peerId => rfl
    | peerOffline peerId => rfl
    | distributeShares originatorId call =>
      show (sim.handleDistributeShares aes amb originatorId call).receivedShares = _
      rw [handleDistributeShares]
      split
      · split <;> rfl
      · rfl
    | timelockContent originatorId recipientIds isSealed =>
      show (sim.handleTimelockContent amb originatorId recipientIds isSealed).receivedShares = _
      rw [handleTimelockContent]
      split
      · split <;> rfl
      · rfl
    | detectLeak investigatorId suspectIds =>
      show (sim.handleDetectLeak investigatorId suspectIds).receivedShares = _
      rw [handleDetectLeak]
      split <;> rfl

/-- **Nobody ever has a share**, whatever is handed out and delivered. -/
theorem receivedShares_play (occurrences : List (Ambient × Occurrence)) :
    (sim.play words aes iso cfg messageTtlHours occurrences).receivedShares = sim.receivedShares := by
  induction occurrences generalizing sim with
  | nil => rfl
  | cons next occurrences ih => exact ih.trans (receivedShares_happen next)

/-- **A reconstruction brings nothing.**  A secret is handed out at some point of a scenario, and
its reconstruction is asked for at a later one: the requester has the content then exactly if it
was there already. -/
theorem reconstruct_iff {peers : List (Str × S.SigningKey)} {enableSteganography : Bool}
    (before between : List (Ambient × Occurrence)) (amb amb' : Ambient) (originatorId : Str)
    (call : SplitCall) (requesterId : Str) (contributorIds : List Str) :
    let sim := (start peers true enableSteganography).play words aes iso cfg messageTtlHours
      (before ++ (amb, .event (.distributeShares originatorId call)) :: between)
    (sim.happen words aes iso cfg messageTtlHours (amb', .event (.content (.reconstructSecret
        requesterId (hashContent call.content) contributorIds)))).network.contentAt requesterId
          (hashContent call.content) = some call.content ↔
      sim.network.contentAt requesterId (hashContent call.content) = some call.content := by
  intro sim
  have hunshared : sim.receivedShares = .empty := receivedShares_play _
  have hsame : sim.happen words aes iso cfg messageTtlHours (amb', .event (.content
      (.reconstructSecret requesterId (hashContent call.content) contributorIds))) = sim :=
    handleReconstructSecret_of_unshared hunshared _ _ _
  rw [hsame]

/-! ### Two of two -/

/-- Alice shares a budget with bob and mallory, who are both needed. -/
def sharing : Ambient × Occurrence :=
  (Network.noon, .event (.distributeShares "alice"
    ⟨"budget", ["bob", "mallory"], some 2, fixedCoins⟩))

/-- Alice asks both for it. -/
def asking : Ambient × Occurrence :=
  (Network.noon, .event (.content (.reconstructSecret "alice" (hashContent "budget")
    ["bob", "mallory"])))

/-- **The shares never arrive**: both are sent, both messages are delivered, and alice does not
get the budget back. -/
theorem shares_never_arrive :
    (scene.play .least plainAes isoReader .default 24 [sharing]).network.inFlight.map
        Message.recipientId = ["bob".toList, "mallory"] ∧
      (scene.play .least plainAes isoReader .default 24 [sharing, (Network.noon, .deliver 0),
        (Network.noon, .deliver 0)]).network.inFlight = [] ∧
      (scene.play .least plainAes isoReader .default 24 [sharing, (Network.noon, .deliver 0),
        (Network.noon, .deliver 0), asking]).network.contentAt "alice"
          (hashContent "budget") = none := by
  decide

end SimulationEngine

end TrustFlow.Custody
