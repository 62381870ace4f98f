import Mathlib.Data.List.MinMax
import TrustFlow.Library.Runs
import TrustFlow.Protocol.Gossip

/-!
# The connections of a gossip peer

`add_peer`, `remove_peer`, `_evict_oldest_peer`, `_get_dealer` and the clean-up of
`_peer_maintenance_loop` in `network/gossip.py`, on the three dictionaries that they share: the
known peers, their keys, and the sockets ("dealers") connected to them.

* `Connections` — the dictionaries; a dealer is the address that it is connected to.
* `Connections.Sound` — **the peer does not list itself, the table is not over its limit, and every
  dealer is connected to the recorded address of a listed peer.**
* `KeepsAddress` — a call does not change the address of a peer that has a dealer.
* `connections_sound_iff` — the connections are sound in all states of a history if and only if
  every call of it has `KeepsAddress`.

None of the calls awaits anything between its reads and its writes.
-/

namespace TrustFlow.Protocol

open Library Dict

/-- The tables of a `GossipPeer`. -/
structure Connections (S : SignatureScheme) where
  peerId : Str
  maxPeers : ℕ
  peers : Dict Str PeerInfo
  peerKeys : Dict Str S.VerifyKey
  dealers : Dict Str Str

/-- `is_stale`, with `HEARTBEAT_TIMEOUT`. -/
def PeerInfo.isStale (info : PeerInfo) (now : ℚ) : Bool := decide (15 < now - info.lastSeen)

/-- A call on the tables.  Connecting a socket raises if the address is not one that ZeroMQ
knows how to connect to. -/
inductive ConnectionCall (S : SignatureScheme) where
  | addPeer (now : ℚ) (peerId address : Str) (verifyKey : Option S.VerifyKey)
  | removePeer (peerId : Str)
  | registerPeerKey (peerId : Str) (verifyKey : S.VerifyKey)
  | getDealer (peerId : Str) (connects : Bool)
  | removeStale (now : ℚ)
  | updateLastSeen (now : ℚ) (peerId : Str)

namespace Connections

variable {S : SignatureScheme}

/-- The tables of a new peer. -/
def new (peerId : Str) (maxPeers : ℕ) : Connections S := ⟨peerId, maxPeers, .empty, .empty, .empty⟩

variable (c : Connections S)

/-- `remove_peer`. -/
def removePeer (peerId : Str) : Connections S :=
  { c with
    peers := c.peers.erase peerId
    dealers := c.dealers.erase peerId
    peerKeys := c.peerKeys.erase peerId }

/-- `_evict_oldest_peer`. -/
def evictOldestPeer : Connections S :=
  match c.peers.values.argmin PeerInfo.lastSeen with
  | none => c
  | some oldest => c.removePeer oldest.peerId

/-- The eviction that `add_peer` begins with, if the table is full. -/
def makeRoom (peerId : Str) : Connections S :=
  if c.maxPeers ≤ c.peers.keys.length ∧ c.peers.get? peerId = none then c.evictOldestPeer else c

/-- `add_peer`. -/
def addPeer (now : ℚ) (peerId address : Str)
    (verifyKey : Option S.VerifyKey) : Connections S :=
  if peerId = c.peerId then c
  else
    let c := c.makeRoom peerId
    { c with
      peers := c.peers.set peerId ⟨peerId, address, now⟩
      peerKeys := match verifyKey with
        | none => c.peerKeys
        | some key => c.peerKeys.set peerId key }

/-- `_get_dealer`. -/
def getDealer (peerId : Str) (connects : Bool) : Connections S :=
  match c.dealers.get? peerId, c.peers.get? peerId with
  | none, some info =>
    if connects then { c with dealers := c.dealers.set peerId info.address } else c
  | _, _ => c

/-- The clean-up of `_peer_maintenance_loop`. -/
def removeStale (now : ℚ) : Connections S :=
  (c.peers.values.filter fun info => info.isStale now).foldl
    (fun c info => c.removePeer info.peerId) c

/-- `update_last_seen` of the sender of a frame. -/
def updateLastSeen (now : ℚ) (peerId : Str) : Connections S :=
  match c.peers.get? peerId with
  | none => c
  | some info => { c with peers := c.peers.set peerId { info with lastSeen := now } }

/-- The tables after a call. -/
def step : ConnectionCall S → Connections S
  | .addPeer now peerId address verifyKey => c.addPeer now peerId address verifyKey
  | .removePeer peerId => c.removePeer peerId
  | .registerPeerKey peerId key => { c with peerKeys := c.peerKeys.set peerId key }
  | .getDealer peerId connects => c.getDealer peerId connects
  | .removeStale now => c.removeStale now
  | .updateLastSeen now peerId => c.updateLastSeen now peerId

/-- What should hold of the tables. -/
structure Sound (c : Connections S) : Prop where
  others : c.peers.get? c.peerId = none
  bounded : c.peers.keys.length ≤ c.maxPeers
  listed : ∀ id address, c.dealers.get? id = some address → ∃ info, c.peers.get? id = some info
  current : ∀ id address info, c.dealers.get? id = some address → c.peers.get? id = some info →
    address = info.address

/-- The call gives a peer that has a dealer no other address than the one it has. -/
def KeepsAddress : ConnectionCall S → Prop
  | .addPeer _ peerId address _ => ∀ info, c.peers.get? peerId = some info →
      (c.dealers.get? peerId).isSome → address = info.address
  | _ => True

/-! ## What the calls keep in any case -/

/-- Peers are stored under their names, others than the peer itself, within the limit, and no
dealer is left over. -/
structure Tidy (c : Connections S) : Prop where
  limit : 1 ≤ c.maxPeers
  named : ∀ id info, c.peers.get? id = some info → info.peerId = id
  others : c.peers.get? c.peerId = none
  bounded : c.peers.keys.length ≤ c.maxPeers
  listed : ∀ id address, c.dealers.get? id = some address → ∃ info, c.peers.get? id = some info

/-- Dealers are connected to recorded addresses. -/
def Current : Prop :=
  ∀ id address info, c.dealers.get? id = some address → c.peers.get? id = some info →
    address = info.address

section

variable {c : Connections S} {peerId address : Str} {now : ℚ}

theorem sound_iff (h : c.Tidy) : c.Sound ↔ c.Current :=
  ⟨fun hsound => hsound.current, fun hcurrent => ⟨h.others, h.bounded, h.listed, hcurrent⟩⟩

theorem tidy_new {maxPeers : ℕ} (h : 1 ≤ maxPeers) : (new peerId maxPeers : Connections S).Tidy :=
  ⟨h, by simp [new], by simp [new], by simp [new, keys, empty], by simp [new]⟩

theorem current_new (peerId : Str) (maxPeers : ℕ) :
    (new peerId maxPeers : Connections S).Current := by
  intro id address info h
  simp [new] at h

theorem Tidy.removePeer (h : c.Tidy) (peerId : Str) : (c.removePeer peerId).Tidy := by
  constructor
  · exact h.limit
  · intro id info hinfo
    simp only [Connections.removePeer, get?_erase] at hinfo
    split at hinfo
    · simp at hinfo
    · exact h.named id info hinfo
  · simp only [Connections.removePeer, get?_erase, h.others]
    split <;> rfl
  · exact (c.peers.length_keys_erase_le peerId).trans h.bounded
  · intro id address hid
    simp only [Connections.removePeer, get?_erase] at hid ⊢
    split at hid
    · simp at hid
    · next hne =>
      rw [if_neg hne]
      exact h.listed id address hid

theorem Current.removePeer (h : c.Current) (peerId : Str) : (c.removePeer peerId).Current := by
  intro id address info hid hinfo
  simp only [Connections.removePeer, get?_erase] at hid hinfo
  split at hid
  · simp at hid
  · next hne =>
    rw [if_neg hne] at hinfo
    exact h id address info hid hinfo

variable {I : Connections S → Prop}

/-- The clean-up removes peers one by one. -/
theorem removeStale_keeps
    (hremove : ∀ c id, I c → I (c.removePeer id)) (h : I c) (now : ℚ) : I (c.removeStale now) := by
  unfold removeStale
  generalize c.peers.values.filter (fun info => info.isStale now) = stale
  induction stale generalizing c with
  | nil => exact h
  | cons info stale ih => exact ih (hremove c info.peerId h)

theorem evictOldestPeer_keeps
    (hremove : ∀ c id, I c → I (c.removePeer id)) (h : I c) : I c.evictOldestPeer := by
  unfold evictOldestPeer
  split
  · exact h
  · exact hremove c _ h

/-- The eviction makes room: the oldest peer is in the table. -/
theorem Tidy.length_evictOldestPeer (h : c.Tidy) :
    c.evictOldestPeer.peers.keys.length < c.maxPeers := by
  unfold Connections.evictOldestPeer
  split
  · next hnone =>
    have hkeys : c.peers.keys.length = c.peers.values.length := by simp [keys, values]
    rw [hkeys, List.argmin_eq_none.mp hnone]
    exact h.limit
  · next oldest holdest =>
    refine lt_of_lt_of_le ?_ h.bounded
    obtain ⟨id, hid⟩ := mem_values.mp (List.argmin_mem holdest)
    apply length_keys_erase_lt
    rw [mem_keys, h.named id oldest hid, hid]
    rfl

theorem makeRoom_keeps
    (hremove : ∀ c id, I c → I (c.removePeer id)) (h : I c) (peerId : Str) :
    I (c.makeRoom peerId) := by
  unfold makeRoom
  split
  · exact evictOldestPeer_keeps hremove h
  · exact h

/-- A known peer keeps its place. -/
theorem makeRoom_of_known {info : PeerInfo} (hinfo : c.peers.get? peerId = some info) :
    c.makeRoom peerId = c := by
  simp [makeRoom, hinfo]

/-- A new peer finds room. -/
theorem Tidy.makeRoom_of_new (h : c.Tidy) (hnew : c.peers.get? peerId = none) :
    (c.makeRoom peerId).peers.get? peerId = none ∧
      (c.makeRoom peerId).peers.keys.length < c.maxPeers := by
  constructor
  · refine makeRoom_keeps (I := fun c => c.peers.get? peerId = none) (fun c id hc => ?_) hnew peerId
    simp only [Connections.removePeer, get?_erase, hc]
    split <;> rfl
  · unfold makeRoom
    split
    · exact h.length_evictOldestPeer
    · next hroom =>
      rw [not_and_or] at hroom
      exact Nat.not_le.mp (hroom.resolve_right (not_not_intro hnew))

theorem makeRoom_fixed (c : Connections S) (peerId : Str) :
    (c.makeRoom peerId).peerId = c.peerId ∧ (c.makeRoom peerId).maxPeers = c.maxPeers :=
  makeRoom_keeps (I := fun c' => c'.peerId = c.peerId ∧ c'.maxPeers = c.maxPeers)
    (fun _ _ h => h) ⟨rfl, rfl⟩ peerId

/-- Entries change under their own names only. -/
theorem Tidy.set (h : c.Tidy) (info : PeerInfo) (hself : info.peerId ≠ c.peerId)
    (hroom : (c.peers.set info.peerId info).keys.length ≤ c.maxPeers)
    (keys : Dict Str S.VerifyKey) :
    ({ c with peers := c.peers.set info.peerId info, peerKeys := keys } : Connections S).Tidy := by
  constructor
  · exact h.limit
  · intro id found hfound
    simp only [get?_set] at hfound
    split at hfound
    · next heq =>
      rw [← Option.some.inj hfound]
      exact heq
    · exact h.named id found hfound
  · simp only [get?_set, if_neg hself]
    exact h.others
  · exact hroom
  · intro id address hid
    simp only [get?_set]
    split
    · exact ⟨info, rfl⟩
    · exact h.listed id address hid

theorem Tidy.addPeer (h : c.Tidy) (now : ℚ) (peerId address : Str)
    (verifyKey : Option S.VerifyKey) : (c.addPeer now peerId address verifyKey).Tidy := by
  unfold Connections.addPeer
  split
  · exact h
  · next hself =>
    obtain ⟨hsame, hmax⟩ := c.makeRoom_fixed peerId
    have hroom : (((c.makeRoom peerId).peers.set peerId ⟨peerId, address, now⟩).keys.length)
        ≤ (c.makeRoom peerId).maxPeers := by
      rw [hmax]
      cases hknown : c.peers.get? peerId with
      | none =>
        have hlength := (h.makeRoom_of_new hknown).2
        have hset := (c.makeRoom peerId).peers.length_keys_set_le peerId ⟨peerId, address, now⟩
        omega
      | some info =>
        rw [makeRoom_of_known hknown, length_keys_set_of_mem _ (mem_keys.mpr (by simp [hknown]))]
        exact h.bounded
    have htidy := makeRoom_keeps (I := Tidy) (fun _ id h => h.removePeer id) h peerId
    exact htidy.set ⟨peerId, address, now⟩ (by rw [hsame]; exact hself) hroom _

theorem Tidy.getDealer (h : c.Tidy) (peerId : Str) (connects : Bool) :
    (c.getDealer peerId connects).Tidy := by
  unfold Connections.getDealer
  split
  · next info hnone hinfo =>
    split
    · refine ⟨h.limit, h.named, h.others, h.bounded, fun id address hid => ?_⟩
      simp only [get?_set] at hid
      split at hid
      · next heq => exact ⟨info, heq ▸ hinfo⟩
      · exact h.listed id address hid
    · exact h
  · exact h

theorem Tidy.updateLastSeen (h : c.Tidy) (now : ℚ) (peerId : Str) :
    (c.updateLastSeen now peerId).Tidy := by
  unfold Connections.updateLastSeen
  split
  · exact h
  · next info hinfo =>
    have hname := h.named peerId info hinfo
    have hself : peerId ≠ c.peerId := by
      rintro rfl
      rw [h.others] at hinfo
      simp at hinfo
    have hroom : (c.peers.set peerId { info with lastSeen := now }).keys.length ≤ c.maxPeers := by
      rw [length_keys_set_of_mem _ (mem_keys.mpr (by simp [hinfo]))]
      exact h.bounded
    rw [← hname] at hself hroom ⊢
    exact h.set { info with lastSeen := now } hself hroom c.peerKeys

/-- **Every call** leaves the tables tidy. -/
theorem Tidy.step (h : c.Tidy) (call : ConnectionCall S) : (c.step call).Tidy := by
  cases call with
  | addPeer now peerId address verifyKey => exact h.addPeer now peerId address verifyKey
  | removePeer peerId => exact h.removePeer peerId
  | registerPeerKey peerId key => exact ⟨h.limit, h.named, h.others, h.bounded, h.listed⟩
  | getDealer peerId connects => exact h.getDealer peerId connects
  | removeStale now => exact removeStale_keeps (I := Tidy) (fun _ id h => h.removePeer id) h now
  | updateLastSeen now peerId => exact h.updateLastSeen now peerId

/-! ## Addresses -/

/-- A peer without a dealer may move. -/
theorem current_set_iff (h : c.Current) {info : PeerInfo} (keys : Dict Str S.VerifyKey) :
    ({ c with peers := c.peers.set peerId info, peerKeys := keys } : Connections S).Current ↔
      ∀ address, c.dealers.get? peerId = some address → address = info.address := by
  constructor
  · intro hset address haddress
    exact hset peerId address info haddress (get?_set_self _ _ _)
  · intro hdealer id address found hid hfound
    simp only [get?_set] at hfound
    split at hfound
    · next heq =>
      subst heq
      rw [← Option.some.inj hfound]
      exact hdealer address hid
    · exact h id address found hid hfound

/-- **The call that moves a peer** is the one that leaves a dealer behind. -/
theorem current_addPeer_iff (htidy : c.Tidy) (h : c.Current) (now : ℚ) (peerId address : Str)
    (verifyKey : Option S.VerifyKey) :
    (c.addPeer now peerId address verifyKey).Current ↔
      c.KeepsAddress (.addPeer now peerId address verifyKey) := by
  unfold Connections.addPeer KeepsAddress
  by_cases hself : peerId = c.peerId
  · rw [if_pos hself]
    refine iff_of_true h fun info hinfo => ?_
    rw [hself, htidy.others] at hinfo
    simp at hinfo
  · rw [if_neg hself]
    have hroom := makeRoom_keeps (I := Current) (fun _ id h => h.removePeer id) h peerId
    refine (current_set_iff hroom _).trans ?_
    cases hknown : c.peers.get? peerId with
    | none =>
      refine iff_of_true (fun old hold => ?_) (by simp [hknown])
      obtain ⟨info, hinfo⟩ := (makeRoom_keeps (I := Tidy) (fun _ id h => h.removePeer id) htidy
        peerId).listed peerId old hold
      rw [(htidy.makeRoom_of_new hknown).1] at hinfo
      simp at hinfo
    | some info =>
      rw [makeRoom_of_known hknown]
      constructor
      · intro hdealer found hfound hsome
        obtain ⟨old, hold⟩ := Option.isSome_iff_exists.mp hsome
        exact (hdealer old hold).symm.trans (h peerId old found hold hfound)
      · intro hkeeps old hold
        rw [h peerId old info hold hknown]
        exact (hkeeps info hknown (by simp [hold])).symm

/-- **One call**, from tidy tables with dealers that follow the addresses. -/
theorem current_step_iff (htidy : c.Tidy) (h : c.Current) (call : ConnectionCall S) :
    (c.step call).Current ↔ c.KeepsAddress call := by
  cases call with
  | addPeer now peerId address verifyKey =>
    exact current_addPeer_iff htidy h now peerId address verifyKey
  | removePeer peerId => exact iff_of_true (h.removePeer peerId) trivial
  | registerPeerKey peerId key => exact iff_of_true h trivial
  | getDealer peerId connects =>
    refine iff_of_true ?_ trivial
    show (c.getDealer peerId connects).Current
    unfold Connections.getDealer
    split
    · next info hnone hinfo =>
      split
      · -- the new dealer is connected to the address in the table
        intro id address found hid hfound
        simp only [get?_set] at hid
        split at hid
        · next heq =>
          subst heq
          obtain rfl := Option.mem_unique hinfo hfound
          exact (Option.some.inj hid).symm
        · exact h id address found hid hfound
      · exact h
    · exact h
  | removeStale now =>
    refine iff_of_true ?_ trivial
    exact removeStale_keeps (I := Current) (fun _ id h => h.removePeer id) h now
  | updateLastSeen now peerId =>
    refine iff_of_true ?_ trivial
    show (c.updateLastSeen now peerId).Current
    unfold Connections.updateLastSeen
    split
    · exact h
    · next info hinfo =>
      refine (current_set_iff h c.peerKeys).mpr fun address haddress => ?_
      exact h peerId address info haddress hinfo

end

/-- **The connections are sound in all states of a history** if and only if no call of it gives
a peer with a dealer another address. -/
theorem connections_sound_iff (peerId : Str) {maxPeers : ℕ} (hlimit : 1 ≤ maxPeers)
    (calls : List (ConnectionCall S)) :
    (∀ before, before <+: calls → (before.foldl step (new peerId maxPeers)).Sound) ↔
      Along step KeepsAddress (new peerId maxPeers) calls := by
  have htidy : ∀ (before : List (ConnectionCall S)) {c : Connections S}, c.Tidy →
      (before.foldl step c).Tidy := by
    intro before
    induction before with
    | nil => exact fun h => h
    | cons call before ih => exact fun h => ih (h.step call)
  have hprefix : (∀ before, before <+: calls → (before.foldl step (new peerId maxPeers)).Current) ↔
      Along step KeepsAddress (new peerId maxPeers) calls :=
    forall_prefix_iff_along (I := Tidy) (Q := Current) (fun _ call h => h.step call)
      (fun _ call h hcurrent => current_step_iff h hcurrent call) (tidy_new hlimit)
      (current_new peerId maxPeers) calls
  refine Iff.trans (forall_congr' fun before => imp_congr_right fun _ => ?_) hprefix
  exact sound_iff (htidy before (tidy_new hlimit))

/-- Bob is added, connected to, and added again at the same address: the dealer stays
right. -/
theorem connections_sound_again :
    (([.addPeer 0 "bob" "tcp://127.0.0.1:6001" none, .getDealer "bob" true,
        .addPeer 9 "bob" "tcp://127.0.0.1:6001" none].foldl step
      (new "alice" 50 : Connections .tagged)).Sound) := by
  refine (connections_sound_iff "alice" (by decide) _).mpr ?_ _ List.prefix_rfl
  refine ⟨fun _ hinfo => (by cases hinfo), trivial, fun info hinfo _ => ?_, trivial⟩
  rw [← Option.some.inj hinfo]

/-- A dealer stays connected to the old address of a peer that moved. -/
theorem dealer_left_behind :
    ¬ (([.addPeer 0 "bob" "tcp://127.0.0.1:6001" none, .getDealer "bob" true,
        .addPeer 9 "bob" "tcp://127.0.0.1:6002" none].foldl step
      (new "alice" 50 : Connections .tagged)).Sound) := by
  intro h
  have hcurrent := h.current "bob" "tcp://127.0.0.1:6001"
    ⟨"bob", "tcp://127.0.0.1:6002", 9⟩ rfl rfl
  simp at hcurrent

end Connections

end TrustFlow.Protocol
