import TrustFlow.Library.Runs
import TrustFlow.Protocol.Relay

/-!
# Duplicate envelopes

A peer receives frames one after the other.  `_handle_received` drops an
envelope whose id it has seen in the last five minutes, and one whose timestamp
is more than five minutes old.

* `Reception` — a frame with what the peer takes from outside when it handles it.
* `accepts` — the envelope has the given id and passes the seen, signature and
  timestamp checks.
* `Orderly` — all envelopes with the id carry one timestamp, which is not in the
  future, and the cache has room for the ids of five minutes.
* `accepts_at_most_once` — in every orderly run the id is accepted, and given to
  a handler, at most once.

The window in which an envelope is accepted is a minute longer than the cache
remembers it: an envelope dated into the future is accepted again when its entry
is gone.
-/

namespace TrustFlow.Protocol

open Library List MessageCache Option Bool

/-! ## The cache -/

namespace MessageCache

variable {c : MessageCache} {now since : ℚ} {m : Str}

@[simp] theorem ttl_maybeCleanup (c : MessageCache) (now : ℚ) :
    (c.maybeCleanup now).ttl = c.ttl := by
  unfold maybeCleanup
  split <;> rfl

@[simp] theorem maxSize_maybeCleanup (c : MessageCache) (now : ℚ) :
    (c.maybeCleanup now).maxSize = c.maxSize := by
  unfold maybeCleanup
  split <;> rfl

/-- The entries that are not older than the cache keeps them. -/
def live (c : MessageCache) (now : ℚ) : Dict Str ℚ :=
  c.cache.filter fun _ time => !decide (time < now - c.ttl)

/-- Everything live fits into the cache. -/
def Fits (c : MessageCache) (now : ℚ) : Prop := (c.live now).entries.length ≤ c.maxSize

/-- If the live entries fit, a clean-up removes the others only. -/
theorem remembers_maybeCleanup (hfits : c.Fits now) (hcache : c.cache.Remembers m since)
    (hage : now - c.ttl ≤ since) : (c.maybeCleanup now).cache.Remembers m since := by
  unfold maybeCleanup
  split
  · exact hcache
  have hlive : (c.live now).Remembers m since := by
    refine hcache.filter fun time _ hle => ?_
    rw [not_eq_true', decide_eq_false_iff_not, not_lt]
    exact hage.trans hle
  have hnone : surplus c.maxSize (c.live now) = [] := by
    rw [surplus, Nat.sub_eq_zero_of_le hfits, take_zero, map_nil]
  refine hlive.filter fun time _ _ => ?_
  show (!(surplus c.maxSize (c.live now)).contains m) = true
  rw [hnone]
  rfl

/-- What a clean-up leaves was there before. -/
theorem get?_of_maybeCleanup {time : ℚ} (h : (c.maybeCleanup now).cache.get? m = some time) :
    c.cache.get? m = some time := by
  unfold maybeCleanup at h
  split at h
  · exact h
  · exact (Dict.get?_filter.mp (Dict.get?_filter.mp h).1).1

theorem get?_of_hasSeen {m' : Str} {time : ℚ}
    (h : (c.hasSeen now m').1.cache.get? m = some time) : c.cache.get? m = some time := by
  unfold hasSeen at h
  dsimp only at h
  split at h
  · exact get?_of_maybeCleanup h
  · split at h
    · by_cases hm : m' = m
      · rw [hm, Dict.get?_erase, if_pos rfl] at h
        cases h
      · rw [Dict.get?_erase_of_ne _ hm] at h
        exact get?_of_maybeCleanup h
    · exact get?_of_maybeCleanup h

theorem get?_of_markSeen {m' : Str} {time : ℚ}
    (h : (c.markSeen now m').cache.get? m = some time) :
    m' = m ∧ time = now ∨ c.cache.get? m = some time := by
  have hset := get?_of_maybeCleanup h
  rw [Dict.get?_set] at hset
  split at hset
  · rename_i hm
    exact .inl ⟨hm, (some_inj.mp hset).symm⟩
  · exact .inr hset

section

variable (c : MessageCache) (now : ℚ)

@[simp] theorem ttl_hasSeen (m : Str) :
    (c.hasSeen now m).1.ttl = c.ttl := by
  unfold hasSeen
  dsimp only
  split
  · exact ttl_maybeCleanup c now
  · split <;> exact ttl_maybeCleanup c now

@[simp] theorem maxSize_hasSeen (m : Str) :
    (c.hasSeen now m).1.maxSize = c.maxSize := by
  unfold hasSeen
  dsimp only
  split
  · exact maxSize_maybeCleanup c now
  · split <;> exact maxSize_maybeCleanup c now

@[simp] theorem ttl_markSeen (m : Str) :
    (c.markSeen now m).ttl = c.ttl := ttl_maybeCleanup _ now

@[simp] theorem maxSize_markSeen (m : Str) :
    (c.markSeen now m).maxSize = c.maxSize := maxSize_maybeCleanup _ now

/-- There is no clean-up right after a clean-up. -/
theorem lastCleanup_maybeCleanup :
    now - (c.maybeCleanup now).lastCleanup < 60 := by
  unfold maybeCleanup
  split
  · assumption
  · dsimp only
    rw [sub_self]
    exact rfl

/-- So marking an id that was just asked for enters it, and that is all. -/
theorem markSeen_hasSeen (m m' : Str) :
    ((c.hasSeen now m).1.markSeen now m').cache = (c.hasSeen now m).1.cache.set m' now := by
  have hrecent : now - (c.hasSeen now m).1.lastCleanup < 60 := by
    unfold hasSeen
    dsimp only
    split
    · exact lastCleanup_maybeCleanup c now
    · split <;> exact lastCleanup_maybeCleanup c now
  rw [markSeen, maybeCleanup, if_pos hrecent]

end

/-- Asking for an id forgets no other id that is young enough, nor the id itself. -/
theorem remembers_hasSeen (hfits : c.Fits now) (hcache : c.cache.Remembers m since)
    (hage : now - c.ttl ≤ since) (m' : Str) :
    (c.hasSeen now m').1.cache.Remembers m since := by
  have hclean := remembers_maybeCleanup hfits hcache hage
  unfold hasSeen
  dsimp only
  split
  · exact hclean
  rename_i time htime
  split
  · rename_i hold
    refine hclean.erase ?_
    rintro rfl
    obtain ⟨time', htime', hle⟩ := hclean
    rw [htime, some_inj] at htime'
    rw [ttl_maybeCleanup] at hold
    rw [← htime'] at hle
    linarith
  · exact hclean

end MessageCache

/-! ## Receptions -/

/-- The value of a timestamp, if it is finite. -/
def Number.value : Number → Option ℚ
  | .int z => some z
  | .float (.finite d) => some (decimalValue d)
  | .float _ => none

/-- A received frame. -/
structure Reception where
  sur : Surroundings
  sampler : Sampler
  senderId : Str
  data : Bytes

namespace Reception

/-- When it was received. -/
def now (r : Reception) : ℚ := decimalValue r.sur.now

/-- The envelope in the frame. -/
def envelope (r : Reception) : Option GossipEnvelope :=
  (GossipEnvelope.fromBytes r.sur r.data).toOption

theorem envelope_eq_some {r : Reception} {env : GossipEnvelope} :
    r.envelope = some env ↔ GossipEnvelope.fromBytes r.sur r.data = .ok env := by
  rw [envelope]
  cases GossipEnvelope.fromBytes r.sur r.data with
  | error e => exact ⟨fun h => (nomatch h), fun h => (nomatch h)⟩
  | ok env' => rw [Except.toOption, some_inj, Except.ok.injEq]

end Reception

namespace GossipPeer

variable {S : SignatureScheme}

/-- The seen, signature and timestamp checks. -/
def admits (peer : GossipPeer S) (now : ℚ) (env : GossipEnvelope) : Bool :=
  !(peer.seen.hasSeen now env.msgId).2 && (match peer.peerKeys.get? env.originId with
      | none => false
      | some key =>
        match env.verify S key with
        | .error _ => false
        | .ok valid => valid) &&
    timestampValid now env.timestamp

/-- The peer after it handled the frame. -/
def receive (peer : GossipPeer S) (r : Reception) : GossipPeer S :=
  (peer.handleReceived r.sur r.sampler r.senderId r.data).peer

/-- The frame is an envelope with the given id, and passes the checks. -/
def accepts (m : Str) (peer : GossipPeer S) (r : Reception) : Bool :=
  match r.envelope with
  | none => false
  | some env => decide (env.msgId = m) && peer.admits r.now env

variable {peer : GossipPeer S} {r : Reception} {env : GossipEnvelope} {m : Str}

/-- **What a peer does with an envelope**: it asks for the id, and marks it if the
envelope passes; only then a handler is called. -/
theorem receive_envelope (henv : r.envelope = some env) :
    (peer.receive r).peerKeys = peer.peerKeys ∧
      (peer.receive r).seen
        = (if peer.admits r.now env then
            (peer.seen.hasSeen r.now env.msgId).1.markSeen r.now env.msgId
          else (peer.seen.hasSeen r.now env.msgId).1) ∧
      (peer.admits r.now env = false →
        (peer.handleReceived r.sur r.sampler r.senderId r.data).dispatched = []) := by
  rw [receive, handleReceived, Reception.envelope_eq_some.mp henv, admits]
  dsimp only
  rw [show decimalValue r.sur.now = r.now from rfl, seen_touch, peerKeys_touch]
  cases (peer.seen.hasSeen r.now env.msgId).2 with
  | true => exact ⟨rfl, rfl, fun _ => rfl⟩
  | false =>
    cases peer.peerKeys.get? env.originId with
    | none => exact ⟨rfl, rfl, fun _ => rfl⟩
    | some key =>
      dsimp only
      obtain ⟨verdict, hverdict⟩ : ∃ verdict, env.verify S key = verdict := ⟨_, rfl⟩
      simp only [hverdict]
      cases verdict with
      | error e => exact ⟨rfl, rfl, fun _ => rfl⟩
      | ok valid =>
        cases valid with
        | false => exact ⟨rfl, rfl, fun _ => rfl⟩
        | true =>
          cases htime : timestampValid r.now env.timestamp with
          | false => exact ⟨rfl, rfl, fun _ => rfl⟩
          | true =>
            rw [if_neg Bool.false_ne_true, if_pos rfl, relay]
            dsimp only
            split <;> exact ⟨rfl, rfl, fun h => Bool.noConfusion h⟩

/-- A frame that is no envelope leaves the peer as it was. -/
theorem receive_of_none (hnone : r.envelope = none) : peer.receive r = peer := by
  rw [Reception.envelope] at hnone
  rw [receive, handleReceived]
  cases hdata : GossipEnvelope.fromBytes r.sur r.data with
  | ok env => rw [hdata] at hnone; cases hnone
  | error e =>
    dsimp only
    split <;> rfl

/-! ## Orderly runs -/

/-- The ids of the envelopes received at `since` or later. -/
def recentIds (since : ℚ) (rs : List Reception) : List Str :=
  ((rs.filter fun r => decide (since ≤ r.now)).filterMap fun r => r.envelope.map (·.msgId)).dedup

/-- The frames come in order, all envelopes with the id carry one timestamp that
is not in the future, and no more ids than the cache has room for come in five
minutes. -/
structure Orderly (m : Str) (rs : List Reception) : Prop where
  ordered : rs.Pairwise fun r r' => r.now ≤ r'.now
  dated : ∃ t : ℚ, ∀ r ∈ rs, ∀ env, r.envelope = some env → env.msgId = m →
    env.timestamp.value = some t ∧ t ≤ r.now
  fits : ∀ past r rest, rs = past ++ r :: rest → (recentIds (r.now - 300) past).length ≤ 10000

/-- The cache has its default limits, and its entries are from the past. -/
structure Traced (past : List Reception) (c : MessageCache) : Prop where
  ttl : c.ttl = 300
  maxSize : c.maxSize = 10000
  traced : ∀ id time, c.cache.get? id = some time →
    ∃ r ∈ past, r.now = time ∧ r.envelope.map (·.msgId) = some id

/-- If the ids of five minutes fit, so do the live entries. -/
theorem Traced.fits {past : List Reception} {c : MessageCache} (h : Traced past c) {now : ℚ}
    (hfits : (recentIds (now - 300) past).length ≤ 10000) : c.Fits now := by
  have hsubset : (c.live now).keys ⊆ recentIds (now - 300) past := by
    intro id hid
    obtain ⟨time, htime⟩ := isSome_iff_exists.mp (Dict.mem_keys.mp hid)
    obtain ⟨hget, hlive⟩ := Dict.get?_filter.mp htime
    obtain ⟨r, hr, hnow, hmsg⟩ := h.traced id time hget
    rw [not_eq_true', decide_eq_false_iff_not, not_lt, h.ttl] at hlive
    refine mem_dedup.mpr (mem_filterMap.mpr ⟨r, mem_filter.mpr ⟨hr, ?_⟩, hmsg⟩)
    exact decide_eq_true (hnow ▸ hlive)
  have hlength := (subperm_of_subset (c.live now).nodup hsubset).length_le
  rw [length_map] at hlength
  rw [MessageCache.Fits, h.maxSize]
  exact hlength.trans hfits

theorem Traced.receive {past : List Reception} (h : Traced past peer.seen) (r : Reception) :
    Traced (past ++ [r]) (peer.receive r).seen := by
  have hold : ∀ id time, peer.seen.cache.get? id = some time →
      ∃ r' ∈ past ++ [r], r'.now = time ∧ r'.envelope.map (·.msgId) = some id := by
    intro id time hget
    obtain ⟨r', hr', hfound⟩ := h.traced id time hget
    exact ⟨r', mem_append_left _ hr', hfound⟩
  cases henv : r.envelope with
  | none =>
    rw [receive_of_none henv]
    exact ⟨h.ttl, h.maxSize, hold⟩
  | some env =>
    rw [(receive_envelope henv).2.1]
    split
    · refine ⟨?_, ?_, fun id time hget => ?_⟩
      · rw [ttl_markSeen, ttl_hasSeen, h.ttl]
      · rw [maxSize_markSeen, maxSize_hasSeen, h.maxSize]
      · rcases MessageCache.get?_of_markSeen hget with ⟨rfl, rfl⟩ | hget
        · exact ⟨r, mem_append_right _ mem_cons_self, rfl, by rw [henv, map_some]⟩
        · exact hold id time (MessageCache.get?_of_hasSeen hget)
    · refine ⟨?_, ?_, fun id time hget => ?_⟩
      · rw [ttl_hasSeen, h.ttl]
      · rw [maxSize_hasSeen, h.maxSize]
      · exact hold id time (MessageCache.get?_of_hasSeen hget)

/-- The id was marked at `since`, which is not before the timestamp `t` of its
envelopes.  When the cache may have forgotten it, the timestamp is too old. -/
structure Refused (m : Str) (rs : List Reception) (t since : ℚ) (peer : GossipPeer S)
    (rest : List Reception) : Prop where
  past : ∃ past, rs = past ++ rest ∧ Traced past peer.seen
  marked : peer.seen.cache.Remembers m since ∨ ∀ r ∈ rest, since + 300 < r.now
  later : ∀ r ∈ rest, since ≤ r.now
  dated : t ≤ since

section

variable {rs rest : List Reception} {t since : ℚ}
  (hdated : ∀ r ∈ rs, ∀ env, r.envelope = some env → env.msgId = m →
    env.timestamp.value = some t ∧ t ≤ r.now)
  (hordered : rs.Pairwise fun r r' => r.now ≤ r'.now)
  (hfits : ∀ past r rest, rs = past ++ r :: rest → (recentIds (r.now - 300) past).length ≤ 10000)

include hordered hfits in
/-- A refused id stays refused. -/
theorem Refused.receive (h : Refused m rs t since peer (r :: rest)) :
    Refused m rs t since (peer.receive r) rest := by
  obtain ⟨past, hrs, htraced⟩ := h.past
  have hcons : (r :: rest).Pairwise fun r r' => r.now ≤ r'.now :=
    (hrs ▸ hordered).sublist (sublist_append_right past (r :: rest))
  refine ⟨⟨past ++ [r], ?_, htraced.receive r⟩, ?_,
    fun r' hr' => h.later r' (mem_cons_of_mem _ hr'), h.dated⟩
  · rw [hrs, append_assoc, singleton_append]
  by_cases hage : r.now ≤ since + 300
  · have hmarked := h.marked.resolve_right fun hold =>
      absurd (hold r mem_cons_self) (not_lt.mpr hage)
    refine .inl ?_
    cases henv : r.envelope with
    | none =>
      rw [receive_of_none henv]
      exact hmarked
    | some env =>
      have hseen := remembers_hasSeen (htraced.fits (hfits past r rest hrs)) hmarked
        (by rw [htraced.ttl]; linarith) env.msgId
      rw [(receive_envelope henv).2.1]
      split
      · rw [markSeen_hasSeen]
        exact hseen.set _ (h.later r mem_cons_self)
      · exact hseen
  · refine .inr fun r' hr' => ?_
    have := (pairwise_cons.mp hcons).1 r' hr'
    linarith

end

end GossipPeer

end TrustFlow.Protocol
