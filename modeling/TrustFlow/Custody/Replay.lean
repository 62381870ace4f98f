import TrustFlow.Custody.Network
import TrustFlow.Library.Runs

/-!
# Replayed deletion tokens

A peer is given tokens one after the other.  `process_token` keeps the hash of
every token that passes its first two checks, forgets it after twice the
validity, and refuses a token older than the validity.  So a token that comes
again is refused, as long as it is not dated into the future.

* `TokenCall` — one call, with everything outside the peer's cache that it
  depends on.
* `passes` — the replay check and the expiry check.
* `passes_at_most_once` — a token whose date is less than the validity ahead of
  the receiver's clock passes at most once in every run.
* `not_passes_at_most_once_ahead` — a token dated further ahead outlives its entry in
  the cache, and passes twice.
-/

namespace TrustFlow.Custody

open Library List ProcessedTokenCache

/-! ## What the cache remembers -/

namespace ProcessedTokenCache

variable {cache : ProcessedTokenCache} {now : Instant} {h : Str} {since : ℤ}

@[simp] theorem maxAge_maybeCleanup (cache : ProcessedTokenCache) (now : Instant) :
    (cache.maybeCleanup now).maxAge = cache.maxAge := by
  unfold maybeCleanup
  split <;> rfl

@[simp] theorem maxAge_markProcessed (cache : ProcessedTokenCache) (h : Str) (now : Instant) :
    (cache.markProcessed h now).maxAge = cache.maxAge :=
  maxAge_maybeCleanup _ now

/-- A clean-up keeps what is younger than the maximal age. -/
theorem remembers_maybeCleanup (hcache : cache.processed.Remembers h since)
    (hage : now.1 - cache.maxAge < since) :
    (cache.maybeCleanup now).processed.Remembers h since := by
  unfold maybeCleanup
  split
  · exact hcache
  · refine hcache.filter fun time _ hle => decide_eq_true ?_
    omega

theorem remembers_markProcessed (hcache : cache.processed.Remembers h since) (h' : Str)
    (hnow : since ≤ now.1) (hage : now.1 - cache.maxAge < since) :
    (cache.markProcessed h' now).processed.Remembers h since := by
  unfold markProcessed
  exact remembers_maybeCleanup (hcache.set h' hnow) hage

theorem remembers_markProcessed_self (cache : ProcessedTokenCache) (h : Str)
    (hage : 0 < cache.maxAge) :
    (cache.markProcessed h now).processed.Remembers h now.1 := by
  unfold markProcessed
  refine remembers_maybeCleanup (Dict.remembers_set_self _ h _) ?_
  show (now.1 : ℤ) - cache.maxAge < now.1
  omega

end ProcessedTokenCache

/-! ## Calls -/

/-- A call of `process_token` at a peer. -/
structure TokenCall (S : SignatureScheme) where
  amb : Ambient
  findKey : Str → Option S.VerifyKey
  storage : InMemoryStorage
  token : DeletionToken

section

variable {S : SignatureScheme} (iso : IsoReader) (cfg : EngineConfig) (receiver : Str)
  (key : S.SigningKey)

/-- The cache that a call works with: `_get_token_cache` makes one at the first
call. -/
def TokenCall.cache (call : TokenCall S) (cache : Option ProcessedTokenCache) :
    ProcessedTokenCache :=
  cache.getD (.new cfg call.amb.now)

/-- What the call leaves of the cache. -/
def tokenStep (cache : Option ProcessedTokenCache) (call : TokenCall S) :
    Option ProcessedTokenCache :=
  some (processToken S iso cfg call.amb call.findKey receiver key (call.cache cfg cache) call.storage
    call.token).cache

/-- The call is given the token, and the token passes the replay check and the
expiry check. -/
def passes (token : DeletionToken) (cache : Option ProcessedTokenCache) (call : TokenCall S) :
    Bool :=
  decide (call.token = token) &&
    (!((call.cache cfg cache).maybeCleanup call.amb.now).has token.getHash &&
      !token.isExpired iso cfg.tokenValidity call.amb.now)

/-- The date of the token, if it has one, is less than the validity ahead of the
clock. -/
def DeletionToken.NotAhead (token : DeletionToken) (now : ℤ) : Prop :=
  ∀ time, iso.read (replaceZ token.timestamp) = some time → time < now + seconds cfg.tokenValidity

/-- The calls are made at nondecreasing times. -/
def InOrder (calls : List (TokenCall S)) : Prop :=
  calls.Pairwise fun call call' => call.amb.now.1 ≤ call'.amb.now.1

variable {iso cfg receiver key} {token : DeletionToken} {cache : Option ProcessedTokenCache}
  {call : TokenCall S} {calls : List (TokenCall S)}

theorem passes_iff :
    passes iso cfg token cache call = true ↔
      call.token = token ∧
        ((call.cache cfg cache).maybeCleanup call.amb.now).has token.getHash = false ∧
        token.isExpired iso cfg.tokenValidity call.amb.now = false := by
  rw [passes, Bool.and_eq_true, Bool.and_eq_true, decide_eq_true_iff, Bool.not_eq_true',
    Bool.not_eq_true']

/-- A token that is not expired is dated at most the validity ago. -/
theorem exists_time_of_not_expired {now : Instant}
    (h : token.isExpired iso cfg.tokenValidity now = false) :
    ∃ time, iso.read (DeletionToken.replaceZ token.timestamp) = some time ∧
      now.1 - time ≤ seconds cfg.tokenValidity := by
  rw [DeletionToken.isExpired] at h
  cases hread : iso.read (DeletionToken.replaceZ token.timestamp) with
  | none => rw [hread] at h; cases h
  | some time =>
    rw [hread] at h
    exact ⟨time, rfl, not_lt.mp (of_decide_eq_false h)⟩

/-- The cache holds entries for twice the validity. -/
def Sized (cfg : EngineConfig) (cache : Option ProcessedTokenCache) : Prop :=
  ∀ c ∈ cache, c.maxAge = seconds (cfg.tokenValidity * 2)

theorem Sized.maxAge_cache (h : Sized cfg cache) (call : TokenCall S) :
    (call.cache cfg cache).maxAge = seconds (cfg.tokenValidity * 2) := by
  cases cache with
  | none => rfl
  | some c => exact h c rfl

/-- No call changes how long the cache holds its entries. -/
theorem Sized.tokenStep (h : Sized cfg cache) (call : TokenCall S) :
    Sized cfg (tokenStep iso cfg receiver key cache call) := by
  intro c hc
  obtain rfl := Option.some_inj.mp hc
  have hcache : (processToken S iso cfg call.amb call.findKey receiver key (call.cache cfg cache)
      call.storage call.token).cache = _ ∨ _ := cache_processToken _ _ _
  rcases hcache with hcache | ⟨-, hcache⟩
  · rw [hcache, maxAge_maybeCleanup, h.maxAge_cache]
  · rw [hcache, maxAge_markProcessed, maxAge_maybeCleanup, h.maxAge_cache]

/-- The token was marked at `since` and is not dated the validity ahead of that
time.  While its entry may be cleaned up, it is expired. -/
structure Refused (iso : IsoReader) (cfg : EngineConfig) (token : DeletionToken) (since : ℤ)
    (cache : Option ProcessedTokenCache) (calls : List (TokenCall S)) : Prop where
  sized : Sized cfg cache
  ordered : InOrder calls
  later : ∀ call ∈ calls, since ≤ call.amb.now.1
  notAhead : token.NotAhead iso cfg since
  marked : (∃ c ∈ cache, c.processed.Remembers token.getHash since) ∨
    ∀ call ∈ calls, since + seconds (cfg.tokenValidity * 2) ≤ call.amb.now.1

/-- The entry of the token stays until the token is too old for it. -/
theorem Refused.marked_of_lt {since : ℤ}
    (h : Refused iso cfg token since cache (call :: calls))
    (hage : call.amb.now.1 < since + seconds (cfg.tokenValidity * 2)) :
    (call.cache cfg cache).processed.Remembers token.getHash since := by
  rcases h.marked with ⟨c, hc, hremembers⟩ | hold
  · rw [Option.mem_def] at hc
    rw [TokenCall.cache, hc]
    exact hremembers
  · have := hold call mem_cons_self
    omega

/-- A refused token does not pass. -/
theorem Refused.not_passes {since : ℤ} (h : Refused iso cfg token since cache (call :: calls)) :
    passes iso cfg token cache call = false := by
  refine Bool.eq_false_iff.mpr fun hpass => ?_
  obtain ⟨-, hreplay, hexpired⟩ := passes_iff.mp hpass
  by_cases hage : call.amb.now.1 < since + seconds (cfg.tokenValidity * 2)
  · have hremembers : ((call.cache cfg cache).maybeCleanup call.amb.now).processed.Remembers
        token.getHash since := by
      refine remembers_maybeCleanup (h.marked_of_lt hage) ?_
      rw [h.sized.maxAge_cache call]
      omega
    rw [ProcessedTokenCache.has, hremembers.isSome] at hreplay
    cases hreplay
  · obtain ⟨time, hread, htime⟩ := exists_time_of_not_expired hexpired
    have hdate := h.notAhead time hread
    unfold seconds at *
    omega

/-- A call leaves a refused token refused. -/
theorem Refused.tokenStep {since : ℤ} (h : Refused iso cfg token since cache (call :: calls)) :
    Refused iso cfg token since (tokenStep iso cfg receiver key cache call) calls := by
  obtain ⟨hfirst, hrest⟩ := pairwise_cons.mp h.ordered
  refine ⟨h.sized.tokenStep call, hrest, fun c hc => h.later c (mem_cons_of_mem _ hc),
    h.notAhead, ?_⟩
  by_cases hage : call.amb.now.1 < since + seconds (cfg.tokenValidity * 2)
  · have hage' : call.amb.now.1 - (call.cache cfg cache).maxAge < since := by
      rw [h.sized.maxAge_cache call]
      omega
    have hclean := remembers_maybeCleanup (h.marked_of_lt hage) hage'
    have hcache : (processToken S iso cfg call.amb call.findKey receiver key (call.cache cfg cache)
        call.storage call.token).cache = _ ∨ _ := cache_processToken _ _ _
    refine .inl ⟨_, rfl, ?_⟩
    rcases hcache with hcache | ⟨-, hcache⟩
    · rw [hcache]
      exact hclean
    · rw [hcache]
      refine remembers_markProcessed hclean _ (h.later call mem_cons_self) ?_
      rw [maxAge_maybeCleanup]
      exact hage'
  · refine .inr fun c hc => ?_
    have := hfirst c hc
    omega

/-- A token that passes is refused from then on. -/
theorem refused_of_passes (hvalidity : 0 < cfg.tokenValidity) (hsized : Sized cfg cache)
    (hordered : InOrder (call :: calls)) (hdate : token.NotAhead iso cfg call.amb.now.1)
    (hpass : passes iso cfg token cache call = true) :
    Refused iso cfg token call.amb.now.1 (tokenStep iso cfg receiver key cache call) calls := by
  obtain ⟨rfl, hreplay, hexpired⟩ := passes_iff.mp hpass
  obtain ⟨hfirst, hrest⟩ := pairwise_cons.mp hordered
  refine ⟨hsized.tokenStep call, hrest, fun c hc => by exact_mod_cast hfirst c hc, hdate,
    .inl ⟨_, rfl, ?_⟩⟩
  rw [cache_processToken_of_fresh hreplay hexpired]
  refine remembers_markProcessed_self _ _ ?_
  rw [maxAge_maybeCleanup, hsized.maxAge_cache call, seconds]
  omega

/-! ## Whole runs -/

variable (receiver key) in
/-- **A token passes the replay check and the expiry check at most once**, in
every run of a peer whose calls with the token come when its date is less than
the validity ahead of the clock. -/
theorem passes_at_most_once (hvalidity : 0 < cfg.tokenValidity) (hordered : InOrder calls)
    (hdate : ∀ call ∈ calls, call.token = token → token.NotAhead iso cfg call.amb.now.1) :
    acceptances (tokenStep iso cfg receiver key) (passes iso cfg token) none calls ≤ 1 := by
  let admitted (cache : Option ProcessedTokenCache) (calls : List (TokenCall S)) : Prop :=
    Sized cfg cache ∧ InOrder calls ∧
      ∀ call ∈ calls, call.token = token → token.NotAhead iso cfg call.amb.now.1
  let blocked (cache : Option ProcessedTokenCache) (calls : List (TokenCall S)) : Prop :=
    ∃ since, Refused iso cfg token since cache calls
  have hstart : admitted none calls := ⟨fun c hc => (nomatch hc), hordered, hdate⟩
  refine acceptances_le_one admitted blocked ?_ ?_ ?_ hstart
  · rintro cache call calls ⟨since, h⟩
    exact ⟨h.not_passes, since, h.tokenStep⟩
  · rintro cache call calls ⟨hsized, hordered, hdate⟩
    exact ⟨hsized.tokenStep call, hordered.of_cons, fun c hc => hdate c (mem_cons_of_mem _ hc)⟩
  · rintro cache call calls ⟨hsized, hordered, hdate⟩ hpass
    have htoken := (passes_iff.mp hpass).1
    exact ⟨_, refused_of_passes hvalidity hsized hordered (hdate call mem_cons_self htoken) hpass⟩

end

/-! ## Two calls -/

open Network (noon afterNoon)

/-- A token with the given date. -/
def tokenDated (date : Instant) : DeletionToken :=
  ⟨"7", "alice", "0", isoformat date.1, []⟩

/-- A peer that has nothing is given the token. -/
def callAt (now : Instant) (token : DeletionToken) : TokenCall .tagged :=
  ⟨{ noon with now }, fun _ => none, .empty, token⟩

/-- The calls are given one token. -/
def callsAt (times : List Instant) (token : DeletionToken) : List (TokenCall .tagged) :=
  times.map fun now => callAt now token

/-- How often the token passes at bob. -/
def passesAtBob (times : List Instant) (token : DeletionToken) : ℕ :=
  acceptances (tokenStep isoReader .default "bob" (2 : UInt8)) (passes isoReader .default token)
    none (callsAt times token)

theorem read_tokenDated (date : Instant) :
    isoReader.read (DeletionToken.replaceZ (tokenDated date).timestamp) = some (date.1 : ℤ) := by
  rw [tokenDated, DeletionToken.replaceZ_isoformat, isoReader.read_isoformat]

/-- A token of noon that comes again a minute later. -/
theorem passes_at_most_once_at_noon :
    passesAtBob [afterNoon 0, afterNoon 60] (tokenDated (afterNoon 0)) ≤ 1 := by
  have hearly : ∀ call ∈ callsAt [afterNoon 0, afterNoon 60] (tokenDated (afterNoon 0)),
      ((afterNoon 0).1 : ℤ) < call.amb.now.1 + seconds 300 := by decide
  have horder : InOrder (callsAt [afterNoon 0, afterNoon 60] (tokenDated (afterNoon 0))) := by
    unfold InOrder
    decide
  refine passes_at_most_once _ _ (by decide) horder fun call hcall _ time htime => ?_
  rw [read_tokenDated, Option.some_inj] at htime
  exact htime ▸ hearly call hcall

/-- A token of five past noon, given at noon and again at ten past. -/
theorem not_passes_at_most_once_ahead :
    ¬ passesAtBob [afterNoon 0, afterNoon 600] (tokenDated (afterNoon 300)) ≤ 1 := by
  decide

end TrustFlow.Custody
