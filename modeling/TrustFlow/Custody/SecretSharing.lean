import TrustFlow.Custody.CoCNode
import TrustFlow.SecretSharing.Shares

/-!
# The secret sharing engine

`SecretSharingEngine` of `core/secret_sharing.py`: it hands out the shares of a content and
keeps the key of their MACs, by content hash.

* `splitContent`, `reconstructContent` — the two calls.
* `afterSplit` — the engine after a call: a call that returns sets the key of its content.
* `outstanding_shares` — **shares that were handed out** give the content back after any
  later calls exactly if none of them splits a content with the same hash.
* `resplit_rejects` — a second split of a content makes the shares of the first one useless.
* `can_reconstruct_sound_iff` — `can_reconstruct` promises no more than the shares of the
  available peers keep, exactly if the split named nobody twice.
-/

namespace TrustFlow.Custody

open Library SecretSharing List

/-- `SecretSharingEngine`: the keys of its MACs, by content hash. -/
structure SecretSharingEngine where
  hmacKeys : Dict Str Bytes

/-- The arguments of a call of `split_content`, and what it draws. -/
structure SplitCall where
  content : Str
  recipientIds : List Str
  threshold : Option ℤ
  coins : Coins

namespace SplitCall

/-- How many shares there are. -/
def numShares (call : SplitCall) : ℤ := call.recipientIds.length

/-- How many shares are needed; the default is a majority. -/
def needed (call : SplitCall) : ℤ := call.threshold.getD (max 2 (call.numShares / 2 + 1))

/-- The call returns. -/
def Legal (call : SplitCall) : Prop := 2 ≤ call.needed ∧ call.needed ≤ call.numShares

instance (call : SplitCall) : Decidable call.Legal := inferInstanceAs (Decidable (_ ∧ _))

/-- The call splits a content with the hash. -/
def Splits (contentHash : Str) (call : SplitCall) : Prop :=
  call.Legal ∧ hashContent call.content = contentHash

instance (contentHash : Str) (call : SplitCall) : Decidable (call.Splits contentHash) :=
  inferInstanceAs (Decidable (_ ∧ _))

end SplitCall

namespace SecretSharingEngine

variable (aes : AesGcm)

/-- The dictionary of the shares: a repeated recipient has the last of theirs. -/
def shareMap (recipientIds : List Str) (shares : List Share) : Dict Str Share :=
  (recipientIds.zip shares).foldl (fun shareMap entry => shareMap.set entry.1 entry.2) .empty

variable (engine : SecretSharingEngine)

/-- `split_content`. -/
def splitContent (call : SplitCall) : Except ShareError (Dict Str Share × SecretSharingEngine) := do
  if call.numShares < 2 then
    throw (.valueError "Need at least 2 recipients for secret sharing")
  let (shares, hmacKey) ← splitSecret aes call.coins call.content call.needed call.numShares
  match shares with
  | [] => throw .indexOutOfRange
  | first :: _ =>
    return (shareMap call.recipientIds shares, ⟨engine.hmacKeys.set first.contentHash hmacKey⟩)

/-- `reconstruct_content`. -/
def reconstructContent (shares : List Share) (verifyIntegrity : Bool) :
    Except ShareError (Option Str) :=
  match shares with
  | [] => .ok none
  | first :: rest =>
    let hmacKey := if verifyIntegrity then engine.hmacKeys.get? first.contentHash else none
    reconstructSecret aes (first :: rest) hmacKey

/-- The engine after a call of `split_content`; one that raises changes nothing. -/
def afterSplit (call : SplitCall) : SecretSharingEngine :=
  match engine.splitContent aes call with
  | .ok (_, engine) => engine
  | .error _ => engine

/-! ## One call -/

variable {aes} {engine : SecretSharingEngine} {call : SplitCall}

/-- Whom the dictionary gives what. -/
theorem mem_zip_of_mem_shareMap {recipientIds : List Str} {given : List Share} {entry : Str × Share}
    (h : entry ∈ (shareMap recipientIds given).entries) : entry ∈ recipientIds.zip given := by
  refine List.foldlRecOn (motive := fun shareMap : Dict Str Share =>
    ∀ entry ∈ shareMap.entries, entry ∈ recipientIds.zip given) _ _
    (fun _ h => absurd h not_mem_nil) ?_ entry h
  intro shareMap ih new hnew entry hentry
  rcases Assoc.mem_set hentry with rfl | hentry
  · exact hnew
  · exact ih entry hentry

/-- The shares in the dictionary are among those given. -/
theorem mem_of_mem_shareMap {recipientIds : List Str} {given : List Share} {share : Share}
    (h : share ∈ (shareMap recipientIds given).values) : share ∈ given := by
  obtain ⟨entry, hentry, rfl⟩ := mem_map.mp h
  exact (of_mem_zip (mem_zip_of_mem_shareMap hentry)).2

variable (aes engine) in
theorem splitContent_of_not_legal (h : ¬ call.Legal) : ∃ e, engine.splitContent aes call = .error e := by
  rw [splitContent]
  split
  · exact ⟨_, rfl⟩
  · cases hsplit : splitSecret aes call.coins call.content call.needed call.numShares with
    | error e => exact ⟨e, rfl⟩
    | ok result => exact absurd ⟨(splitSecret_ok hsplit).1, (splitSecret_ok hsplit).2.1⟩ h

variable (aes engine) in
/-- **What a legal call does**: it hands out shares of the content, and the key of their MACs
is that of the hash from now on. -/
theorem splitContent_of_legal (h : call.Legal) :
    ∃ shares, splitSecret aes call.coins call.content call.needed call.numShares
        = .ok (shares, call.coins.hmacKey) ∧
      engine.splitContent aes call = .ok (shareMap call.recipientIds shares,
        ⟨engine.hmacKeys.set (hashContent call.content) call.coins.hmacKey⟩) := by
  obtain ⟨chunks, hchunks, -⟩ := splitIntoChunks_spec (length_sharedBytes call.coins call.content)
  have hsplit := splitSecret_eq aes call.coins call.content h.1 h.2 hchunks
  obtain ⟨n, hn⟩ : ∃ n, call.numShares.toNat = n + 1 := ⟨call.numShares.toNat - 1, by
    have := h.1.trans h.2
    omega⟩
  refine ⟨_, hsplit, ?_⟩
  rw [splitContent, if_neg (not_lt.mpr (h.1.trans h.2)), hsplit, hn, range_succ_eq_map]
  rfl

/-- The same, from a call that returns. -/
theorem splitContent_ok {shares : Dict Str Share} {engine' : SecretSharingEngine}
    (h : engine.splitContent aes call = .ok (shares, engine')) :
    call.Legal ∧ ∃ given, splitSecret aes call.coins call.content call.needed call.numShares
        = .ok (given, call.coins.hmacKey) ∧ shares = shareMap call.recipientIds given ∧
      engine' = ⟨engine.hmacKeys.set (hashContent call.content) call.coins.hmacKey⟩ := by
  have hlegal : call.Legal := by
    by_contra hnot
    obtain ⟨e, herror⟩ := splitContent_of_not_legal aes engine hnot
    cases h.symm.trans herror
  obtain ⟨given, hgiven, hmap⟩ := splitContent_of_legal aes engine hlegal
  rw [h] at hmap
  obtain ⟨hshares, hengine⟩ := Prod.mk.inj (Except.ok.inj hmap)
  exact ⟨hlegal, given, hgiven, hshares, hengine⟩

/-- The key for some of the shares of a call is that of its content. -/
theorem reconstructContent_eq {given chosen : List Share}
    (hgiven : splitSecret aes call.coins call.content call.needed call.numShares
      = .ok (given, call.coins.hmacKey)) (hmem : ∀ share ∈ chosen, share ∈ given)
    (hne : chosen ≠ []) : engine.reconstructContent aes chosen true
      = reconstructSecret aes chosen (engine.hmacKeys.get? (hashContent call.content)) := by
  obtain ⟨first, rest, rfl⟩ := exists_cons_of_ne_nil hne
  obtain ⟨-, -, chunks, -, rfl⟩ := splitSecret_ok hgiven
  obtain ⟨i, -, rfl⟩ := mem_map.mp (hmem first mem_cons_self)
  rfl

theorem afterSplit_of_legal (h : call.Legal) : engine.afterSplit aes call
    = ⟨engine.hmacKeys.set (hashContent call.content) call.coins.hmacKey⟩ := by
  obtain ⟨shares, -, hsplit⟩ := splitContent_of_legal aes engine h
  rw [afterSplit, hsplit]

theorem afterSplit_of_not_legal (h : ¬ call.Legal) : engine.afterSplit aes call = engine := by
  obtain ⟨e, hsplit⟩ := splitContent_of_not_legal aes engine h
  rw [afterSplit, hsplit]

/-! ## Later calls -/

variable (aes engine) in
/-- **The key of a hash after more calls**: the same as before if none of them splits a content
with the hash, or else the key of one that does. -/
theorem hmacKey_afterSplits (contentHash : Str) (later : List SplitCall) :
    (∀ call ∈ later, ¬ call.Splits contentHash) ∧
        (later.foldl (afterSplit aes) engine).hmacKeys.get? contentHash
          = engine.hmacKeys.get? contentHash ∨
      ∃ call ∈ later, call.Splits contentHash ∧
        (later.foldl (afterSplit aes) engine).hmacKeys.get? contentHash = some call.coins.hmacKey := by
  induction later generalizing engine with
  | nil => exact .inl ⟨fun _ h => absurd h not_mem_nil, rfl⟩
  | cons first later ih =>
    rw [foldl_cons]
    rcases ih (engine.afterSplit aes first) with ⟨hnone, hkey⟩ | ⟨call, hcall, hsplits, hkey⟩
    · by_cases hsplits : first.Splits contentHash
      · refine .inr ⟨first, mem_cons_self, hsplits, ?_⟩
        rw [hkey, afterSplit_of_legal hsplits.1, hsplits.2]
        exact Dict.get?_set_self _ _ _
      · refine .inl ⟨?_, hkey.trans ?_⟩
        · intro call hcall
          rcases mem_cons.mp hcall with rfl | hcall
          · exact hsplits
          · exact hnone call hcall
        · by_cases hlegal : first.Legal
          · rw [afterSplit_of_legal hlegal]
            exact Dict.get?_set_of_ne _ _ fun hhash => hsplits ⟨hlegal, hhash⟩
          · rw [afterSplit_of_not_legal hlegal]
    · exact .inr ⟨call, mem_cons_of_mem _ hcall, hsplits, hkey⟩

/-- **Outstanding shares.**  Enough of the shares that a call handed out, with distinct indices,
give its content back after any later calls, exactly if none of these splits a content with the
same hash.  Under the keys of such calls the MACs are assumed to be others. -/
theorem outstanding_shares {engine' : SecretSharingEngine} {shares : Dict Str Share}
    (hsplit : engine.splitContent aes call = .ok (shares, engine')) (hfew : call.numShares < PRIME)
    {chosen : List Share} (hchosen : ∀ share ∈ chosen, share ∈ shares.values)
    (hdistinct : (chosen.map Share.index).Nodup) (henough : call.needed ≤ chosen.length)
    {later : List SplitCall}
    (hmacs : ∀ other ∈ later, other.Splits (hashContent call.content) → ∀ share ∈ chosen,
      computeShareMac share.value share.index share.contentHash other.coins.hmacKey ≠ share.mac) :
    (later.foldl (afterSplit aes) engine').reconstructContent aes chosen true
        = .ok (some call.content) ↔
      ∀ other ∈ later, ¬ other.Splits (hashContent call.content) := by
  obtain ⟨hlegal, given, hgiven, rfl, rfl⟩ := splitContent_ok hsplit
  have hmem : ∀ share ∈ chosen, share ∈ given := fun share h =>
    mem_of_mem_shareMap (hchosen share h)
  have hne : chosen ≠ [] := by
    rintro rfl
    have := hlegal.1.trans henough
    simp at this
  rw [reconstructContent_eq hgiven hmem hne]
  rcases hmacKey_afterSplits aes
      ⟨engine.hmacKeys.set (hashContent call.content) call.coins.hmacKey⟩
      (hashContent call.content) later with ⟨hnone, hkey⟩ | ⟨other, hother, hsplits, hkey⟩
  · rw [hkey, Dict.get?_set_self]
    exact iff_of_true (reconstructSecret_of_split hfew hgiven hmem
      (hdistinct.sublist (take_sublist _ _)) henough (.inr rfl)) hnone
  · rw [hkey]
    refine iff_of_false ?_ fun hnone => hnone other hother hsplits
    obtain ⟨first, rest, rfl⟩ := exists_cons_of_ne_nil hne
    exact reconstructSecret_of_wrong_key aes (hmacs other hother hsplits first mem_cons_self) _

/-! ### Two splits -/

/-- A split among three peers, two of whom are needed, with a key made of one byte. -/
def amongThree (content : Str) (byte : UInt8) : SplitCall where
  content := content
  recipientIds := ["alice", "bob", "carol"]
  threshold := some 2
  coins := { fixedCoins with hmacKey := List.replicate 32 byte }

/-- The shares of alice and bob. -/
def firstTwo (shares : Dict Str Share) : List Share := shares.values.take 2

/-- What becomes of the first two shares of a split after another one. -/
def reopened (first second : SplitCall) : Except ShareError (Option Str) := do
  let (shares, engine) ← (SecretSharingEngine.mk .empty).splitContent plainAes first
  (engine.afterSplit plainAes second).reconstructContent plainAes (firstTwo shares) true

/-- Another content is split in between: alice and bob still open theirs. -/
theorem outstanding_shares_budget :
    ∃ shares engine, (SecretSharingEngine.mk .empty).splitContent plainAes
        (amongThree "budget" 7) = .ok (shares, engine) ∧
      ([amongThree "plan" 8].foldl (afterSplit plainAes) engine).reconstructContent plainAes
        (firstTwo shares) true = .ok (some "budget") := by
  have hindices : ((SecretSharingEngine.mk .empty).splitContent plainAes
      (amongThree "budget" 7)).toOption.map
        (fun (split : Dict Str Share × _) => (firstTwo split.1).map Share.index) = some [1, 2] := by
    decide
  have hplan : ∀ other ∈ [amongThree "plan" 8], ¬ other.Splits (hashContent "budget") := by
    decide
  obtain ⟨given, -, hsplit⟩ := splitContent_of_legal plainAes ⟨.empty⟩
    (show (amongThree "budget" 7).Legal by decide)
  generalize shareMap (amongThree "budget" 7).recipientIds given = shares at hsplit
  rw [hsplit] at hindices
  have hindex : (firstTwo shares).map Share.index = [1, 2] := Option.some.inj hindices
  have hlength : (firstTwo shares).length = 2 := by
    rw [← length_map Share.index, hindex]
    rfl
  exact ⟨shares, _, hsplit, (outstanding_shares hsplit (by norm_num [PRIME]; decide)
    (fun share (hshare : share ∈ firstTwo shares) => mem_of_mem_take hshare)
    (hindex.symm ▸ by decide) (hlength.symm ▸ by decide)
    fun other hother hsplits => absurd hsplits (hplan other hother)).mpr hplan⟩

/-- **A content that is split again**: the shares of the first split fail their check. -/
theorem resplit_rejects :
    reopened (amongThree "budget" 7) (amongThree "budget" 8)
      = .error (.shareIntegrity
          "Share 00ff00ff00ff00ff_1 failed integrity verification (possible tampering)") := by
  decide +kernel

/-! ## Whether enough holders are there -/

/-- The shares of the available peers. -/
def heldBy (available : List Str) (shares : Dict Str Share) : List Share :=
  (shares.entries.filter fun entry => available.contains entry.1).map Prod.snd

section

variable {available recipientIds : List Str} {given : List Share}

/-- Nobody is named twice: each has their share. -/
theorem entries_shareMap (h : ((recipientIds.zip given).map Prod.fst).Nodup) :
    (shareMap recipientIds given).entries = recipientIds.zip given := by
  suffices hall : ∀ (new : List (Str × Share)) (start : Dict Str Share),
      ((start.entries ++ new).map Prod.fst).Nodup →
      (new.foldl (fun shareMap entry => shareMap.set entry.1 entry.2) start).entries
        = start.entries ++ new from hall _ .empty h
  intro new
  induction new with
  | nil => exact fun start _ => (append_nil _).symm
  | cons entry new ih =>
    intro start hnodup
    have hset : (start.set entry.1 entry.2).entries = start.entries ++ [entry] := by
      refine Assoc.set_of_notMem fun hmem => ?_
      rw [map_append, nodup_append] at hnodup
      exact hnodup.2.2 _ hmem _ mem_cons_self rfl
    rw [foldl_cons, ih _ (by rwa [hset, append_assoc]), hset, append_assoc]
    rfl

/-- Each of the available peers has one share at most. -/
theorem length_heldBy_le (available : List Str) (shares : Dict Str Share) :
    (heldBy available shares).length ≤ available.toFinset.card := by
  have hnodup := shares.nodup.sublist ((filter_sublist
    (p := fun entry : Str × Share => available.contains entry.1)).map Prod.fst)
  rw [heldBy, length_map, ← length_map Prod.fst, ← toFinset_card_of_nodup hnodup]
  refine Finset.card_le_card fun peer hpeer => ?_
  obtain ⟨entry, hentry, rfl⟩ := mem_map.mp (mem_toFinset.mp hpeer)
  simpa using of_mem_filter hentry

/-- A repeated recipient counts twice and has one share. -/
theorem exists_overcounted {k : ℤ} (hk : 2 ≤ k) (hlength : k ≤ recipientIds.length)
    (h : ¬ recipientIds.Nodup) (given : List Share) :
    ∃ available : List Str, k ≤ (recipientIds.filter available.contains).length ∧
      (heldBy available (shareMap recipientIds given)).length < k := by
  obtain ⟨twice, htwice⟩ : ∃ peer, 1 < recipientIds.count peer := by
    simpa [nodup_iff_count_le_one] using h
  have hmem : twice ∈ recipientIds.toFinset := mem_toFinset.mpr (count_pos_iff.mp (by omega))
  have hpos := Finset.card_pos.mpr ⟨twice, hmem⟩
  -- as many peers as are too few, the repeated one among them
  obtain ⟨peers, hin, hsub, hcard⟩ := Finset.exists_subsuperset_card_eq
    (n := min recipientIds.toFinset.card (k - 1).toNat) (Finset.singleton_subset_iff.mpr hmem)
    (by rw [Finset.card_singleton]; omega) (min_le_left _ _)
  have hrepeated : ¬ (recipientIds.filter peers.toList.contains).Nodup := by
    intro hnodup
    have hcount := nodup_iff_count_le_one.mp hnodup twice
    rw [count_filter (by simpa using Finset.singleton_subset_iff.mp hin)] at hcount
    omega
  have hfilter : (recipientIds.filter peers.toList.contains).toFinset = peers := by
    ext peer
    have hpeer : peer ∈ peers → peer ∈ recipientIds := fun h => mem_toFinset.mp (hsub h)
    simpa using hpeer
  refine ⟨peers.toList, ?_, ?_⟩
  · have hlt := card_toFinset_lt hrepeated
    rw [hfilter] at hlt
    rcases le_total recipientIds.toFinset.card (k - 1).toNat with hle | hle
    · have hpeers := Finset.eq_of_subset_of_card_le hsub (by omega)
      have hall : recipientIds.filter peers.toList.contains = recipientIds := by simp [hpeers]
      rwa [hall]
    · omega
  · have hle := length_heldBy_le peers.toList (shareMap recipientIds given)
    rw [Finset.toList_toFinset] at hle
    omega

end

end SecretSharingEngine

/-- `_share_registry` and `_thresholds` of the engine, which `split_content` fills as it does the
keys, and `default_threshold`. -/
structure ShareRegistry where
  shareRegistry : Dict Str (List Str) := .empty
  thresholds : Dict Str ℤ := .empty
  defaultThreshold : ℤ := 3

namespace ShareRegistry

/-- What `split_content` writes down when it returns. -/
def record (registry : ShareRegistry) (call : SplitCall) : ShareRegistry :=
  { registry with
    shareRegistry := registry.shareRegistry.set (hashContent call.content) call.recipientIds
    thresholds := registry.thresholds.set (hashContent call.content) call.needed }

/-- `can_reconstruct`. -/
def canReconstruct (registry : ShareRegistry) (contentHash : Str)
    (availablePeers : Option (List Str)) : Bool :=
  let holders := (registry.shareRegistry.get? contentHash).getD []
  let threshold := (registry.thresholds.get? contentHash).getD registry.defaultThreshold
  let availableHolders := match availablePeers with
    | some availablePeers => holders.filter availablePeers.contains
    | none => holders
  decide (threshold ≤ availableHolders.length)

variable {aes : AesGcm} {engine : SecretSharingEngine} {call : SplitCall}

theorem canReconstruct_record (registry : ShareRegistry) {available : List Str} :
    (registry.record call).canReconstruct (hashContent call.content) (some available) = true ↔
      call.needed ≤ (call.recipientIds.filter available.contains).length := by
  simp [canReconstruct, record]

open SecretSharingEngine in
/-- **When `can_reconstruct` is sound**: nobody is named twice. -/
theorem can_reconstruct_sound_iff {engine' : SecretSharingEngine} {shares : Dict Str Share}
    (hsplit : engine.splitContent aes call = .ok (shares, engine')) (hfew : call.numShares < PRIME)
    (registry : ShareRegistry) :
    (∀ available chosen,
        (registry.record call).canReconstruct (hashContent call.content) (some available) = true →
        chosen.Perm (heldBy available shares) →
        engine'.reconstructContent aes chosen true = .ok (some call.content)) ↔
      call.recipientIds.Nodup := by
  obtain ⟨hlegal, given, hgiven, rfl, rfl⟩ := splitContent_ok hsplit
  obtain ⟨-, -, chunks, -, hform⟩ := splitSecret_ok hgiven
  have hlength : given.length = call.recipientIds.length := by
    rw [hform, length_map, length_range, SplitCall.numShares, Int.toNat_natCast]
  constructor
  · intro h
    by_contra hrepeated
    obtain ⟨available, hmany, hless⟩ := exists_overcounted hlegal.1 hlegal.2 hrepeated given
    have hopens := h available _ ((canReconstruct_record registry).mpr hmany) (.refl _)
    have hheld : ∀ share ∈ heldBy available (shareMap call.recipientIds given), share ∈ given := by
      intro share hshare
      obtain ⟨entry, hentry, rfl⟩ := mem_map.mp hshare
      exact (of_mem_zip (mem_zip_of_mem_shareMap (mem_of_mem_filter hentry))).2
    by_cases hne : heldBy available (shareMap call.recipientIds given) = []
    · rw [hne] at hopens
      cases hopens
    · rw [reconstructContent_eq hgiven hheld hne] at hopens
      obtain ⟨message, herror⟩ := reconstructSecret_of_few hgiven hheld hless _
      cases herror.symm.trans hopens
  · intro hnodup available chosen hcan hperm
    have hfst := map_fst_zip hlength.ge
    have hentries := entries_shareMap (hfst.symm ▸ hnodup)
    have hsub : (heldBy available (shareMap call.recipientIds given)).Sublist given := by
      have hfilter := (filter_sublist (p := fun entry : Str × Share =>
        available.contains entry.1) (l := call.recipientIds.zip given)).map Prod.snd
      rwa [map_snd_zip hlength.le, ← hentries] at hfilter
    have hmany : call.needed ≤ chosen.length := by
      rw [canReconstruct_record, ← hfst, filter_map, length_map] at hcan
      rw [hperm.length_eq, heldBy, hentries, length_map]
      exact hcan
    have hne : chosen ≠ [] := by
      rintro rfl
      have := hlegal.1.trans hmany
      simp at this
    have hindices : (given.map Share.index).Nodup := by
      rw [hform, map_map]
      refine nodup_range.map fun i j hij => ?_
      have : (i : ℤ) + 1 = j + 1 := hij
      omega
    have hmem : ∀ share ∈ chosen, share ∈ given := fun share hshare =>
      hsub.subset (hperm.subset hshare)
    have hdistinct := (hperm.map Share.index).nodup_iff.mpr (hindices.sublist (hsub.map _))
    rw [reconstructContent_eq hgiven hmem hne, Dict.get?_set_self]
    exact reconstructSecret_of_split hfew hgiven hmem (hdistinct.sublist (take_sublist _ _)) hmany
      (.inr rfl)

/-- Three peers, each named once. -/
theorem can_reconstruct_sound_three :
    ∃ shares engine, (SecretSharingEngine.mk .empty).splitContent plainAes
        (SecretSharingEngine.amongThree "budget" 7) = .ok (shares, engine) ∧
      ∀ available chosen, (record {} (SecretSharingEngine.amongThree "budget" 7)).canReconstruct
          (hashContent "budget") (some available) = true →
        chosen.Perm (SecretSharingEngine.heldBy available shares) →
        engine.reconstructContent plainAes chosen true = .ok (some "budget") := by
  obtain ⟨given, -, hsplit⟩ := SecretSharingEngine.splitContent_of_legal plainAes ⟨.empty⟩
    (show (SecretSharingEngine.amongThree "budget" 7).Legal by decide)
  exact ⟨_, _, hsplit, (can_reconstruct_sound_iff hsplit (by norm_num [PRIME]; decide) {}).mpr
    (by decide)⟩

/-- Alice is named twice. -/
def aliceTwice : SplitCall :=
  { SecretSharingEngine.amongThree "budget" 7 with
    recipientIds := ["alice", "alice", "bob"] }

/-- **Alice counts as two holders**, and has one share. -/
theorem can_reconstruct_counts_twice :
    (record {} aliceTwice).canReconstruct (hashContent "budget") (some ["alice"]) = true ∧
      (do
        let (shares, engine) ← (SecretSharingEngine.mk .empty).splitContent plainAes aliceTwice
        engine.reconstructContent plainAes (SecretSharingEngine.heldBy ["alice"] shares) true)
        = .error (.valueError "Need at least 2 shares, got 1") := by
  decide

end ShareRegistry

end TrustFlow.Custody
