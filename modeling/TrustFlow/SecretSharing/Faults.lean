import TrustFlow.SecretSharing.Secrecy

/-!
# Shares that do not belong together

What `reconstruct_secret` does with shares that pass its checks although they were
altered, come from two splits, or are repeated.

* `reconstruct_reports_iff` — it returns, and never a content with another hash, exactly if
  every share has all chunks and every interpolated chunk fits into 31 bytes.
* `counts_distinct_iff` — repeated shares do no harm exactly if too few are there anyway, or
  the first `k` are distinct.
-/

namespace TrustFlow.SecretSharing

open Library List

/-! ## Inconsistent shares -/

/-- Shares that pass the checks without a key, and whose texts are numbers. -/
structure WellFormed (first : Share) (rest : List Share) : Prop where
  enough : first.threshold ≤ (first :: rest).length
  same : ∀ share ∈ rest, share.contentHash = first.contentHash ∧
    share.threshold = first.threshold ∧ share.isHybrid = first.isHybrid
  numbers : ∀ share ∈ first :: rest, ∀ literal ∈ split ['|'] share.value, (readHex literal).isSome
  hybrid : first.isHybrid = true →
    (hexDecode first.ciphertext).isSome ∧ (hexDecode first.nonce).isSome

/-- The point that a share gives for a chunk. -/
def pointAt (chunkIdx : ℕ) (share : Share) : ℤ × ℤ :=
  (share.index, ((split ['|'] share.value)[chunkIdx]?.bind readHex).getD 0)

/-- The shares that are used have all chunks of the first one, and for every chunk the value at
zero of the polynomial through their points, over the field, fits into 31 bytes. -/
def Fits (first : Share) (used : List Share) : Prop :=
  ∀ chunkIdx < (split ['|'] first.value).length,
    (∀ share ∈ used, chunkIdx < (split ['|'] share.value).length) ∧
      (interpolateZero ((used.map (pointAt chunkIdx)).map fun point =>
        ((point.1 : ZMod PRIME), (point.2 : ZMod PRIME)))).val < 256 ^ 31

section

variable {first share : Share} {rest used : List Share} {chunkIdx : ℕ}

theorem chunkPoint_eq (hnumbers : ∀ literal ∈ split ['|'] share.value, (readHex literal).isSome) :
    chunkPoint chunkIdx share = if chunkIdx < (split ['|'] share.value).length then
      .ok (pointAt chunkIdx share) else .error .indexOutOfRange := by
  rw [chunkPoint, pointAt]
  by_cases hidx : chunkIdx < (split ['|'] share.value).length
  · obtain ⟨y, hy⟩ := Option.isSome_iff_exists.mp (hnumbers _ (getElem_mem hidx))
    simp [hidx, hy]
  · simp [hidx]

/-- What `_lagrange_interpolation` returns is that value. -/
theorem lagrangeInterpolation_eq_val (points : List (ℤ × ℤ)) :
    lagrangeInterpolation points PRIME = (interpolateZero (points.map fun point =>
      ((point.1 : ZMod PRIME), (point.2 : ZMod PRIME)))).val := by
  obtain ⟨hnonneg, hlt⟩ := lagrangeInterpolation_mem PRIME_pos points
  rw [← cast_lagrangeInterpolation, ZMod.val_intCast, Int.emod_eq_of_lt hnonneg hlt]

theorem fits_iff : Fits first used ↔ ∀ chunkIdx < (split ['|'] first.value).length,
    (∀ share ∈ used, chunkIdx < (split ['|'] share.value).length) ∧
      lagrangeInterpolation (used.map (pointAt chunkIdx)) PRIME < 256 ^ 31 := by
  simp only [Fits, lagrangeInterpolation_eq_val]
  norm_cast

/-- One turn of the chunk loop. -/
theorem chunk_returns_iff
    (hnumbers : ∀ share ∈ used, ∀ literal ∈ split ['|'] share.value, (readHex literal).isSome) :
    (∃ bytes, (do
        let chunkShares ← used.mapM (chunkPoint chunkIdx)
        intToBytes (lagrangeInterpolation chunkShares PRIME) 31) = .ok bytes) ↔
      (∀ share ∈ used, chunkIdx < (split ['|'] share.value).length) ∧
        lagrangeInterpolation (used.map (pointAt chunkIdx)) PRIME < 256 ^ 31 := by
  by_cases hall : ∀ share ∈ used, chunkIdx < (split ['|'] share.value).length
  · have hpoints : used.mapM (chunkPoint chunkIdx) = .ok (used.map (pointAt chunkIdx)) :=
      mapM_eq_ok fun share hshare => by
        rw [chunkPoint_eq (hnumbers share hshare), if_pos (hall share hshare)]
    have hnonneg := (lagrangeInterpolation_mem PRIME_pos (used.map (pointAt chunkIdx))).1
    rw [hpoints, ok_bind, intToBytes, and_iff_right hall]
    split
    · rename_i hfits
      exact iff_of_true ⟨_, rfl⟩ (by omega)
    · rename_i hlarge
      exact iff_of_false (by simp) fun hfits => hlarge ⟨hnonneg, by omega⟩
  · refine iff_of_false ?_ fun h => hall h.1
    rintro ⟨bytes, h⟩
    obtain ⟨points, hpoints, -⟩ := bind_eq_ok.mp h
    refine hall fun share hshare => ?_
    obtain ⟨point, hpoint⟩ := exists_mapM_iff.mp ⟨points, hpoints⟩ share hshare
    rw [chunkPoint_eq (hnumbers share hshare)] at hpoint
    by_contra hidx
    rw [if_neg hidx] at hpoint
    cases hpoint

/-- What `reconstruct_secret` makes of the bytes that it has decrypted. -/
def checkContent (first : Share) : Option Bytes → Except ShareError (Option Str)
  | none => .ok none
  | some contentBytes =>
    match decodeUtf8 contentBytes with
    | none => .ok none
    | some content =>
      if sha256Hex contentBytes ≠ first.contentHash then .ok none else .ok (some content)

theorem checkContent_returns (first : Share) (contentBytes : Option Bytes) :
    ∃ result, checkContent first contentBytes = .ok result ∧
      ∀ content, result = some content → sha256Hex (encodeUtf8 content) = first.contentHash := by
  unfold checkContent
  split
  · exact ⟨none, rfl, by simp⟩
  · split
    · exact ⟨none, rfl, by simp⟩
    · rename_i content hcontent
      split
      · exact ⟨none, rfl, by simp⟩
      · rename_i hhash
        refine ⟨some content, rfl, ?_⟩
        rintro _ ⟨⟩
        rw [encodeUtf8_of_decodeUtf8 hcontent]
        exact not_not.mp hhash

/-- Whatever bytes come out, the last part returns, and a content with the right hash only. -/
theorem openContent_returns (aes : AesGcm)
    (hhybrid : first.isHybrid = true →
      (hexDecode first.ciphertext).isSome ∧ (hexDecode first.nonce).isSome) (secretBytes : Bytes) :
    ∃ result, openContent aes first secretBytes = .ok result ∧
      ∀ content, result = some content → sha256Hex (encodeUtf8 content) = first.contentHash := by
  rw [openContent]
  cases hflag : first.isHybrid with
  | false => exact checkContent_returns first (some secretBytes)
  | true =>
    obtain ⟨hciphertext, hnonce⟩ := hhybrid hflag
    obtain ⟨ciphertext, hciphertext⟩ := Option.isSome_iff_exists.mp hciphertext
    obtain ⟨nonce, hnonce⟩ := Option.isSome_iff_exists.mp hnonce
    simp only [fromHex, hciphertext, hnonce]
    exact checkContent_returns first (aes.decrypt secretBytes nonce ciphertext)

/-- Shares with one header pass the consistency loop. -/
theorem checkShares_of_same {threshold : ℤ} {contentHash : Str} {isHybrid : Bool}
    {shares : List Share} (h : ∀ share ∈ shares, share.contentHash = contentHash ∧
      share.threshold = threshold ∧ share.isHybrid = isHybrid) :
    checkShares threshold contentHash isHybrid none shares = .ok () := by
  induction shares with
  | nil => rfl
  | cons share shares ih =>
    obtain ⟨⟨hhash, hthreshold, hflag⟩, hrest⟩ := forall_mem_cons.mp h
    simp [checkShares, hhash, hthreshold, hflag, ih hrest]

theorem mem_of_mem_sliceTo {α : Type*} {a : α} {l : List α} {n : ℤ} (h : a ∈ sliceTo l n) : a ∈ l := by
  rw [sliceTo] at h
  split at h <;> exact mem_of_mem_take h

/-- **When a failed reconstruction is reported.** -/
theorem reconstruct_reports_iff (aes : AesGcm) (h : WellFormed first rest) :
    (∃ result, reconstructSecret aes (first :: rest) none = .ok result ∧
        ∀ content, result = some content → sha256Hex (encodeUtf8 content) = first.contentHash) ↔
      Fits first (sliceTo (first :: rest) first.threshold) := by
  have hcheck : checkShares first.threshold first.contentHash first.isHybrid none (first :: rest)
      = .ok () := checkShares_of_same (forall_mem_cons.mpr ⟨⟨rfl, rfl, rfl⟩, h.same⟩)
  have hchunks : (∃ chunks, reconstructChunks (sliceTo (first :: rest) first.threshold)
      (split ['|'] first.value).length = .ok chunks) ↔
        Fits first (sliceTo (first :: rest) first.threshold) := by
    rw [reconstructChunks, exists_mapM_iff, fits_iff]
    simp only [mem_range]
    refine forall₂_congr fun chunkIdx _ => chunk_returns_iff fun share hshare => ?_
    exact h.numbers share (mem_of_mem_sliceTo hshare)
  rw [← hchunks]
  constructor
  · rintro ⟨result, hresult, -⟩
    simp only [reconstructSecret, if_neg (not_lt.mpr h.enough), hcheck, ok_bind] at hresult
    obtain ⟨chunks, hrec, -⟩ := bind_eq_ok.mp hresult
    exact ⟨chunks, hrec⟩
  · rintro ⟨chunks, hrec⟩
    rw [reconstructSecret_of_checks aes h.enough hcheck hrec]
    exact openContent_returns aes h.hybrid _

end

/-- A share of two that are needed, with one chunk. -/
def singleShare (index : ℤ) (value : String) : Share where
  index := index
  value := value.toList
  shareId := []
  contentHash := []
  threshold := 2
  totalShares := 2

/-- Two shares of a constant polynomial: the reconstruction returns. -/
theorem reconstruct_reports_constant :
    ∃ result, reconstructSecret plainAes [singleShare 1 "0x5", singleShare 2 "0x5"] none
        = .ok result ∧ ∀ content, result = some content →
      sha256Hex (encodeUtf8 content) = (singleShare 1 "0x5").contentHash := by
  refine (reconstruct_reports_iff plainAes ⟨by decide, by decide, by decide, by decide⟩).mpr ?_
  rw [fits_iff]
  decide +kernel

/-- Two altered shares: the line through their points meets zero at `PRIME - 1`, which has no
31 bytes. -/
theorem reconstruct_overflows :
    WellFormed (singleShare 1 "0x0") [singleShare 2 "0x1"] ∧
      reconstructSecret plainAes [singleShare 1 "0x0", singleShare 2 "0x1"] none
        = .error .overflow :=
  ⟨⟨by decide, by decide, by decide, by decide⟩, by decide +kernel⟩

/-! ## Repeated shares -/

/-- Whatever is split, and with whatever coins: from the shares with the given indices the
content is reconstructed if `k` of the indices are distinct, and otherwise there are too few. -/
def CountsDistinct (k n : ℤ) (indices : List ℤ) : Prop :=
  ∀ aes coins content shares key, splitSecret aes coins content k n = .ok (shares, key) →
    ∀ chosen : List Share, (∀ share ∈ chosen, share ∈ shares) → chosen.map Share.index = indices →
      ∀ hmacKey, hmacKey = none ∨ hmacKey = some coins.hmacKey →
        if k ≤ indices.toFinset.card then
          reconstructSecret aes chosen hmacKey = .ok (some content)
        else ∃ message, reconstructSecret aes chosen hmacKey = .error (.valueError message)

/-- The zero polynomial. -/
theorem evaluatePolynomial_zero (x : ℤ) {coefficients : List ℤ} (h : ∀ c ∈ coefficients, c = 0) :
    evaluatePolynomial coefficients x PRIME = 0 := by
  refine List.foldlRecOn (motive := (· = 0)) _ _ rfl fun result hresult term hterm => ?_
  rw [hresult, h term.1 (fst_mem_of_mem_zipIdx hterm)]
  simp

/-- Values that are all zero interpolate to zero, whatever the indices are. -/
theorem lagrangeInterpolation_zero (xs : List ℤ) :
    lagrangeInterpolation (xs.map fun x => (x, 0)) PRIME = 0 := by
  refine List.foldlRecOn (motive := (· = 0)) _ _ rfl fun secret hsecret i hi => ?_
  have hvalue : ((xs.map fun x => (x, (0 : ℤ))).getD i (0, 0)).2 = 0 := by
    simp [getD_eq_getElem?_getD, Option.getD_map]
  simp only [hsecret, hvalue]
  simp

/-- **Coins that give nothing away**: the polynomials of all chunks vanish at fewer than `k`
indices. -/
theorem exists_vanishing {k n : ℤ} (hn : n < PRIME) {observed : Finset ℤ}
    (hobserved : ∀ x ∈ observed, 1 ≤ x ∧ x ≤ n) (hcard : (observed.card : ℤ) ≤ k - 1)
    (chunks : List Bytes) :
    ∃ coefficient : ℕ → ℕ → Fin PRIME, ∀ i, ∀ x ∈ observed, evaluatePolynomial
      (chunkCoefficients { fixedCoins with coefficient := coefficient } k (chunks.getD i []) i)
      x PRIME = 0 := by
  choose mask hmask using fun i : ℕ => exists_chunk_mask hn hobserved hcard 0
    (fromBytesBE (chunks.getD i []))
  refine ⟨fun i j => translate (mask i j) ⟨0, PRIME_pos⟩, fun i x hx => ?_⟩
  refine (hmask i (fun _ => ⟨0, PRIME_pos⟩) x hx).symm.trans (evaluatePolynomial_zero x ?_)
  simp

/-- The first shares have nothing but zeros: the empty text comes out, or nothing. -/
theorem reconstruct_of_vanishing (aes : AesGcm) (coins : Coins) {content : Str} {k : ℤ} (n : ℤ)
    (hk : 2 ≤ k) {chunks : List Bytes} (hne : chunks ≠ []) (hshort : usesHybrid content = false)
    {xs : List ℤ} (henough : k ≤ xs.length)
    (hzero : ∀ i, ∀ x ∈ xs.take k.toNat,
      evaluatePolynomial (chunkCoefficients coins k (chunks.getD i []) i) x PRIME = 0) :
    ∃ result, reconstructSecret aes (xs.map (shareAt aes coins content k n chunks)) none
      = .ok result ∧ ∀ text, result = some text → text = [] := by
  have hrec : reconstructChunks ((xs.take k.toNat).map (shareAt aes coins content k n chunks))
      chunks.length = .ok ((List.range chunks.length).map fun _ => toBytesBE 31 0) := by
    refine mapM_eq_ok fun i hi => ?_
    have hpoints : ((xs.take k.toNat).map (shareAt aes coins content k n chunks)).mapM
        (chunkPoint i) = .ok ((xs.take k.toNat).map fun x => (x, 0)) := by
      rw [mapM_map]
      refine mapM_eq_ok fun x hx => ?_
      rw [Function.comp_apply,
        chunkPoint_shareAt aes coins content k n chunks (mem_range.mp hi) x, hzero i x hx]
    rw [hpoints, ok_bind, lagrangeInterpolation_zero]
    rfl
  have hempty : assembleChunks ((List.range chunks.length).map fun _ => toBytesBE 31 0) = [] := by
    obtain ⟨m, hm⟩ := Nat.exists_eq_add_one_of_ne_zero (length_pos_iff.mpr hne).ne'
    rw [hm, range_succ_eq_map, map_cons, assembleChunks, headD_cons]
    have hlength : fromBytesBE ((toBytesBE 31 0).take 4) = 0 := by decide
    rw [hlength, take_zero]
  obtain ⟨x, hx⟩ := reconstructSecret_of_chunks aes coins content k n chunks hne hk henough hrec
    (.inl rfl)
  have hdecode : decodeUtf8 [] = some [] := decodeUtf8_encodeUtf8 []
  rw [hx, hempty]
  by_cases hhash : sha256Hex [] = sha256Hex (encodeUtf8 content)
  · exact ⟨some [], by simp [openContent, shareAt, hshort, hdecode, hhash], by simp⟩
  · exact ⟨none, by simp [openContent, shareAt, hshort, hdecode, hhash], by simp⟩

/-- **When repeated shares do no harm**: too few are there anyway, or the first are distinct. -/
theorem counts_distinct_iff {k n : ℤ} (hk : 2 ≤ k) (hkn : k ≤ n) (hn : n < PRIME)
    {indices : List ℤ} (hindices : ∀ x ∈ indices, 1 ≤ x ∧ x ≤ n) :
    CountsDistinct k n indices ↔ (indices.length : ℤ) < k ∨ (indices.take k.toNat).Nodup := by
  constructor
  · intro h
    by_contra hnot
    obtain ⟨hlong, hrepeated⟩ := not_or.mp hnot
    -- the coins are chosen so that the first shares show zeros
    have hcard : ((indices.take k.toNat).toFinset.card : ℤ) ≤ k - 1 := by
      have hlt := card_toFinset_lt hrepeated
      rw [length_take] at hlt
      omega
    have hshort : usesHybrid ['a'] = false := by decide
    obtain ⟨chunks, hchunks, hne, -⟩ :=
      splitIntoChunks_spec (length_sharedBytes fixedCoins ['a'])
    obtain ⟨coefficient, hzero⟩ := exists_vanishing hn (fun x hx =>
      hindices x (mem_of_mem_take (mem_toFinset.mp hx))) hcard chunks
    have hgenuine : ∀ share ∈ indices.map
        (shareAt plainAes { fixedCoins with coefficient := coefficient } ['a'] k n chunks),
        share ∈ (List.range n.toNat).map fun (i : ℕ) => shareAt plainAes
          { fixedCoins with coefficient := coefficient } ['a'] k n chunks ((i : ℤ) + 1) := by
      intro share hshare
      obtain ⟨x, hx, rfl⟩ := mem_map.mp hshare
      obtain ⟨hlow, hhigh⟩ := hindices x hx
      refine mem_map.mpr ⟨(x - 1).toNat, mem_range.mpr (by omega), ?_⟩
      congr 1
      omega
    obtain ⟨result, hresult, htext⟩ := reconstruct_of_vanishing plainAes
      { fixedCoins with coefficient := coefficient } n hk hne hshort (not_lt.mp hlong)
      fun i x hx => hzero i x (mem_toFinset.mpr hx)
    have hcounts := h plainAes { fixedCoins with coefficient := coefficient } ['a'] _ _
      (splitSecret_eq _ _ _ hk hkn hchunks) _ hgenuine (by simp [shareAt, Function.comp_def]) none
      (.inl rfl)
    rw [hresult] at hcounts
    split at hcounts
    · exact cons_ne_nil _ _ (htext _ (Except.ok.inj hcounts))
    · obtain ⟨message, herror⟩ := hcounts
      cases herror
  · intro h aes coins content shares key hsplit chosen hgenuine hchosen hmacKey hkey
    have hlength : chosen.length = indices.length := by rw [← hchosen, length_map]
    by_cases hlong : (indices.length : ℤ) < k
    · have hcard := toFinset_card_le indices
      rw [if_neg (by omega)]
      exact reconstructSecret_of_few hsplit hgenuine (hlength ▸ hlong) hmacKey
    · have hdistinct := h.resolve_left hlong
      have hcard : (indices.take k.toNat).toFinset.card ≤ indices.toFinset.card :=
        Finset.card_le_card fun x hx =>
          mem_toFinset.mpr (mem_of_mem_take (mem_toFinset.mp hx))
      rw [toFinset_card_of_nodup hdistinct, length_take] at hcard
      rw [if_pos (by omega)]
      exact reconstructSecret_of_split hn hsplit hgenuine (hchosen.symm ▸ hdistinct)
        (hlength ▸ not_lt.mp hlong) hkey

/-- Two shares of three, and the first of them again. -/
theorem counts_distinct_first_again : CountsDistinct 2 3 [1, 2, 1] :=
  (counts_distinct_iff (by decide) (by decide) (by decide) (by decide)).mpr (.inr (by decide))

/-- A share that is given twice passes for two, and the result is a silent `None`. -/
theorem repeated_share_counts :
    (do
      let (shares, _) ← splitSecret plainAes fixedCoins "hello" 2 2
      reconstructSecret plainAes (shares.take 1 ++ shares.take 1) none) = .ok none := by
  decide +kernel

end TrustFlow.SecretSharing
