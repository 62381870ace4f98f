import TrustFlow.Library.Outcome
import TrustFlow.Library.Sha256
import TrustFlow.SecretSharing.Shamir

/-!
# Splitting and reconstructing a secret

`split_secret` and `reconstruct_secret` of `core/secret_sharing.py`, with the
chunking, the hexadecimal text of a share, the MAC and the hybrid AES path.

Randomness is explicit: `Coins` holds every value the source draws from
`secrets`, `os.urandom` and `AESGCM.generate_key`, with the lengths and ranges
those functions document as part of its types.  `AesGcm` is the cipher of the
`cryptography` package, known by its round trip only.  Strings are lists of
Unicode scalar values, so `encode('utf-8')` cannot fail.

* `splitSecret`, `reconstructSecret` — the two functions, errors included.
* `splitIntoChunks_spec` — what the chunks are and how the data comes back.
* `splitSecret_eq` — the shares as a function of their index.
* `reconstructSecret_splitSecret` — **threshold reconstruction**: any `k` or
  more shares with distinct indices, in any order, give the content back.
-/

namespace TrustFlow.SecretSharing

open Library List

/-! ## Data -/

/-- `Share`. -/
structure Share where
  index : ℤ
  value : Str
  shareId : Str
  contentHash : Str
  threshold : ℤ
  totalShares : ℤ
  mac : Str := []
  isHybrid : Bool := false
  ciphertext : Str := []
  nonce : Str := []
  deriving DecidableEq, Repr

/-- The exceptions of `split_secret` and `reconstruct_secret`: those the source
raises, with their texts, and those of the built-ins it calls. -/
inductive ShareError where
  /-- `ValueError(message)` raised by the source. -/
  | valueError (message : Str)
  /-- `ShareIntegrityError(message)`. -/
  | shareIntegrity (message : Str)
  /-- `OverflowError` of `int.to_bytes`. -/
  | overflow
  /-- `IndexError` of `chunk_values[chunk_idx]`. -/
  | indexOutOfRange
  /-- `ValueError` of `int(literal, 16)`. -/
  | invalidLiteral (literal : Str)
  /-- `ValueError` of `bytes.fromhex`. -/
  | nonHexadecimal (text : Str)
  /-- `TypeError` of `hmac.compare_digest` on non-ASCII strings. -/
  | nonAsciiDigest
  deriving DecidableEq, Repr

/-- AES-256-GCM without associated data.  `decrypt` is `none` where the library
raises; all that is known of it is that it undoes `encrypt` under one 256-bit
key and nonce. -/
structure AesGcm where
  encrypt : Bytes → Bytes → Bytes → Bytes
  decrypt : Bytes → Bytes → Bytes → Option Bytes
  decrypt_encrypt : ∀ key nonce data : Bytes, key.length = 32 →
    decrypt key nonce (encrypt key nonce data) = some data

/-- The random values one call of `split_secret` draws. -/
structure Coins where
  /-- `secrets.token_bytes(32)`. -/
  hmacKey : Bytes
  /-- `AESGCM.generate_key(bit_length=256)`. -/
  aesKey : Bytes
  aesKey_length : aesKey.length = 32
  /-- `os.urandom(12)`. -/
  aesNonce : Bytes
  /-- The `secrets.randbelow(PRIME)` drawn for a chunk and a position. -/
  coefficient : ℕ → ℕ → Fin PRIME
  /-- `secrets.token_hex(8)`. -/
  shareIdBase : Str

/-- `HYBRID_THRESHOLD_BYTES`. -/
def hybridThresholdBytes : ℕ := 256

/-- The default `chunk_size`; no caller passes another one. -/
def chunkSize : ℕ := 31

/-! ## Chunks -/

/-- `_int_to_bytes(num, length)`. -/
def intToBytes (num : ℤ) (length : ℕ) : Except ShareError Bytes :=
  if 0 ≤ num ∧ num.toNat < 256 ^ length then .ok (toBytesBE length num.toNat)
  else .error .overflow

variable (data : Bytes)

/-- The chunk that starts at position `i`, filled up with zero bytes. -/
def chunkAt (i : ℕ) : Bytes :=
  let chunk := (data.drop i).take chunkSize
  chunk ++ List.replicate (chunkSize - chunk.length) 0

/-- `range(0, len(data), chunk_size)`. -/
def chunkStarts : List ℕ :=
  (List.range ((data.length + (chunkSize - 1)) / chunkSize)).map (chunkSize * ·)

/-- `_split_into_chunks(data)`. -/
def splitIntoChunks : Except ShareError (List Bytes) := do
  let lengthHeader ← intToBytes data.length 4
  return (lengthHeader ++ List.replicate (chunkSize - 4) 0) :: (chunkStarts data).map (chunkAt data)

/-! ## Message authentication -/

/-- `_compute_share_mac(share_value, index, content_hash, hmac_key)`. -/
def computeShareMac (shareValue : Str) (index : ℤ) (contentHash : Str) (hmacKey : Bytes) : Str :=
  hmacSha256Hex hmacKey (encodeUtf8 (showInt index ++ '|' :: shareValue ++ '|' :: contentHash))

/-- `verify_share_mac(share, hmac_key)`. -/
def verifyShareMac (share : Share) (hmacKey : Bytes) : Except ShareError Bool :=
  if share.mac = [] then .ok false
  else
    let expectedMac := computeShareMac share.value share.index share.contentHash hmacKey
    -- `compare_digest` accepts ASCII strings only
    if share.mac.all (fun c => decide (c.toNat < 128)) then .ok (decide (share.mac = expectedMac))
    else .error .nonAsciiDigest

/-! ## Splitting -/

variable (coins : Coins)

/-- The coefficients of the polynomial of one chunk, constant one first. -/
def chunkCoefficients (threshold : ℤ) (chunk : Bytes) (chunkIdx : ℕ) : List ℤ :=
  (fromBytesBE chunk : ℤ) ::
    (List.range (threshold - 1).toNat).map fun j => ((coins.coefficient chunkIdx j : ℕ) : ℤ)

/-- `all_shares_data`: for each chunk its points at `1, …, num_shares`. -/
def allSharesData (threshold numShares : ℤ) (chunks : List Bytes) :
    List (List (ℤ × ℤ)) :=
  chunks.zipIdx.map fun chunk =>
    (List.range numShares.toNat).map fun (i : ℕ) =>
      (((i : ℤ) + 1),
        evaluatePolynomial (chunkCoefficients coins threshold chunk.1 chunk.2) ((i : ℤ) + 1) PRIME)

/-- `combined_value` of the share at position `i`. -/
def combinedValue (sharesData : List (List (ℤ × ℤ))) (i : ℕ) : Str :=
  List.intercalate ['|'] ((List.range sharesData.length).map fun chunkIdx =>
    showHex (((sharesData.getD chunkIdx []).getD i (0, 0)).2))

/-- `use_hybrid`: whether the content takes the AES path. -/
def usesHybrid (content : Str) : Bool :=
  decide ((encodeUtf8 content).length > hybridThresholdBytes)

variable (aes : AesGcm)

/-- `split_secret(content, threshold, num_shares)`. -/
def splitSecret (coins : Coins) (content : Str) (threshold numShares : ℤ) :
    Except ShareError (List Share × Bytes) := do
  if threshold > numShares then
    throw (.valueError ("Threshold (" ++ showInt threshold ++
      ") cannot exceed number of shares (" ++ showInt numShares ++ ")"))
  if threshold < 2 then
    throw (.valueError "Threshold must be at least 2")
  if numShares < 2 then
    throw (.valueError "Must create at least 2 shares")
  let contentBytes := encodeUtf8 content
  let contentHash := sha256Hex contentBytes
  let useHybrid := usesHybrid content
  let secretBytes := if useHybrid then coins.aesKey else contentBytes
  let aesNonce := if useHybrid then coins.aesNonce else []
  let ciphertext :=
    if useHybrid then aes.encrypt coins.aesKey coins.aesNonce contentBytes else []
  let chunks ← splitIntoChunks secretBytes
  let sharesData := allSharesData coins threshold numShares chunks
  let shares := (List.range numShares.toNat).map fun (i : ℕ) =>
    let value := combinedValue sharesData i
    { index := (i : ℤ) + 1
      value := value
      shareId := coins.shareIdBase ++ '_' :: showInt ((i : ℤ) + 1)
      contentHash := contentHash
      threshold := threshold
      totalShares := numShares
      mac := computeShareMac value ((i : ℤ) + 1) contentHash coins.hmacKey
      isHybrid := useHybrid
      ciphertext := if useHybrid then hexEncode ciphertext else []
      nonce := if useHybrid then hexEncode aesNonce else [] : Share }
  return (shares, coins.hmacKey)

/-! ## Reconstruction -/

/-- The consistency loop of `reconstruct_secret`. -/
def checkShares (threshold : ℤ) (contentHash : Str) (isHybrid : Bool) (hmacKey : Option Bytes) :
    List Share → Except ShareError Unit
  | [] => .ok ()
  | share :: shares => do
      if share.contentHash ≠ contentHash then
        throw (.valueError "Shares are from different secrets")
      if share.threshold ≠ threshold then
        throw (.valueError "Shares have inconsistent threshold values")
      if share.isHybrid ≠ isHybrid then
        throw (.valueError "Shares have inconsistent hybrid flags")
      match hmacKey with
      | none => pure ()
      | some key =>
        let valid ← verifyShareMac share key
        if !valid then
          throw (.shareIntegrity ("Share " ++ share.shareId ++
            " failed integrity verification (possible tampering)"))
      checkShares threshold contentHash isHybrid hmacKey shares

/-- `(share.index, int(share.value.split("|")[chunk_idx], 16))`. -/
def chunkPoint (chunkIdx : ℕ) (share : Share) : Except ShareError (ℤ × ℤ) :=
  match (split ['|'] share.value)[chunkIdx]? with
  | none => .error .indexOutOfRange
  | some literal =>
    match readHex literal with
    | none => .error (.invalidLiteral literal)
    | some y => .ok (share.index, y)

/-- `xs[:n]` for an integer `n`. -/
def sliceTo {α : Type*} (xs : List α) (n : ℤ) : List α :=
  if n < 0 then xs.take (xs.length + n).toNat else xs.take n.toNat

/-- The chunk loop of `reconstruct_secret`. -/
def reconstructChunks (shares : List Share) (numChunks : ℕ) : Except ShareError (List Bytes) :=
  (List.range numChunks).mapM fun chunkIdx => do
    let chunkShares ← shares.mapM (chunkPoint chunkIdx)
    intToBytes (lagrangeInterpolation chunkShares PRIME) 31

/-- The secret bytes from the reconstructed chunks: the first four bytes of the
length chunk say how many to keep. -/
def assembleChunks (reconstructedChunks : List Bytes) : Bytes :=
  let originalLength := fromBytesBE ((reconstructedChunks.headD []).take 4)
  ((reconstructedChunks.drop 1).flatten).take originalLength

/-- `bytes.fromhex(text)`. -/
def fromHex (text : Str) : Except ShareError Bytes :=
  match hexDecode text with
  | none => .error (.nonHexadecimal text)
  | some bytes => .ok bytes

/-- The last part of `reconstruct_secret`: decrypt, decode and compare hashes. -/
def openContent (first : Share) (secretBytes : Bytes) :
    Except ShareError (Option Str) := do
  let contentBytes ←
    if first.isHybrid then do
      let ciphertext ← fromHex first.ciphertext
      let nonce ← fromHex first.nonce
      pure (aes.decrypt secretBytes nonce ciphertext)
    else pure (some secretBytes)
  match contentBytes with
  | none => return none
  | some contentBytes =>
    match decodeUtf8 contentBytes with
    | none => return none
    | some content =>
      if sha256Hex contentBytes ≠ first.contentHash then return none else return some content

/-- `reconstruct_secret(shares, hmac_key)`. -/
def reconstructSecret (shares : List Share) (hmacKey : Option Bytes) :
    Except ShareError (Option Str) :=
  match shares with
  | [] => .error (.valueError "No shares provided")
  | first :: rest => do
      let threshold := first.threshold
      if ((first :: rest).length : ℤ) < threshold then
        throw (.valueError ("Need at least " ++ showInt threshold ++ " shares, got " ++
          showInt (first :: rest).length))
      checkShares threshold first.contentHash first.isHybrid hmacKey (first :: rest)
      let numChunks := (split ['|'] first.value).length
      let reconstructedChunks ← reconstructChunks (sliceTo (first :: rest) threshold) numChunks
      openContent aes first (assembleChunks reconstructedChunks)

/-! ## The chunks of a byte string -/

theorem intToBytes_of_lt {num length : ℕ} (hnum : num < 256 ^ length) :
    intToBytes num length = .ok (toBytesBE length num) := by
  rw [intToBytes, if_pos ⟨by omega, by simpa using hnum⟩]
  rfl

theorem length_chunkAt (i : ℕ) : (chunkAt data i).length = chunkSize := by
  simp only [chunkAt, length_append, length_replicate, length_take, length_drop]
  omega

theorem chunkAt_drop (i : ℕ) :
    chunkAt data (chunkSize + i) = chunkAt (data.drop chunkSize) i := by
  simp [chunkAt, drop_drop]

/-- The chunks, put together again, are the data followed by the padding. -/
theorem flatten_chunkAt :
    ∃ padding, ((chunkStarts data).map (chunkAt data)).flatten = data ++ padding := by
  induction hlen : data.length using Nat.strong_induction_on generalizing data with
  | _ n ih =>
    by_cases hempty : data = []
    · exact ⟨[], by simp [hempty, chunkStarts, chunkSize]⟩
    · have hpos : 0 < data.length := length_pos_iff.mpr hempty
      -- peel the first chunk off: the other starts are those of the rest, shifted
      have hstarts : chunkStarts data
          = 0 :: (chunkStarts (data.drop chunkSize)).map (chunkSize + ·) := by
        have hcount : (data.length + (chunkSize - 1)) / chunkSize
            = (data.length - chunkSize + (chunkSize - 1)) / chunkSize + 1 := by
          simp only [chunkSize]
          omega
        rw [chunkStarts, hcount, range_succ_eq_map, chunkStarts, length_drop]
        simp [Nat.mul_succ, Nat.add_comm]
      rw [hstarts, map_cons, map_map, flatten_cons]
      have hshift : (chunkAt data ∘ fun i => chunkSize + i) = chunkAt (data.drop chunkSize) := by
        funext i
        exact chunkAt_drop data i
      rw [hshift]
      obtain ⟨padding, hrest⟩ := ih (data.drop chunkSize).length
        (by rw [length_drop]; simp only [chunkSize]; omega) (data.drop chunkSize) rfl
      rw [hrest]
      by_cases hshort : data.length ≤ chunkSize
      · have hdrop : data.drop chunkSize = [] := drop_eq_nil_of_le hshort
        refine ⟨List.replicate (chunkSize - data.length) 0 ++ padding, ?_⟩
        simp [chunkAt, take_of_length_le hshort, hdrop]
      · refine ⟨padding, ?_⟩
        have hfull : chunkSize - (data.take chunkSize).length = 0 := by
          rw [length_take]
          omega
        rw [chunkAt, drop_zero]
        simp only [hfull, replicate_zero, append_nil]
        rw [← append_assoc, take_append_drop]

/-- **What the chunks are.**  Data shorter than `2^32` bytes splits into chunks
of 31 bytes each, and assembling those chunks gives the data back. -/
theorem splitIntoChunks_spec {data : Bytes} (hdata : data.length < 2 ^ 32) :
    ∃ chunks, splitIntoChunks data = .ok chunks ∧ chunks ≠ [] ∧
      (∀ chunk ∈ chunks, chunk.length = chunkSize) ∧ assembleChunks chunks = data := by
  have hheader : intToBytes data.length 4 = .ok (toBytesBE 4 data.length) :=
    intToBytes_of_lt (by omega)
  refine ⟨_, by rw [splitIntoChunks, hheader]; rfl, cons_ne_nil _ _, ?_, ?_⟩
  · intro chunk hchunk
    rcases mem_cons.mp hchunk with rfl | hchunk
    · simp [chunkSize]
    · obtain ⟨i, -, rfl⟩ := mem_map.mp hchunk
      exact length_chunkAt data i
  · obtain ⟨padding, hflatten⟩ := flatten_chunkAt data
    have htake : (toBytesBE 4 data.length ++ List.replicate (chunkSize - 4) 0).take 4
        = toBytesBE 4 data.length := take_left' (length_toBytesBE 4 data.length)
    rw [assembleChunks, headD_cons, htake, fromBytesBE_toBytesBE (by omega), drop_one,
      tail_cons, hflatten]
    exact take_left' rfl

/-! ## The shares as functions of their index -/

/-- The `value` of the share with index `x`. -/
def shareValue (threshold : ℤ) (chunks : List Bytes) (x : ℤ) : Str :=
  List.intercalate ['|'] (chunks.zipIdx.map fun chunk =>
    showHex (evaluatePolynomial (chunkCoefficients coins threshold chunk.1 chunk.2) x PRIME))

/-- The bytes that are shared: the AES key on the hybrid path, else the content. -/
def sharedBytes (content : Str) : Bytes :=
  if usesHybrid content then coins.aesKey else encodeUtf8 content

/-- The share with index `x`. -/
def shareAt (coins : Coins) (content : Str) (threshold numShares : ℤ)
    (chunks : List Bytes) (x : ℤ) : Share where
  index := x
  value := shareValue coins threshold chunks x
  shareId := coins.shareIdBase ++ '_' :: showInt x
  contentHash := sha256Hex (encodeUtf8 content)
  threshold := threshold
  totalShares := numShares
  mac := computeShareMac (shareValue coins threshold chunks x) x (sha256Hex (encodeUtf8 content))
    coins.hmacKey
  isHybrid := usesHybrid content
  ciphertext := if usesHybrid content then
    hexEncode (aes.encrypt coins.aesKey coins.aesNonce (encodeUtf8 content)) else []
  nonce := if usesHybrid content then hexEncode coins.aesNonce else []

/-- Reading a list position by position is mapping over it. -/
theorem map_range_getD {α β : Type*} (l : List α) (d : α) (f : α → β) :
    (List.range l.length).map (fun i => f (l.getD i d)) = l.map f := by
  apply ext_getElem (by simp)
  intro i hleft hright
  have hi : i < l.length := by simpa using hright
  simp [List.getElem?_eq_getElem hi]

theorem combinedValue_allSharesData (threshold numShares : ℤ)
    (chunks : List Bytes) {i : ℕ} (hi : i < numShares.toNat) :
    combinedValue (allSharesData coins threshold numShares chunks) i
      = shareValue coins threshold chunks ((i : ℤ) + 1) := by
  rw [combinedValue, map_range_getD (allSharesData coins threshold numShares chunks) []
    (fun row => showHex (row.getD i (0, 0)).2), allSharesData, map_map, shareValue]
  congr 1
  refine map_congr_left fun chunk _ => ?_
  simp [List.getElem?_range hi]

theorem length_sharedBytes (content : Str) :
    (sharedBytes coins content).length < 2 ^ 32 := by
  unfold sharedBytes
  cases huse : usesHybrid content with
  | true => simp [coins.aesKey_length]
  | false =>
    have hshort : ¬ (encodeUtf8 content).length > hybridThresholdBytes := by
      simpa [usesHybrid] using huse
    have hlt : (encodeUtf8 content).length ≤ 256 := by simpa [hybridThresholdBytes] using hshort
    simp only [Bool.false_eq_true, if_false]
    omega

variable {chunks : List Bytes} {aes : AesGcm} {coins : Coins} {content : Str}

/-- **The shares of a split.**  For a legal threshold the split succeeds, and
its shares are `shareAt` of the indices `1, …, num_shares`. -/
theorem splitSecret_eq (aes : AesGcm) (coins : Coins) (content : Str) {threshold numShares : ℤ}
    (hthreshold : 2 ≤ threshold) (hnum : threshold ≤ numShares)
    (hchunks : splitIntoChunks (sharedBytes coins content) = .ok chunks) :
    splitSecret aes coins content threshold numShares
      = .ok ((List.range numShares.toNat).map fun (i : ℕ) =>
          shareAt aes coins content threshold numShares chunks ((i : ℤ) + 1), coins.hmacKey) := by
  have h1 : ¬ threshold > numShares := by omega
  have h2 : ¬ threshold < 2 := by omega
  have h3 : ¬ numShares < 2 := by omega
  have hbytes : (if usesHybrid content then coins.aesKey else encodeUtf8 content)
      = sharedBytes coins content := rfl
  unfold splitSecret
  simp only [h1, h2, h3, if_false, hbytes, hchunks]
  refine congrArg (fun shares => Except.ok (shares, coins.hmacKey)) (map_congr_left fun i hi => ?_)
  have hi' : i < numShares.toNat := mem_range.mp hi
  rw [combinedValue_allSharesData coins threshold numShares chunks hi', shareAt]
  cases usesHybrid content <;> rfl

/-- A split that succeeds had a legal threshold. -/
theorem splitSecret_ok {threshold numShares : ℤ} {shares : List Share} {hmacKey : Bytes}
    (h : splitSecret aes coins content threshold numShares = .ok (shares, hmacKey)) :
    2 ≤ threshold ∧ threshold ≤ numShares ∧
      ∃ chunks, splitIntoChunks (sharedBytes coins content) = .ok chunks ∧
        shares = (List.range numShares.toNat).map fun (i : ℕ) =>
          shareAt aes coins content threshold numShares chunks ((i : ℤ) + 1) := by
  have hle : threshold ≤ numShares := by
    by_contra hgt
    rw [splitSecret, if_pos (Int.not_le.mp hgt)] at h
    cases h
  have hge : 2 ≤ threshold := by
    by_contra hlt
    rw [splitSecret, if_neg (Int.not_lt.mpr hle), if_pos (Int.not_le.mp hlt)] at h
    cases h
  obtain ⟨chunks, hchunks, -⟩ := splitIntoChunks_spec (length_sharedBytes coins content)
  rw [splitSecret_eq aes coins content hge hle hchunks] at h
  exact ⟨hge, hle, chunks, hchunks, (Prod.mk.inj (Except.ok.inj h)).1.symm⟩

/-! ## Reconstruction from genuine shares -/

/-- Shares that pass the checks, and whose chunks come out, are opened. -/
theorem reconstructSecret_of_checks (aes : AesGcm) {first : Share} {rest : List Share}
    {hmacKey : Option Bytes} (hcount : first.threshold ≤ (first :: rest).length)
    (hcheck : checkShares first.threshold first.contentHash first.isHybrid hmacKey (first :: rest)
      = .ok ()) (hrec : reconstructChunks (sliceTo (first :: rest) first.threshold)
      (split ['|'] first.value).length = .ok chunks) :
    reconstructSecret aes (first :: rest) hmacKey
      = openContent aes first (assembleChunks chunks) := by
  simp only [reconstructSecret, if_neg (not_lt.mpr hcount), hcheck, hrec, ok_bind]

/-- Shares are refused with a key under which the first of them has another MAC. -/
theorem reconstructSecret_of_wrong_key (aes : AesGcm) {first : Share} {rest : List Share}
    {key : Bytes}
    (hmac : computeShareMac first.value first.index first.contentHash key ≠ first.mac)
    (content : Option Str) : reconstructSecret aes (first :: rest) (some key) ≠ .ok content := by
  intro h
  rw [reconstructSecret] at h
  split at h
  · cases h
  · have hinvalid : verifyShareMac first key ≠ .ok true := by
      rw [verifyShareMac]
      split
      · simp
      · dsimp only
        split
        · simp [Ne.symm hmac]
        · simp
    rw [checkShares] at h
    cases hvalid : verifyShareMac first key with
    | error e => simp [hvalid] at h
    | ok valid =>
      cases valid with
      | true => exact hinvalid hvalid
      | false => simp [hvalid] at h

section Genuine

variable (aes : AesGcm) (coins : Coins) (content : Str) (threshold numShares : ℤ)
  (chunks : List Bytes)

/-- A genuine share passes its own MAC check. -/
theorem verifyShareMac_shareAt (x : ℤ) :
    verifyShareMac (shareAt aes coins content threshold numShares chunks x) coins.hmacKey
      = .ok true := by
  have hmac : computeShareMac (shareValue coins threshold chunks x) x
      (sha256Hex (encodeUtf8 content)) coins.hmacKey ≠ [] := hmacSha256Hex_ne_nil _ _
  have hascii : (computeShareMac (shareValue coins threshold chunks x) x
      (sha256Hex (encodeUtf8 content)) coins.hmacKey).all (fun c => decide (c.toNat < 128)) := by
    refine all_eq_true.mpr fun c hc => ?_
    obtain ⟨d, hd, rfl⟩ := mem_hexEncode hc
    exact decide_eq_true (toNat_digitChar_lt d hd)
  simp only [verifyShareMac, shareAt, hmac, hascii, if_true, if_false, decide_true]

variable {hmacKey : Option Bytes} {xs : List ℤ}

/-- The consistency loop accepts genuine shares, with or without the key. -/
theorem checkShares_shareAt (hkey : hmacKey = none ∨ hmacKey = some coins.hmacKey) (xs : List ℤ) :
    checkShares threshold (sha256Hex (encodeUtf8 content)) (usesHybrid content) hmacKey
      (xs.map (shareAt aes coins content threshold numShares chunks)) = .ok () := by
  induction xs with
  | nil => rfl
  | cons x xs ih =>
    have hmac := verifyShareMac_shareAt aes coins content threshold numShares chunks x
    rw [map_cons, checkShares]
    rcases hkey with rfl | rfl
    · simpa [shareAt] using ih
    · simp only [hmac]
      simpa [shareAt] using ih

/-- A share's value splits into the literals it was joined from. -/
theorem split_shareValue (hchunks : chunks ≠ []) (x : ℤ) :
    split ['|'] (shareValue coins threshold chunks x) = chunks.zipIdx.map fun chunk =>
          showHex (evaluatePolynomial (chunkCoefficients coins threshold chunk.1 chunk.2) x PRIME)
    := by
  refine split_intercalate (by simpa using hchunks) fun part hpart hbar => ?_
  obtain ⟨chunk, -, rfl⟩ := mem_map.mp hpart
  exact (mem_showHex hbar).2 rfl

/-- The point of a genuine share for one chunk. -/
theorem chunkPoint_shareAt {chunkIdx : ℕ} (hidx : chunkIdx < chunks.length) (x : ℤ) :
    chunkPoint chunkIdx (shareAt aes coins content threshold numShares chunks x)
      = .ok (x, evaluatePolynomial
          (chunkCoefficients coins threshold (chunks.getD chunkIdx []) chunkIdx) x PRIME) := by
  have hne : chunks ≠ [] := ne_nil_of_length_pos (by omega)
  simp [chunkPoint, shareAt, split_shareValue coins threshold chunks hne x, hidx]

/-- Enough genuine shares reconstruct every chunk. -/
theorem reconstructChunks_shareAt (hthreshold : 2 ≤ threshold)
    (hlength : ∀ chunk ∈ chunks, chunk.length = chunkSize) (hxs : ∀ x ∈ xs, 0 ≤ x ∧ x < PRIME)
    (hdistinct : xs.Nodup) (henough : threshold ≤ xs.length) :
    reconstructChunks (xs.map (shareAt aes coins content threshold numShares chunks))
      chunks.length = .ok chunks := by
  have hchunk : ∀ chunkIdx ∈ List.range chunks.length,
      (do let chunkShares ← (xs.map (shareAt aes coins content threshold numShares chunks)).mapM
            (chunkPoint chunkIdx)
          intToBytes (lagrangeInterpolation chunkShares PRIME) 31)
        = .ok (chunks.getD chunkIdx []) := by
    intro chunkIdx hmem
    have hidx : chunkIdx < chunks.length := mem_range.mp hmem
    set chunk := chunks.getD chunkIdx [] with hchunkdef
    have hchunklen : chunk.length = 31 := by
      have hget : chunk = chunks[chunkIdx] := by simp [hchunkdef, hidx]
      rw [hget]
      exact hlength _ (getElem_mem hidx)
    have hlt : fromBytesBE chunk < 256 ^ 31 := hchunklen ▸ fromBytesBE_lt chunk
    have hpoints : (xs.map (shareAt aes coins content threshold numShares chunks)).mapM
          (chunkPoint chunkIdx)
        = .ok (xs.map fun x => (x, evaluatePolynomial
            (chunkCoefficients coins threshold chunk chunkIdx) x PRIME)) := by
      rw [mapM_eq_ok (g := fun share => (share.index, evaluatePolynomial
        (chunkCoefficients coins threshold chunk chunkIdx) share.index PRIME)), map_map]
      · rfl
      · intro share hshare
        obtain ⟨x, -, rfl⟩ := mem_map.mp hshare
        exact chunkPoint_shareAt aes coins content threshold numShares chunks hidx x
    have hbelow : (256 : ℤ) ^ 31 < PRIME := by norm_num [PRIME]
    have hsecret : lagrangeInterpolation (xs.map fun x => (x, evaluatePolynomial
        (chunkCoefficients coins threshold chunk chunkIdx) x PRIME)) PRIME = fromBytesBE chunk := by
      refine lagrangeInterpolation_evaluatePolynomial PRIME _ ⟨by positivity, ?_⟩ _ xs hxs
        hdistinct ?_
      · refine lt_trans ?_ hbelow
        exact_mod_cast hlt
      · simp only [length_cons, length_map, length_range]
        omega
    rw [hpoints]
    show intToBytes (lagrangeInterpolation _ PRIME) 31 = _
    rw [hsecret, intToBytes_of_lt hlt, ← hchunklen, toBytesBE_fromBytesBE]
  rw [reconstructChunks, mapM_eq_ok hchunk]
  exact congrArg Except.ok ((map_range_getD chunks [] id).trans (map_id _))

/-- Decryption and decoding give the content back from the shared bytes. -/
theorem openContent_shareAt (x : ℤ) :
    openContent aes (shareAt aes coins content threshold numShares chunks x)
      (sharedBytes coins content) = .ok (some content) := by
  cases huse : usesHybrid content with
  | true =>
    simp only [openContent, shareAt, sharedBytes, huse, if_true, fromHex, hexDecode_hexEncode]
    simp [aes.decrypt_encrypt _ _ _ coins.aesKey_length]
  | false => simp [openContent, shareAt, sharedBytes, huse]

/-- Enough genuine shares pass the checks, and what comes out is opened. -/
theorem reconstructSecret_of_chunks (hne : chunks ≠ []) (hthreshold : 2 ≤ threshold)
    (henough : threshold ≤ xs.length) {chunks' : List Bytes}
    (hrec : reconstructChunks ((xs.take threshold.toNat).map
      (shareAt aes coins content threshold numShares chunks)) chunks.length = .ok chunks')
    (hkey : hmacKey = none ∨ hmacKey = some coins.hmacKey) :
    ∃ x, reconstructSecret aes (xs.map (shareAt aes coins content threshold numShares chunks)) hmacKey
      = openContent aes (shareAt aes coins content threshold numShares chunks x)
        (assembleChunks chunks') := by
  have hslice : sliceTo (xs.map (shareAt aes coins content threshold numShares chunks)) threshold
      = (xs.take threshold.toNat).map (shareAt aes coins content threshold numShares chunks) := by
    rw [sliceTo, if_neg (by omega), map_take]
  have hcheck := checkShares_shareAt aes coins content threshold numShares chunks hkey xs
  rw [← hslice] at hrec
  cases xs with
  | nil => simp only [length_nil] at henough; omega
  | cons x rest =>
    have hnum : (split ['|'] (shareValue coins threshold chunks x)).length = chunks.length := by
      rw [split_shareValue coins threshold chunks hne x]
      simp
    rw [map_cons] at hcheck hrec ⊢
    exact ⟨x, reconstructSecret_of_checks aes (by simpa [shareAt] using henough) hcheck
      (hnum.symm ▸ hrec)⟩

/-- Reconstruction from the shares of a list of indices, of which the first are distinct. -/
theorem reconstructSecret_shareAt (hthreshold : 2 ≤ threshold)
    (hchunks : splitIntoChunks (sharedBytes coins content) = .ok chunks)
    (hxs : ∀ x ∈ xs, 0 ≤ x ∧ x < PRIME) (hdistinct : (xs.take threshold.toNat).Nodup)
    (henough : threshold ≤ xs.length) (hkey : hmacKey = none ∨ hmacKey = some coins.hmacKey) :
    reconstructSecret aes (xs.map (shareAt aes coins content threshold numShares chunks)) hmacKey
      = .ok (some content) := by
  obtain ⟨chunks', hchunks', hne, hlength, hassemble⟩ :=
    splitIntoChunks_spec (length_sharedBytes coins content)
  obtain rfl : chunks' = chunks := Except.ok.inj (hchunks'.symm.trans hchunks)
  have hrec := reconstructChunks_shareAt aes coins content threshold numShares chunks' hthreshold
    hlength (fun x hx => hxs x (mem_of_mem_take hx)) hdistinct
    (by rw [length_take]; omega)
  obtain ⟨x, hx⟩ := reconstructSecret_of_chunks aes coins content threshold numShares chunks' hne
    hthreshold henough hrec hkey
  rw [hx, hassemble]
  exact openContent_shareAt aes coins content threshold numShares chunks' x

end Genuine

/-- Every share of a split is the share of its own index. -/
theorem eq_map_shareAt {k n : ℤ} {m : ℕ} {chosen : List Share}
    (hgenuine : ∀ share ∈ chosen, share ∈ (List.range m).map fun (i : ℕ) =>
      shareAt aes coins content k n chunks ((i : ℤ) + 1)) :
    chosen = (chosen.map Share.index).map (shareAt aes coins content k n chunks) := by
  rw [map_map]
  refine (map_id chosen).symm.trans (map_congr_left fun share hshare => ?_)
  obtain ⟨i, -, rfl⟩ := mem_map.mp (hgenuine share hshare)
  rfl

/-- **Reconstruction from shares of a split**, of which the first have distinct indices. -/
theorem reconstructSecret_of_split {k n : ℤ} (hn : n < PRIME) {shares : List Share} {key : Bytes}
    (hsplit : splitSecret aes coins content k n = .ok (shares, key)) {chosen : List Share}
    (hgenuine : ∀ share ∈ chosen, share ∈ shares)
    (hdistinct : ((chosen.map Share.index).take k.toNat).Nodup) (henough : k ≤ chosen.length)
    {hmacKey : Option Bytes} (hkey : hmacKey = none ∨ hmacKey = some coins.hmacKey) :
    reconstructSecret aes chosen hmacKey = .ok (some content) := by
  obtain ⟨hk, hkn, chunks, hchunks, rfl⟩ := splitSecret_ok hsplit
  have hrange : ∀ x ∈ chosen.map Share.index, 0 ≤ x ∧ x < PRIME := by
    intro x hx
    obtain ⟨share, hshare, rfl⟩ := mem_map.mp hx
    obtain ⟨i, hi, rfl⟩ := mem_map.mp (hgenuine share hshare)
    have hi' : i < n.toNat := mem_range.mp hi
    show 0 ≤ (i : ℤ) + 1 ∧ (i : ℤ) + 1 < PRIME
    omega
  rw [eq_map_shareAt hgenuine]
  exact reconstructSecret_shareAt aes coins content k n chunks hk hchunks hrange hdistinct
    (by rwa [length_map]) hkey

/-- Fewer shares than needed are refused. -/
theorem reconstructSecret_of_few {k n : ℤ} {shares : List Share} {key : Bytes}
    (hsplit : splitSecret aes coins content k n = .ok (shares, key)) {chosen : List Share}
    (hgenuine : ∀ share ∈ chosen, share ∈ shares) (hfew : chosen.length < k)
    (hmacKey : Option Bytes) :
    ∃ message, reconstructSecret aes chosen hmacKey = .error (.valueError message) := by
  obtain ⟨-, -, chunks, -, rfl⟩ := splitSecret_ok hsplit
  cases chosen with
  | nil => exact ⟨_, rfl⟩
  | cons first rest =>
    obtain ⟨i, -, rfl⟩ := mem_map.mp (hgenuine first mem_cons_self)
    rw [reconstructSecret]
    exact ⟨_, (if_pos hfew).trans rfl⟩

/-- A list with repetitions has fewer distinct entries. -/
theorem card_toFinset_lt {α : Type*} [DecidableEq α] {l : List α} (h : ¬ l.Nodup) :
    l.toFinset.card < l.length :=
  lt_of_le_of_ne l.toFinset_card_le fun heq =>
    h (Multiset.toFinset_card_eq_card_iff_nodup.mp heq)

/-- **Threshold reconstruction.**  A split with `2 ≤ k ≤ n < PRIME` succeeds
and returns shares with the indices `1, …, n`.  Every list of at least `k` of
them with distinct indices, in any order, reconstructs to exactly the content,
with the returned HMAC key or without one, whatever the random choices were. -/
theorem reconstructSecret_splitSecret (aes : AesGcm) (coins : Coins) (content : Str) (k n : ℤ)
    (hk : 2 ≤ k) (hkn : k ≤ n) (hn : n < PRIME) :
    ∃ shares, splitSecret aes coins content k n = .ok (shares, coins.hmacKey) ∧
      shares.map Share.index = (List.range n.toNat).map (fun (i : ℕ) => (i : ℤ) + 1) ∧
      ∀ chosen : List Share, (∀ share ∈ chosen, share ∈ shares) →
        (chosen.map Share.index).Nodup → k ≤ chosen.length →
        ∀ hmacKey, hmacKey = none ∨ hmacKey = some coins.hmacKey →
          reconstructSecret aes chosen hmacKey = .ok (some content) := by
  obtain ⟨chunks, hchunks, -⟩ := splitIntoChunks_spec (length_sharedBytes coins content)
  have hsplit := splitSecret_eq aes coins content hk hkn hchunks
  refine ⟨_, hsplit, by rw [map_map]; rfl, ?_⟩
  intro chosen hgenuine hdistinct henough hmacKey hkey
  exact reconstructSecret_of_split hn hsplit hgenuine
    (hdistinct.sublist (take_sublist _ _)) henough hkey

/-- A cipher that adds nothing, for contents short enough not to be encrypted. -/
def plainAes : AesGcm where
  encrypt _ _ data := data
  decrypt _ _ data := some data
  decrypt_encrypt _ _ _ _ := rfl

/-- Fixed random choices. -/
def fixedCoins : Coins where
  hmacKey := List.replicate 32 7
  aesKey := List.replicate 32 1
  aesKey_length := rfl
  aesNonce := List.replicate 12 2
  coefficient chunkIdx j := ⟨(1000 * chunkIdx + j + 5) % PRIME, Nat.mod_lt _ PRIME_pos⟩
  shareIdBase := "00ff00ff00ff00ff"

/-- The last two of three shares, in reverse order, without the key. -/
theorem reconstructSecret_splitSecret_two_of_three :
    ∃ shares, splitSecret plainAes fixedCoins "hello" 2 3
        = .ok (shares, fixedCoins.hmacKey) ∧
      reconstructSecret plainAes (shares.drop 1).reverse none = .ok (some "hello") := by
  obtain ⟨shares, hsplit, hindex, hreconstruct⟩ := reconstructSecret_splitSecret plainAes
    fixedCoins "hello" 2 3 le_rfl (by norm_num) (by norm_num [PRIME])
  have hchosen : ((shares.drop 1).reverse).map Share.index = [3, 2] := by
    rw [map_reverse, map_drop, hindex]
    rfl
  have hlength : (shares.drop 1).reverse.length = 2 := by
    simpa using congrArg List.length hchosen
  refine ⟨shares, hsplit, hreconstruct _ (fun share hshare => ?_) ?_ ?_ none (Or.inl rfl)⟩
  · exact mem_of_mem_drop (mem_reverse.mp hshare)
  · rw [hchosen]
    decide
  · rw [hlength]
    rfl

end TrustFlow.SecretSharing
