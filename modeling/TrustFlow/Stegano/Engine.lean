import TrustFlow.Custody.CoCNode
import TrustFlow.Stegano.Fingerprint

/-!
# The watermarking engine

`SteganoEngine` of `core/steganography.py`: a text is marked for a peer by the
wording, by blanks at the line ends, and by an invisible mark with the peer's id.

* `embedWatermark`, `extractWatermark` — the two operations.  The invisible mark
  goes in front of the first blank, or to the end if there is none or the text
  starts with it.
* `extractWatermark_of_decode` — an embedded mark that is decoded names its peer.
* `extractWatermark_embedWatermark` — the round trip: the data that is embedded is the data
  that is extracted, if the content has no start and no end of a mark.
* `marked_embedText`, `marked_again` — whose mark comes first when a text is marked,
  and when a marked text is marked once more: the new peer's, exactly if there is a
  place for it in front of the old mark (`BlankBeforeMark`).

Attributes of a decoded mark are JSON values: the constructor of the data class
does not check them.

The characters of a word and their cases (`WordClass`) are a parameter, and so is what
a string of a decoded mark is read as (`Reader`).  The timestamp is an argument: the
source reads the clock only where none is given.
-/

namespace TrustFlow.Stegano

open Library Custody List

/-- `WatermarkData`. -/
structure WatermarkData (σ : Type := Str) where
  peerId : Json σ
  timestamp : Json σ
  depth : Json σ
  contentHash : Json σ
  fingerprintSeed : Json σ

namespace WatermarkData

/-- The names of the fields. -/
def fieldNames : List Str :=
  ["peer_id", "timestamp", "depth", "content_hash",
    "fingerprint_seed"]

/-- `to_dict`. -/
def toDict (data : WatermarkData) : Json :=
  .obj (fieldNames.zip
    [data.peerId, data.timestamp, data.depth, data.contentHash, data.fingerprintSeed])

/-- `from_dict`; `none` is the `TypeError` of a value that is no dictionary, or of
one with other keys. -/
def fromDict {σ : Type} [DecidableEq σ] (R : Reader σ) : Json σ → Option (WatermarkData σ)
  | .obj fields =>
    if fields.length = fieldNames.length then do
      let peerId ← Assoc.get? (R.ofText "peer_id") fields
      let timestamp ← Assoc.get? (R.ofText "timestamp") fields
      let depth ← Assoc.get? (R.ofText "depth") fields
      let contentHash ← Assoc.get? (R.ofText "content_hash") fields
      let fingerprintSeed ← Assoc.get? (R.ofText "fingerprint_seed") fields
      return ⟨peerId, timestamp, depth, contentHash, fingerprintSeed⟩
    else none
  | _ => none

/-- The data that is embedded. -/
def new (content peerId timestamp : Str) (depth : ℤ) : WatermarkData where
  peerId := .str peerId
  timestamp := .str timestamp
  depth := .int depth
  contentHash := .str (hashContent content)
  fingerprintSeed := .int (getFingerprintSeed peerId)

theorem fromDict_toDict (data : WatermarkData) : fromDict .plain data.toDict = some data := rfl

end WatermarkData

/-- The way in which an extraction found its peer. -/
inductive Method where
  | zeroWidth
  | linguistic
  | whitespace
  | none
  deriving DecidableEq

/-- `ExtractionResult`. -/
structure ExtractionResult (σ : Type := Str) where
  success : Bool
  peerId : Option (Json σ)
  confidence : ℚ
  method : Method
  originalContent : Str
  watermarkData : Option (WatermarkData σ)

/-- The exceptions of an extraction: the `TypeError` of a mark that is no watermark
dictionary, and the `ValueError` and `RecursionError` of `json.loads`. -/
inductive ExtractError where
  | type
  | value
  | recursion
  deriving DecidableEq

/-- The extraction succeeds and names the peer. -/
def ExtractionResult.Names (result : ExtractionResult) (peerId : Str) : Prop :=
  result.success = true ∧ result.peerId = some (.str peerId)

/-- `SteganoEngine`: the peers it knows. -/
structure SteganoEngine where
  knownPeers : List Str

namespace SteganoEngine

/-- `register_peer`. -/
def registerPeer (engine : SteganoEngine) (peerId : Str) : SteganoEngine :=
  if peerId ∈ engine.knownPeers then engine else ⟨engine.knownPeers ++ [peerId]⟩

/-- The mark in front of the first blank, or at the end. -/
def placeMark (result mark : Str) : Str :=
  match result.idxOf? ' ' with
  | some (i + 1) => result.take (i + 1) ++ mark ++ result.drop (i + 1)
  | _ => result ++ mark

/-- The flags of `embed_watermark`. -/
structure Passes where
  useZeroWidth : Bool
  useLinguistic : Bool
  useWhitespace : Bool

/-- The default flags. -/
def Passes.all : Passes := ⟨true, true, true⟩

variable (words : WordClass)

/-- The invisible mark. -/
def markFor (content peerId timestamp : Str) (depth : ℤ) : Str :=
  encodeZeroWidth (dumps false (WatermarkData.new content peerId timestamp depth).toDict)

/-- The text that `embed_watermark` returns. -/
def embedText (passes : Passes) (content peerId timestamp : Str) (depth : ℤ) : Str :=
  let worded :=
    if passes.useLinguistic then
      applyLinguisticFingerprint words content (getFingerprintSeed peerId)
    else content
  let blanked := if passes.useWhitespace then addWhitespaceFingerprint worded peerId else worded
  if passes.useZeroWidth then placeMark blanked (markFor content peerId timestamp depth) else blanked

/-- `embed_watermark`. -/
def embedWatermark (engine : SteganoEngine) (passes : Passes) (content peerId timestamp : Str)
    (depth : ℤ) : SteganoEngine × Str :=
  (engine.registerPeer peerId, embedText words passes content peerId timestamp depth)

section

variable {σ : Type} [DecidableEq σ] (R : Reader σ)

/-- What the visible fingerprints say. -/
def extractVisible (content : Str) (candidates : List Str) : ExtractionResult σ :=
  match detectLinguisticFingerprint words content candidates with
  | some (peerId, confidence) =>
    ⟨true, some (.str (R.ofText peerId)), confidence, .linguistic, content, none⟩
  | none =>
    match detectWhitespaceFingerprint content candidates with
    | some (peerId, confidence) =>
      ⟨true, some (.str (R.ofText peerId)), confidence, .whitespace, content, none⟩
    | none => ⟨false, none, 0, .none, content, none⟩

/-- `extract_watermark`, with a reader of JSON.  Without candidates the known peers are
the candidates.  A mark that raises `JSONDecodeError` is passed over. -/
def extractBy (engine : SteganoEngine) (content : Str) (candidatePeers : List Str) :
    Except ExtractError (ExtractionResult σ) :=
  let candidates := if candidatePeers = [] then engine.knownPeers else candidatePeers
  match (decodeZeroWidth content).filter (· ≠ []) with
  | some decoded =>
    match loadsBy R decoded with
    | .ok dict =>
      match WatermarkData.fromDict R dict with
      | some data =>
        .ok ⟨true, some data.peerId, 1, .zeroWidth, removeZeroWidth content, some data⟩
      | none => .error .type
    | .error .decode => .ok (extractVisible words R content candidates)
    | .error .digits => .error .value
    | .error .recursion => .error .recursion
  | none => .ok (extractVisible words R content candidates)

end

/-- `extract_watermark`, where strings are texts and the interpreter has no limits;
`none` is the `TypeError` of a mark that is no watermark dictionary. -/
def extractWatermark (engine : SteganoEngine) (content : Str) (candidatePeers : List Str) :
    Option ExtractionResult :=
  (engine.extractBy words .plain content candidatePeers).toOption

/-! ## Reading a mark -/

section

variable {words} {content peerId timestamp : Str} {depth : ℤ}

theorem ascii_watermark :
    ∀ c ∈ dumps false (WatermarkData.new content peerId timestamp depth).toDict, c.toNat < 128 := by
  apply ascii_dumps_obj
  intro f hf c hc
  simp only [WatermarkData.new, WatermarkData.fieldNames, zip_cons_cons, zip_nil_right,
    mem_cons, not_mem_nil, or_false] at hf
  rcases hf with rfl | rfl | rfl | rfl | rfl
  · exact ascii_quote hc
  · exact ascii_quote hc
  · exact ascii_showInt hc
  · exact ascii_quote hc
  · exact ascii_showInt hc

theorem watermark_ne_nil :
    dumps false (WatermarkData.new content peerId timestamp depth).toDict ≠ [] :=
  cons_ne_nil _ _

theorem loads_watermark :
    loadsBy .plain (dumps false (WatermarkData.new content peerId timestamp depth).toDict)
      = .ok (WatermarkData.new content peerId timestamp depth).toDict := by
  apply loadsBy_dumps
  refine ⟨show WatermarkData.fieldNames.Nodup by decide, ?_⟩
  rw [uniqueFields_iff]
  intro f hf
  simp only [WatermarkData.new, WatermarkData.fieldNames, zip_cons_cons, zip_nil_right,
    mem_cons, not_mem_nil, or_false] at hf
  rcases hf with rfl | rfl | rfl | rfl | rfl <;> trivial

/-- **An embedded mark that is decoded names its peer.** -/
theorem extractWatermark_of_decode {engine : SteganoEngine} {text : Str} {candidatePeers : List Str}
    (h : decodeZeroWidth text
      = some (dumps false (WatermarkData.new content peerId timestamp depth).toDict)) :
    extractWatermark words engine text candidatePeers
      = some ⟨true, some (.str peerId), 1, .zeroWidth, removeZeroWidth text,
          some (WatermarkData.new content peerId timestamp depth)⟩ := by
  rw [extractWatermark, extractBy, h, Option.filter_some, if_pos (decide_eq_true watermark_ne_nil)]
  dsimp only
  rw [loads_watermark]
  dsimp only
  rw [WatermarkData.fromDict_toDict]
  rfl

variable (words) in
/-- **A text without invisible characters names whom its line ends give away.** -/
theorem names_iff_standsOut {text : Str} (htext : ∀ c ∈ text, isZeroWidth c = false)
    (engine : SteganoEngine) (candidatePeers : List Str) :
    (∃ result, extractWatermark words engine text candidatePeers = some result ∧
        result.Names peerId) ↔
      StandsOut text (if candidatePeers = [] then engine.knownPeers else candidatePeers) peerId := by
  have hnone : decodeZeroWidth text = none :=
    decodeZeroWidth_eq_none (.inl fun h => absurd (htext _ h) (by decide))
  rw [extractWatermark, extractBy, hnone, Option.filter_none]
  dsimp only
  rw [extractVisible, detectLinguisticFingerprint_eq_none, ← detectWhitespaceFingerprint_iff]
  dsimp only
  constructor
  · rintro ⟨result, hresult, hsuccess, hpeer⟩
    obtain rfl := Option.some.inj hresult
    split at hpeer
    · rename_i found confidence hfound
      obtain rfl : found = peerId := by simpa using hpeer
      exact ⟨confidence, hfound⟩
    · cases hpeer
  · rintro ⟨confidence, hfound⟩
    rw [hfound]
    exact ⟨_, rfl, rfl, rfl⟩

/-- The first mark of a text is one for the peer, and nothing invisible stands
before it. -/
def Marked (peerId text : Str) : Prop :=
  ∃ (before content timestamp after : Str) (depth : ℤ),
    text = before ++ markFor content peerId timestamp depth ++ after ∧
      ∀ c ∈ before, isZeroWidth c = false

variable (words) in
/-- A marked text names the peer of its first mark. -/
theorem Marked.extract {text : Str} (h : Marked peerId text) (engine : SteganoEngine)
    (candidatePeers : List Str) :
    ∃ result, extractWatermark words engine text candidatePeers = some result ∧
      result.Names peerId := by
  obtain ⟨before, content, timestamp, after, depth, rfl, hbefore⟩ := h
  have hstart : watermarkStart ∉ before := fun h => absurd (hbefore _ h) (by decide)
  have hend : watermarkEnd ∉ before := fun h => absurd (hbefore _ h) (by decide)
  have hdecode : decodeZeroWidth (before ++ markFor content peerId timestamp depth ++ after)
      = some (dumps false (WatermarkData.new content peerId timestamp depth).toDict) :=
    decodeZeroWidth_mark hstart hend ascii_watermark watermark_ne_nil after
  exact ⟨_, extractWatermark_of_decode hdecode, rfl, rfl⟩

/-- It names nobody else. -/
theorem Marked.eq_of_extract {text other : Str} (h : Marked peerId text) {engine : SteganoEngine}
    {candidatePeers : List Str} {result : ExtractionResult}
    (hresult : extractWatermark words engine text candidatePeers = some result)
    (hother : result.Names other) : other = peerId := by
  obtain ⟨_, hextract, -, hnames⟩ := h.extract words engine candidatePeers
  obtain rfl := Option.mem_unique hextract hresult
  have hsame : some (Json.str other) = some (Json.str peerId) := hother.2.symm.trans hnames
  simpa using hsame

/-! ## The place of a mark -/

/-- In front of the first blank. -/
theorem placeMark_of_blank {p : Str} (hne : p ≠ []) (hp : ' ' ∉ p) (q mark : Str) :
    placeMark (p ++ ' ' :: q) mark = p ++ mark ++ ' ' :: q := by
  rw [placeMark, idxOf?_append_cons hp]
  cases p with
  | nil => exact absurd rfl hne
  | cons c p =>
    rw [length_cons]
    dsimp only
    rw [← length_cons (a := c), take_left, drop_left]

/-- At the end. -/
theorem placeMark_of_none {result : Str} (h : ' ' ∉ result ∨ result.head? = some ' ')
    (mark : Str) : placeMark result mark = result ++ mark := by
  rcases h with h | h
  · rw [placeMark, List.idxOf?_eq_none_iff.mpr h]
  · obtain ⟨q, rfl⟩ : ∃ q, result = [] ++ ' ' :: q := by
      cases result with
      | nil => cases h
      | cons c q => exact ⟨q, by rw [Option.some.inj h]; rfl⟩
    rw [placeMark, idxOf?_append_cons not_mem_nil]
    rfl

/-- Where the mark goes. -/
theorem placeMark_cases (result mark : Str) :
    (∃ p q, result = p ++ ' ' :: q ∧ placeMark result mark = p ++ mark ++ ' ' :: q) ∨
      placeMark result mark = result ++ mark := by
  by_cases hblank : ' ' ∈ result
  · obtain ⟨p, q, rfl, hp⟩ := eq_append_cons_of_mem hblank
    cases p with
    | nil => exact .inr (placeMark_of_none (.inr rfl) mark)
    | cons c p => exact .inl ⟨_, q, rfl, placeMark_of_blank (cons_ne_nil c p) hp q mark⟩
  · exact .inr (placeMark_of_none (.inl hblank) mark)

/-- A mark stands between words. -/
theorem isWord_of_mem_markFor {c : Char} (hc : c ∈ markFor content peerId timestamp depth) :
    words.isWord c = false :=
  words.zeroWidth c (isZeroWidth_of_mem_encodeZeroWidth hc)

theorem embedText_all :
    embedText words .all content peerId timestamp depth
      = placeMark
          (addWhitespaceFingerprint
            (applyLinguisticFingerprint words content (getFingerprintSeed peerId)) peerId)
          (markFor content peerId timestamp depth) := by
  simp only [embedText, Passes.all, if_true]

/-- No dictionary word is left in a marked text. -/
theorem worded_embedText : Worded words (embedText words .all content peerId timestamp depth) := by
  have hworded : Worded words
      (applyLinguisticFingerprint words content (getFingerprintSeed peerId)) :=
    worded_applyLinguisticFingerprint content _
  have hblanked := worded_addWhitespaceFingerprint hworded peerId
  rw [embedText_all]
  rcases placeMark_cases (addWhitespaceFingerprint
      (applyLinguisticFingerprint words content (getFingerprintSeed peerId)) peerId)
      (markFor content peerId timestamp depth) with
    ⟨p, q, hresult, hplace⟩ | hplace
  · rw [hplace]
    rw [hresult] at hblanked
    exact hblanked.insert isWord_blank fun c hc => isWord_of_mem_markFor hc
  · rw [hplace]
    exact hblanked.append fun c hc => isWord_of_mem_markFor hc

theorem toNat_of_isZeroWidth {c : Char} (hc : isZeroWidth c = true) : 128 ≤ c.toNat ∧ c ≠ ' ' := by
  simp only [isZeroWidth, contains_eq_mem, mem_cons, not_mem_nil, or_false, decide_eq_true_eq] at hc
  rcases hc with rfl | rfl | rfl | rfl | rfl <;> decide

variable (words) in
/-- The text after the linguistic pass. -/
def wordedText (useLinguistic : Bool) (content peerId : Str) : Str :=
  if useLinguistic then applyLinguisticFingerprint words content (getFingerprintSeed peerId)
  else content

variable (words) in
/-- The text after both passes over what is visible. -/
def blankedText (useLinguistic useWhitespace : Bool) (content peerId : Str) : Str :=
  if useWhitespace then
    addWhitespaceFingerprint (wordedText words useLinguistic content peerId) peerId
  else wordedText words useLinguistic content peerId

theorem embedText_zeroWidth (useLinguistic useWhitespace : Bool) :
    embedText words ⟨true, useLinguistic, useWhitespace⟩ content peerId timestamp depth
      = placeMark (blankedText words useLinguistic useWhitespace content peerId)
          (markFor content peerId timestamp depth) := rfl

/-- The passes over the visible text bring in printable ASCII characters only. -/
theorem mem_of_mem_blanked {useLinguistic useWhitespace : Bool} {c : Char}
    (hc : c.toNat < 32 ∨ 128 ≤ c.toNat)
    (h : c ∈ blankedText words useLinguistic useWhitespace content peerId) : c ∈ content := by
  have hblank : c ≠ ' ' := by
    rintro rfl
    exact absurd hc (by decide)
  have hworded : c ∈ wordedText words useLinguistic content peerId := by
    unfold blankedText at h
    split at h
    · rw [addWhitespaceFingerprint_eq, mem_append] at h
      have hpadded := h.resolve_right fun h => hblank (eq_of_mem_replicate h)
      exact (mem_padLines hblank 0).mp hpadded
    · exact h
  unfold wordedText at hworded
  split at hworded
  · exact mem_applyLinguisticFingerprint hc hworded
  · exact hworded

/-- The mark stands whole in the text, and what is invisible before it is of the content. -/
theorem embedText_split (useLinguistic useWhitespace : Bool) :
    ∃ before after, embedText words ⟨true, useLinguistic, useWhitespace⟩ content peerId timestamp depth
        = before ++ markFor content peerId timestamp depth ++ after ∧
      ∀ c ∈ before, 128 ≤ c.toNat → c ∈ content := by
  rw [embedText_zeroWidth]
  rcases placeMark_cases (blankedText words useLinguistic useWhitespace content peerId)
      (markFor content peerId timestamp depth) with
    ⟨p, q, hresult, hplace⟩ | hplace
  · refine ⟨p, ' ' :: q, hplace, fun c hc hnonascii => ?_⟩
    have hblanked : c ∈ blankedText words useLinguistic useWhitespace content peerId := by
      rw [hresult]
      exact mem_append_left _ hc
    exact mem_of_mem_blanked (.inr hnonascii) hblanked
  · refine ⟨_, [], hplace.trans (append_nil _).symm, fun c hc hnonascii => ?_⟩
    exact mem_of_mem_blanked (.inr hnonascii) hc

/-- Marking brings in no carriage return. -/
theorem cr_notMem_embedText (hcontent : '\r' ∉ content) :
    '\r' ∉ embedText words .all content peerId timestamp depth := by
  have hblanked : '\r' ∉ blankedText words true true content peerId := fun h =>
    hcontent (mem_of_mem_blanked (.inl (by decide)) h)
  have hmark : '\r' ∉ markFor content peerId timestamp depth := fun h =>
    absurd (isZeroWidth_of_mem_encodeZeroWidth h) (by decide)
  rw [Passes.all, embedText_zeroWidth]
  rcases placeMark_cases (blankedText words true true content peerId)
      (markFor content peerId timestamp depth) with ⟨p, q, hresult, hplace⟩ | hplace
  · rw [hresult, mem_append, not_or] at hblanked
    rw [hplace, mem_append, mem_append, not_or, not_or]
    exact ⟨⟨hblanked.1, hmark⟩, hblanked.2⟩
  · rw [hplace, mem_append, not_or]
    exact ⟨hblanked, hmark⟩

/-- **A text without invisible characters is marked for the peer.** -/
theorem marked_embedText (hcontent : ∀ c ∈ content, isZeroWidth c = false) :
    Marked peerId (embedText words .all content peerId timestamp depth) := by
  obtain ⟨before, after, hsplit, hbefore⟩ := embedText_split true true
  refine ⟨before, content, timestamp, after, depth, hsplit, fun c hc => ?_⟩
  by_contra hzero
  have hnonascii := (toNat_of_isZeroWidth (Bool.not_eq_false _ ▸ hzero)).1
  exact hzero (hcontent c (hbefore c hc hnonascii))

/-- **What is embedded is extracted**, whatever else is done to the text and whoever is asked
for. -/
theorem extractWatermark_embedWatermark (hstart : watermarkStart ∉ content)
    (hend : watermarkEnd ∉ content) (useLinguistic useWhitespace : Bool)
    (embedder extractor : SteganoEngine) (candidatePeers : List Str) :
    ∃ result, extractWatermark words extractor
        (embedWatermark words embedder ⟨true, useLinguistic, useWhitespace⟩ content peerId timestamp
          depth).2 candidatePeers = some result ∧
      result.success = true ∧ result.method = .zeroWidth ∧ result.confidence = 1 ∧
      result.peerId = some (.str peerId) ∧
      result.watermarkData = some
        { peerId := .str peerId
          timestamp := .str timestamp
          depth := .int depth
          contentHash := .str (sha256Hex (encodeUtf8 content))
          fingerprintSeed := .int (getFingerprintSeed peerId) } := by
  obtain ⟨before, after, hsplit, hbefore⟩ := embedText_split useLinguistic useWhitespace
  have hdecode : decodeZeroWidth (before ++ markFor content peerId timestamp depth ++ after)
      = some (dumps false (WatermarkData.new content peerId timestamp depth).toDict) :=
    decodeZeroWidth_mark (fun h => hstart (hbefore _ h (by decide)))
      (fun h => hend (hbefore _ h (by decide))) ascii_watermark watermark_ne_nil after
  rw [embedWatermark]
  dsimp only
  rw [hsplit, extractWatermark_of_decode hdecode]
  exact ⟨_, rfl, rfl, rfl, rfl, rfl, rfl⟩

/-- A text that starts with a blank and holds a zero-width joiner. -/
theorem extractWatermark_embedWatermark_joined :
    ∃ result, extractWatermark .least ⟨[]⟩
        (embedWatermark .least ⟨[]⟩ ⟨true, true, false⟩ " a\u200db" "alice" "t"
          2).2 ["bob"] = some result ∧
      result.success = true ∧ result.method = .zeroWidth ∧
      result.peerId = some (.str "alice") := by
  have hstart : watermarkStart ∉ " a\u200db".toList := by decide
  have hend : watermarkEnd ∉ " a\u200db".toList := by decide
  obtain ⟨result, hextract, hsuccess, hmethod, -, hpeer, -⟩ :=
    extractWatermark_embedWatermark hstart hend true false ⟨[]⟩ ⟨[]⟩ ["bob"]
  exact ⟨result, hextract, hsuccess, hmethod, hpeer⟩

/-! ## Marking once more -/

/-- There is a place for a mark of the seed in front of the first mark of the text:
a blank, or a line end that gets one, but not at the very start. -/
def BlankBeforeMark (seed : ℕ) (text : Str) : Prop :=
  let before := text.takeWhile (· != watermarkStart)
  (' ' ∈ before ∨ ∃ i < before.count '\n', (seed + i) % 3 ≠ 0) ∧
    before.head? ≠ some ' ' ∧ ¬ (before.head? = some '\n' ∧ seed % 3 ≠ 0)

instance (seed : ℕ) (text : Str) : Decidable (BlankBeforeMark seed text) :=
  inferInstanceAs (Decidable (_ ∧ _))

theorem head_padLines {seed : ℕ} {s : Str} :
    (padLines seed 0 s).head? = some ' ' ↔
      s.head? = some ' ' ∨ (s.head? = some '\n' ∧ seed % 3 ≠ 0) := by
  cases s with
  | nil => simp [padLines]
  | cons c s =>
    rw [padLines]
    split
    · rename_i hc
      subst hc
      rw [blanks, Nat.add_zero]
      cases hblanks : seed % 3 with
      | zero => simp
      | succ n => simp [replicate_succ]
    · rename_i hc
      simp [hc]

/-- A mark is inside a line, and has no blank. -/
theorem padLines_markFor {seed line : ℕ} :
    padLines seed line (markFor content peerId timestamp depth)
      = markFor content peerId timestamp depth :=
  padLines_of_notMem fun h =>
    absurd (isZeroWidth_of_mem_encodeZeroWidth h) (by decide)

theorem takeWhile_marked {before after : Str} (hbefore : ∀ c ∈ before, isZeroWidth c = false) :
    (before ++ markFor content peerId timestamp depth ++ after).takeWhile (· != watermarkStart)
      = before := by
  have hall : ∀ c ∈ before, (c != watermarkStart) = true := by
    intro c hc
    rw [bne_iff_ne]
    rintro rfl
    exact absurd (hbefore _ hc) (by decide)
  rw [append_assoc, takeWhile_append_of_pos hall, markFor, encodeZeroWidth,
    cons_append, cons_append, takeWhile_cons_of_neg (by simp), append_nil]

/-- Whether there is room in front of a mark does not depend on the time and the depth in it. -/
theorem blankBeforeMark_embedText (seed : ℕ) (timestamp' : Str) (depth' : ℤ) :
    BlankBeforeMark seed (embedText words .all content peerId timestamp depth) ↔
      BlankBeforeMark seed (embedText words .all content peerId timestamp' depth') := by
  have hbefore : (embedText words .all content peerId timestamp depth).takeWhile
        (· != watermarkStart)
      = (embedText words .all content peerId timestamp' depth').takeWhile
        (· != watermarkStart) := by
    rw [embedText_all, embedText_all, placeMark, placeMark]
    split
    · simp [takeWhile_append, markFor, encodeZeroWidth]
    · simp [takeWhile_append, markFor, encodeZeroWidth]
  rw [BlankBeforeMark, BlankBeforeMark, hbefore]

/-- The place of a new mark in a text with an old one. -/
theorem marked_placeMark {padded old text newTimestamp rest : Str} {newDepth : ℤ}
    (hpadded : ∀ c ∈ padded, isZeroWidth c = false) :
    Marked (if ' ' ∈ padded ∧ padded.head? ≠ some ' ' then peerId else old)
      (placeMark (padded ++ markFor content old timestamp depth ++ rest)
        (markFor text peerId newTimestamp newDepth)) := by
  by_cases hblank : ' ' ∈ padded
  · obtain ⟨p, q, rfl, hp⟩ := eq_append_cons_of_mem hblank
    cases p with
    | nil =>
      rw [if_neg fun h => h.2 rfl, placeMark_of_none (.inr rfl), append_assoc]
      exact ⟨_, content, timestamp, _, depth, rfl, hpadded⟩
    | cons c p =>
      have hhead : (c :: p ++ ' ' :: q).head? ≠ some ' ' :=
        fun h => hp (Option.some.inj h ▸ mem_cons_self)
      have htext : c :: p ++ ' ' :: q ++ markFor content old timestamp depth ++ rest
          = c :: p ++ ' ' :: (q ++ markFor content old timestamp depth ++ rest) := by
        simp only [append_assoc, cons_append]
      rw [if_pos ⟨hblank, hhead⟩, htext, placeMark_of_blank (cons_ne_nil c p) hp]
      exact ⟨_, text, newTimestamp, _, newDepth, rfl, fun c hc => hpadded c (mem_append_left _ hc)⟩
  · rw [if_neg fun h => hblank h.1]
    by_cases hrest : ' ' ∈ rest
    · obtain ⟨p, q, rfl, hp⟩ := eq_append_cons_of_mem hrest
      have hfirst : ' ' ∉ padded ++ markFor content old timestamp depth ++ p := by
        rw [mem_append, mem_append]
        rintro ((h | h) | h)
        · exact hblank h
        · exact absurd (isZeroWidth_of_mem_encodeZeroWidth h) (by decide)
        · exact hp h
      have hne : padded ++ markFor content old timestamp depth ++ p ≠ [] := by
        simp [markFor, encodeZeroWidth]
      rw [← append_assoc, placeMark_of_blank hne hfirst, append_assoc, append_assoc _ p]
      exact ⟨padded, content, timestamp, _, depth, rfl, hpadded⟩
    · have hnone : ' ' ∉ padded ++ markFor content old timestamp depth ++ rest := by
        rw [mem_append, mem_append]
        rintro ((h | h) | h)
        · exact hblank h
        · exact absurd (isZeroWidth_of_mem_encodeZeroWidth h) (by decide)
        · exact hrest h
      rw [placeMark_of_none (.inl hnone), append_assoc]
      exact ⟨padded, content, timestamp, _, depth, rfl, hpadded⟩

/-- **Marking a marked text once more.**  The new mark comes first if there is a
place for it in front of the old one; otherwise the old one stays first. -/
theorem marked_again {text old : Str} (hworded : Worded words text) (hold : Marked old text) :
    Marked (if BlankBeforeMark (getFingerprintSeed peerId) text then peerId else old)
      (embedText words .all text peerId timestamp depth) := by
  obtain ⟨before, content, oldTimestamp, after, oldDepth, rfl, hbefore⟩ := hold
  have hpadded : ∀ c ∈ padLines (getFingerprintSeed peerId) 0 before, isZeroWidth c = false := by
    intro c hc
    by_contra hzero
    have hne := (toNat_of_isZeroWidth (Bool.not_eq_false _ ▸ hzero)).2
    exact hzero (hbefore c ((mem_padLines hne 0).mp hc))
  -- the old mark stays whole, between the padded text before it and the rest
  obtain ⟨rest, hblanked⟩ : ∃ rest, addWhitespaceFingerprint
      (before ++ markFor content old oldTimestamp oldDepth ++ after) peerId
        = padLines (getFingerprintSeed peerId) 0 before
          ++ markFor content old oldTimestamp oldDepth ++ rest := by
    rw [addWhitespaceFingerprint_eq, padLines_append, padLines_append, padLines_markFor,
      append_assoc _ (padLines _ _ after)]
    exact ⟨_, rfl⟩
  have hplace : BlankBeforeMark (getFingerprintSeed peerId)
        (before ++ markFor content old oldTimestamp oldDepth ++ after) ↔
      ' ' ∈ padLines (getFingerprintSeed peerId) 0 before ∧
        (padLines (getFingerprintSeed peerId) 0 before).head? ≠ some ' ' := by
    unfold BlankBeforeMark
    dsimp only
    rw [takeWhile_marked hbefore, blank_mem_padLines]
    simp only [Nat.zero_add, ne_eq, head_padLines, not_or]
  rw [embedText_all, applyLinguisticFingerprint_of_worded hworded, hblanked]
  simp only [hplace]
  exact marked_placeMark hpadded

end

end SteganoEngine

end TrustFlow.Stegano
