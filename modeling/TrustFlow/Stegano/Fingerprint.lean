import Mathlib.Algebra.Order.Field.Basic
import Mathlib.Data.List.MinMax
import TrustFlow.Library.Sha256
import TrustFlow.Library.Words
import TrustFlow.Stegano.ZeroWidth

/-!
# Fingerprints in the wording and in the blanks

The two visible fingerprints of `core/steganography.py`.  Both are chosen by a
seed, the first 32 bits of the digest of a peer's id.

* `applyLinguisticFingerprint` — every dictionary word is replaced by the synonym
  that the seed selects, in the case of the word.
* `addWhitespaceFingerprint` — blanks at the end of every line, as many as the seed
  and the number of the line say.
* `detectLinguisticFingerprint`, `detectWhitespaceFingerprint` — the detectors.  The
  first names nobody (`detectLinguisticFingerprint_eq_none`), the second the
  candidate who stands out (`detectWhitespaceFingerprint_iff`).

`worded_applyLinguisticFingerprint` says that no dictionary word is left after
the first pass, and `applyLinguisticFingerprint_of_worded` that a text without
dictionary words is left alone.

The pattern `\w` is an argument (`WordClass`): the tables of Unicode are not
modelled.  Scores are exact fractions.
-/

namespace TrustFlow.Stegano

open Library List

/-! ## The dictionary -/

/-- What `\w` matches: fixed on ASCII, on the letters that a pattern with
`re.IGNORECASE` accepts for an ASCII letter, and on the zero-width characters. -/
structure WordClass where
  isWord : Char → Bool
  ascii : ∀ c, c.toNat < 128 → isWord c = (c.isAlphanum || c == '_')
  folded : ∀ c ∈ ['\u017f', '\u212a', '\u0130', '\u0131'], isWord c = true
  zeroWidth : ∀ c, isZeroWidth c = true → isWord c = false

/-- The smallest such class. -/
def WordClass.least : WordClass where
  isWord c := decide (c.toNat < 128) && (c.isAlphanum || c == '_') ||
    ['\u017f', '\u212a', '\u0130', '\u0131'].contains c
  ascii c hc := by
    have hfolded : ['\u017f', '\u212a', '\u0130', '\u0131'].contains c = false := by
      rw [List.contains_eq_mem, decide_eq_false_iff_not]
      intro hmem
      simp only [List.mem_cons, List.not_mem_nil, or_false] at hmem
      rcases hmem with rfl | rfl | rfl | rfl <;> exact absurd hc (by decide)
    rw [decide_eq_true hc, Bool.true_and, hfolded, Bool.or_false]
  folded := List.all_iff_forall_prop.mp (by decide)
  zeroWidth c hc := by
    simp only [isZeroWidth, List.contains_eq_mem, List.mem_cons, List.not_mem_nil, or_false,
      decide_eq_true_eq] at hc
    rcases hc with rfl | rfl | rfl | rfl | rfl <;> decide

/-- A character that `re.IGNORECASE` accepts for a small ASCII letter: both cases of
it, the long s, the Kelvin sign, and the dotted capital and dotless small i. -/
def sameLetter (k c : Char) : Bool :=
  c == k || c == k.toUpper || (k == 's' && c == '\u017f') || (k == 'k' && c == '\u212a') ||
    (k == 'i' && (c == '\u0130' || c == '\u0131'))

/-- An entry of `SYNONYMS`, with its entry in `_WORD_MD5_HASHES`: the first 32 bits
of the MD5 digest of the word. -/
structure Keyword where
  word : Str
  synonyms : List Str
  wordHash : ℕ

/-- An entry, from strings. -/
def keyword (word : String) (synonyms : List String) (wordHash : ℕ) : Keyword :=
  ⟨word.toList, synonyms.map String.toList, wordHash⟩

/-- `SYNONYMS`, in the order of the source. -/
def synonyms : List Keyword :=
  [keyword "important" ["significant", "crucial", "vital", "essential", "critical"] 1216450365,
    keyword "big" ["large", "huge", "substantial", "considerable", "major"] 3630270333,
    keyword "small" ["little", "tiny", "minor", "slight", "modest"] 3948680089,
    keyword "good" ["great", "excellent", "fine", "positive", "favorable"] 1969194434,
    keyword "bad" ["poor", "negative", "unfavorable", "adverse", "harmful"] 3135637912,
    keyword "fast" ["quick", "rapid", "swift", "speedy", "prompt"] 835998747,
    keyword "slow" ["gradual", "unhurried", "leisurely", "sluggish", "delayed"] 1340727271,
    keyword "help" ["assist", "aid", "support", "facilitate", "enable"] 1702857613,
    keyword "show" ["display", "demonstrate", "reveal", "indicate", "present"] 2816283313,
    keyword "make" ["create", "produce", "generate", "form", "build"] 161329094,
    keyword "use" ["utilize", "employ", "apply", "leverage", "harness"] 1593273648,
    keyword "get" ["obtain", "acquire", "receive", "gain", "secure"] 3052249255,
    keyword "see" ["observe", "notice", "view", "perceive", "witness"] 512639672,
    keyword "know" ["understand", "recognize", "realize", "comprehend", "grasp"] 2946352077,
    keyword "think" ["believe", "consider", "assume", "suppose", "reckon"] 1422412608,
    keyword "want" ["desire", "wish", "seek", "prefer", "require"] 2736286256,
    keyword "need" ["require", "necessitate", "demand", "call for", "warrant"] 3900163438,
    keyword "start" ["begin", "commence", "initiate", "launch", "kick off"] 3928696438,
    keyword "end" ["finish", "conclude", "complete", "terminate", "wrap up"] 2130844180,
    keyword "very" ["extremely", "highly", "quite", "particularly", "especially"] 4027991069,
    keyword "also" ["additionally", "furthermore", "moreover", "besides", "too"] 130874934,
    keyword "however" ["nevertheless", "nonetheless", "yet", "still", "though"] 1046720464,
    keyword "because" ["since", "as", "due to", "given that", "owing to"] 3429926495,
    keyword "about" ["regarding", "concerning", "relating to", "with respect to", "on"] 1186173723]

/-! ## The linguistic pass -/

/-- `str.isupper` of a letter that a keyword accepts. -/
def isUpperLetter (c : Char) : Bool := c.isUpper || c == '\u212a' || c == '\u0130'

/-- `str.upper`, of an ASCII text. -/
def upper (s : Str) : Str := s.map Char.toUpper

/-- `str.capitalize`, of an ASCII text. -/
def capitalize : Str → Str
  | [] => []
  | c :: s => c.toUpper :: s.map Char.toLower

/-- The synonym for a seed. -/
def Keyword.synonymFor (entry : Keyword) (seed : ℕ) : Str :=
  entry.synonyms.getD ((seed + entry.wordHash) % entry.synonyms.length) []

/-- `replace_func`: the synonym, in the case of the matched text. -/
def Keyword.replace (entry : Keyword) (seed : ℕ) (original : Str) : Str :=
  let replacement := entry.synonymFor seed
  if original.all isUpperLetter then upper replacement
  else if original.head?.any isUpperLetter then capitalize replacement
  else replacement

/-- `_get_fingerprint_seed`. -/
def getFingerprintSeed (peerId : Str) : ℕ :=
  (readNumeral 16 ((sha256Hex (encodeUtf8 peerId)).take 8)).getD 0

section

variable (words : WordClass)

/-- `_WORD_PATTERNS[word].sub(replace_func, content)`. -/
def Keyword.sub (entry : Keyword) (seed : ℕ) (content : Str) : Str :=
  subWord words.isWord sameLetter entry.word (entry.replace seed) none 0 content

/-- `_apply_linguistic_fingerprint`. -/
def applyLinguisticFingerprint (content : Str) (seed : ℕ) : Str :=
  synonyms.foldl (fun result entry => entry.sub words seed result) content

/-- `_SYNONYM_PATTERNS[synonym].search(content)`. -/
def synonymFound (content synonym : Str) : Bool :=
  searchWord words.isWord sameLetter synonym none content

/-- `matches` and `total` of the detection loop, for one candidate. -/
def synonymCounts (content : Str) (seed : ℕ) : ℕ × ℕ :=
  (synonyms.countP fun entry => synonymFound words content (entry.synonymFor seed),
    synonyms.countP fun entry => entry.synonyms.any (synonymFound words content))

/-- `_detect_linguistic_fingerprint`.  The loop counts, but it does not compare:
`best_match` and `best_score` keep their initial values. -/
def detectLinguisticFingerprint (content : Str) (candidatePeerIds : List Str) : Option (Str × ℚ) :=
  let (bestMatch, bestScore, total) :=
    candidatePeerIds.foldl (fun (best : Option Str × ℚ × ℕ) peerId =>
        (best.1, best.2.1, (synonymCounts words content (getFingerprintSeed peerId)).2))
      (none, 0, 0)
  match bestMatch with
  | some peerId =>
    if peerId ≠ [] ∧ 3 / 10 < bestScore ∧ 2 ≤ total then some (peerId, bestScore) else none
  | none => none

end

/-! ## The blanks -/

/-- The blanks that a seed puts at the end of a line. -/
def blanks (seed line : ℕ) : Str := List.replicate ((seed + line) % 3) ' '

/-- `_add_whitespace_fingerprint`. -/
def addWhitespaceFingerprint (content peerId : Str) : Str :=
  let seed := getFingerprintSeed peerId
  List.intercalate ['\n'] ((split ['\n'] content).mapIdx fun i line => line ++ blanks seed i)

/-- `len(line) - len(line.rstrip(' '))`. -/
def trailingBlanks (line : Str) : ℕ := (line.reverse.takeWhile (· == ' ')).length

/-- `matches` of the detection loop: the lines that end as a seed says. -/
def blankMatches (content : Str) (seed : ℕ) : ℕ :=
  ((split ['\n'] content).zipIdx.filter fun entry =>
    trailingBlanks entry.1 % 3 == (seed + entry.2) % 3).length

/-- One candidate of the detection loop: a better score is kept. -/
def betterMatch (content : Str) (best : Option Str × ℚ) (peerId : Str) : Option Str × ℚ :=
  let score : ℚ :=
    blankMatches content (getFingerprintSeed peerId) / max (split ['\n'] content).length 1
  if best.2 < score then (some peerId, score) else best

/-- `_detect_whitespace_fingerprint`. -/
def detectWhitespaceFingerprint (content : Str) (candidatePeerIds : List Str) : Option (Str × ℚ) :=
  if (split ['\n'] content).length < 3 then none
  else
    let best := candidatePeerIds.foldl (betterMatch content) (none, 0)
    match best.1 with
    | some peerId => if peerId ≠ [] ∧ 1 / 2 < best.2 then some (peerId, best.2) else none
    | none => none

/-- The candidate whom the line ends of a text give away: more than half of the lines
end as their seed says, for no other candidate are it more lines, and for none before
them in the list as many. -/
def StandsOut (content : Str) (candidatePeerIds : List Str) (peerId : Str) : Prop :=
  3 ≤ (split ['\n'] content).length ∧ peerId ≠ [] ∧
    (split ['\n'] content).length < 2 * blankMatches content (getFingerprintSeed peerId) ∧
    peerId ∈ candidatePeerIds.argmax fun other => blankMatches content (getFingerprintSeed other)

variable {lines line : ℕ} {c : Char} {a s : Str}

theorem score_lt_score {m n : ℕ} : (m : ℚ) / (max lines 1 : ℕ) < n / (max lines 1 : ℕ) ↔ m < n := by
  have hpos : (0 : ℚ) < (max lines 1 : ℕ) := Nat.cast_pos.mpr (Nat.le_max_right lines 1)
  rw [div_lt_div_iff_of_pos_right hpos, Nat.cast_lt]

theorem score_pos {n : ℕ} : (0 : ℚ) < n / (max lines 1 : ℕ) ↔ 0 < n := by
  have h : ((0 : ℕ) : ℚ) / (max lines 1 : ℕ) < n / (max lines 1 : ℕ) ↔ 0 < n := score_lt_score
  rwa [Nat.cast_zero, zero_div] at h

/-- The loop keeps the first of the best candidates. -/
theorem foldl_betterMatch (content : Str) (candidatePeerIds : List Str) :
    candidatePeerIds.foldl (betterMatch content) (none, 0)
      = match candidatePeerIds.argmax fun other => blankMatches content (getFingerprintSeed other) with
        | some peerId =>
          if 0 < blankMatches content (getFingerprintSeed peerId) then
            (some peerId, blankMatches content (getFingerprintSeed peerId) /
              (max (split ['\n'] content).length 1 : ℕ))
          else (none, 0)
        | none => (none, 0) := by
  induction candidatePeerIds using List.reverseRecOn with
  | nil => rfl
  | append_singleton peers peerId ih =>
    rw [foldl_append, ih, argmax_concat, foldl_cons, foldl_nil, betterMatch]
    cases peers.argmax fun other => blankMatches content (getFingerprintSeed other) with
    | none => simp only [score_pos]
    | some best =>
      dsimp only
      by_cases hpos : 0 < blankMatches content (getFingerprintSeed best)
      · simp only [if_pos hpos, score_lt_score]
        split
        · rename_i hlt
          simp only [if_pos (hpos.trans hlt)]
        · simp only [if_pos hpos]
      · have hlt : blankMatches content (getFingerprintSeed best)
              < blankMatches content (getFingerprintSeed peerId) ↔
            0 < blankMatches content (getFingerprintSeed peerId) := by omega
        simp only [if_neg hpos, score_pos, hlt]
        split
        · rename_i hpeer
          simp only [if_pos hpeer]
        · simp only [if_neg hpos]

theorem half_lt_score {m : ℕ} (hlines : 3 ≤ lines) :
    (1 / 2 : ℚ) < m / (max lines 1 : ℕ) ↔ lines < 2 * m := by
  have hpos : (0 : ℚ) < lines := Nat.cast_pos.mpr (by omega)
  rw [Nat.max_eq_left (by omega), lt_div_iff₀ hpos, div_mul_eq_mul_div, one_mul,
    div_lt_iff₀ two_pos, mul_comm]
  exact_mod_cast Iff.rfl

/-- **Whom the line ends give away.** -/
theorem detectWhitespaceFingerprint_iff {content : Str} {candidatePeerIds : List Str} {peerId : Str} :
    (∃ confidence,
        detectWhitespaceFingerprint content candidatePeerIds = some (peerId, confidence)) ↔
      StandsOut content candidatePeerIds peerId := by
  rw [detectWhitespaceFingerprint, StandsOut]
  by_cases hlines : 3 ≤ (split ['\n'] content).length
  · rw [if_neg (by omega), foldl_betterMatch]
    cases candidatePeerIds.argmax fun other => blankMatches content (getFingerprintSeed other) with
    | none => simp
    | some best =>
      dsimp only
      by_cases hpos : 0 < blankMatches content (getFingerprintSeed best)
      · rw [if_pos hpos]
        constructor
        · rintro ⟨confidence, h⟩
          dsimp only at h
          split at h
          · rename_i hbest
            obtain ⟨rfl, -⟩ := Prod.mk.inj (Option.some.inj h)
            exact ⟨hlines, hbest.1, (half_lt_score hlines).mp hbest.2, rfl⟩
          · cases h
        · rintro ⟨-, hne, hhalf, hbest⟩
          obtain rfl := Option.some.inj hbest
          exact ⟨_, if_pos ⟨hne, (half_lt_score hlines).mpr hhalf⟩⟩
      · rw [if_neg hpos]
        refine iff_of_false (fun ⟨_, h⟩ => by cases h) ?_
        rintro ⟨-, -, hhalf, hbest⟩
        obtain rfl := Option.some.inj hbest
        omega
  · rw [if_pos (by omega)]
    exact iff_of_false (fun ⟨_, h⟩ => by cases h) fun h => hlines h.1

/-- The linguistic detector never names a peer. -/
theorem detectLinguisticFingerprint_eq_none (words : WordClass) (content : Str)
    (candidatePeerIds : List Str) :
    detectLinguisticFingerprint words content candidatePeerIds = none := by
  have hkeep : ∀ (peers : List Str) (total : ℕ),
      (peers.foldl (fun (best : Option Str × ℚ × ℕ) peerId =>
        (best.1, best.2.1, (synonymCounts words content (getFingerprintSeed peerId)).2))
        (none, 0, total)).1 = none := by
    intro peers
    induction peers with
    | nil => exact fun _ => rfl
    | cons peerId peers ih => exact fun _ => ih _
  rw [detectLinguisticFingerprint]
  dsimp only
  rw [hkeep]

/-! ## Dictionary words in a text -/

/-- No dictionary word. -/
def Plain (w : Str) : Prop := ∀ entry ∈ synonyms, acceptsText sameLetter entry.word w = false

/-- No word of the text is a dictionary word. -/
def Worded (words : WordClass) (content : Str) : Prop :=
  ∀ w ∈ wordsOf words.isWord content, Plain w

/-- The word characters of ASCII. -/
def isAsciiWord (c : Char) : Bool := c.isAlphanum || c == '_'

/-- The dictionary: words of small letters, and synonyms in printable ASCII, of which
no word is a dictionary word in any case. -/
theorem synonyms_check : synonyms.all (fun entry =>
      !entry.word.isEmpty && !entry.synonyms.isEmpty && entry.word.all Char.isLower &&
        entry.synonyms.all fun replacement =>
          [replacement, upper replacement, capitalize replacement].all fun text =>
            text.all (fun c => decide (32 ≤ c.toNat ∧ c.toNat < 128)) &&
              (wordsOf isAsciiWord text).all fun w =>
                synonyms.all fun other => !acceptsText sameLetter other.word w) = true := by
  decide +kernel

variable {words : WordClass} {entry : Keyword} {seed : ℕ} {content : Str}

/-- The words of an ASCII text do not depend on the tables. -/
theorem wordsOf_ascii {text : Str} (htext : ∀ c ∈ text, c.toNat < 128) :
    wordsOf words.isWord text = wordsOf isAsciiWord text := by
  suffices hall : ∀ cur, wordsFrom words.isWord cur text = wordsFrom isAsciiWord cur text from
    hall []
  induction text with
  | nil => exact fun _ => rfl
  | cons c text ih =>
    intro cur
    have hrest := ih fun d hd => htext d (mem_cons_of_mem _ hd)
    have hc : words.isWord c = isAsciiWord c := words.ascii c (htext c mem_cons_self)
    rw [wordsFrom, wordsFrom, hc, hrest, hrest]

theorem synonyms_spec (hentry : entry ∈ synonyms) :
    entry.word ≠ [] ∧ entry.synonyms ≠ [] ∧ (∀ k ∈ entry.word, k.isLower = true) ∧
      ∀ replacement ∈ entry.synonyms,
        ∀ text ∈ [replacement, upper replacement, capitalize replacement],
          (∀ c ∈ text, 32 ≤ c.toNat ∧ c.toNat < 128) ∧
            ∀ w ∈ wordsOf isAsciiWord text, Plain w := by
  have hcheck := all_eq_true.mp synonyms_check entry hentry
  simp only [Bool.and_eq_true, Bool.not_eq_true', isEmpty_eq_false_iff] at hcheck
  obtain ⟨⟨⟨hword, hsynonyms⟩, hlower⟩, hreplacements⟩ := hcheck
  refine ⟨hword, hsynonyms, all_eq_true.mp hlower, ?_⟩
  intro replacement hreplacement text htext
  have htexts := all_eq_true.mp hreplacements replacement hreplacement
  have hone := all_eq_true.mp htexts text htext
  rw [Bool.and_eq_true] at hone
  refine ⟨fun c hc => of_decide_eq_true (all_eq_true.mp hone.1 c hc), ?_⟩
  intro w hw other hother
  have hothers := all_eq_true.mp hone.2 w hw
  exact (Bool.not_eq_true' _).mp (all_eq_true.mp hothers other hother)

/-- A dictionary word accepts word characters only. -/
theorem isWord_of_sameLetter {k : Char} (hk : k.isLower = true) (h : sameLetter k c = true) :
    words.isWord c = true := by
  have hletters : ∀ n : Fin 128, (Char.ofNat n).isLower = true →
      (Char.ofNat n).isAlphanum = true ∧ ((Char.ofNat n).toUpper.isAlphanum = true ∧
        (Char.ofNat n).toUpper.toNat < 128) := by decide
  have hlower : k.toNat < 128 := by
    change (decide _ && decide _) = true at hk
    rw [Bool.and_eq_true, decide_eq_true_eq, decide_eq_true_eq] at hk
    have hle : k.val.toNat ≤ 122 := UInt32.le_iff_toNat_le.mp hk.2
    exact Nat.lt_of_le_of_lt hle (by decide)
  have hspec := hletters ⟨k.toNat, hlower⟩
  rw [Char.ofNat_toNat] at hspec
  obtain ⟨halnum, hupper, hupperAscii⟩ := hspec hk
  simp only [sameLetter, Bool.or_eq_true, Bool.and_eq_true, beq_iff_eq] at h
  rcases h with (((rfl | rfl) | ⟨-, rfl⟩) | ⟨-, rfl⟩) | ⟨-, rfl | rfl⟩
  · rw [words.ascii _ hlower, halnum, Bool.true_or]
  · rw [words.ascii _ hupperAscii, hupper, Bool.true_or]
  · exact words.folded _ (by decide)
  · exact words.folded _ (by decide)
  · exact words.folded _ (by decide)
  · exact words.folded _ (by decide)

theorem synonymFor_mem (seed : ℕ) (hentry : entry ∈ synonyms) :
    entry.synonymFor seed ∈ entry.synonyms := by
  have hlt : (seed + entry.wordHash) % entry.synonyms.length < entry.synonyms.length :=
    Nat.mod_lt _ (length_pos_iff.mpr (synonyms_spec hentry).2.1)
  rw [Keyword.synonymFor, getD_eq_getElem?_getD, List.getElem?_eq_getElem hlt]
  exact getElem_mem hlt

/-- The replacements of a dictionary word have no dictionary words. -/
theorem worded_replace (hentry : entry ∈ synonyms) (original : Str) :
    Worded words (entry.replace seed original) := by
  obtain ⟨-, -, -, hspec⟩ := synonyms_spec hentry
  have hmem := synonymFor_mem seed hentry
  have hplain : ∀ text ∈ [entry.synonymFor seed, upper (entry.synonymFor seed),
      capitalize (entry.synonymFor seed)], Worded words text := by
    intro text htext
    obtain ⟨hascii, hwords⟩ := hspec _ hmem text htext
    rw [Worded, wordsOf_ascii fun c hc => (hascii c hc).2]
    exact hwords
  rw [Keyword.replace]
  split
  · exact hplain _ (by simp)
  · split <;> exact hplain _ (by simp)

/-- Replacements are printable ASCII. -/
theorem ascii_replace (hentry : entry ∈ synonyms) {original : Str}
    (hc : c ∈ entry.replace seed original) : 32 ≤ c.toNat ∧ c.toNat < 128 := by
  obtain ⟨-, -, -, hspec⟩ := synonyms_spec hentry
  have hmem := synonymFor_mem seed hentry
  rw [Keyword.replace] at hc
  split at hc
  · exact (hspec _ hmem _ (by simp)).1 c hc
  · split at hc
    · exact (hspec _ hmem _ (by simp)).1 c hc
    · exact (hspec _ hmem _ (by simp)).1 c hc

/-- The pass for one dictionary word, word by word. -/
theorem sub_eq_mapWords (hentry : entry ∈ synonyms) (content : Str) :
    entry.sub words seed content
      = mapWords words.isWord
          (fun w => if acceptsText sameLetter entry.word w then entry.replace seed w else w)
          content := by
  obtain ⟨hword, -, hlower, -⟩ := synonyms_spec hentry
  exact subWord_eq_mapWords hword (fun k hk c hc => isWord_of_sameLetter (hlower k hk) hc) content

/-- What the words after the passes for some dictionary words are. -/
theorem plain_or_refused {entries done : List Keyword} (hentries : ∀ entry ∈ entries, entry ∈ synonyms)
    (hdone : ∀ w ∈ wordsOf words.isWord content,
      Plain w ∨ ∀ entry ∈ done, acceptsText sameLetter entry.word w = false) :
    ∀ w ∈ wordsOf words.isWord
        (entries.foldl (fun result entry => entry.sub words seed result) content),
      Plain w ∨ ∀ entry ∈ done ++ entries, acceptsText sameLetter entry.word w = false := by
  induction entries generalizing content done with
  | nil =>
    rw [append_nil]
    exact hdone
  | cons entry entries ih =>
    have hentry := hentries entry mem_cons_self
    have hnext : ∀ w ∈ wordsOf words.isWord (entry.sub words seed content),
        Plain w ∨ ∀ other ∈ done ++ [entry], acceptsText sameLetter other.word w = false := by
      intro w hw
      rw [sub_eq_mapWords hentry, wordsOf_mapWords] at hw
      obtain ⟨v, hv, hwv⟩ := mem_flatMap.mp hw
      cases haccept : acceptsText sameLetter entry.word v with
      | true =>
        rw [haccept, if_pos rfl] at hwv
        exact .inl (worded_replace hentry v w hwv)
      | false =>
        rw [haccept, if_neg Bool.false_ne_true,
          wordsOf_word fun c hc => isWord_of_mem_wordsOf hv hc, mem_singleton] at hwv
        subst hwv
        refine (hdone w hv).imp_right fun hrefused other hother => ?_
        rcases mem_append.mp hother with hother | hother
        · exact hrefused other hother
        · rw [mem_singleton.mp hother]
          exact haccept
    have hrest := ih (fun other hother => hentries other (mem_cons_of_mem _ hother)) hnext
    rw [append_assoc] at hrest
    exact hrest

/-- **No dictionary word is left** after the linguistic pass. -/
theorem worded_applyLinguisticFingerprint (content : Str) (seed : ℕ) :
    Worded words (applyLinguisticFingerprint words content seed) := by
  intro w hw
  have hfold : Plain w ∨ ∀ entry ∈ [] ++ synonyms, acceptsText sameLetter entry.word w = false :=
    plain_or_refused (fun _ h => h) (fun _ _ => .inr fun _ h => absurd h not_mem_nil) w hw
  exact hfold.elim id id

/-- The linguistic pass brings in printable ASCII characters only. -/
theorem mem_applyLinguisticFingerprint (hc : c.toNat < 32 ∨ 128 ≤ c.toNat)
    (h : c ∈ applyLinguisticFingerprint words content seed) : c ∈ content := by
  have hall : ∀ entries : List Keyword, (∀ entry ∈ entries, entry ∈ synonyms) → ∀ text : Str,
      c ∈ entries.foldl (fun result entry => entry.sub words seed result) text → c ∈ text := by
    intro entries
    induction entries with
    | nil => exact fun _ _ h => h
    | cons entry entries ih =>
      intro hentries text hmem
      have hentry := hentries entry mem_cons_self
      have hsub : c ∈ entry.sub words seed text :=
        ih (fun other hother => hentries other (mem_cons_of_mem _ hother)) _ hmem
      rw [sub_eq_mapWords hentry] at hsub
      rcases mem_mapWords hsub with htext | ⟨w, hw, hcw⟩
      · exact htext
      · split at hcw
        · have := ascii_replace hentry hcw
          omega
        · exact mem_of_mem_wordsOf hw hcw
  exact hall synonyms (fun _ h => h) content h

/-- **A text without dictionary words is left alone.** -/
theorem applyLinguisticFingerprint_of_worded (h : Worded words content) (seed : ℕ) :
    applyLinguisticFingerprint words content seed = content := by
  have hsub : ∀ entry ∈ synonyms, entry.sub words seed content = content := by
    intro entry hentry
    rw [sub_eq_mapWords hentry]
    refine mapWords_eq_self fun w hw => ?_
    rw [h w hw entry hentry, if_neg Bool.false_ne_true]
  have hall : ∀ entries : List Keyword, (∀ entry ∈ entries, entry ∈ synonyms) →
      entries.foldl (fun result entry => entry.sub words seed result) content = content := by
    intro entries
    induction entries with
    | nil => exact fun _ => rfl
    | cons entry entries ih =>
      intro hentries
      rw [foldl_cons, hsub entry (hentries entry mem_cons_self),
        ih fun other hother => hentries other (mem_cons_of_mem _ hother)]
  exact hall synonyms fun _ h => h

/-! ## Texts between words -/

theorem plain_nil : Plain [] := by
  intro entry hentry
  have hword := (synonyms_spec hentry).1
  cases h : entry.word with
  | nil => exact absurd h hword
  | cons k word => rfl

theorem worded_nil : Worded words [] := by
  intro w hw
  rw [mem_singleton.mp hw]
  exact plain_nil

theorem worded_append_cons (hc : words.isWord c = false) {b : Str} :
    Worded words (a ++ c :: b) ↔ Worded words a ∧ Worded words b := by
  rw [Worded, wordsOf_append_cons hc]
  exact forall_mem_append

/-- Characters between words, at the end of a text. -/
theorem Worded.append {z : Str} (ha : Worded words a) (hz : ∀ c ∈ z, words.isWord c = false) :
    Worded words (a ++ z) := by
  induction z generalizing a with
  | nil => rwa [append_nil]
  | cons c z ih =>
    have hone : Worded words (a ++ [c]) :=
      (worded_append_cons (hz c mem_cons_self)).mpr ⟨ha, worded_nil⟩
    have hrest := ih hone fun d hd => hz d (mem_cons_of_mem _ hd)
    rwa [append_assoc] at hrest

/-- Characters between words, in front of one. -/
theorem Worded.insert {z b : Str} (h : Worded words (a ++ c :: b)) (hc : words.isWord c = false)
    (hz : ∀ c ∈ z, words.isWord c = false) : Worded words (a ++ z ++ c :: b) := by
  obtain ⟨ha, hb⟩ := (worded_append_cons hc).mp h
  exact (worded_append_cons hc).mpr ⟨ha.append hz, hb⟩

theorem isWord_newline : words.isWord '\n' = false := words.ascii _ (by decide)

theorem isWord_blank : words.isWord ' ' = false := words.ascii _ (by decide)

theorem isWord_of_mem_blanks (hc : c ∈ blanks seed line) : words.isWord c = false := by
  rw [eq_of_mem_replicate hc]
  exact isWord_blank

/-! ## The blanks, character by character -/

/-- The text with blanks before every line end; `line` is the number of the line
that is being read. -/
def padLines (seed : ℕ) : ℕ → Str → Str
  | _, [] => []
  | line, c :: s =>
    if c = '\n' then blanks seed line ++ '\n' :: padLines seed (line + 1) s
    else c :: padLines seed line s

theorem padLines_append (line : ℕ) (a b : Str) :
    padLines seed line (a ++ b)
      = padLines seed line a ++ padLines seed (line + a.count '\n') b := by
  induction a generalizing line with
  | nil => rfl
  | cons c a ih =>
    rw [cons_append, padLines, padLines]
    split
    · rename_i hc
      rw [ih, hc, count_cons_self, append_assoc, cons_append, Nat.add_assoc, Nat.add_comm 1]
    · rename_i hc
      rw [ih, count_cons_of_ne hc, cons_append]

/-- A text inside a line. -/
theorem padLines_of_notMem (hs : '\n' ∉ s) : padLines seed line s = s := by
  induction s with
  | nil => rfl
  | cons c s ih =>
    rw [mem_cons, not_or] at hs
    rw [padLines, if_neg (Ne.symm hs.1), ih hs.2]

variable (seed) in
/-- The lines, with their blanks, joined again. -/
theorem intercalate_blanks (line : ℕ) (s : Str) :
    List.intercalate ['\n'] ((split ['\n'] s).mapIdx fun i l => l ++ blanks seed (line + i))
      = padLines seed line s ++ blanks seed (line + s.count '\n') := by
  induction s using words_induction (fun c => c != '\n') generalizing line with
  | hword w hw =>
    have hnl : '\n' ∉ w := fun h => absurd (hw _ h) (by decide)
    have hone : split ['\n'] w = [w] :=
      split_of_notInfix fun h => hnl (h.subset mem_cons_self)
    rw [hone, padLines_of_notMem hnl, count_eq_zero_of_not_mem hnl]
    simp
  | hcons w c s hw hc ih =>
    have hnl : '\n' ∉ w := fun h => absurd (hw _ h) (by decide)
    obtain rfl : c = '\n' := by simpa using hc
    have hcut : split ['\n'] (w ++ '\n' :: s) = w :: split ['\n'] s := by
      rw [← split_clear_append (by decide) (clear_singleton.mpr hnl) s, append_assoc]
      rfl
    have hshift : ((split ['\n'] s).mapIdx fun i l => l ++ blanks seed (line + (i + 1)))
        = (split ['\n'] s).mapIdx fun i l => l ++ blanks seed (line + 1 + i) := by
      congr 1
      funext i l
      rw [Nat.add_assoc, Nat.add_comm i 1]
    have hne : (split ['\n'] s).mapIdx (fun i l => l ++ blanks seed (line + 1 + i)) ≠ [] := by
      obtain ⟨init, last, hsplit, -⟩ : ∃ init last, split ['\n'] s = init ++ [last] ∧ _ :=
        split_spec (by decide) s
      rw [Ne, mapIdx_eq_nil_iff, hsplit]
      exact append_ne_nil_of_right_ne_nil _ (cons_ne_nil _ _)
    rw [hcut, mapIdx_cons, hshift, Nat.add_zero]
    obtain ⟨first, rest, hlines⟩ := exists_cons_of_ne_nil hne
    have hjoin := ih (line + 1)
    rw [hlines] at hjoin ⊢
    rw [intercalate_cons_cons, hjoin, padLines_append, padLines_of_notMem hnl,
      count_eq_zero_of_not_mem hnl, padLines, if_pos rfl, count_append,
      count_eq_zero_of_not_mem hnl, count_cons_self]
    simp only [append_assoc, cons_append, nil_append, Nat.add_zero, Nat.zero_add]
    rw [Nat.add_assoc, Nat.add_comm 1]

/-- **The blanks, character by character.** -/
theorem addWhitespaceFingerprint_eq (content peerId : Str) :
    addWhitespaceFingerprint content peerId
      = padLines (getFingerprintSeed peerId) 0 content
        ++ blanks (getFingerprintSeed peerId) (content.count '\n') := by
  have hjoin := intercalate_blanks (getFingerprintSeed peerId) 0 content
  simp only [Nat.zero_add] at hjoin
  exact hjoin

/-- Characters that the pass adds are blanks. -/
theorem mem_padLines (hc : c ≠ ' ') (line : ℕ) : c ∈ padLines seed line s ↔ c ∈ s := by
  have hblanks : ∀ line, c ∉ blanks seed line := fun line h => hc (eq_of_mem_replicate h)
  induction s generalizing line with
  | nil => exact Iff.rfl
  | cons d s ih =>
    rw [padLines]
    split
    · rename_i hd
      rw [mem_append, mem_cons, mem_cons, hd, or_iff_right (hblanks line)]
      exact or_congr_right (ih (line + 1))
    · rw [mem_cons, mem_cons]
      exact or_congr_right (ih line)

/-- A blank is in the text already, or the seed puts one at the end of a line. -/
theorem blank_mem_padLines :
    ' ' ∈ padLines seed line s ↔ ' ' ∈ s ∨ ∃ i < s.count '\n', (seed + (line + i)) % 3 ≠ 0 := by
  induction s generalizing line with
  | nil => simp [padLines]
  | cons d s ih =>
    rw [padLines]
    split
    · rename_i hd
      subst hd
      rw [mem_append, mem_cons, ih, mem_cons, count_cons_self, blanks, mem_replicate]
      constructor
      · rintro (⟨hblank, -⟩ | h | h | ⟨i, hi, hblank⟩)
        · exact .inr ⟨0, Nat.succ_pos _, hblank⟩
        · exact absurd h (by decide)
        · exact .inl (.inr h)
        · refine .inr ⟨i + 1, Nat.succ_lt_succ hi, ?_⟩
          rwa [Nat.add_comm i 1, ← Nat.add_assoc line]
      · rintro ((h | h) | ⟨i, hi, hblank⟩)
        · exact absurd h (by decide)
        · exact .inr (.inr (.inl h))
        · cases i with
          | zero => exact .inl ⟨hblank, rfl⟩
          | succ i =>
            refine .inr (.inr (.inr ⟨i, Nat.lt_of_succ_lt_succ hi, ?_⟩))
            rwa [Nat.add_assoc line, Nat.add_comm 1 i]
    · rename_i hd
      rw [mem_cons, ih, mem_cons, count_cons_of_ne hd, or_assoc]

theorem worded_padLines (hs : Worded words s) (line : ℕ) : Worded words (padLines seed line s) := by
  induction s using words_induction (fun c => c != '\n') generalizing line with
  | hword w hw =>
    rw [padLines_of_notMem fun h => absurd (hw _ h) (by decide)]
    exact hs
  | hcons w c s hw hc ih =>
    have hnl : '\n' ∉ w := fun h => absurd (hw _ h) (by decide)
    obtain rfl : c = '\n' := by simpa using hc
    obtain ⟨hfirst, hrest⟩ := (worded_append_cons isWord_newline).mp hs
    rw [padLines_append, padLines_of_notMem hnl, padLines, if_pos rfl, ← append_assoc]
    exact (worded_append_cons isWord_newline).mpr
      ⟨hfirst.append fun c hc => isWord_of_mem_blanks hc, ih hrest _⟩

theorem worded_addWhitespaceFingerprint (h : Worded words content) (peerId : Str) :
    Worded words (addWhitespaceFingerprint content peerId) := by
  rw [addWhitespaceFingerprint_eq]
  exact (worded_padLines h 0).append fun c hc => isWord_of_mem_blanks hc

end TrustFlow.Stegano
