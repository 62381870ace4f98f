import TrustFlow.Stegano.Engine

/-!
# What the detectors can and cannot tell

* `extractWatermark_total_iff` — an extraction returns a result exactly if its mark is
  no JSON text, or the text of a watermark dictionary.
* `detectSeeded_of_unmarked` — whatever the seeds are, line ends without blanks
  give nobody away: the lines that a seed leaves bare are one in three.
* `whitespace_sound_iff` — the blanks at the line ends only tell the seed modulo
  three, so that the first candidate with that remainder is named.
* `linguistic_unattributed`, `applyLinguisticFingerprint_final` — the wording tells
  nobody's name, and the first pass decides it.
-/

namespace TrustFlow.Stegano

open Library List Option WatermarkData

/-! ## Crafted marks -/

section

variable (maxDigits depth : ℕ)

/-- A dictionary with the keys of `WatermarkData` and no other. -/
def IsWatermark (dict : Json (List ℕ)) : Prop :=
  ∃ fields, dict = .obj fields ∧
    (fields.map Prod.fst).Perm (fieldNames.map (Reader.cpython maxDigits depth).ofText)

/-- The keyword arguments of `from_dict` are the fields. -/
theorem fromDict_isSome_iff {dict : Json (List ℕ)} :
    (fromDict (.cpython maxDigits depth) dict).isSome ↔ IsWatermark maxDigits depth dict := by
  generalize hR : Reader.cpython maxDigits depth = R
  have hnames : (fieldNames.map R.ofText).Nodup := by
    rw [← hR]
    show (fieldNames.map (List.map Char.toNat)).Nodup
    decide
  have hget : ∀ {fields : List (List ℕ × Json (List ℕ))} {name : List ℕ},
      (Assoc.get? name fields).isSome ↔ name ∈ fields.map Prod.fst := by
    intro fields name
    rw [← not_iff_not, not_isSome_iff_eq_none, Assoc.get?_eq_none]
  cases dict with
  | obj fields =>
    have hkeys : (fromDict R (.obj fields)).isSome ↔
        fields.length = fieldNames.length ∧
          ∀ name ∈ fieldNames.map R.ofText, (Assoc.get? name fields).isSome := by
      simp only [fromDict]
      split
      · rename_i hlength
        simp [fieldNames, hlength, isSome_iff_exists, bind_eq_some_iff]
      · simp_all
    have hperm : IsWatermark maxDigits depth (.obj fields) ↔
        (fields.map Prod.fst).Perm (fieldNames.map R.ofText) := by
      simp [IsWatermark, hR]
    rw [hkeys, hperm]
    constructor
    · rintro ⟨hlength, hall⟩
      have hsubset : fieldNames.map R.ofText ⊆ fields.map Prod.fst := fun name hname =>
        hget.mp (hall name hname)
      have hsub : (fieldNames.map R.ofText).Subperm (fields.map Prod.fst) :=
        subperm_of_subset hnames hsubset
      exact (hsub.perm_of_length_le (by rw [length_map, length_map, hlength])).symm
    · intro h
      refine ⟨?_, fun name hname => hget.mpr (h.symm.subset hname)⟩
      rw [← length_map (f := Prod.fst), h.length_eq, length_map]
  | _ => simp [fromDict, IsWatermark]

variable (words : WordClass)

/-- **Extractions that return.**  For every limit of the interpreter, an extraction
returns a result exactly if what its mark spells, if anything, raises
`JSONDecodeError`, or is a dictionary with the keys of a watermark. -/
theorem extractWatermark_total_iff (engine : SteganoEngine) (content : Str)
    (candidatePeers : List Str) :
    (∃ result, engine.extractBy words (.cpython maxDigits depth) content candidatePeers
        = .ok result) ↔
      ∀ decoded, decodeZeroWidth content = some decoded →
        loadsBy (.cpython maxDigits depth) decoded = .error .decode ∨
          ∃ dict, loadsBy (.cpython maxDigits depth) decoded = .ok dict ∧
            IsWatermark maxDigits depth dict := by
  have hkeys := fun dict => @fromDict_isSome_iff maxDigits depth dict
  -- a mark of no characters is passed over, as one that is no JSON text
  have hnil : loadsBy (.cpython maxDigits depth) [] = .error .decode := rfl
  generalize Reader.cpython maxDigits depth = R at hkeys hnil
  rw [SteganoEngine.extractBy]
  cases decodeZeroWidth content with
  | none => simp
  | some decoded =>
    by_cases hempty : decoded = []
    · subst hempty
      simp [Option.filter, hnil]
    · simp only [Option.filter, ne_eq, hempty, not_false_eq_true, decide_true, if_true, some_inj,
        forall_eq']
      cases loadsBy R decoded with
      | error e => cases e <;> simp
      | ok dict =>
        simp only [reduceCtorEq, Except.ok.injEq, false_or, exists_eq_left', ← hkeys]
        cases fromDict R dict with
        | none => simp
        | some data => simp

/-- A pasted text whose mark spells an empty JSON list makes the extraction fail. -/
theorem extractWatermark_list_mark :
    SteganoEngine.extractBy .least (.cpython 4300 1000) ⟨[]⟩ (encodeZeroWidth "[]") []
      = .error .type := by
  have hdecode : decodeZeroWidth (encodeZeroWidth "[]") = some "[]" := by decide
  rw [SteganoEngine.extractBy, hdecode]
  rfl

end

variable (words : WordClass)

/-! ## Line ends without a mark -/

/-- `betterMatch`, with the seeds given. -/
def seededMatch (seedOf : Str → ℕ) (content : Str) (best : Option Str × ℚ) (peerId : Str) :
    Option Str × ℚ :=
  let score : ℚ := blankMatches content (seedOf peerId) / max (split ['\n'] content).length 1
  if best.2 < score then (some peerId, score) else best

/-- `_detect_whitespace_fingerprint`, with the seeds given. -/
def detectSeeded (seedOf : Str → ℕ) (content : Str) (candidatePeerIds : List Str) :
    Option (Str × ℚ) :=
  if (split ['\n'] content).length < 3 then none
  else
    let best := candidatePeerIds.foldl (seededMatch seedOf content) (none, 0)
    match best.1 with
    | some peerId => if peerId ≠ [] ∧ 1 / 2 < best.2 then some (peerId, best.2) else none
    | none => none

/-- No line of the text ends with a blank. -/
def NoTrailing (content : Str) : Prop :=
  ∀ line ∈ split ['\n'] content, line.getLast? ≠ some ' '

instance (content : Str) : Decidable (NoTrailing content) :=
  inferInstanceAs (Decidable (∀ line ∈ split ['\n'] content, line.getLast? ≠ some ' '))

/-- The blanks counted at the end of a line are those that were added. -/
theorem trailingBlanks_append {line : Str} (h : line.getLast? ≠ some ' ') (n : ℕ) :
    trailingBlanks (line ++ List.replicate n ' ') = n := by
  have hline : line.reverse.takeWhile (· == ' ') = [] := by
    rw [← List.head?_reverse] at h
    cases hrev : line.reverse with
    | nil => rfl
    | cons c rest =>
      rw [hrev, List.head?_cons, ne_eq, some_inj] at h
      simp [h]
  rw [trailingBlanks, reverse_append, reverse_replicate, takeWhile_append_of_pos (by simp), hline]
  simp

/-- Of the lines from `start` on, a seed leaves every third one bare. -/
theorem count_bare (seed : ℕ) (lines : List Str) (start : ℕ) :
    3 * ((lines.zipIdx start).filter fun entry => 0 == (seed + entry.2) % 3).length
      ≤ lines.length + (seed + start + 2) % 3 := by
  induction lines generalizing start with
  | nil => simp
  | cons line lines ih =>
    have hrest := ih (start + 1)
    rw [zipIdx_cons, filter_cons, length_cons]
    split
    · rename_i hbare
      rw [beq_iff_eq] at hbare
      rw [length_cons]
      omega
    · rename_i hbare
      rw [beq_iff_eq] at hbare
      omega

/-- At most half of three or more bare lines end as a seed says. -/
theorem blankMatches_of_noTrailing {content : Str} (h : NoTrailing content)
    (hlines : 3 ≤ (split ['\n'] content).length) (seed : ℕ) :
    2 * blankMatches content seed ≤ (split ['\n'] content).length := by
  have hbare : blankMatches content seed
      = ((split ['\n'] content).zipIdx.filter fun entry => 0 == (seed + entry.2) % 3).length := by
    rw [blankMatches]
    congr 1
    refine filter_congr fun entry hentry => ?_
    have hnone := trailingBlanks_append (h entry.1 (fst_mem_of_mem_zipIdx hentry)) 0
    rw [replicate_zero, append_nil] at hnone
    rw [hnone]
  have hcount := count_bare seed (split ['\n'] content) 0
  rw [hbare]
  omega

/-- No score of the loop over bare lines passes one half. -/
theorem foldl_seededMatch_le {content : Str} (h : NoTrailing content)
    (hlines : 3 ≤ (split ['\n'] content).length) (seedOf : Str → ℕ) (candidatePeerIds : List Str) :
    (candidatePeerIds.foldl (seededMatch seedOf content) (none, 0)).2 ≤ 1 / 2 := by
  refine List.foldlRecOn (motive := fun best : Option Str × ℚ => best.2 ≤ 1 / 2) candidatePeerIds _
    (by norm_num) fun best hbest peerId _ => ?_
  rw [seededMatch]
  split
  · have hhalf := blankMatches_of_noTrailing h hlines (seedOf peerId)
    exact not_lt.mp fun hscore => absurd ((half_lt_score hlines).mp (by exact_mod_cast hscore))
      (not_lt.mpr hhalf)
  · exact hbest

/-- **Bare line ends give nobody away**, whatever seeds the candidates have. -/
theorem detectSeeded_of_unmarked {content : Str} (h : NoTrailing content)
    (candidatePeerIds : List Str) :
    (∀ seedOf, detectSeeded seedOf content candidatePeerIds = none) ∧
      detectWhitespaceFingerprint content candidatePeerIds = none := by
  have hall : ∀ seedOf, detectSeeded seedOf content candidatePeerIds = none := by
    intro seedOf
    rw [detectSeeded]
    by_cases hlines : 3 ≤ (split ['\n'] content).length
    · have hbest := foldl_seededMatch_le h hlines seedOf candidatePeerIds
      rw [if_neg (by omega)]
      dsimp only
      split
      · rw [if_neg fun hnamed => absurd hnamed.2 (not_lt.mpr hbest)]
      · rfl
    · rw [if_pos (by omega)]
  exact ⟨hall, hall getFingerprintSeed⟩

/-- Four bare lines: two of them, half of the lines, end as a seed says. -/
theorem detectSeeded_four_lines :
    (∀ seedOf, detectSeeded seedOf "a\nb\nc\nd" ["bob"] = none) ∧
      detectWhitespaceFingerprint "a\nb\nc\nd" ["bob"] = none :=
  detectSeeded_of_unmarked (by decide) ["bob"]

/-! ## Line ends with a mark -/

/-- The candidates whose seed leaves the same remainder as that of a peer. -/
def sameRemainder (peerId other : Str) : Bool :=
  getFingerprintSeed other % 3 == getFingerprintSeed peerId % 3

section

variable {content peerId : Str}

/-- The lines of a marked text. -/
theorem split_addWhitespaceFingerprint (content peerId : Str) :
    split ['\n'] (addWhitespaceFingerprint content peerId)
      = (split ['\n'] content).mapIdx fun i line =>
          line ++ blanks (getFingerprintSeed peerId) i := by
  apply split_intercalate
  · simpa using split_ne_nil '\n' content
  · intro line hline
    obtain ⟨i, hi, rfl⟩ := mem_mapIdx.mp hline
    simp [blanks, (mem_split (getElem_mem hi)).1]

/-- The marked lines end as a seed says if its remainder is that of the marked peer,
and otherwise none of them does. -/
theorem blankMatches_addWhitespaceFingerprint (h : NoTrailing content) (other : Str) :
    blankMatches (addWhitespaceFingerprint content peerId) (getFingerprintSeed other)
      = if sameRemainder peerId other then (split ['\n'] content).length else 0 := by
  have hends : ∀ entry ∈ ((split ['\n'] content).mapIdx fun i line =>
        line ++ blanks (getFingerprintSeed peerId) i).zipIdx,
      (trailingBlanks entry.1 % 3 == (getFingerprintSeed other + entry.2) % 3)
        = sameRemainder peerId other := by
    intro entry hentry
    obtain ⟨hi, hline⟩ := mem_zipIdx' hentry
    rw [hline, getElem_mapIdx, blanks, trailingBlanks_append (h _ (getElem_mem _)),
      sameRemainder, Bool.eq_iff_iff, beq_iff_eq, beq_iff_eq]
    omega
  rw [blankMatches, split_addWhitespaceFingerprint, filter_congr hends]
  cases sameRemainder peerId other <;> simp

/-- Of candidates that score all or nothing, the first that scores is the best. -/
theorem argmax_ite {α : Type*} {p : α → Bool} {n : ℕ} (hn : 0 < n) {l : List α}
    (h : ∃ a ∈ l, p a) : (l.argmax fun a => if p a then n else 0) = l.find? p := by
  induction l with
  | nil => simp at h
  | cons a l ih =>
    rw [argmax_cons, List.find?_cons]
    cases hpa : p a with
    | true => cases l.argmax fun a => if p a then n else 0 <;> simp; split <;> simp
    | false =>
      have hrest : ∃ b ∈ l, p b := by simpa [hpa] using h
      rw [ih hrest]
      obtain ⟨b, hb⟩ := isSome_iff_exists.mp (List.find?_isSome.mpr hrest)
      simp [hb, List.find?_some hb, hn]

/-- **When the line ends tell on the right peer.**  The first candidate with the
remainder of the marked peer is named, unless their id is empty. -/
theorem whitespace_sound_iff {candidatePeerIds : List Str}
    (hlines : 3 ≤ (split ['\n'] content).length) (hbare : NoTrailing content)
    (hmem : peerId ∈ candidatePeerIds) :
    (∀ named confidence,
        detectWhitespaceFingerprint (addWhitespaceFingerprint content peerId) candidatePeerIds
          = some (named, confidence) → named = peerId) ↔
      ∀ first, candidatePeerIds.find? (sameRemainder peerId) = some first →
        first = peerId ∨ first = [] := by
  have hnamed : ∀ named, (∃ confidence,
      detectWhitespaceFingerprint (addWhitespaceFingerprint content peerId) candidatePeerIds
        = some (named, confidence)) ↔
      candidatePeerIds.find? (sameRemainder peerId) = some named ∧ named ≠ [] := by
    intro named
    rw [detectWhitespaceFingerprint_iff, StandsOut]
    simp only [blankMatches_addWhitespaceFingerprint hbare]
    rw [argmax_ite (by omega) ⟨peerId, hmem, by simp [sameRemainder]⟩,
      split_addWhitespaceFingerprint, length_mapIdx, mem_def]
    constructor
    · rintro ⟨-, hne, -, hfirst⟩
      exact ⟨hfirst, hne⟩
    · rintro ⟨hfirst, hne⟩
      rw [if_pos (List.find?_some hfirst)]
      exact ⟨hlines, hne, by omega, hfirst⟩
  constructor
  · intro hsound first hfirst
    by_cases hne : first = []
    · exact .inr hne
    · obtain ⟨confidence, hdetect⟩ := (hnamed first).mpr ⟨hfirst, hne⟩
      exact .inl (hsound first confidence hdetect)
  · intro hfirst named confidence hdetect
    obtain ⟨hfound, hne⟩ := (hnamed named).mp ⟨confidence, hdetect⟩
    exact (hfirst named hfound).resolve_right hne

/-- Of three lines marked for Bob, the loop names Dave, who comes first. -/
theorem whitespace_names_dave :
    detectWhitespaceFingerprint (addWhitespaceFingerprint "a\nb\nc" "bob")
      ["dave", "bob"] = some ("dave".toList, 1) := by
  decide +kernel

/-- With Carol first, it names Bob. -/
theorem whitespace_names_bob :
    ["carol".toList, "bob"].find? (sameRemainder "bob") = some "bob".toList ∧
    ∀ named confidence,
      detectWhitespaceFingerprint (addWhitespaceFingerprint "a\nb\nc" "bob")
        ["carol", "bob"] = some (named, confidence) → named = "bob" := by
  have hfirst : ["carol".toList, "bob"].find? (sameRemainder "bob")
      = some "bob" := by decide
  refine ⟨hfirst, (whitespace_sound_iff (by decide) (by decide) (by decide)).mpr fun first h => ?_⟩
  exact .inl (Option.mem_unique h hfirst)

end

/-! ## The wording -/

/-- **The wording tells nobody's name**: not even the only candidate is found by the
marks that were made for them. -/
theorem linguistic_unattributed (content peerId : Str) :
    detectLinguisticFingerprint words
      (applyLinguisticFingerprint words content (getFingerprintSeed peerId)) [peerId] = none :=
  detectLinguisticFingerprint_eq_none words _ _

/-- A text with two dictionary words and no synonym, marked for Bob. -/
theorem linguistic_unattributed_bob :
    synonyms.countP (fun entry => synonymFound .least "a big help" entry.word) = 2 ∧
      (∀ entry ∈ synonyms, ∀ synonym ∈ entry.synonyms,
        synonymFound .least "a big help" synonym = false) ∧
      detectLinguisticFingerprint .least
        (applyLinguisticFingerprint .least "a big help" (getFingerprintSeed "bob"))
        ["bob"] = none :=
  ⟨by decide +kernel, by decide +kernel, detectLinguisticFingerprint_eq_none _ _ _⟩

/-- **The first linguistic mark is final**: a second pass, a run of passes and the
pass of a re-shared copy change nothing. -/
theorem applyLinguisticFingerprint_final (content : Str) (seed : ℕ) :
    (∀ later, applyLinguisticFingerprint words (applyLinguisticFingerprint words content seed) later
        = applyLinguisticFingerprint words content seed) ∧
      (∀ seeds : List ℕ, seeds.foldl (applyLinguisticFingerprint words)
          (applyLinguisticFingerprint words content seed)
        = applyLinguisticFingerprint words content seed) ∧
      ∀ peerId timestamp depth later,
        applyLinguisticFingerprint words
            (SteganoEngine.embedText words .all content peerId timestamp depth) later
          = SteganoEngine.embedText words .all content peerId timestamp depth := by
  have hsecond : ∀ later,
      applyLinguisticFingerprint words (applyLinguisticFingerprint words content seed) later
        = applyLinguisticFingerprint words content seed := fun later =>
    applyLinguisticFingerprint_of_worded (worded_applyLinguisticFingerprint content seed) later
  refine ⟨hsecond, fun seeds => ?_, fun _ _ _ later =>
    applyLinguisticFingerprint_of_worded SteganoEngine.worded_embedText later⟩
  induction seeds with
  | nil => exact foldl_nil
  | cons later seeds ih => rw [foldl_cons, hsecond, ih]

end TrustFlow.Stegano
