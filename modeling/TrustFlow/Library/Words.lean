import Mathlib.Data.List.Basic
import TrustFlow.Library.Text

/-!
# Words of a text, and their substitution

A text is cut into its words: the maximal runs of word characters, with single
other characters between them.

* `mapWords` — every word replaced by its image.
* `wordsOf` — the words of a text, with an empty one between two neighbouring
  other characters.
* `matchesAt`, `subWord`, `searchWord` — `match`, `sub` and `search` of Python's
  `re` for a pattern `\bword\b`: a literal with a word boundary at each end,
  where `alike k c` says that the character `c` of the text is accepted for the
  character `k` of the literal.
* `subWord_eq_mapWords` — if a literal accepts word characters only, its
  substitution replaces exactly the words it accepts.
-/

namespace TrustFlow.Library

open List

variable (isWord : Char → Bool)

/-! ## Word by word -/

/-- The text with every word replaced; `cur` is the word that is being read. -/
def mapWordsFrom (g : Str → Str) (cur : Str) : Str → Str
  | [] => g cur
  | c :: s =>
    if isWord c then mapWordsFrom g (cur ++ [c]) s else g cur ++ c :: mapWordsFrom g [] s

/-- The text with every word replaced. -/
def mapWords (g : Str → Str) (s : Str) : Str := mapWordsFrom isWord g [] s

/-- The words of a text; `cur` is the word that is being read. -/
def wordsFrom (cur : Str) : Str → List Str
  | [] => [cur]
  | c :: s => if isWord c then wordsFrom (cur ++ [c]) s else cur :: wordsFrom [] s

/-- The words of a text. -/
def wordsOf (s : Str) : List Str := wordsFrom isWord [] s

variable {isWord} {g : Str → Str}

variable (isWord) in
/-- A text is a word, or a word and another character before a text. -/
@[elab_as_elim]
theorem words_induction {P : Str → Prop} (hword : ∀ w : Str, (∀ c ∈ w, isWord c = true) → P w)
    (hcons : ∀ (w : Str) (c : Char) (s : Str), (∀ c ∈ w, isWord c = true) → isWord c = false →
      P s → P (w ++ c :: s)) (s : Str) : P s := by
  suffices hall : ∀ w : Str, (∀ c ∈ w, isWord c = true) → P (w ++ s) from
    hall [] fun c hc => nomatch hc
  induction s with
  | nil =>
    intro w hw
    rw [append_nil]
    exact hword w hw
  | cons c s ih =>
    intro w hw
    cases hc : isWord c with
    | false => exact hcons w c s hw hc (ih [] fun c hc => nomatch hc)
    | true =>
      have hnext : ∀ d ∈ w ++ [c], isWord d = true := by
        intro d hd
        rcases mem_append.mp hd with hd | hd
        · exact hw d hd
        · rw [mem_singleton.mp hd, hc]
      have htext : w ++ c :: s = (w ++ [c]) ++ s := by rw [append_assoc]; rfl
      rw [htext]
      exact ih (w ++ [c]) hnext

variable {w s : Str} {c : Char} {previous : Option Char}

section

variable (hw : ∀ c ∈ w, isWord c = true)
include hw

theorem mapWordsFrom_append (cur s : Str) :
    mapWordsFrom isWord g cur (w ++ s) = mapWordsFrom isWord g (cur ++ w) s := by
  induction w generalizing cur with
  | nil => rw [nil_append, append_nil]
  | cons c w ih =>
    rw [cons_append, mapWordsFrom, if_pos (hw c mem_cons_self),
      ih fun d hd => hw d (mem_cons_of_mem _ hd), append_assoc]
    rfl

theorem mapWords_word : mapWords isWord g w = g w := by
  have happend := mapWordsFrom_append (g := g) hw [] []
  rw [append_nil] at happend
  exact happend

theorem mapWords_cons (hc : isWord c = false) (s : Str) :
    mapWords isWord g (w ++ c :: s) = g w ++ c :: mapWords isWord g s := by
  rw [mapWords, mapWordsFrom_append hw, mapWordsFrom, hc]
  rfl

/-! ## The words -/

theorem wordsFrom_append (cur s : Str) :
    wordsFrom isWord cur (w ++ s) = wordsFrom isWord (cur ++ w) s := by
  induction w generalizing cur with
  | nil => rw [nil_append, append_nil]
  | cons c w ih =>
    rw [cons_append, wordsFrom, if_pos (hw c mem_cons_self),
      ih fun d hd => hw d (mem_cons_of_mem _ hd), append_assoc]
    rfl

theorem wordsOf_word : wordsOf isWord w = [w] := by
  have happend := wordsFrom_append hw [] []
  rw [append_nil] at happend
  exact happend

theorem wordsOf_cons (hc : isWord c = false) (s : Str) :
    wordsOf isWord (w ++ c :: s) = w :: wordsOf isWord s := by
  rw [wordsOf, wordsFrom_append hw, wordsFrom, hc]
  rfl

end

/-- A character between words splits the list of words. -/
theorem wordsOf_append_cons (hc : isWord c = false) (a b : Str) :
    wordsOf isWord (a ++ c :: b) = wordsOf isWord a ++ wordsOf isWord b := by
  induction a using words_induction isWord with
  | hword w hw => rw [wordsOf_cons hw hc, wordsOf_word hw, singleton_append]
  | hcons w d s hw hd ih =>
    rw [append_assoc, cons_append, wordsOf_cons hw hd, ih, wordsOf_cons hw hd, cons_append]

/-- A word has word characters only. -/
theorem isWord_of_mem_wordsOf (hw : w ∈ wordsOf isWord s) (hc : c ∈ w) : isWord c = true := by
  induction s using words_induction isWord with
  | hword v hv =>
    rw [wordsOf_word hv, mem_singleton] at hw
    exact hv c (hw ▸ hc)
  | hcons v d s hv hd ih =>
    rw [wordsOf_cons hv hd, mem_cons] at hw
    rcases hw with rfl | hw
    · exact hv c hc
    · exact ih hw

/-- The words after a replacement are the words of the images. -/
theorem wordsOf_mapWords (s : Str) :
    wordsOf isWord (mapWords isWord g s)
      = (wordsOf isWord s).flatMap fun w => wordsOf isWord (g w) := by
  induction s using words_induction isWord with
  | hword w hw => rw [mapWords_word hw, wordsOf_word hw, flatMap_singleton]
  | hcons w c s hw hc ih =>
    rw [mapWords_cons hw hc, wordsOf_append_cons hc, ih, wordsOf_cons hw hc, flatMap_cons]

/-- The characters after a replacement come from the text or from an image. -/
theorem mem_mapWords (hc : c ∈ mapWords isWord g s) : c ∈ s ∨ ∃ w ∈ wordsOf isWord s, c ∈ g w := by
  induction s using words_induction isWord with
  | hword w hw =>
    rw [mapWords_word hw] at hc
    rw [wordsOf_word hw]
    exact .inr ⟨w, mem_cons_self, hc⟩
  | hcons w d s hw hd ih =>
    rw [mapWords_cons hw hd, mem_append, mem_cons] at hc
    rw [wordsOf_cons hw hd, mem_append, mem_cons]
    rcases hc with hc | rfl | hc
    · exact .inr ⟨w, mem_cons_self, hc⟩
    · exact .inl (.inr (.inl rfl))
    · rcases ih hc with hc | ⟨v, hv, hc⟩
      · exact .inl (.inr (.inr hc))
      · exact .inr ⟨v, mem_cons_of_mem _ hv, hc⟩

/-- The characters of a word are characters of the text. -/
theorem mem_of_mem_wordsOf (hw : w ∈ wordsOf isWord s) (hc : c ∈ w) : c ∈ s := by
  induction s using words_induction isWord with
  | hword v hv =>
    rw [wordsOf_word hv, mem_singleton] at hw
    exact hw ▸ hc
  | hcons v d s hv hd ih =>
    rw [wordsOf_cons hv hd, mem_cons] at hw
    rcases hw with rfl | hw
    · exact mem_append_left _ hc
    · exact mem_append_right _ (mem_cons_of_mem _ (ih hw))

/-- A replacement that keeps the words of a text keeps the text. -/
theorem mapWords_eq_self (hs : ∀ w ∈ wordsOf isWord s, g w = w) : mapWords isWord g s = s := by
  induction s using words_induction isWord with
  | hword w hw =>
    rw [wordsOf_word hw] at hs
    rw [mapWords_word hw, hs w mem_cons_self]
  | hcons w c s hw hc ih =>
    rw [wordsOf_cons hw hc] at hs
    rw [mapWords_cons hw hc, hs w mem_cons_self, ih fun v hv => hs v (mem_cons_of_mem _ hv)]

/-! ## Patterns -/

variable (isWord) (alike : Char → Char → Bool)

/-- `\b` between two neighbours; `none` is an end of the text. -/
def atBoundary (previous next : Option Char) : Bool := previous.any isWord != next.any isWord

/-- The text starts with characters that the literal accepts. -/
def startsAlike : Str → Str → Bool
  | [], _ => true
  | _ :: _, [] => false
  | k :: word, c :: s => alike k c && startsAlike word s

/-- The literal accepts the whole text. -/
def acceptsText (word s : Str) : Bool := s.length == word.length && startsAlike alike word s

/-- `\bword\b` matches at the start of the text. -/
def matchesAt (word : Str) (previous : Option Char) (s : Str) : Bool :=
  atBoundary isWord previous s.head? && startsAlike alike word s &&
    atBoundary isWord (s.take word.length).getLast? (s.drop word.length).head?

/-- `sub`, from left to right; `skip` counts the characters of the last match that
are still to be passed. -/
def subWord (word : Str) (f : Str → Str) : Option Char → ℕ → Str → Str
  | _, _, [] => []
  | _, skip + 1, c :: s => subWord word f (some c) skip s
  | previous, 0, c :: s =>
    if matchesAt isWord alike word previous (c :: s) then
      f ((c :: s).take word.length) ++ subWord word f (some c) (word.length - 1) s
    else c :: subWord word f (some c) 0 s

/-- `search` finds a match. -/
def searchWord (word : Str) : Option Char → Str → Bool
  | previous, [] => matchesAt isWord alike word previous []
  | previous, c :: s => matchesAt isWord alike word previous (c :: s) || searchWord word (some c) s

variable {isWord alike} {word : Str} {f : Str → Str}

theorem startsAlike_append_of_length_le (hlength : word.length ≤ w.length) (s : Str) :
    startsAlike alike word (w ++ s) = startsAlike alike word w := by
  induction word generalizing w with
  | nil => cases w <;> rfl
  | cons k word ih =>
    cases w with
    | nil => cases hlength
    | cons c w =>
      rw [cons_append, startsAlike, startsAlike, ih (Nat.le_of_succ_le_succ hlength)]

/-- A literal that accepts word characters only does not reach past the word. -/
theorem length_le_of_startsAlike_append
    (halike : ∀ k ∈ word, ∀ c, alike k c = true → isWord c = true) (hs : s.head?.any isWord = false)
    (h : startsAlike alike word (w ++ s) = true) : word.length ≤ w.length := by
  induction word generalizing w with
  | nil => exact Nat.zero_le _
  | cons k word ih =>
    cases w with
    | nil =>
      cases s with
      | nil => cases h
      | cons c s =>
        rw [nil_append, startsAlike, Bool.and_eq_true] at h
        have hc : isWord c = true := halike k mem_cons_self c h.1
        have hs' : isWord c = false := hs
        cases hc.symm.trans hs'
    | cons c w =>
      rw [cons_append, startsAlike, Bool.and_eq_true] at h
      exact Nat.succ_le_succ (ih (fun k hk => halike k (mem_cons_of_mem _ hk)) h.2)

/-- Past the end of a word nothing matches, and inside it neither. -/
theorem matchesAt_eq_false (h : previous.any isWord = s.head?.any isWord) :
    matchesAt isWord alike word previous s = false := by
  rw [matchesAt, atBoundary, h, bne_self_eq_false]
  rfl

/-- A match at the start of a word is the word. -/
theorem matchesAt_word (hne : word ≠ [])
    (halike : ∀ k ∈ word, ∀ c, alike k c = true → isWord c = true)
    (hprevious : previous.any isWord = false) (hnil : w ≠ []) (hw : ∀ c ∈ w, isWord c = true)
    (hs : s.head?.any isWord = false) :
    matchesAt isWord alike word previous (w ++ s) = acceptsText alike word w := by
  have hhead : (w ++ s).head?.any isWord = true := by
    cases w with
    | nil => exact absurd rfl hnil
    | cons c w => exact hw c mem_cons_self
  rw [matchesAt, atBoundary, hprevious, hhead, acceptsText]
  cases hstarts : startsAlike alike word (w ++ s) with
  | false =>
    cases hlength : w.length == word.length with
    | false => rfl
    | true =>
      have hle : word.length ≤ w.length := (eq_of_beq hlength).ge
      rw [startsAlike_append_of_length_le hle] at hstarts
      rw [hstarts]
      rfl
  | true =>
    have hle := length_le_of_startsAlike_append halike hs hstarts
    rw [startsAlike_append_of_length_le hle] at hstarts
    rw [hstarts, take_append_of_le_length hle, drop_append_of_le_length hle, atBoundary]
    -- the character before the end of the match is one of the word
    have hlast : (w.take word.length).getLast?.any isWord = true := by
      have htake : w.take word.length ≠ [] := by
        intro hempty
        rcases take_eq_nil_iff.mp hempty with h | h
        · exact hne (length_eq_zero_iff.mp h)
        · exact hnil h
      rw [List.getLast?_eq_some_getLast htake]
      exact hw _ (mem_of_mem_take (getLast_mem htake))
    rw [hlast]
    rcases Nat.eq_or_lt_of_le hle with heq | hlt
    · rw [← heq, drop_eq_nil_of_le heq.ge, nil_append, hs]
      simp
    · have hnext : (w.drop word.length ++ s).head?.any isWord = true := by
        rw [drop_eq_getElem_cons hlt]
        exact hw _ (getElem_mem hlt)
      have hne' : (w.length == word.length) = false := beq_false_of_ne hlt.ne'
      rw [hnext, hne']
      rfl

theorem subWord_skip (w s : Str) (previous : Option Char) :
    ∃ last, subWord isWord alike word f previous w.length (w ++ s)
        = subWord isWord alike word f last 0 s := by
  induction w generalizing previous with
  | nil => exact ⟨previous, rfl⟩
  | cons c w ih => exact ih (some c)

/-- Inside a word nothing is replaced. -/
theorem subWord_inside {p : Char} (hp : isWord p = true) (hw : ∀ c ∈ w, isWord c = true) (s : Str) :
    ∃ last, subWord isWord alike word f (some p) 0 (w ++ s)
        = w ++ subWord isWord alike word f last 0 s := by
  induction w generalizing p with
  | nil => exact ⟨some p, rfl⟩
  | cons c w ih =>
    have hc : isWord c = true := hw c mem_cons_self
    obtain ⟨last, hlast⟩ := ih hc fun d hd => hw d (mem_cons_of_mem _ hd)
    refine ⟨last, ?_⟩
    have hinside : (some p).any isWord = ((c :: (w ++ s)).head?).any isWord := hp.trans hc.symm
    rw [cons_append, subWord, matchesAt_eq_false hinside, if_neg Bool.false_ne_true, hlast,
      cons_append]

variable (hne : word ≠ []) (halike : ∀ k ∈ word, ∀ c, alike k c = true → isWord c = true)
include hne halike

/-- A word is replaced, if the literal accepts it. -/
theorem subWord_word (hprevious : previous.any isWord = false) (hw : ∀ c ∈ w, isWord c = true)
    (hs : s.head?.any isWord = false) :
    ∃ last, subWord isWord alike word f previous 0 (w ++ s)
        = (if acceptsText alike word w then f w else w) ++ subWord isWord alike word f last 0 s := by
  cases w with
  | nil =>
    refine ⟨previous, ?_⟩
    have hrefuse : acceptsText alike word [] = false := by
      cases word with
      | nil => exact absurd rfl hne
      | cons k word => rfl
    rw [hrefuse]
    rfl
  | cons c w =>
    have hmatch := matchesAt_word hne halike hprevious (cons_ne_nil c w) hw hs
    have htail : ∀ d ∈ w, isWord d = true := fun d hd => hw d (mem_cons_of_mem _ hd)
    rw [cons_append] at hmatch ⊢
    rw [subWord, hmatch]
    cases haccept : acceptsText alike word (c :: w) with
    | false =>
      obtain ⟨last, hlast⟩ := subWord_inside (hw c mem_cons_self) htail s
      refine ⟨last, ?_⟩
      rw [if_neg Bool.false_ne_true, if_neg Bool.false_ne_true, hlast]
      rfl
    | true =>
      rw [acceptsText, Bool.and_eq_true] at haccept
      have hlength : (c :: w).length = word.length := eq_of_beq haccept.1
      obtain ⟨last, hlast⟩ := subWord_skip w s (some c)
      refine ⟨last, ?_⟩
      rw [if_pos rfl, if_pos rfl, ← hlength, length_cons, Nat.add_sub_cancel, hlast,
        ← cons_append, ← length_cons (a := c), take_left]

/-- Between words nothing is replaced. -/
theorem subWord_between (previous : Option Char) (hc : isWord c = false) (s : Str) :
    subWord isWord alike word f previous 0 (c :: s)
      = c :: subWord isWord alike word f (some c) 0 s := by
  have hstarts : startsAlike alike word (c :: s) = false := by
    cases word with
    | nil => exact absurd rfl hne
    | cons k word =>
      cases hk : alike k c with
      | false => rw [startsAlike, hk, Bool.false_and]
      | true =>
        rw [halike k mem_cons_self c hk] at hc
        cases hc
  rw [subWord, matchesAt, hstarts, Bool.and_false, Bool.false_and, if_neg Bool.false_ne_true]

/-- **Substitution is word by word**, for a literal that accepts word characters
only. -/
theorem subWord_eq_mapWords (s : Str) : subWord isWord alike word f none 0 s
      = mapWords isWord (fun w => if acceptsText alike word w then f w else w) s := by
  suffices hall : ∀ previous : Option Char, previous.any isWord = false →
      subWord isWord alike word f previous 0 s
        = mapWords isWord (fun w => if acceptsText alike word w then f w else w) s from
    hall none rfl
  induction s using words_induction isWord with
  | hword w hw =>
    intro previous hprevious
    obtain ⟨last, hlast⟩ := subWord_word (f := f) hne halike hprevious (s := []) hw rfl
    rw [append_nil] at hlast
    rw [hlast, mapWords_word hw]
    exact append_nil _
  | hcons w c s hw hc ih =>
    intro previous hprevious
    obtain ⟨last, hlast⟩ := subWord_word (f := f) hne halike hprevious (s := c :: s) hw hc
    rw [hlast, subWord_between hne halike last hc, ih (some c) hc, mapWords_cons hw hc]

end TrustFlow.Library
