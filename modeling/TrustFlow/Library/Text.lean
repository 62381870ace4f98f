import Mathlib.Data.Bool.AllAny
import Mathlib.Data.List.DropRight
import TrustFlow.Library.Utf8

/-!
# Text: splitting, stripping and lines

The operations of `str` and of text files that the program uses, on the texts
of `TrustFlow.Library.Utf8`.

* `split` — `s.split(sep)`: cut at the leftmost non-overlapping occurrences.
  `split_spec` and `split_flatMap` together characterize it: the parts are the
  unique way to write the text so that no occurrence of the separator starts
  inside a part (`Clear`).
* `strip` — removal of white space at both ends.
* `readlines` — the lines of a text file read with universal newlines, each
  with its line end.
* `readText` — a whole file read in text mode with replacement characters.

The separator may overlap itself (`" | "` does, in one blank), so a part that
merely does not contain the separator is not enough: `Clear sep p` says that no
occurrence starts inside `p` when `sep` follows.
-/

namespace TrustFlow.Library

open List

variable {s p sep line : Str} {c : Char} {parts : List Str}

/-! ## Splitting -/

/-- The scan behind `split`: `skip` characters of a separator are still to be
passed over, `cur` is the part read so far. -/
def splitFrom (sep : Str) : ℕ → Str → Str → List Str
  | _, cur, [] => [cur]
  | skip + 1, cur, _ :: cs => splitFrom sep skip cur cs
  | 0, cur, c :: cs =>
    if sep.isPrefixOf (c :: cs) then cur :: splitFrom sep (sep.length - 1) [] cs
    else splitFrom sep 0 (cur ++ [c]) cs

/-- `s.split(sep)` for a non-empty separator. -/
def split (sep s : Str) : List Str := splitFrom sep 0 [] s

/-- No occurrence of `sep` starts inside `p` when `p` is followed by `sep`. -/
def Clear (sep p : Str) : Prop := ¬ sep <:+: p ++ sep.dropLast

instance decidableClear (sep p : Str) : Decidable (Clear sep p) :=
  inferInstanceAs (Decidable (¬ sep <:+: p ++ sep.dropLast))

/-- For a one-character separator, `Clear` is absence of the character. -/
theorem clear_singleton : Clear [c] p ↔ c ∉ p := by
  simp [Clear, singleton_infix_iff]

/-- Skipping is dropping. -/
theorem splitFrom_skip (sep : Str) :
    ∀ (skip : ℕ) (cur s : Str), splitFrom sep skip cur s = splitFrom sep 0 cur (s.drop skip) := by
  intro skip
  induction skip with
  | zero => intro cur s; rfl
  | succ skip ih =>
    intro cur s
    cases s with
    | nil => rfl
    | cons c cs => simpa [splitFrom] using ih cur cs

/-- At an occurrence of the separator the current part is closed. -/
theorem splitFrom_sep (hsep : sep ≠ []) (cur rest : Str) :
    splitFrom sep 0 cur (sep ++ rest) = cur :: splitFrom sep 0 [] rest := by
  obtain ⟨c, cs, rfl⟩ := exists_cons_of_ne_nil hsep
  have hpre : (c :: cs).isPrefixOf (c :: (cs ++ rest)) = true :=
    isPrefixOf_iff_prefix.mpr ⟨rest, rfl⟩
  rw [cons_append, splitFrom, if_pos hpre, splitFrom_skip]
  simp

/-- A clear part in front of a separator is read as one part. -/
theorem splitFrom_clear_append (hsep : sep ≠ []) (rest : Str) :
    ∀ (p cur : Str), Clear sep p →
      splitFrom sep 0 cur (p ++ sep ++ rest) = (cur ++ p) :: split sep rest := by
  intro p
  induction p with
  | nil => intro cur _; simpa [split] using splitFrom_sep hsep cur rest
  | cons c p ih =>
    intro cur hclear
    -- an occurrence at `c` would end before the separator that follows does
    have hno : sep.isPrefixOf (c :: (p ++ sep ++ rest)) = false := by
      rw [Bool.eq_false_iff]
      intro hpre
      apply hclear
      have hlong : sep <+: (c :: p ++ sep.dropLast) ++ (sep.getLast hsep :: rest) := by
        have hsplit : sep.dropLast ++ (sep.getLast hsep :: rest) = sep ++ rest := by
          conv_rhs => rw [← dropLast_append_getLast hsep]
          simp
        rw [append_assoc, hsplit]
        simpa using isPrefixOf_iff_prefix.mp hpre
      refine List.IsPrefix.isInfix (prefix_of_prefix_length_le hlong (prefix_append _ _) ?_)
      simp only [cons_append, length_cons, length_append, length_dropLast]
      omega
    have hrest : Clear sep p := fun hin => hclear (hin.trans (suffix_cons c _).isInfix)
    rw [cons_append, cons_append, splitFrom, hno]
    simpa using ih (cur ++ [c]) hrest

/-- A text without the separator is one part. -/
theorem splitFrom_of_notInfix :
    ∀ (p cur : Str), ¬ sep <:+: p → splitFrom sep 0 cur p = [cur ++ p] := by
  intro p
  induction p with
  | nil => intro cur _; simp [splitFrom]
  | cons c p ih =>
    intro cur hnot
    have hno : sep.isPrefixOf (c :: p) = false := by
      rw [Bool.eq_false_iff]
      exact fun hpre => hnot ( isPrefixOf_iff_prefix.mp hpre).isInfix
    rw [splitFrom, hno]
    simpa using ih (cur ++ [c]) (fun hin => hnot (hin.trans (suffix_cons c _).isInfix))

/-- A clear part, its separator, and the rest. -/
theorem split_clear_append (hsep : sep ≠ []) (hclear : Clear sep p) (rest : Str) :
    split sep (p ++ sep ++ rest) = p :: split sep rest := by
  simpa [split] using splitFrom_clear_append hsep rest p [] hclear

/-- A text without the separator is its only part. -/
theorem split_of_notInfix (hnot : ¬ sep <:+: p) : split sep p = [p] := by
  simpa [split] using splitFrom_of_notInfix p [] hnot

/-- Clear parts, each closed by its separator, in front of any text. -/
theorem split_flatMap_append (hsep : sep ≠ []) (rest : Str) :
    ∀ init : List Str, (∀ p ∈ init, Clear sep p) →
      split sep (init.flatMap (· ++ sep) ++ rest) = init ++ split sep rest := by
  intro init
  induction init with
  | nil => intro _; simp
  | cons p init ih =>
    intro hclear
    have hp := hclear p mem_cons_self
    have htail := ih fun q hq => hclear q (mem_cons_of_mem _ hq)
    have hstep := split_clear_append hsep hp (init.flatMap (· ++ sep) ++ rest)
    rw [htail] at hstep
    simpa using hstep

/-- **Uniqueness of the split.**  Clear parts and a last part without the
separator are exactly what the scan returns. -/
theorem split_flatMap {last : Str} (hsep : sep ≠ []) {init : List Str}
    (hclear : ∀ p ∈ init, Clear sep p) (hlast : ¬ sep <:+: last) :
    split sep (init.flatMap (· ++ sep) ++ last) = init ++ [last] := by
  rw [split_flatMap_append hsep last init hclear, split_of_notInfix hlast]

/-- An infix occurrence, by its position. -/
private theorem exists_drop_of_infix (hin : sep <:+: s) :
    ∃ i, i + sep.length ≤ s.length ∧ sep <+: s.drop i := by
  obtain ⟨front, back, rfl⟩ := hin
  exact ⟨front.length, by simp, by simp⟩

/-- The scan, from a state in which no occurrence starts inside the part read
so far. -/
private theorem splitFrom_spec (hsep : sep ≠ []) :
    ∀ (n : ℕ) (s cur : Str), s.length ≤ n →
      (∀ i < cur.length, ¬ sep <+: (cur ++ s).drop i) →
      ∃ init last, splitFrom sep 0 cur s = init ++ [last] ∧
        cur ++ s = init.flatMap (· ++ sep) ++ last ∧
        (∀ p ∈ init, Clear sep p) ∧ ¬ sep <:+: last := by
  have hpos : 0 < sep.length := length_pos_iff.mpr hsep
  intro n
  induction n with
  | zero =>
    intro s cur hlen hcur
    obtain rfl : s = [] := length_eq_zero_iff.mp (by omega)
    refine ⟨[], cur, by simp [splitFrom], by simp, by simp, fun hin => ?_⟩
    obtain ⟨i, hi, hpre⟩ := exists_drop_of_infix hin
    exact hcur i (by omega) (by simpa using hpre)
  | succ n ih =>
    intro s cur hlen hcur
    cases s with
    | nil => exact ih [] cur (by simp) hcur
    | cons c cs =>
      by_cases hpre : sep <+: c :: cs
      · obtain ⟨rest, hrest⟩ := hpre
        have hshort : rest.length ≤ n := by
          have := congrArg List.length hrest
          simp only [length_append, length_cons] at this hlen
          omega
        obtain ⟨init, last, hsplit, htext, hclear, hlast⟩ :=
          ih rest [] hshort (by simp)
        refine ⟨cur :: init, last, ?_, ?_, ?_, hlast⟩
        · rw [← hrest, splitFrom_sep hsep, hsplit, cons_append]
        · rw [← hrest, ← nil_append rest, htext]
          simp
        · intro p hp
          rcases mem_cons.mp hp with rfl | hp
          · intro hin
            obtain ⟨i, hi, hocc⟩ := exists_drop_of_infix hin
            simp only [length_append, length_dropLast] at hi
            refine hcur i (by omega) ?_
            rw [← hrest, drop_append_of_le_length (by omega)]
            rw [drop_append_of_le_length (by omega)] at hocc
            refine hocc.trans ?_
            refine prefix_append_right_inj _ |>.mpr ?_
            exact ( dropLast_prefix sep).trans (prefix_append sep rest)
          · exact hclear p hp
      · have hno : sep.isPrefixOf (c :: cs) = false := by
          rw [Bool.eq_false_iff]
          exact fun h => hpre ( isPrefixOf_iff_prefix.mp h)
        have hcur' : ∀ i < (cur ++ [c]).length, ¬ sep <+: (cur ++ [c] ++ cs).drop i := by
          intro i hi
          rcases Nat.lt_succ_iff_lt_or_eq.mp (by simpa using hi) with hlt | rfl
          · simpa using hcur i hlt
          · simpa using hpre
        obtain ⟨init, last, hsplit, htext, hclear, hlast⟩ :=
          ih cs (cur ++ [c]) (by simpa using hlen) hcur'
        refine ⟨init, last, ?_, by simpa using htext, hclear, hlast⟩
        rw [splitFrom, hno]
        simpa using hsplit

/-- **What the split returns.**  The parts are clear, the last one does not
contain the separator, and together with the separators they are the text. -/
theorem split_spec (hsep : sep ≠ []) (s : Str) :
    ∃ init last, split sep s = init ++ [last] ∧ s = init.flatMap (· ++ sep) ++ last ∧
      (∀ p ∈ init, Clear sep p) ∧ ¬ sep <:+: last := by
  simpa [split] using splitFrom_spec hsep s.length s [] le_rfl (by simp)

/-- The parts closed by separators are the joined text. -/
theorem intercalate_concat (sep last : Str) :
    ∀ init : List Str, List.intercalate sep (init ++ [last]) = init.flatMap (· ++ sep) ++ last := by
  intro init
  induction init with
  | nil => simp
  | cons p init ih =>
    cases init with
    | nil => simp
    | cons q init => simp_all [intercalate_cons_cons]

/-- Joining the parts gives the text back. -/
theorem intercalate_split (hsep : sep ≠ []) (s : Str) : List.intercalate sep (split sep s) = s := by
  obtain ⟨init, last, hsplit, htext, -, -⟩ := split_spec hsep s
  rw [hsplit, intercalate_concat, ← htext]

/-- Splitting a non-empty list of joined parts, none with the separator in it. -/
theorem split_intercalate (hne : parts ≠ []) (hparts : ∀ p ∈ parts, c ∉ p) :
    split [c] (List.intercalate [c] parts) = parts := by
  obtain ⟨init, last, rfl⟩ := eq_nil_or_concat parts |>.resolve_left hne
  rw [concat_eq_append] at hparts ⊢
  rw [intercalate_concat]
  refine split_flatMap (by simp) (fun p hp => clear_singleton.mpr (hparts p (by simp [hp]))) ?_
  rw [singleton_infix_iff]
  exact hparts last (by simp)

/-- A part is a piece of the text, without the separator. -/
theorem mem_split {part : Str} (h : part ∈ split [c] s) : c ∉ part ∧ part ⊆ s := by
  obtain ⟨init, last, hsplit, htext, hclear, hlast⟩ := split_spec (cons_ne_nil c []) s
  rw [hsplit, mem_append, mem_singleton] at h
  rcases h with h | rfl
  · refine ⟨clear_singleton.mp (hclear part h), fun d hd => ?_⟩
    rw [htext]
    exact mem_append_left _ (mem_flatMap.mpr ⟨part, h, mem_append_left _ hd⟩)
  · rw [htext]
    exact ⟨by rwa [singleton_infix_iff] at hlast, subset_append_right ..⟩

theorem split_ne_nil (c : Char) (s : Str) : split [c] s ≠ [] := by
  obtain ⟨init, last, hsplit, -⟩ := split_spec (cons_ne_nil c []) s
  simp [hsplit]

/-- The separators in a joined text: those between the parts, and those in them. -/
theorem count_intercalate (c : Char) (hne : parts ≠ []) :
    (List.intercalate [c] parts).count c + 1 = parts.flatten.count c + parts.length := by
  obtain ⟨init, last, rfl⟩ := eq_nil_or_concat parts |>.resolve_left hne
  rw [concat_eq_append, intercalate_concat, count_append, flatten_append]
  induction init with
  | nil => simp
  | cons p init ih =>
    have hinit := ih (by simp)
    simp only [flatMap_cons, count_append, count_singleton_self, cons_append,
      flatten_cons, length_cons] at hinit ⊢
    omega

/-- **Joining is injective** on lists of one length, if the parts on one side are free of
the separator. -/
theorem intercalate_inj {parts' : List Str} (hne : parts ≠ [])
    (hlength : parts.length = parts'.length) (hparts : ∀ p ∈ parts, c ∉ p)
    (h : List.intercalate [c] parts = List.intercalate [c] parts') : parts = parts' := by
  have hne' : parts' ≠ [] := by
    rintro rfl
    exact hne (length_eq_zero_iff.mp hlength)
  have hzero : parts.flatten.count c = 0 := by
    refine count_eq_zero.mpr fun hmem => ?_
    obtain ⟨p, hp, hc⟩ := mem_flatten.mp hmem
    exact hparts p hp hc
  have hcount := count_intercalate c hne
  have hcount' := count_intercalate c hne'
  rw [← h] at hcount'
  have hzero' : parts'.flatten.count c = 0 := by omega
  have hparts' : ∀ p ∈ parts', c ∉ p := fun p hp hc =>
    count_eq_zero.mp hzero' (mem_flatten.mpr ⟨p, hp, hc⟩)
  rw [← split_intercalate hne hparts, h, split_intercalate hne' hparts']

/-! ## White space -/

/-- `c.isspace()`: the code points `str.strip` removes. -/
def isSpace (c : Char) : Bool :=
  let n := c.toNat
  (9 ≤ n && n ≤ 13) || (28 ≤ n && n ≤ 32) || n = 133 || n = 160 || n = 5760 ||
    (8192 ≤ n && n ≤ 8202) || n = 8232 || n = 8233 || n = 8239 || n = 8287 || n = 12288

/-- `s.lstrip()`. -/
def lstrip (s : Str) : Str := s.dropWhile isSpace

/-- `s.rstrip()`. -/
def rstrip (s : Str) : Str := s.rdropWhile isSpace

/-- `s.strip()`. -/
def strip (s : Str) : Str := (lstrip s).rdropWhile isSpace

/-- Stripping a text that ends, up to white space, in a visible character only
removes what stands in front. -/
theorem strip_append_of_visible {front tail : Str} (hc : isSpace c = false)
    (htail : ∀ x ∈ tail, isSpace x = true) :
    strip (front ++ [c] ++ tail) = lstrip (front ++ [c]) := by
  have hkeep : ∀ pre : Str, (pre ++ [c] ++ tail).rdropWhile isSpace = pre ++ [c] := by
    intro pre
    rw [List.rdropWhile, reverse_append, dropWhile_append_of_pos (by simpa using htail)]
    simp [hc]
  have hdrop : ∃ pre, lstrip (front ++ [c] ++ tail) = pre ++ [c] ++ tail ∧
      lstrip (front ++ [c]) = pre ++ [c] := by
    induction front with
    | nil => exact ⟨[], by simp [lstrip, hc]⟩
    | cons x front ih =>
      cases hx : isSpace x with
      | true => simpa [lstrip, hx] using ih
      | false => exact ⟨x :: front, by simp [lstrip, hx]⟩
  obtain ⟨pre, hlong, hshort⟩ := hdrop
  rw [strip, hlong, hkeep, hshort]

/-- Stripping in front of a text with a visible character does not reach what
follows it. -/
theorem lstrip_append (hs : ∃ c ∈ s, isSpace c = false) (t : Str) :
    lstrip (s ++ t) = lstrip s ++ t := by
  have hne : s.dropWhile isSpace ≠ [] := by
    intro hnil
    obtain ⟨c, hc, hspace⟩ := hs
    have hall := dropWhile_eq_nil_iff.mp hnil c hc
    cases hspace.symm.trans hall
  rw [lstrip, lstrip, dropWhile_append, if_neg (by simpa using hne)]

/-- Nothing is left of white space. -/
theorem strip_eq_nil_iff : strip s = [] ↔ ∀ c ∈ s, isSpace c = true := by
  rw [strip, rdropWhile_eq_nil_iff]
  constructor
  · intro h c hc
    by_contra hvisible
    have hkept : lstrip s ≠ [] := fun hnil => hvisible (dropWhile_eq_nil_iff.mp hnil c hc)
    have hhead : isSpace ((lstrip s).head hkept) = false := head_dropWhile_not isSpace hkept
    rw [h _ (head_mem hkept)] at hhead
    cases hhead
  · exact fun h c hc => h c (dropWhile_subset _ hc)

/-- What is left ends in a character that is not white space. -/
theorem isSpace_getLast_strip (h : strip s ≠ []) : isSpace ((strip s).getLast h) = false :=
  Bool.eq_false_iff.mpr (rdropWhile_last_not isSpace (lstrip s) h)

/-- A text without white space is left alone. -/
theorem strip_of_visible (hs : ∀ c ∈ s, isSpace c = false) : strip s = s := by
  cases s using List.reverseRecOn with
  | nil => rfl
  | append_singleton front c =>
    have hc : isSpace c = false := hs c (by simp)
    have hstrip : strip (front ++ [c] ++ []) = lstrip (front ++ [c]) :=
      strip_append_of_visible hc (by simp)
    rw [append_nil] at hstrip
    rw [hstrip, lstrip]
    refine dropWhile_eq_self_iff.mpr fun hpos => ?_
    rw [hs _ (getElem_mem hpos)]
    simp

/-! ## Lines -/

/-- Universal newlines: `\r\n` and `\r` are read as `\n`. -/
def universalNewlines : Str → Str
  | '\r' :: '\n' :: cs => '\n' :: universalNewlines cs
  | '\r' :: cs => '\n' :: universalNewlines cs
  | c :: cs => c :: universalNewlines cs
  | [] => []

/-- The lines of a text with `\n` line ends; `cur` is the line read so far. -/
def linesFrom : Str → Str → List Str
  | cur, [] => if cur = [] then [] else [cur]
  | cur, c :: cs =>
    if c = '\n' then (cur ++ ['\n']) :: linesFrom [] cs else linesFrom (cur ++ [c]) cs

/-- `f.readlines()` on a file opened in text mode. -/
def readlines (text : Str) : List Str := linesFrom [] (universalNewlines text)

/-- Text mode leaves no carriage return. -/
theorem cr_notMem_universalNewlines (s : Str) : '\r' ∉ universalNewlines s := by
  fun_induction universalNewlines s with
  | case1 cs ih => simpa using ih
  | case2 cs _ ih => simpa using ih
  | case3 c cs _ hc ih => simpa [Ne.symm hc] using ih
  | case4 => exact not_mem_nil

theorem universalNewlines_of_notMem (hs : '\r' ∉ s) : universalNewlines s = s := by
  fun_induction universalNewlines s with
  | case1 cs ih => simp at hs
  | case2 cs _ ih => simp at hs
  | case3 c cs _ hc ih => rw [ih fun h => hs (mem_cons_of_mem c h)]
  | case4 => rfl

/-- `open(path, 'r', errors='replace').read()`, of a file that is read as UTF-8. -/
def readText (b : Bytes) : Str := universalNewlines (decodeReplace b)

theorem cr_notMem_readText (b : Bytes) : '\r' ∉ readText b := cr_notMem_universalNewlines _

theorem readText_encodeUtf8 (hs : '\r' ∉ s) : readText (encodeUtf8 s) = s := by
  rw [readText, decodeReplace_encodeUtf8, universalNewlines_of_notMem hs]

/-- Universal newlines leave a prefix without carriage returns alone. -/
theorem universalNewlines_append (hcr : '\r' ∉ line) (rest : Str) :
    universalNewlines (line ++ '\n' :: rest) = line ++ '\n' :: universalNewlines rest := by
  induction line with
  | nil => rw [nil_append, universalNewlines, nil_append] <;> simp
  | cons c line ih =>
    have hne : c ≠ '\r' := fun h => hcr (h ▸ mem_cons_self)
    have hrest : '\r' ∉ line := fun h => hcr (mem_cons_of_mem _ h)
    rw [cons_append, universalNewlines, ih hrest, cons_append]
    · simp [hne]
    · simp [hne]

/-- A line without line breaks is collected unchanged. -/
theorem linesFrom_append (hnl : '\n' ∉ line) (cur rest : Str) :
    linesFrom cur (line ++ '\n' :: rest) = (cur ++ line ++ ['\n']) :: linesFrom [] rest := by
  induction line generalizing cur with
  | nil => simp [linesFrom]
  | cons c line ih =>
    have hne : c ≠ '\n' := fun h => hnl (h ▸ mem_cons_self)
    have hrest : '\n' ∉ line := fun h => hnl (mem_cons_of_mem _ h)
    rw [cons_append, linesFrom, if_neg hne, ih hrest]
    simp

/-- The first line of a file, read back with its line end. -/
theorem readlines_append (hnl : '\n' ∉ line) (hcr : '\r' ∉ line) (rest : Str) :
    readlines (line ++ '\n' :: rest) = (line ++ ['\n']) :: readlines rest := by
  rw [readlines, universalNewlines_append hcr, linesFrom_append hnl]
  rfl

/-- A text of complete lines is read back line by line. -/
theorem readlines_flatten {lines : List Str}
    (hlines : ∀ line ∈ lines, ∃ body, line = body ++ ['\n'] ∧ '\n' ∉ body ∧ '\r' ∉ body) :
    readlines lines.flatten = lines := by
  induction lines with
  | nil => rfl
  | cons line lines ih =>
    obtain ⟨body, rfl, hnl, hcr⟩ := hlines line mem_cons_self
    rw [flatten_cons, append_assoc, singleton_append, readlines_append hnl hcr,
      ih fun l hl => hlines l (mem_cons_of_mem _ hl)]

end TrustFlow.Library
