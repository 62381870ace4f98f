import TrustFlow.Stegano.Engine

/-!
# Stripping undoes embedding

`strip_all_watermarks` removes the zero-width characters and then the white space at the
end of every line.  Both passes work line by line (`stripAllWatermarks_intercalate`):
the mark and the blanks that `embed_watermark` added are gone afterwards, wherever the mark
was put, and stripping a stripped text changes nothing.
-/

namespace TrustFlow.Stegano

open Library List

/-- `strip_all_watermarks`. -/
def stripAllWatermarks (content : Str) : Str :=
  List.intercalate ['\n'] ((split ['\n'] (removeZeroWidth content)).map rstrip)

theorem removeZeroWidth_append (a b : Str) :
    removeZeroWidth (a ++ b) = removeZeroWidth a ++ removeZeroWidth b :=
  filter_append ..

theorem removeZeroWidth_of_all {s : Str} (h : ∀ c ∈ s, isZeroWidth c = true) :
    removeZeroWidth s = [] := by
  simpa [removeZeroWidth] using h

/-- The line ends are no zero-width characters: the removal works line by line. -/
theorem removeZeroWidth_intercalate (lines : List Str) :
    removeZeroWidth (List.intercalate ['\n'] lines)
      = List.intercalate ['\n'] (lines.map removeZeroWidth) := by
  have hnewline : removeZeroWidth ['\n'] = ['\n'] := by decide
  induction lines with
  | nil => rfl
  | cons line lines ih =>
    cases lines with
    | nil => simp
    | cons next lines =>
      rw [intercalate_cons_cons, removeZeroWidth_append, removeZeroWidth_append, ih, hnewline]
      simp [intercalate_cons_cons]

/-- Stripping works line by line. -/
theorem stripAllWatermarks_intercalate {lines : List Str} (hne : lines ≠ [])
    (hlines : ∀ line ∈ lines, '\n' ∉ line) :
    stripAllWatermarks (List.intercalate ['\n'] lines)
      = List.intercalate ['\n'] (lines.map fun line => rstrip (removeZeroWidth line)) := by
  rw [stripAllWatermarks, removeZeroWidth_intercalate, split_intercalate (by simpa using hne)]
  · rw [map_map]
    rfl
  · intro line hline
    obtain ⟨source, hsource, rfl⟩ := mem_map.mp hline
    exact fun hmem => hlines source hsource (mem_filter.mp hmem).1

/-- Blanks behind a line are stripped. -/
theorem rstrip_append_blanks (line : Str) (n : ℕ) :
    rstrip (line ++ List.replicate n ' ') = rstrip line := by
  induction n with
  | zero => simp
  | succ n ih =>
    rw [replicate_succ', ← append_assoc, rstrip, rdropWhile_concat_pos _ _ _ (by decide)]
    exact ih

/-- The blanks of the fingerprint are stripped. -/
theorem stripAllWatermarks_addWhitespaceFingerprint (content peerId : Str) :
    stripAllWatermarks (addWhitespaceFingerprint content peerId) = stripAllWatermarks content := by
  have hblanks : ∀ seed i, removeZeroWidth (blanks seed i) = blanks seed i := by
    intro seed i
    rw [removeZeroWidth, filter_eq_self]
    intro c hc
    rw [eq_of_mem_replicate hc]
    decide
  nth_rewrite 2 [← intercalate_split (cons_ne_nil '\n' []) content]
  rw [addWhitespaceFingerprint, stripAllWatermarks_intercalate,
    stripAllWatermarks_intercalate (split_ne_nil _ _) fun _ h => (mem_split h).1]
  · congr 1
    apply ext_getElem
    · simp
    · intro i _ _
      simp only [getElem_map, getElem_mapIdx, removeZeroWidth_append, hblanks]
      exact rstrip_append_blanks _ _
  · simpa using split_ne_nil '\n' content
  · intro line hline
    obtain ⟨i, hi, rfl⟩ := mem_mapIdx.mp hline
    simp [blanks, (mem_split (getElem_mem hi)).1]

/-- The mark is removed, wherever it stands. -/
theorem stripAllWatermarks_placeMark {mark : Str} (h : ∀ c ∈ mark, isZeroWidth c = true)
    (result : Str) :
    stripAllWatermarks (SteganoEngine.placeMark result mark) = stripAllWatermarks result := by
  have hremoved : removeZeroWidth (SteganoEngine.placeMark result mark) = removeZeroWidth result := by
    rcases SteganoEngine.placeMark_cases result mark with ⟨p, q, rfl, hplace⟩ | hplace
    · simp only [hplace, removeZeroWidth_append, removeZeroWidth_of_all h, append_nil]
    · rw [hplace, removeZeroWidth_append, removeZeroWidth_of_all h, append_nil]
  rw [stripAllWatermarks, hremoved, stripAllWatermarks]

/-- Stripped lines have nothing left to strip. -/
theorem stripAllWatermarks_idem (content : Str) :
    stripAllWatermarks (stripAllWatermarks content) = stripAllWatermarks content := by
  have hkept : ∀ {line : Str} {c : Char}, c ∈ rstrip line → c ∈ line := fun hc =>
    ( rdropWhile_prefix ..).subset hc
  nth_rewrite 2 [stripAllWatermarks]
  rw [stripAllWatermarks_intercalate, map_map, stripAllWatermarks]
  · congr 1
    refine map_congr_left fun line hline => ?_
    have hclean : removeZeroWidth (rstrip line) = rstrip line := by
      refine filter_eq_self.mpr fun c hc => ?_
      exact (mem_filter.mp ((mem_split hline).2 (hkept hc))).2
    show rstrip (removeZeroWidth (rstrip line)) = rstrip line
    rw [hclean]
    exact rdropWhile_idempotent ..
  · simpa using split_ne_nil '\n' (removeZeroWidth content)
  · intro line hline
    obtain ⟨source, hsource, rfl⟩ := mem_map.mp hline
    exact fun hmem => (mem_split hsource).1 (hkept hmem)

/-- **Stripping undoes embedding** without the linguistic pass, and is idempotent. -/
theorem stripAllWatermarks_embedWatermark (words : WordClass) (engine : SteganoEngine)
    (useZeroWidth useWhitespace : Bool) (content peerId timestamp : Str) (depth : ℤ) :
    stripAllWatermarks
        (engine.embedWatermark words ⟨useZeroWidth, false, useWhitespace⟩ content peerId timestamp
          depth).2 = stripAllWatermarks content ∧
      stripAllWatermarks (stripAllWatermarks content) = stripAllWatermarks content := by
  refine ⟨?_, stripAllWatermarks_idem content⟩
  have hblanked : ∀ text : Str, stripAllWatermarks
      (if useWhitespace then addWhitespaceFingerprint text peerId else text)
        = stripAllWatermarks text := by
    intro text
    cases useWhitespace
    · rfl
    · exact stripAllWatermarks_addWhitespaceFingerprint text peerId
  simp only [SteganoEngine.embedWatermark, SteganoEngine.embedText]
  cases useZeroWidth with
  | false => simpa using hblanked content
  | true =>
    simp only [if_true]
    have hmark : ∀ c ∈ SteganoEngine.markFor content peerId timestamp depth,
        isZeroWidth c = true := fun c hc => isZeroWidth_of_mem_encodeZeroWidth hc
    rw [stripAllWatermarks_placeMark hmark]
    simpa using hblanked content

end TrustFlow.Stegano
