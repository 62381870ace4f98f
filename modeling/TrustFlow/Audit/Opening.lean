import TrustFlow.Audit.Agreement

/-!
# Opening a file that is already there

A new `AuditLog` looks for a hash at the end of the file.  If it finds none, it takes
the file for a new one and opens it for writing, which empties it.

* `Continues` — files for which a hash is found (or reading them fails): there is a
  newline before the last byte, and what comes after the last such newline is not blank.
* `getLastHash_eq_nil_iff` — no hash is found exactly in all other files.
* `opening_keeps_iff` — opening a file and logging events after that keeps its bytes if
  and only if the file continues, or is itself the beginning of the first header line.
-/

namespace TrustFlow.Audit

open Library List

/-- `log_event`, time after time. -/
def logAll (state : LogFile × Str) (es : List Event) : LogFile × Str :=
  es.foldl (fun state e => logEvent state.1 state.2 e) state

/-- The bytes of the file stay at its beginning when it is opened and events are logged;
or opening it raises, before anything is written. -/
def Kept (bytes : Bytes) (timestamp : Timestamp) (es : List Event) : Prop :=
  match openLog (some bytes) timestamp with
  | .error _ => True
  | .ok state => ∃ rest, (logAll state es).1 = some (bytes ++ rest)

/-- There is a newline before the last byte, and the last line has a character that is
not white space, or is not UTF-8. -/
def Continues (bytes : Bytes) : Prop :=
  ∃ before line, bytes = before ++ 10 :: line ∧ line ≠ [] ∧ 10 ∉ line.dropLast ∧
    ∀ text, decodeUtf8 line = some text → ∃ c ∈ text, isSpace c = false

/-! ## The last line -/

variable {bytes : Bytes}

theorem lastLine_eq_none_iff : lastLine bytes = none ↔ 10 ∉ bytes.dropLast := by
  rw [lastLine]
  constructor
  · intro h hmem
    have hdrop : bytes.dropLast.reverse.dropWhile (· ≠ 10) ≠ [] := by
      intro hnil
      exact absurd (dropWhile_eq_nil_iff.mp hnil 10 (mem_reverse.mpr hmem)) (by simp)
    obtain ⟨x, xs, hcons⟩ := exists_cons_of_ne_nil hdrop
    simp only [hcons] at h
    cases h
  · intro h
    have hdrop : bytes.dropLast.reverse.dropWhile (· ≠ 10) = [] := by
      refine dropWhile_eq_nil_iff.mpr fun x hx => decide_eq_true ?_
      rintro rfl
      exact h (mem_reverse.mp hx)
    simp only [hdrop]

/-- The last newline before the last byte. -/
theorem exists_last_line (h : 10 ∈ bytes.dropLast) :
    ∃ before line, bytes = before ++ 10 :: line ∧ line ≠ [] ∧ 10 ∉ line.dropLast := by
  induction bytes with
  | nil => cases h
  | cons byte bytes ih =>
    have hne : bytes ≠ [] := by
      rintro rfl
      cases h
    rw [dropLast_cons_of_ne_nil hne] at h
    by_cases hlater : 10 ∈ bytes.dropLast
    · obtain ⟨before, line, rfl, hline⟩ := ih hlater
      exact ⟨byte :: before, line, rfl, hline⟩
    · obtain rfl : byte = 10 := ((mem_cons.mp h).resolve_right hlater).symm
      exact ⟨[], bytes, rfl, hne, hlater⟩

/-- The last line comes after a newline and holds no other one, save at its end. -/
theorem lastLine_eq_some {before line : Bytes} (hne : line ≠ []) (hline : 10 ∉ line.dropLast) :
    lastLine (before ++ 10 :: line) = some line := by
  have hdropLast : (before ++ 10 :: line).dropLast.reverse
      = line.dropLast.reverse ++ (10 :: before.reverse) := by
    rw [dropLast_append_of_ne_nil (cons_ne_nil _ _), dropLast_cons_of_ne_nil hne]
    simp
  have hall : ∀ x ∈ line.dropLast.reverse, decide (x ≠ 10) = true := by
    intro x hx
    refine decide_eq_true ?_
    rintro rfl
    exact hline (mem_reverse.mp hx)
  have hlast : (before ++ 10 :: line).getLast? = some (line.getLast hne) := by
    rw [List.getLast?_append, List.getLast?_cons_of_ne_nil hne, List.getLast?_eq_some_getLast hne]
    rfl
  rw [lastLine, hdropLast, hlast, dropWhile_append_of_pos hall, takeWhile_append_of_pos hall]
  simp [dropLast_append_getLast hne]

/-- The last field of a stripped line is empty only if the line is blank. -/
theorem getLastD_split_strip {text : Str} :
    (split sep (strip text)).getLastD [] = [] ↔ ∀ c ∈ text, isSpace c = true := by
  rw [← strip_eq_nil_iff]
  obtain ⟨init, last, hsplit, htext, -, -⟩ := split_spec (show sep ≠ [] by decide) (strip text)
  rw [hsplit, getLastD_eq_getLast?, List.getLast?_concat, Option.getD_some]
  constructor
  · rintro rfl
    by_contra hne
    rw [append_nil] at htext
    cases init using List.reverseRecOn with
    | nil => exact hne htext
    | append_singleton init field =>
      -- the text would end in the separator, which ends in a blank
      have hend : (strip text).getLast? = some ' ' := by
        rw [htext, flatMap_append, flatMap_singleton, sep]
        simp
      have hlast := isSpace_getLast_strip hne
      rw [List.getLast?_eq_some_getLast hne] at hend
      rw [Option.some.inj hend] at hlast
      cases hlast
  · intro hnil
    rw [hnil] at htext
    exact (append_eq_nil_iff.mp htext.symm).2

/-- **No hash is found**, and none is missed, in all files but those that continue. -/
theorem getLastHash_eq_nil_iff : getLastHash (some bytes) = .ok [] ↔ ¬ Continues bytes := by
  rw [getLastHash, Option.bind_some]
  by_cases hnewline : 10 ∈ bytes.dropLast
  swap
  · rw [lastLine_eq_none_iff.mpr hnewline]
    refine ⟨fun _ => ?_, fun _ => rfl⟩
    rintro ⟨before, line, rfl, hne, -⟩
    rw [dropLast_append_of_ne_nil (cons_ne_nil _ _), dropLast_cons_of_ne_nil hne] at hnewline
    exact hnewline (mem_append_right _ mem_cons_self)
  · obtain ⟨before, line, rfl, hne, hline⟩ := exists_last_line hnewline
    have hlast : lastLine (before ++ 10 :: line) = some line := lastLine_eq_some hne hline
    rw [hlast]
    cases htext : decodeUtf8 line with
    | none =>
      simp only [htext]
      constructor
      · rintro ⟨⟩
      · intro h
        refine absurd ⟨before, line, rfl, hne, hline, fun text htext' => ?_⟩ h
        cases htext.symm.trans htext'
    | some text =>
      simp only [htext, Except.ok.injEq]
      rw [getLastD_split_strip]
      constructor
      · rintro hblank ⟨before', line', hbytes, hne', hline', hvisible⟩
        -- both decompositions are at the last newline
        rw [hbytes, lastLine_eq_some hne' hline'] at hlast
        obtain rfl := Option.some.inj hlast
        obtain ⟨c, hc, hspace⟩ := hvisible text htext
        rw [hblank c hc] at hspace
        cases hspace
      · intro h c hc
        by_contra hspace
        refine h ⟨before, line, rfl, hne, hline, fun text' htext' => ?_⟩
        obtain rfl := Option.mem_unique htext htext'
        exact ⟨c, hc, Bool.eq_false_iff.mpr hspace⟩

/-! ## Opening -/

theorem openLog_of_continues (h : Continues bytes) (timestamp : Timestamp) :
    openLog (some bytes) timestamp = .error .unicodeDecode ∨
      ∃ lastHash, openLog (some bytes) timestamp = .ok (some bytes, lastHash) := by
  have hfound := mt getLastHash_eq_nil_iff.mp (not_not.mpr h)
  rw [openLog]
  cases hlast : getLastHash (some bytes) with
  | error e =>
    cases e
    exact .inl rfl
  | ok lastHash =>
    rw [hlast] at hfound
    have hne : lastHash ≠ [] := fun hnil => hfound (congrArg Except.ok hnil)
    refine .inr ⟨lastHash, ?_⟩
    rw [ok_bind, if_neg hne]
    rfl

/-- A file without a hash is replaced by a new log. -/
theorem openLog_of_not_continues (h : ¬ Continues bytes) (timestamp : Timestamp) :
    openLog (some bytes) timestamp
      = .ok (logEvent (some (encodeUtf8 header)) [] (genesis timestamp)) := by
  rw [openLog, getLastHash_eq_nil_iff.mpr h, ok_bind, if_pos rfl]
  rfl

/-- Logging appends. -/
theorem exists_logAll (bytes : Bytes) (lastHash : Str) (es : List Event) :
    ∃ rest, (logAll (some bytes, lastHash) es).1 = some (bytes ++ rest) := by
  induction es generalizing bytes lastHash with
  | nil => exact ⟨[], congrArg some (append_nil bytes).symm⟩
  | cons e es ih =>
    obtain ⟨rest, hrest⟩ := ih (bytes ++ encodeUtf8 (fullLogEntry e lastHash)) (newHash e lastHash)
    exact ⟨encodeUtf8 (fullLogEntry e lastHash) ++ rest, hrest.trans (by rw [append_assoc])⟩

theorem kept_of_continues (h : Continues bytes) (timestamp : Timestamp) (es : List Event) :
    Kept bytes timestamp es := by
  rw [Kept]
  rcases openLog_of_continues h timestamp with hopen | ⟨lastHash, hopen⟩
  · rw [hopen]
    trivial
  · rw [hopen]
    exact exists_logAll bytes lastHash es

/-- The first line of the header. -/
def headerLine : Str := "# Audit Log - Chain of Custody Simulator" ++ ['\n']

/-- The file of a new log. -/
def newLog (timestamp : Timestamp) : Bytes :=
  encodeUtf8 header ++ encodeUtf8 (fullLogEntry (genesis timestamp) [])

/-- A new log in the place of the file. -/
theorem kept_nil_iff (h : ¬ Continues bytes) (timestamp : Timestamp) :
    Kept bytes timestamp [] ↔ bytes <+: newLog timestamp := by
  rw [Kept, openLog_of_not_continues h]
  constructor
  · rintro ⟨rest, hrest⟩
    exact ⟨rest, (Option.some.inj hrest).symm⟩
  · rintro ⟨rest, hrest⟩
    exact ⟨rest, congrArg some hrest.symm⟩

theorem kept_of_prefix {timestamp : Timestamp} (h : bytes <+: newLog timestamp) (es : List Event) :
    Kept bytes timestamp es := by
  by_cases hcontinues : Continues bytes
  · exact kept_of_continues hcontinues timestamp es
  · obtain ⟨rest, hrest⟩ := exists_logAll (newLog timestamp) (newHash (genesis timestamp) []) es
    obtain ⟨more, hmore⟩ := h
    rw [Kept, openLog_of_not_continues hcontinues]
    refine ⟨more ++ rest, hrest.trans ?_⟩
    rw [← hmore, append_assoc]

/-- Where the newlines of a text are. -/
theorem newline_cases {line rest before after : Bytes} (hline : 10 ∉ line)
    (h : before ++ 10 :: after <+: line ++ 10 :: rest) :
    after <+: rest ∨ ∃ before', before' ++ 10 :: after <+: rest := by
  obtain ⟨end_, hend⟩ := h
  rw [append_assoc] at hend
  rcases append_eq_append_iff.mp hend with ⟨gap, hgap, hafter⟩ | ⟨gap, hgap, hrest⟩
  · cases gap with
    | nil => exact .inl ⟨end_, (List.cons.inj hafter).2⟩
    | cons byte gap =>
      obtain rfl : 10 = byte := (List.cons.inj hafter).1
      exact absurd (hgap ▸ mem_append_right _ mem_cons_self) hline
  · cases gap with
    | nil => exact .inl ⟨end_, (List.cons.inj hrest).2.symm⟩
    | cons byte gap =>
      refine .inr ⟨gap, end_, ?_⟩
      rw [append_assoc]
      exact (List.cons.inj hrest).2.symm

/-- A new log, line by line. -/
theorem exists_newLog_eq (timestamp : Timestamp) : ∃ second first,
    newLog timestamp = encodeUtf8 headerLine ++ (35 :: second ++ 10 :: (71 :: first ++ [10])) ∧
      10 ∉ 35 :: second ∧ 10 ∉ 71 :: first := by
  obtain ⟨body, hbody, hnl, -⟩ := exists_body (noBreaks_genesis timestamp) hexText_nil
  obtain ⟨rest, rfl⟩ : ∃ rest, body = 'G' :: rest := by
    have hfull : 'G' :: _ = body ++ ['\n'] := hbody
    cases body with
    | nil => cases hfull
    | cons c rest => exact ⟨rest, by rw [← (List.cons.inj hfull).1]⟩
  refine ⟨encodeUtf8 (" Each entry is chained by hashing the previous entry's hash."),
    encodeUtf8 rest, ?_, ?_, newline_notMem_encodeUtf8 hnl⟩
  · have hheader : header = headerLine ++
        ('#' :: " Each entry is chained by hashing the previous entry's hash." ++ ['\n']) := by
      decide
    have hnewline : encodeUtf8 ['\n'] = [10] := by decide
    have hhash : ∀ text, encodeUtf8 ('#' :: text) = 35 :: encodeUtf8 text := fun _ => rfl
    have hcapital : ∀ text, encodeUtf8 ('G' :: text) = 71 :: encodeUtf8 text := fun _ => rfl
    rw [newLog, hbody, hheader, encodeUtf8_append, encodeUtf8_append, encodeUtf8_append, hnewline,
      hhash, hcapital, append_assoc, append_assoc, singleton_append]
  · decide

/-- In a new log a newline is followed by a line that is not blank. -/
theorem continues_of_header {timestamp : Timestamp} (h : bytes <+: newLog timestamp)
    (hnewline : 10 ∈ bytes.dropLast) : Continues bytes := by
  obtain ⟨before, line, rfl, hne, hline⟩ := exists_last_line hnewline
  obtain ⟨second, first, hlog, hsecond, hfirst⟩ := exists_newLog_eq timestamp
  obtain ⟨name, hheader, hname⟩ : ∃ name, encodeUtf8 headerLine = name ++ [10] ∧ 10 ∉ name :=
    ⟨encodeUtf8 "# Audit Log - Chain of Custody Simulator", by decide, by decide⟩
  have hstarts : ∀ {byte : UInt8} {rest : Bytes}, line <+: byte :: rest → byte ∈ line := by
    intro byte rest hhead
    obtain ⟨head, tail, rfl⟩ := exists_cons_of_ne_nil hne
    rw [(cons_prefix_cons.mp hhead).1]
    exact mem_cons_self
  have hmark : 35 ∈ line ∨ 71 ∈ line := by
    rw [hlog, hheader, append_assoc, singleton_append] at h
    rcases newline_cases hname h with hafter | ⟨before, h⟩
    · exact .inl (hstarts hafter)
    rcases newline_cases hsecond h with hafter | ⟨before, h⟩
    · exact .inr (hstarts hafter)
    rcases newline_cases hfirst h with hafter | ⟨before, h⟩
    · exact absurd (prefix_nil.mp hafter) hne
    · simp at h
  refine ⟨before, line, rfl, hne, hline, fun text htext => ?_⟩
  rw [← encodeUtf8_of_decodeUtf8 htext] at hmark
  rcases hmark with hmark | hmark
  · exact ⟨'#', mem_of_mem_encodeUtf8 (by decide) hmark, by decide⟩
  · exact ⟨'G', mem_of_mem_encodeUtf8 (by decide) hmark, by decide⟩

/-- **What opening a log keeps.**  Take a file with any bytes.  Whatever events are
logged after a new `AuditLog` was made on it, its bytes stay at the beginning (or making
the `AuditLog` raises): if and only if the file continues, or it is the beginning of the
first line that is written in its place. -/
theorem opening_keeps_iff (bytes : Bytes) :
    (∀ timestamp es, Kept bytes timestamp es) ↔
      Continues bytes ∨ bytes <+: encodeUtf8 headerLine := by
  constructor
  · intro h
    by_cases hcontinues : Continues bytes
    · exact .inl hcontinues
    right
    have hhead := (kept_nil_iff hcontinues noon).mp (h noon [])
    have hnewline : 10 ∉ bytes.dropLast := fun hmem => hcontinues (continues_of_header hhead hmem)
    obtain ⟨second, first, hlog, -⟩ := exists_newLog_eq noon
    have hheader : encodeUtf8 headerLine <+: newLog noon := hlog ▸ prefix_append _ _
    rcases prefix_or_prefix_of_prefix hhead hheader with hshort | ⟨rest, rfl⟩
    · exact hshort
    cases rest with
    | nil => exact append_nil _ ▸ prefix_refl _
    | cons byte rest =>
      rw [dropLast_append_of_ne_nil (cons_ne_nil _ _)] at hnewline
      exact absurd (mem_append_left _ (by decide)) hnewline
  · rintro (hcontinues | hhead) timestamp es
    · exact kept_of_continues hcontinues timestamp es
    · obtain ⟨second, first, hlog, -⟩ := exists_newLog_eq timestamp
      exact kept_of_prefix (hhead.trans (hlog ▸ prefix_append _ _)) es

/-- A log whose last line is blank. -/
def blankEnd : Bytes := encodeUtf8 "SHARE | alice | budget\n\n"

/-- The log is replaced by a new one. -/
theorem opening_destroys_blank_end : blankEnd ≠ [] ∧ ¬ Kept blankEnd noon [] := by
  refine ⟨by decide, ?_⟩
  have hblank : ¬ Continues blankEnd := by
    rw [← getLastHash_eq_nil_iff]
    decide
  rw [kept_nil_iff hblank]
  obtain ⟨second, first, hlog, -⟩ := exists_newLog_eq noon
  intro hhead
  have hshort := prefix_of_prefix_length_le hhead (hlog ▸ prefix_append _ _) (by decide)
  exact absurd hshort (by decide)

end TrustFlow.Audit
