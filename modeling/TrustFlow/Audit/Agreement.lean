import TrustFlow.Audit.FileLog

/-!
# Writer and verifier of the audit log

What `verify_log_integrity` says about a file that only `AuditLog` has written:
a fresh log, then any sequence of `log_event` calls and reopenings.

The writer puts its arguments on a line without escaping them, and the verifier
takes the line apart again.  For the text `e.text` an event contributes there
are three cases.

* *skipped*: the line starts with `#`, or the stripped text does not have five
  fields; the verifier passes over the line, although later lines chain to it.
* *faithful*: five fields, nothing stripped in front, and the last field does
  not run into the separator after it; the verifier recovers the line.
* otherwise the verifier reads something else than what was written.

`verify_run` states the outcome exactly: the log verifies if and only if its
events are faithful up to some point and skipped from there on.
-/

namespace TrustFlow.Audit

open Library List

/-! ## Runs of the writer -/

/-- A call on the log: an event, or a new `AuditLog` on the same directory. -/
inductive LogOp where
  | log (e : Event)
  | reopen (timestamp : Timestamp)

/-- One call. -/
def LogOp.step (state : LogFile × Str) : LogOp → Except LogError (LogFile × Str)
  | .log e => .ok (logEvent state.1 state.2 e)
  | .reopen timestamp => openLog state.1 timestamp

variable (timestamp : Timestamp) (ops : List LogOp)

/-- A fresh log and a sequence of calls. -/
def runLog : Except LogError (LogFile × Str) := do
  let state ← openLog none timestamp
  ops.foldlM LogOp.step state

/-- The events of a sequence of calls. -/
def events : List Event :=
  ops.filterMap fun
    | .log e => some e
    | .reopen _ => none

variable (e : Event)

/-- None of the arguments contains a line break. -/
def Event.NoBreaks : Prop :=
  ∀ field ∈ [e.eventType, e.actor, e.target, e.details], '\n' ∉ field ∧ '\r' ∉ field

/-! ## The three kinds of events -/

/-- The verifier passes over the event's line. -/
def Event.skipped : Bool :=
  ['#'].isPrefixOf e.text || decide ((split sep (lstrip e.text)).length ≠ 5)

/-- The verifier reads the event's line as it was written. -/
def Event.faithful : Bool :=
  !e.skipped && decide (lstrip e.text = e.text) &&
    decide (Clear sep ((split sep e.text).getLastD []))

/-- Faithful events up to some point, skipped events from there on. -/
def Agreeable (es : List Event) : Prop :=
  ∃ checked passed, es = checked ++ passed ∧ (∀ e ∈ checked, e.faithful = true) ∧
    ∀ e ∈ passed, e.skipped = true

/-! ## The text of the file -/

/-- The hash after a list of events. -/
def hashAfter : Str → List Event → Str
  | prev, [] => prev
  | prev, e :: es => hashAfter (newHash e prev) es

/-- The lines of a list of events. -/
def entryLines : Str → List Event → List Str
  | _, [] => []
  | prev, e :: es => fullLogEntry e prev :: entryLines (newHash e prev) es

theorem hashAfter_append (prev : Str) (es es' : List Event) :
    hashAfter prev (es ++ es') = hashAfter (hashAfter prev es) es' := by
  induction es generalizing prev with
  | nil => rfl
  | cons e es ih => exact ih (newHash e prev)

theorem entryLines_append (prev : Str) (es es' : List Event) :
    entryLines prev (es ++ es') = entryLines prev es ++ entryLines (hashAfter prev es) es' := by
  induction es generalizing prev with
  | nil => rfl
  | cons e es ih => rw [cons_append, entryLines, ih, entryLines, hashAfter, cons_append]

/-- The text of a log that holds the given events. -/
def logText (es : List Event) : Str := header ++ (entryLines [] es).flatten

/-! ## Hexadecimal texts -/

/-- A text of lower-case hexadecimal digits; the empty text is one. -/
def HexText (s : Str) : Prop := ∀ c ∈ s, ∃ d < 16, c = Nat.digitChar d

theorem hexText_nil : HexText [] := by rintro c ⟨⟩

theorem hexText_newHash (prev : Str) : HexText (newHash e prev) :=
  fun _ hc => mem_hexEncode hc

variable {prev s : Str} {e : Event} {es : List Event}

theorem hexText_hashAfter (hprev : HexText prev) (es : List Event) :
    HexText (hashAfter prev es) := by
  induction es generalizing prev with
  | nil => exact hprev
  | cons e es ih => exact ih (hexText_newHash e prev)

theorem HexText.isSpace_eq_false (hs : HexText s) {c : Char} (hc : c ∈ s) : isSpace c = false := by
  obtain ⟨d, hd, rfl⟩ := hs c hc
  exact isSpace_digitChar d hd

theorem HexText.ne_bar (hs : HexText s) {c : Char} (hc : c ∈ s) : c ≠ '|' := by
  obtain ⟨d, hd, rfl⟩ := hs c hc
  exact digitChar_ne_bar d hd

/-- Separators hold bars, and a hash holds none. -/
theorem HexText.not_infix (hs : HexText s) : ¬ sep <:+: s :=
  fun h => hs.ne_bar (h.subset (by decide : '|' ∈ sep)) rfl

/-- An occurrence of the separator ends in a blank, so the bar that closes a
field in front of a separator is not part of one. -/
theorem clear_of_notInfix (hs : ¬ sep <:+: s ++ [' ']) : Clear sep s := by
  intro hin
  have hin' : sep <:+: (s ++ [' ']) ++ ['|'] := by simpa [sep] using hin
  rcases infix_concat_iff.mp hin' with hsuffix | hin'
  · obtain ⟨front, heq⟩ := hsuffix
    have hlast := congrArg List.getLast? heq
    rw [sep, show ([' ', '|', ' '] : Str) = [' ', '|'] ++ [' '] from rfl, ← append_assoc,
      List.getLast?_concat, List.getLast?_concat] at hlast
    exact absurd hlast (by decide)
  · exact hs hin'

theorem clear_of_notMem (hs : '|' ∉ s) : Clear sep s := by
  refine clear_of_notInfix fun hin => ?_
  have hbar : '|' ∈ s ++ [' '] := hin.subset (by decide : '|' ∈ sep)
  rcases mem_append.mp hbar with h | h
  · exact hs h
  · exact absurd h (by decide)

theorem HexText.clear (hs : HexText s) : Clear sep s :=
  clear_of_notMem fun h => hs.ne_bar h rfl

/-- What is left of a hash after a separator that ran into the one in front. -/
theorem HexText.clear_bar (hs : HexText s) : Clear sep ('|' :: ' ' :: s) := by
  refine clear_of_notInfix fun hin => ?_
  rcases infix_cons_iff.mp hin with hprefix | hin
  · obtain ⟨rest, heq⟩ := hprefix
    exact absurd (List.cons.inj heq).1 (by decide)
  · have hbar : '|' ∈ ' ' :: (s ++ [' ']) := hin.subset (by decide : '|' ∈ sep)
    simp only [mem_cons, mem_append, not_mem_nil, or_false] at hbar
    rcases hbar with h | h | h
    · exact absurd h (by decide)
    · exact hs.ne_bar h rfl
    · exact absurd h (by decide)

/-! ## Taking a line apart -/

/-- A field that contains no separator runs into the one after it only by
ending in a blank and a bar. -/
theorem exists_of_not_clear {last : Str} (hlast : ¬ sep <:+: last) (hclear : ¬ Clear sep last) :
    ∃ q, last = q ++ [' ', '|'] := by
  have hin : sep <:+: last ++ [' '] := by
    by_contra h
    exact hclear (clear_of_notInfix h)
  rcases infix_concat_iff.mp hin with ⟨front, heq⟩ | hin
  · refine ⟨front, ?_⟩
    have hsep : front ++ sep = (front ++ [' ', '|']) ++ [' '] := by simp [sep]
    rw [hsep] at heq
    exact (append_inj_left' heq rfl).symm
  · exact absurd hin hlast

/-- **The fields of a line.**  Text in front, previous hash and hash: the fields
of the text are followed by the two hashes, unless the last field runs into the
separator. -/
theorem split_line (text : Str) {hash : Str} (hprev : HexText prev) (hhash : HexText hash) :
    ∃ init last, split sep text = init ++ [last] ∧
      ((Clear sep last ∧
          split sep (text ++ sep ++ prev ++ sep ++ hash) = init ++ [last, prev, hash]) ∨
        ∃ q, ¬ Clear sep last ∧
          split sep (text ++ sep ++ prev ++ sep ++ hash)
            = init ++ [q, '|' :: ' ' :: prev, hash]) := by
  have hsep : sep ≠ [] := by decide
  obtain ⟨init, last, hsplit, htext, hinit, hlast⟩ := split_spec hsep text
  refine ⟨init, last, hsplit, ?_⟩
  have htail : split sep (prev ++ sep ++ hash) = [prev, hash] := by
    rw [split_clear_append hsep hprev.clear, split_of_notInfix hhash.not_infix]
  by_cases hclear : Clear sep last
  · refine .inl ⟨hclear, ?_⟩
    have hline : text ++ sep ++ prev ++ sep ++ hash
        = init.flatMap (· ++ sep) ++ (last ++ sep ++ (prev ++ sep ++ hash)) := by
      rw [htext]
      simp only [append_assoc]
    rw [hline, split_flatMap_append hsep _ init hinit, split_clear_append hsep hclear, htail]
  · obtain ⟨q, hq⟩ := exists_of_not_clear hlast hclear
    refine .inr ⟨q, hclear, ?_⟩
    have hqclear : Clear sep q := by
      rw [Clear, show q ++ sep.dropLast = last from hq.symm]
      exact hlast
    have hline : text ++ sep ++ prev ++ sep ++ hash
        = init.flatMap (· ++ sep) ++ (q ++ sep ++ (('|' :: ' ' :: prev) ++ sep ++ hash)) := by
      rw [htext, hq]
      simp [sep]
    rw [hline, split_flatMap_append hsep _ init hinit, split_clear_append hsep hqclear,
      split_clear_append hsep hprev.clear_bar, split_of_notInfix hhash.not_infix]

/-- An event's text has a visible character. -/
theorem Event.exists_visible (e : Event) : ∃ c ∈ e.text, isSpace c = false :=
  ⟨'|', by simp [Event.text, sep], by decide⟩

/-- A hash in front of the line end is where stripping stops. -/
theorem strip_fullLogEntry (e : Event) (prev : Str) :
    strip (fullLogEntry e prev) = lstrip e.text ++ sep ++ prev ++ sep ++ newHash e prev := by
  obtain ⟨front, c, hhash⟩ : ∃ front c, newHash e prev = front ++ [c] :=
    ⟨_, _, (dropLast_append_getLast (sha256Hex_ne_nil _)).symm⟩
  have hc : isSpace c = false :=
    (hexText_newHash e prev).isSpace_eq_false (by rw [hhash]; simp)
  have hline : fullLogEntry e prev = (logEntryContent e prev ++ sep ++ front) ++ [c] ++ ['\n'] := by
    rw [fullLogEntry, hhash]
    simp
  rw [hline, strip_append_of_visible hc (all_iff_forall_prop.mp (by decide))]
  have hcontent : logEntryContent e prev ++ sep ++ front ++ [c]
      = e.text ++ (sep ++ prev ++ sep ++ newHash e prev) := by
    rw [logEntryContent, hhash]
    simp
  rw [hcontent, lstrip_append e.exists_visible]
  simp

/-- Whether a line is checked depends on the event only. -/
theorem checksLine_fullLogEntry (e : Event) (hprev : HexText prev) :
    checksLine (fullLogEntry e prev) = !e.skipped := by
  have hcomment : ['#'].isPrefixOf (fullLogEntry e prev) = ['#'].isPrefixOf e.text := by
    obtain ⟨c, hc, -⟩ := e.exists_visible
    obtain ⟨x, xs, hcons⟩ := exists_cons_of_ne_nil (ne_nil_of_mem hc)
    rw [fullLogEntry, logEntryContent, hcons]
    rfl
  have hlength : (split sep (strip (fullLogEntry e prev))).length
      = (split sep (lstrip e.text)).length + 2 := by
    rw [strip_fullLogEntry]
    obtain ⟨init, last, hsplit, ⟨-, hline⟩ | ⟨q, -, hline⟩⟩ :=
      split_line (lstrip e.text) hprev (hexText_newHash e prev)
    · rw [hline, hsplit]
      simp
    · rw [hline, hsplit]
      simp
  have hseven : ∀ n : ℕ, decide (n + 2 = 7) = !decide (n ≠ 5) := by
    intro n
    by_cases hn : n = 5 <;> simp [hn]
  rw [checksLine, hcomment, hlength, hseven, Event.skipped, Bool.not_or]

theorem exists_four {α : Type*} {l : List α} (hl : l.length = 4) : ∃ a b c d, l = [a, b, c, d] := by
  match l, hl with
  | [a, b, c, d], _ => exact ⟨a, b, c, d, rfl⟩

/-- The last field of an event's stripped text. -/
def Event.lastField (e : Event) : Str := (split sep (lstrip e.text)).getLastD []

/-- The entry the verifier reads on the line of an event. -/
theorem exists_entry_fullLogEntry (e : Event) (hprev : HexText prev) (hskip : e.skipped = false) :
    ∃ entry, entryOf (split sep (strip (fullLogEntry e prev))) = some entry ∧
      entry.entryHash = newHash e prev ∧
      (Clear sep e.lastField → entry.prevHash = prev ∧
        entry.hashedText = lstrip e.text ++ sep ++ prev) ∧
      (¬ Clear sep e.lastField → entry.prevHash = '|' :: ' ' :: prev) := by
  have hfive : (split sep (lstrip e.text)).length = 5 := by
    simp only [Event.skipped, Bool.or_eq_false_iff, decide_eq_false_iff_not, not_not] at hskip
    exact hskip.2
  rw [strip_fullLogEntry]
  obtain ⟨init, last, hsplit, hcases⟩ :=
    split_line (lstrip e.text) hprev (hexText_newHash e prev)
  have hlast : e.lastField = last := by simp [Event.lastField, hsplit]
  have hjoin : .intercalate sep (init ++ [last]) = lstrip e.text := by
    rw [← hsplit, intercalate_split (by decide)]
  rw [hsplit, length_append, length_singleton] at hfive
  obtain ⟨a, b, c, d, rfl⟩ := exists_four (by omega : init.length = 4)
  rw [hlast]
  rcases hcases with ⟨hclear, hline⟩ | ⟨q, hclear, hline⟩
  · refine ⟨⟨a, b, c, d, last, prev, newHash e prev⟩, by rw [hline]; rfl, rfl,
      fun _ => ⟨rfl, ?_⟩, fun h => absurd hclear h⟩
    rw [AuditEntry.hashedText, ← hjoin]
    simp [intercalate_cons_cons]
  · exact ⟨⟨a, b, c, d, q, '|' :: ' ' :: prev, newHash e prev⟩, by rw [hline]; rfl, rfl,
      fun h => absurd h hclear, fun _ => rfl⟩

/-! ## The verifier on one line -/

theorem verifyLines_skipped (hprev : HexText prev) (hskip : e.skipped = true) (current : Str)
    (lines : List Str) :
    verifyLines current (fullLogEntry e prev :: lines) = verifyLines current lines := by
  rw [verifyLines, checksLine_fullLogEntry e hprev, hskip]
  rfl

theorem Event.faithful_iff (e : Event) :
    e.faithful = true ↔ e.skipped = false ∧ lstrip e.text = e.text ∧ Clear sep e.lastField := by
  simp only [Event.faithful, Bool.and_eq_true, Bool.not_eq_true', decide_eq_true_eq, and_assoc,
    Event.lastField]
  constructor
  · rintro ⟨hskip, hstrip, hclear⟩
    exact ⟨hskip, hstrip, by rwa [hstrip]⟩
  · rintro ⟨hskip, hstrip, hclear⟩
    exact ⟨hskip, hstrip, by rwa [hstrip] at hclear⟩

/-- On the line of a faithful event the verifier compares the previous hashes
and goes on. -/
theorem verifyLines_faithful (hprev : HexText prev) (hfaithful : e.faithful = true) (current : Str)
    (lines : List Str) :
    verifyLines current (fullLogEntry e prev :: lines)
      = if prev ≠ current then false else verifyLines (newHash e prev) lines := by
  obtain ⟨hskip, hstrip, hclear⟩ := e.faithful_iff.mp hfaithful
  obtain ⟨entry, hentry, hhash, hgood, -⟩ := exists_entry_fullLogEntry e hprev hskip
  obtain ⟨hlink, htext⟩ := hgood hclear
  have hdigest : entry.digest = entry.entryHash := by
    rw [AuditEntry.digest, htext, hstrip, hhash]
    rfl
  rw [verifyLines, checksLine_fullLogEntry e hprev, hskip]
  simp only [Bool.not_false, if_true, hentry, hlink, hdigest, ne_eq, not_true_eq_false, if_false,
    hhash]

/-- The verifier stops at a line that is checked against another hash than the
one before it. -/
theorem verifyLines_of_ne (hprev : HexText prev) (hskip : e.skipped = false) {current : Str}
    (hcurrent : HexText current) (hne : prev ≠ current) (lines : List Str) :
    verifyLines current (fullLogEntry e prev :: lines) = false := by
  obtain ⟨entry, hentry, -, hgood, hbad⟩ := exists_entry_fullLogEntry e hprev hskip
  have hlink : entry.prevHash ≠ current := by
    by_cases hclear : Clear sep e.lastField
    · rw [(hgood hclear).1]
      exact hne
    · rw [hbad hclear]
      rintro rfl
      exact hcurrent.ne_bar mem_cons_self rfl
  rw [verifyLines, checksLine_fullLogEntry e hprev, hskip]
  simp only [Bool.not_false, if_true, hentry, hlink, ne_eq, not_false_eq_true]

/-- The verifier stops at a line it does not read back, unless the two texts
collide. -/
theorem verifyLines_mangled (hprev : HexText prev) (hskip : e.skipped = false)
    (hfaithful : e.faithful = false)
    (hcollide : sha256Hex (encodeUtf8 (lstrip e.text ++ sep ++ prev)) = newHash e prev →
      lstrip e.text = e.text) {current : Str} (hcurrent : HexText current) (lines : List Str) :
    verifyLines current (fullLogEntry e prev :: lines) = false := by
  by_cases hne : prev = current
  · obtain ⟨entry, hentry, hhash, hgood, hbad⟩ := exists_entry_fullLogEntry e hprev hskip
    rw [verifyLines, checksLine_fullLogEntry e hprev, hskip]
    simp only [Bool.not_false, if_true, hentry]
    by_cases hclear : Clear sep e.lastField
    · have hstrip : lstrip e.text ≠ e.text := by
        intro hstrip
        rw [(e.faithful_iff).mpr ⟨hskip, hstrip, hclear⟩] at hfaithful
        cases hfaithful
      have hdigest : entry.digest ≠ entry.entryHash := by
        rw [AuditEntry.digest, (hgood hclear).2, hhash]
        exact fun h => hstrip (hcollide h)
      simp only [hdigest, ne_eq, not_false_eq_true, if_true, ite_self]
    · have hlink : entry.prevHash ≠ current := by
        rw [hbad hclear]
        rintro rfl
        exact hcurrent.ne_bar mem_cons_self rfl
      simp only [hlink, ne_eq, not_false_eq_true, if_true]
  · exact verifyLines_of_ne hprev hskip hcurrent hne lines

/-! ## The verifier on all lines -/

/-- The bytes hashed when the events were written, and those the verifier would
hash after stripping. -/
def writtenBytes (es : List Event) : Set Bytes :=
  {bytes | ∃ before e after, es = before ++ e :: after ∧
    (bytes = encodeUtf8 (logEntryContent e (hashAfter [] before)) ∨
      bytes = encodeUtf8 (lstrip e.text ++ sep ++ hashAfter [] before))}

theorem verifyLines_all_skipped (hprev : HexText prev) (current : Str)
    (hskip : ∀ e ∈ es, e.skipped = true) : verifyLines current (entryLines prev es) = true := by
  induction es generalizing prev with
  | nil => rfl
  | cons e es ih =>
    rw [entryLines, verifyLines_skipped hprev (hskip e mem_cons_self)]
    exact ih (hexText_newHash e prev) fun e' he' => hskip e' (mem_cons_of_mem _ he')

/-- A list of agreeable events verifies. -/
theorem verifyLines_of_agreeable (hes : Agreeable es) (hprev : HexText prev) :
    verifyLines prev (entryLines prev es) = true := by
  obtain ⟨checked, passed, rfl, hchecked, hpassed⟩ := hes
  induction checked generalizing prev with
  | nil => exact verifyLines_all_skipped hprev prev hpassed
  | cons e checked ih =>
    rw [cons_append, entryLines, verifyLines_faithful hprev (hchecked e mem_cons_self),
      if_neg (not_not.mpr rfl)]
    exact ih (hexText_newHash e prev) fun e' he' => hchecked e' (mem_cons_of_mem _ he')

/-- The content of a line determines the event's text. -/
theorem text_eq_of_content_eq {e' : Event} {prev' : Str} (hprev : HexText prev)
    (hprev' : HexText prev') (h : logEntryContent e prev = logEntryContent e' prev') :
    e.text = e'.text := by
  -- the bar of the last separator is the last bar of the content
  have hspan : ∀ (text hash : Str), HexText hash →
      ((text ++ sep ++ hash).reverse.takeWhile (· ≠ '|')) = hash.reverse ++ [' '] := by
    intro text hash hhash
    have hrev : (text ++ sep ++ hash).reverse
        = (hash.reverse ++ [' ']) ++ ('|' :: ' ' :: text.reverse) := by simp [sep]
    rw [hrev, takeWhile_append_of_pos]
    · simp
    · intro c hc
      rcases mem_append.mp hc with hc | hc
      · exact decide_eq_true (hhash.ne_bar (mem_reverse.mp hc))
      · rw [mem_singleton.mp hc]
        decide
  have hlast := congrArg (fun s : Str => s.reverse.takeWhile (· ≠ '|')) h
  simp only [logEntryContent] at hlast h
  rw [hspan e.text prev hprev, hspan e'.text prev' hprev'] at hlast
  have hhash : prev = prev' := reverse_injective (append_inj_left' hlast rfl)
  rw [hhash, append_assoc, append_assoc] at h
  exact append_inj_left' h rfl

theorem skipped_congr {e' : Event} (h : e.text = e'.text) : e.skipped = e'.skipped := by
  rw [Event.skipped, Event.skipped, h]

section Collisions

variable {all : List Event} (hinj : Set.InjOn sha256Hex (writtenBytes all))

include hinj

/-- A stripped text that differs from the written one has another hash. -/
theorem lstrip_eq_of_hash_eq {before after : List Event} {e : Event}
    (hall : all = before ++ e :: after)
    (h : sha256Hex (encodeUtf8 (lstrip e.text ++ sep ++ hashAfter [] before))
      = newHash e (hashAfter [] before)) : lstrip e.text = e.text := by
  have hbytes := hinj ⟨before, e, after, hall, .inr rfl⟩ ⟨before, e, after, hall, .inl rfl⟩ h
  have htext := congrArg decodeUtf8 hbytes
  rw [decodeUtf8_encodeUtf8, decodeUtf8_encodeUtf8, Option.some_inj, logEntryContent,
    append_assoc, append_assoc] at htext
  exact append_inj_left' htext rfl

/-- Skipped lines leave the verifier with an old hash. -/
theorem hashAfter_ne {done passed rest : List Event} (hall : all = done ++ passed ++ rest)
    (hdone : ∀ e ∈ done, e.skipped = false) (hpassed : ∀ e ∈ passed, e.skipped = true)
    (hne : passed ≠ []) : hashAfter [] (done ++ passed) ≠ hashAfter [] done := by
  obtain ⟨passed, e, rfl⟩ := eq_nil_or_concat passed |>.resolve_left hne
  rw [concat_eq_append] at hall hpassed ⊢
  rw [← append_assoc, hashAfter_append]
  show newHash e (hashAfter [] (done ++ passed)) ≠ _
  cases done using List.reverseRecOn with
  | nil => exact sha256Hex_ne_nil _
  | append_singleton done e₀ =>
    rw [hashAfter_append [] done [e₀]]
    show _ ≠ newHash e₀ (hashAfter [] done)
    intro hhash
    have hbytes := hinj
      ⟨(done ++ [e₀]) ++ passed, e, rest, by rw [hall]; simp, .inl rfl⟩
      ⟨done, e₀, passed ++ [e] ++ rest, by rw [hall]; simp, .inl rfl⟩ hhash
    have htext := congrArg decodeUtf8 hbytes
    rw [decodeUtf8_encodeUtf8, decodeUtf8_encodeUtf8, Option.some_inj] at htext
    have hsame := skipped_congr (text_eq_of_content_eq (hexText_hashAfter hexText_nil _)
      (hexText_hashAfter hexText_nil _) htext)
    rw [hpassed e (by simp), hdone e₀ (by simp)] at hsame
    cases hsame

/-- After a skipped line only skipped lines let the log verify. -/
theorem all_skipped_of_verify {done : List Event} (hdone : ∀ e ∈ done, e.skipped = false) :
    ∀ (rest passed : List Event), all = done ++ passed ++ rest →
      (∀ e ∈ passed, e.skipped = true) → passed ≠ [] →
      verifyLines (hashAfter [] done) (entryLines (hashAfter [] (done ++ passed)) rest) = true →
      ∀ e ∈ rest, e.skipped = true := by
  intro rest
  induction rest with
  | nil => rintro passed - - - - e ⟨⟩
  | cons e rest ih =>
    intro passed hall hpassed hne hverify
    have hprev : HexText (hashAfter [] (done ++ passed)) := hexText_hashAfter hexText_nil _
    cases hskip : e.skipped with
    | false =>
      rw [entryLines, verifyLines_of_ne hprev hskip (hexText_hashAfter hexText_nil _)
        (hashAfter_ne hinj hall hdone hpassed hne)] at hverify
      cases hverify
    | true =>
      rw [entryLines, verifyLines_skipped hprev hskip] at hverify
      have hrest := ih (passed ++ [e]) (by rw [hall]; simp) (by
        intro e' he'
        rcases mem_append.mp he' with he' | he'
        · exact hpassed e' he'
        · rwa [mem_singleton.mp he']) (by simp) (by
        rw [← append_assoc, hashAfter_append]
        exact hverify)
      intro e' he'
      rcases mem_cons.mp he' with rfl | he'
      · exact hskip
      · exact hrest e' he'

/-- A list of events that verifies is agreeable. -/
theorem agreeable_of_verify :
    ∀ (rest done : List Event), all = done ++ rest → (∀ e ∈ done, e.faithful = true) →
      verifyLines (hashAfter [] done) (entryLines (hashAfter [] done) rest) = true →
      Agreeable rest := by
  intro rest
  induction rest with
  | nil => exact fun _ _ _ _ => ⟨[], [], rfl, by rintro e ⟨⟩, by rintro e ⟨⟩⟩
  | cons e rest ih =>
    intro done hall hdone hverify
    have hprev : HexText (hashAfter [] done) := hexText_hashAfter hexText_nil _
    cases hskip : e.skipped with
    | true =>
      rw [entryLines, verifyLines_skipped hprev hskip] at hverify
      have hrest := all_skipped_of_verify hinj
        (fun e' he' => ((e'.faithful_iff).mp (hdone e' he')).1) rest [e]
        (by rw [hall]; simp) (by simpa using hskip) (by simp) (by
          rw [hashAfter_append]
          exact hverify)
      refine ⟨[], e :: rest, rfl, by rintro e' ⟨⟩, fun e' he' => ?_⟩
      rcases mem_cons.mp he' with rfl | he'
      · exact hskip
      · exact hrest e' he'
    | false =>
      cases hfaithful : e.faithful with
      | false =>
        rw [entryLines, verifyLines_mangled hprev hskip hfaithful
          (lstrip_eq_of_hash_eq hinj hall) hprev] at hverify
        cases hverify
      | true =>
        rw [entryLines, verifyLines_faithful hprev hfaithful, if_neg (not_not.mpr rfl)] at hverify
        obtain ⟨checked, passed, hsplit, hchecked, hpassed⟩ := ih (done ++ [e])
          (by rw [hall]; simp) (by
            intro e' he'
            rcases mem_append.mp he' with he' | he'
            · exact hdone e' he'
            · rwa [mem_singleton.mp he']) (by
            rw [hashAfter_append]
            exact hverify)
        refine ⟨e :: checked, passed, by rw [hsplit]; rfl, fun e' he' => ?_, hpassed⟩
        rcases mem_cons.mp he' with rfl | he'
        · exact hfaithful
        · exact hchecked e' he'

end Collisions

/-! ## The file of a run -/

theorem NoBreaks.text (he : e.NoBreaks) : '\n' ∉ e.text ∧ '\r' ∉ e.text := by
  have htime : '\n' ∉ e.timestamp.1 ∧ '\r' ∉ e.timestamp.1 :=
    ⟨fun h => absurd (e.timestamp.2 _ h) (by decide), fun h => absurd (e.timestamp.2 _ h) (by decide)⟩
  simp only [Event.NoBreaks, forall_mem_cons, not_mem_nil, false_imp_iff, implies_true,
    and_true] at he
  simp [Event.text, sep, he, htime]

theorem noBreaks_genesis : (genesis timestamp).NoBreaks := by
  show ∀ field ∈ ["GENESIS".toList, "SYSTEM", "Log Initialized",
    "Initial state."], '\n' ∉ field ∧ '\r' ∉ field
  decide

/-- The line of an event is one line of the file. -/
theorem exists_body (he : e.NoBreaks) (hprev : HexText prev) :
    ∃ body, fullLogEntry e prev = body ++ ['\n'] ∧ '\n' ∉ body ∧ '\r' ∉ body := by
  have hhex : ∀ {s : Str}, HexText s → '\n' ∉ s ∧ '\r' ∉ s := fun hs =>
    ⟨fun h => absurd (hs.isSpace_eq_false h) (by decide),
      fun h => absurd (hs.isSpace_eq_false h) (by decide)⟩
  refine ⟨logEntryContent e prev ++ sep ++ newHash e prev, rfl, ?_, ?_⟩
  · simp [logEntryContent, sep, (NoBreaks.text he).1, (hhex hprev).1,
      (hhex (hexText_newHash e prev)).1]
  · simp [logEntryContent, sep, (NoBreaks.text he).2, (hhex hprev).2,
      (hhex (hexText_newHash e prev)).2]

variable (entries : List (Event × Str))

/-- The lines of events, each with the hash that it chains to. -/
def writtenLines : List Str :=
  entries.map fun entry => fullLogEntry entry.1 entry.2

/-- The text of a log with these lines. -/
def writtenText : Str := header ++ (writtenLines entries).flatten

/-- Every event is one line. -/
def Writable : Prop :=
  ∀ entry ∈ entries, entry.1.NoBreaks ∧ HexText entry.2

section

variable {entries : List (Event × Str)}

theorem writtenLines_complete (h : Writable entries) :
    ∀ line ∈ writtenLines entries, ∃ body, line = body ++ ['\n'] ∧ '\n' ∉ body ∧ '\r' ∉ body := by
  intro line hline
  obtain ⟨entry, hentry, rfl⟩ := mem_map.mp hline
  exact exists_body (h entry hentry).1 (h entry hentry).2

/-- The lines of a log file. -/
theorem fileLines_writtenText (h : Writable entries) :
    fileLines (encodeUtf8 (writtenText entries))
      = .ok (headerLines.map (· ++ ['\n']) ++ writtenLines entries) := by
  have hflat : writtenText entries = (headerLines.map (· ++ ['\n']) ++ writtenLines entries).flatten := by
    rw [writtenText, header, flatten_append, flatMap_def]
  rw [fileLines, decodeUtf8_encodeUtf8, hflat]
  refine congrArg Except.ok (readlines_flatten fun line hline => ?_)
  rcases mem_append.mp hline with hline | hline
  · obtain ⟨body, hbody, rfl⟩ := mem_map.mp hline
    have hheader : ∀ body ∈ headerLines, '\n' ∉ body ∧ '\r' ∉ body := by decide
    exact ⟨body, rfl, hheader body hbody⟩
  · exact writtenLines_complete h line hline

theorem verifyLogIntegrity_writtenText (h : Writable entries) :
    verifyLogIntegrity (some (encodeUtf8 (writtenText entries)))
      = .ok (verifyLines [] (writtenLines entries)) := by
  have hcomment : ∀ line ∈ headerLines.map (· ++ ['\n']), checksLine line = false := by decide
  rw [verifyLogIntegrity, fileLines_writtenText h]
  simp only [headerLines, map_cons, map_nil, forall_mem_cons] at hcomment ⊢
  show Except.ok (verifyLines [] (_ :: _ :: writtenLines entries)) = _
  rw [verifyLines, hcomment.1, verifyLines, hcomment.2.1]
  rfl

/-- One more line. -/
theorem writtenText_concat (entries : List (Event × Str)) (e : Event) (prev : Str) :
    writtenText (entries ++ [(e, prev)]) = writtenText entries ++ fullLogEntry e prev := by
  simp [writtenText, writtenLines]

/-- The text of a log ends a line. -/
theorem exists_writtenText_eq (entries : List (Event × Str)) :
    ∃ front, writtenText entries = front ++ ['\n'] := by
  cases entries using List.reverseRecOn with
  | nil => exact ⟨header.dropLast, by decide⟩
  | append_singleton entries entry =>
    rw [writtenText_concat, fullLogEntry, ← append_assoc]
    exact ⟨_, rfl⟩

/-- The last line of a text of complete lines. -/
theorem lastLine_append {a b : Bytes} (hb : (10 : UInt8) ∉ b) :
    lastLine (a ++ [10] ++ (b ++ [10])) = some (b ++ [10]) := by
  have hfront : (a ++ [10] ++ (b ++ [10])).dropLast.reverse = b.reverse ++ (10 :: a.reverse) := by
    rw [← append_assoc, dropLast_concat]
    simp
  have hall : ∀ x ∈ b.reverse, decide (x ≠ 10) = true := by
    intro x hx
    refine decide_eq_true fun h => hb ?_
    rw [← h]
    exact mem_reverse.mp hx
  have hlast : (a ++ [10] ++ (b ++ [10])).getLast? = some 10 := by
    rw [← append_assoc, List.getLast?_concat]
  rw [lastLine, hfront, hlast, dropWhile_append_of_pos hall, takeWhile_append_of_pos hall]
  simp

/-- An opened log continues from the hash on its last line. -/
theorem getLastHash_writtenText {e : Event} {prev : Str} (h : Writable (entries ++ [(e, prev)])) :
    getLastHash (some (encodeUtf8 (writtenText (entries ++ [(e, prev)])))) = .ok (newHash e prev) := by
  obtain ⟨hbreaks, hprev⟩ := h (e, prev) (mem_append_right _ (mem_singleton_self _))
  obtain ⟨body, hbody, hnl, -⟩ := exists_body hbreaks hprev
  obtain ⟨front, hfront⟩ := exists_writtenText_eq entries
  have hnewline : encodeUtf8 ['\n'] = [10] := by decide
  have hline : lastLine (encodeUtf8 (writtenText (entries ++ [(e, prev)])))
      = some (encodeUtf8 (fullLogEntry e prev)) := by
    rw [writtenText_concat, hfront, hbody, encodeUtf8_append, encodeUtf8_append, encodeUtf8_append,
      hnewline, lastLine_append (newline_notMem_encodeUtf8 hnl)]
  rw [getLastHash, Option.bind_some, hline]
  simp only [decodeUtf8_encodeUtf8, strip_fullLogEntry]
  obtain ⟨init, last, -, ⟨-, hsplit⟩ | ⟨q, -, hsplit⟩⟩ :=
    split_line (lstrip e.text) hprev (hexText_newHash e _)
  · rw [hsplit]
    simp
  · rw [hsplit]
    simp

end

/-- Each event with the hash of the one before it. -/
def linked : Str → List Event → List (Event × Str)
  | _, [] => []
  | prev, e :: es => (e, prev) :: linked (newHash e prev) es

theorem linked_append (prev : Str) (es es' : List Event) :
    linked prev (es ++ es') = linked prev es ++ linked (hashAfter prev es) es' := by
  induction es generalizing prev with
  | nil => rfl
  | cons e es ih => rw [cons_append, linked, ih, linked, hashAfter, cons_append]

theorem entryLines_eq (prev : Str) (es : List Event) :
    entryLines prev es = writtenLines (linked prev es) := by
  induction es generalizing prev with
  | nil => rfl
  | cons e es ih => exact congrArg (fullLogEntry e prev :: ·) (ih (newHash e prev))

theorem logText_eq (es : List Event) : logText es = writtenText (linked [] es) := by
  rw [logText, writtenText, entryLines_eq]

section

variable (hes : ∀ e ∈ es, e.NoBreaks)
include hes

theorem writable_linked (hprev : HexText prev) : Writable (linked prev es) := by
  induction es generalizing prev with
  | nil => exact fun entry hentry => absurd hentry not_mem_nil
  | cons e es ih =>
    refine forall_mem_cons.mpr ⟨⟨hes e mem_cons_self, hprev⟩, ?_⟩
    exact ih (fun e' he' => hes e' (mem_cons_of_mem _ he')) (hexText_newHash e prev)

theorem verifyLogIntegrity_logText :
    verifyLogIntegrity (some (encodeUtf8 (logText es)))
      = .ok (verifyLines [] (entryLines [] es)) := by
  rw [logText_eq, entryLines_eq]
  exact verifyLogIntegrity_writtenText (writable_linked hes hexText_nil)

/-- A reopened log continues from the hash it had reached. -/
theorem getLastHash_logText (hne : es ≠ []) :
    getLastHash (some (encodeUtf8 (logText es))) = .ok (hashAfter [] es) := by
  obtain ⟨es, e, rfl⟩ := eq_nil_or_concat es |>.resolve_left hne
  have hwritable := writable_linked hes hexText_nil
  rw [concat_eq_append, linked_append] at hwritable
  rw [concat_eq_append, logText_eq, linked_append, hashAfter_append]
  exact getLastHash_writtenText hwritable

end

/-- **The state of a run.**  After any sequence of calls the file holds the lines
of the events so far, and the object the hash they end in. -/
theorem runLog_eq
    (hops : ∀ e ∈ events ops, e.NoBreaks) :
    runLog timestamp ops = .ok (some (encodeUtf8 (logText (genesis timestamp :: events ops))),
      hashAfter [] (genesis timestamp :: events ops)) := by
  induction ops using List.reverseRecOn with
  | nil =>
    have hstart : openLog none timestamp
        = .ok (logEvent (some (encodeUtf8 header)) [] (genesis timestamp)) := rfl
    have hnone : events [] = [] := rfl
    rw [runLog, hstart, ok_bind, foldlM_nil, pure_eq_ok, logEvent, hnone, logText,
      entryLines, entryLines, hashAfter, hashAfter, flatten_cons, flatten_nil,
      append_nil, encodeUtf8_append, Option.getD_some]
  | append_singleton ops op ih =>
    have hevents : events (ops ++ [op]) = events ops ++ events [op] := filterMap_append
    have hbefore := ih fun e he => hops e (by rw [hevents]; simp [he])
    have hrun : runLog timestamp (ops ++ [op])
        = LogOp.step (some (encodeUtf8 (logText (genesis timestamp :: events ops))),
            hashAfter [] (genesis timestamp :: events ops)) op := by
      rw [runLog] at hbefore ⊢
      obtain ⟨state, hopen, hfold⟩ := bind_eq_ok.mp hbefore
      rw [hopen, ok_bind, foldlM_append, hfold, ok_bind, foldlM_cons]
      cases LogOp.step _ op <;> rfl
    rw [hrun, hevents]
    cases op with
    | log e =>
      have hone : events [.log e] = [e] := rfl
      rw [LogOp.step, hone, logEvent, ← cons_append, hashAfter_append, logText, logText,
        entryLines_append, flatten_append, ← append_assoc, Option.getD_some]
      simp only [entryLines, hashAfter, flatten_cons, flatten_nil, append_nil, encodeUtf8_append]
    | reopen t =>
      have hone : events [.reopen t] = [] := rfl
      have hall : ∀ e ∈ genesis timestamp :: events ops, e.NoBreaks := by
        intro e he
        rcases mem_cons.mp he with rfl | he
        · exact noBreaks_genesis timestamp
        · exact hops e (by rw [hevents]; simp [he])
      have hlast : hashAfter [] (genesis timestamp :: events ops) ≠ [] := by
        rw [hashAfter]
        cases events ops using List.reverseRecOn with
        | nil => exact sha256Hex_ne_nil _
        | append_singleton es e =>
          rw [hashAfter_append]
          exact sha256Hex_ne_nil _
      rw [hone, append_nil, LogOp.step, openLog,
        getLastHash_logText hall (cons_ne_nil _ _), ok_bind, if_neg hlast]
      rfl

/-! ## The outcome -/

/-- The first event of a log is read back as written. -/
theorem faithful_genesis : (genesis timestamp).faithful = true := by
  have hbar : '|' ∉ timestamp.1 := fun h => absurd (timestamp.2 _ h) (by decide)
  have htext : (genesis timestamp).text
      = (["GENESIS".toList, "SYSTEM", "Log Initialized", timestamp.1].flatMap
          (· ++ sep)) ++ "Initial state." := by
    show "GENESIS" ++ sep ++ "SYSTEM" ++ sep ++ "Log Initialized" ++ sep
      ++ timestamp.1 ++ sep ++ "Initial state." = _
    simp only [flatMap_cons, flatMap_nil, append_nil, append_assoc]
  have hsplit : split sep (genesis timestamp).text
      = ["GENESIS".toList, "SYSTEM", "Log Initialized", timestamp.1, "Initial state."] := by
    rw [htext]
    refine split_flatMap (by decide) (fun p hp => ?_) (by decide)
    refine clear_of_notMem ?_
    simp only [mem_cons, not_mem_nil, or_false] at hp
    rcases hp with rfl | rfl | rfl | rfl
    exacts [by decide, by decide, by decide, hbar]
  have hstrip : lstrip (genesis timestamp).text = (genesis timestamp).text := rfl
  have hskip : (genesis timestamp).skipped = false := by
    rw [Event.skipped, hstrip, hsplit]
    rfl
  refine ((genesis timestamp).faithful_iff).mpr ⟨hskip, hstrip, ?_⟩
  rw [Event.lastField, hstrip, hsplit]
  show Clear sep "Initial state."
  decide

theorem agreeable_cons_iff (he : e.faithful = true) : Agreeable (e :: es) ↔ Agreeable es := by
  constructor
  · rintro ⟨checked, passed, hsplit, hchecked, hpassed⟩
    cases checked with
    | nil =>
      rw [nil_append] at hsplit
      have hskip := hpassed e (hsplit ▸ mem_cons_self)
      rw [((e.faithful_iff).mp he).1] at hskip
      cases hskip
    | cons e' checked =>
      rw [cons_append, List.cons.injEq] at hsplit
      exact ⟨checked, passed, hsplit.2, fun x hx => hchecked x (mem_cons_of_mem _ hx), hpassed⟩
  · rintro ⟨checked, passed, rfl, hchecked, hpassed⟩
    refine ⟨e :: checked, passed, rfl, fun x hx => ?_, hpassed⟩
    rcases mem_cons.mp hx with rfl | hx
    · exact he
    · exact hchecked x hx

/-- **When the verifier agrees with the writer.**  Start from a fresh log and
make any sequence of `log_event` calls, with arguments free of line breaks, and
reopenings.  The calls succeed.  The log verifies if its events are faithful up
to some point and skipped from there on, and only then, unless SHA-256 collides
on the texts hashed. -/
theorem verify_run
    (hops : ∀ e ∈ events ops, e.NoBreaks) :
    ∃ file lastHash, runLog timestamp ops = .ok (file, lastHash) ∧
      (Agreeable (events ops) → verifyLogIntegrity file = .ok true) ∧
      (Set.InjOn sha256Hex (writtenBytes (genesis timestamp :: events ops)) →
        (verifyLogIntegrity file = .ok true ↔ Agreeable (events ops))) := by
  have hall : ∀ e ∈ genesis timestamp :: events ops, e.NoBreaks := by
    intro e he
    rcases mem_cons.mp he with rfl | he
    · exact noBreaks_genesis timestamp
    · exact hops e he
  have hverify : verifyLogIntegrity
      (some (encodeUtf8 (logText (genesis timestamp :: events ops)))) = .ok true ↔
      verifyLines [] (entryLines [] (genesis timestamp :: events ops)) = true := by
    rw [verifyLogIntegrity_logText hall, Except.ok.injEq]
  have hsound : Agreeable (events ops) → verifyLogIntegrity
      (some (encodeUtf8 (logText (genesis timestamp :: events ops)))) = .ok true := by
    intro hagree
    exact hverify.mpr (verifyLines_of_agreeable
      ((agreeable_cons_iff (faithful_genesis timestamp)).mpr hagree) hexText_nil)
  refine ⟨_, _, runLog_eq timestamp ops hops, hsound, fun hinj => ⟨fun h => ?_, hsound⟩⟩
  exact (agreeable_cons_iff (faithful_genesis timestamp)).mp
    (agreeable_of_verify hinj _ [] rfl (by rintro e ⟨⟩) (hverify.mp h))

/-- A time for examples. -/
def noon : Timestamp := ⟨"2026-01-01T12:00:00+00:00", List.all_iff_forall_prop.mp (by decide)⟩

/-- The call `log_event("SHARE", "alice", "budget")`, and the log reopened. -/
def plainOps : List LogOp :=
  [.log ⟨"SHARE", "alice", "budget", noon, []⟩, .reopen noon]

/-- An ordinary event, in a log that is opened twice. -/
theorem verify_run_plain_event :
    ∃ file lastHash, runLog noon plainOps = .ok (file, lastHash) ∧
      verifyLogIntegrity file = .ok true := by
  have hops : ∀ e ∈ events plainOps, e.NoBreaks := by
    simp only [Event.NoBreaks]
    decide
  obtain ⟨file, lastHash, hrun, hverify, -⟩ := verify_run noon plainOps hops
  refine ⟨file, lastHash, hrun, hverify ?_⟩
  exact ⟨events plainOps, [], (append_nil _).symm, by decide, by rintro e ⟨⟩⟩

/-- The calls `log_event("SHARE", "alice", "budget | draft")` and
`log_event("ACCESS", "bob", "budget")`. -/
def separatorOps : List LogOp :=
  [.log ⟨"SHARE", "alice", "budget | draft", noon, []⟩, .log ⟨"ACCESS", "bob", "budget", noon, []⟩]

/-- A target with a separator in it, and an ordinary event after it: the line with the target
is passed over, and the next one chains to it. -/
theorem verify_run_fails_on_separator :
    ∃ file lastHash, runLog noon separatorOps = .ok (file, lastHash) ∧
      verifyLogIntegrity file = .ok false := by
  have hops : ∀ e ∈ events separatorOps, e.NoBreaks := by
    simp only [Event.NoBreaks]
    decide
  have hall : ∀ e ∈ genesis noon :: events separatorOps, e.NoBreaks :=
    forall_mem_cons.mpr ⟨noBreaks_genesis noon, hops⟩
  refine ⟨_, _, runLog_eq noon separatorOps hops, ?_⟩
  rw [verifyLogIntegrity_logText hall]
  decide +kernel

end TrustFlow.Audit
