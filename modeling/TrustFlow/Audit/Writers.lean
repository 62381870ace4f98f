import TrustFlow.Audit.Agreement

/-!
# Several writers of one audit log

All `AuditLog` objects on a directory append to the same file.  An object reads the hash
on the last line when it is made, and from then on remembers the hash of the last line
that it wrote itself.  So a line of one object is chained to the file as that object
knows it, not to what another one has written since.

* `Writers` — the file, and `last_hash` of the objects.
* `Ledger` — what the file holds: events, each with the hash it was chained to
  (`runWriters_eq`).
* `InTurn` — a call that the verifier accepts: the line chains to the last line that is
  checked, or is not checked itself.
* `verify_writers` — the log verifies if and only if every call was made in turn.
-/

namespace TrustFlow.Audit

open Library List

/-! ## Writers -/

/-- The log file, and `last_hash` of the objects that were made on its directory. -/
structure Writers where
  file : LogFile
  lastHashes : List Str

/-- A call: a new `AuditLog`, or `log_event` of one of them. -/
inductive WriterOp where
  | init (timestamp : Timestamp)
  | log (writer : ℕ) (e : Event)

/-- One call. -/
def WriterOp.step (s : Writers) : WriterOp → Except LogError Writers
  | .init timestamp => do
      let (file, lastHash) ← openLog s.file timestamp
      return ⟨file, s.lastHashes ++ [lastHash]⟩
  | .log writer e =>
    match s.lastHashes[writer]? with
    | none => return s
    | some lastHash =>
      let (file, newHash) := logEvent s.file lastHash e
      return ⟨file, s.lastHashes.set writer newHash⟩

/-- The arguments of the call contain no line break. -/
def WriterOp.NoBreaks : WriterOp → Prop
  | .init _ => True
  | .log _ e => e.NoBreaks

variable (timestamp : Timestamp) (ops : List WriterOp)

/-- A first object on an empty directory, and any calls after that. -/
def runWriters : Except LogError Writers :=
  (WriterOp.init timestamp :: ops).foldlM WriterOp.step ⟨none, []⟩

/-- The hash on the last line that `verify_log_integrity` checks. -/
def storedHash (file : LogFile) : Str :=
  match file.map fileLines with
  | some (.ok lines) => lastHash AuditEntry.entryHash [] (checkedEntries lines)
  | _ => []

/-- The line that the call writes is passed over by the verifier, or it is read back as
written and the object knows the hash on the last line that is checked. -/
def InTurn (s : Writers) : WriterOp → Prop
  | .init _ => True
  | .log writer e => ∀ lastHash ∈ s.lastHashes[writer]?,
      e.skipped = true ∨ e.faithful = true ∧ lastHash = storedHash s.file

/-- Every call is made in turn. -/
def AllInTurn : Prop :=
  ∀ before op after, ops = before ++ op :: after → ∀ s, runWriters timestamp before = .ok s → InTurn s op

/-! ## What the file holds -/

/-- The events in the file, each with the hash it was chained to, and the hashes that
the objects remember. -/
structure Ledger where
  entries : List (Event × Str)
  lastHashes : List Str

namespace Ledger

/-- The hash on the last line. -/
def lastHash (ledger : Ledger) : Str :=
  (ledger.entries.getLast?.map fun entry => newHash entry.1 entry.2).getD []

/-- One call. -/
def step (ledger : Ledger) : WriterOp → Ledger
  | .init _ => { ledger with lastHashes := ledger.lastHashes ++ [ledger.lastHash] }
  | .log writer e =>
    match ledger.lastHashes[writer]? with
    | none => ledger
    | some prev => ⟨ledger.entries ++ [(e, prev)], ledger.lastHashes.set writer (newHash e prev)⟩

/-- A first object on an empty directory. -/
def start : Ledger :=
  ⟨[(genesis timestamp, [])], [newHash (genesis timestamp) []]⟩

/-- The ledger after any calls. -/
def after : Ledger := ops.foldl step (start timestamp)

theorem after_concat (op : WriterOp) :
    after timestamp (ops ++ [op]) = (after timestamp ops).step op := foldl_concat _ _ _ _

/-- The file and the objects. -/
def writers (ledger : Ledger) : Writers :=
  ⟨some (encodeUtf8 (writtenText ledger.entries)), ledger.lastHashes⟩

/-- A log that was made by writers: there is a last line, every event is one line, and
hashes are hexadecimal. -/
structure Proper (ledger : Ledger) : Prop where
  nonempty : ledger.entries ≠ []
  writable : Writable ledger.entries
  hex : ∀ hash ∈ ledger.lastHashes, HexText hash

theorem proper_start : (start timestamp).Proper where
  nonempty := cons_ne_nil _ _
  writable := forall_mem_singleton.mpr ⟨noBreaks_genesis timestamp, hexText_nil⟩
  hex := forall_mem_singleton.mpr (hexText_newHash _ _)

/-- One call, on the ledger and on the file. -/
theorem Proper.step_writers {ledger : Ledger} (h : ledger.Proper) {op : WriterOp} (hop : op.NoBreaks) :
    op.step ledger.writers = .ok (ledger.step op).writers ∧ (ledger.step op).Proper := by
  cases op with
  | init timestamp =>
    obtain ⟨entries, ⟨e, prev⟩, hentries⟩ := eq_nil_or_concat ledger.entries |>.resolve_left
      h.nonempty
    rw [concat_eq_append] at hentries
    have hwritable := h.writable
    rw [hentries] at hwritable
    have hlast : ledger.lastHash = newHash e prev := by
      rw [lastHash, hentries, List.getLast?_concat]
      rfl
    have hne : newHash e prev ≠ [] := sha256Hex_ne_nil _
    have hopen : openLog ledger.writers.file timestamp
        = .ok (ledger.writers.file, ledger.lastHash) := by
      rw [openLog, writers, hentries, getLastHash_writtenText hwritable, ok_bind, if_neg hne, hlast]
      rfl
    refine ⟨?_, h.nonempty, h.writable, fun hash hhash => ?_⟩
    · rw [WriterOp.step, hopen, ok_bind]
      rfl
    · rcases mem_append.mp hhash with hhash | hhash
      · exact h.hex hash hhash
      · rw [mem_singleton.mp hhash, hlast]
        exact hexText_newHash e prev
  | log writer e =>
    cases hget : ledger.lastHashes[writer]? with
    | none =>
      have hsame : ledger.step (.log writer e) = ledger := by
        rw [step, hget]
      have hsame' : (WriterOp.log writer e).step ledger.writers = .ok ledger.writers := by
        rw [WriterOp.step, writers, hget]
        rfl
      rw [hsame]
      exact ⟨hsame', h⟩
    | some prev =>
      have hnext : ledger.step (.log writer e)
          = ⟨ledger.entries ++ [(e, prev)], ledger.lastHashes.set writer (newHash e prev)⟩ := by
        rw [step, hget]
      have hprev := h.hex prev (mem_of_getElem? hget)
      rw [hnext]
      refine ⟨?_, append_ne_nil_of_right_ne_nil _ (cons_ne_nil _ _), ?_, fun hash hhash => ?_⟩
      · rw [WriterOp.step, writers, hget]
        show Except.ok (⟨some (encodeUtf8 (writtenText ledger.entries)
          ++ encodeUtf8 (fullLogEntry e prev)), _⟩ : Writers) = _
        rw [← encodeUtf8_append, ← writtenText_concat]
        rfl
      · exact forall_mem_append.mpr ⟨h.writable, forall_mem_singleton.mpr ⟨hop, hprev⟩⟩
      · rcases mem_or_eq_of_mem_set hhash with hhash | rfl
        · exact h.hex hash hhash
        · exact hexText_newHash e prev

end Ledger

/-- **The state after any calls.** -/
theorem runWriters_eq {ops : List WriterOp} (hops : ∀ op ∈ ops, op.NoBreaks) :
    runWriters timestamp ops = .ok (Ledger.after timestamp ops).writers ∧
      (Ledger.after timestamp ops).Proper := by
  induction ops using List.reverseRecOn with
  | nil =>
    have hopen : openLog none timestamp
        = .ok (logEvent (some (encodeUtf8 header)) [] (genesis timestamp)) := rfl
    have htext : writtenText [(genesis timestamp, [])]
        = header ++ fullLogEntry (genesis timestamp) [] := by
      simp [writtenText, writtenLines]
    refine ⟨?_, Ledger.proper_start timestamp⟩
    rw [runWriters, foldlM_cons, WriterOp.step, hopen, ok_bind, Ledger.after, foldl_nil,
      Ledger.writers, Ledger.start, htext, encodeUtf8_append]
    rfl
  | append_singleton ops op ih =>
    obtain ⟨hrun, hproper⟩ := ih fun op' hop' => hops op' (mem_append_left _ hop')
    obtain ⟨hstep, hproper'⟩ := hproper.step_writers (hops op (by simp))
    rw [runWriters, ← cons_append, foldlM_append]
    rw [runWriters] at hrun
    rw [hrun, ok_bind, foldlM_cons, hstep, ok_bind, foldlM_nil, Ledger.after_concat]
    exact ⟨rfl, hproper'⟩

/-! ## The verifier, call by call -/

/-- The bytes that were hashed when the lines were written, and those that the verifier
would hash after stripping. -/
def hashedFor (entries : List (Event × Str)) : Set Bytes :=
  {bytes | ∃ entry ∈ entries, bytes = encodeUtf8 (logEntryContent entry.1 entry.2) ∨
    bytes = encodeUtf8 (lstrip entry.1.text ++ sep ++ entry.2)}

section

variable {entries : List (Event × Str)}

/-- The hash on the last line that is checked, in a log made by writers. -/
def chainHash (entries : List (Event × Str)) : Str :=
  lastHash AuditEntry.entryHash [] (checkedEntries (writtenLines entries))

theorem storedHash_writtenText (h : Writable entries) :
    storedHash (some (encodeUtf8 (writtenText entries))) = chainHash entries := by
  have hcomment : checkedEntries (headerLines.map (· ++ ['\n'])) = [] := by decide
  rw [storedHash, Option.map_some, fileLines_writtenText h]
  show lastHash _ [] (checkedEntries (_ ++ _)) = _
  rw [checkedEntries, filterMap_append]
  exact congrArg (fun before => lastHash AuditEntry.entryHash [] (before ++ _)) hcomment

theorem hexText_chainHash (h : Writable entries) : HexText (chainHash entries) := by
  rw [chainHash, lastHash]
  cases hlast : (checkedEntries (writtenLines entries)).getLast? with
  | none => exact hexText_nil
  | some entry =>
    obtain ⟨line, hline, hread⟩ := mem_filterMap.mp (mem_of_getLast? hlast)
    obtain ⟨⟨e, prev⟩, hentry, rfl⟩ := mem_map.mp hline
    have hprev := (h _ hentry).2
    rw [checksLine_fullLogEntry e hprev] at hread
    cases hskip : e.skipped with
    | true =>
      rw [hskip] at hread
      cases hread
    | false =>
      obtain ⟨entry', hentry', hhash, -⟩ := exists_entry_fullLogEntry e hprev hskip
      rw [hskip, Bool.not_false, if_pos rfl, hentry'] at hread
      obtain rfl := Option.some.inj hread
      show HexText entry'.entryHash
      rw [hhash]
      exact hexText_newHash e prev

/-- One more line: the verifier compares it with the last line that it has checked. -/
theorem verifyLines_writtenLines_concat (entries : List (Event × Str)) (e : Event) (prev : Str) :
    verifyLines [] (writtenLines (entries ++ [(e, prev)])) = true ↔
      verifyLines [] (writtenLines entries) = true ∧
        verifyLines (chainHash entries) [fullLogEntry e prev] = true := by
  rw [verifyLines_eq_true_iff, verifyLines_eq_true_iff, verifyLines_eq_true_iff, writtenLines,
    map_append, checkedEntries, filterMap_append, hashChain_append]
  rfl

/-- What the verifier accepts as the next line. -/
theorem verifyLines_singleton_of {e : Event} {prev current : Str} (hprev : HexText prev)
    (h : e.skipped = true ∨ e.faithful = true ∧ prev = current) :
    verifyLines current [fullLogEntry e prev] = true := by
  rcases h with hskip | ⟨hfaithful, rfl⟩
  · rw [verifyLines_skipped hprev hskip]
    rfl
  · rw [verifyLines_faithful hprev hfaithful, if_neg (not_not.mpr rfl)]
    rfl

theorem inTurn_of_verifyLines_singleton {e : Event} {prev current : Str} (hprev : HexText prev)
    (hcurrent : HexText current)
    (hcollide : sha256Hex (encodeUtf8 (lstrip e.text ++ sep ++ prev)) = newHash e prev →
      lstrip e.text = e.text)
    (h : verifyLines current [fullLogEntry e prev] = true) :
    e.skipped = true ∨ e.faithful = true ∧ prev = current := by
  cases hskip : e.skipped with
  | true => exact .inl rfl
  | false =>
    refine .inr ⟨?_, ?_⟩
    · by_contra hfaithful
      rw [verifyLines_mangled hprev hskip (Bool.eq_false_of_not_eq_true hfaithful) hcollide hcurrent] at h
      cases h
    · by_contra hne
      rw [verifyLines_of_ne hprev hskip hcurrent hne] at h
      cases h

/-- The hash that the next object to write has to know. -/
theorem chainHash_concat_faithful {e : Event} {prev : Str} (hprev : HexText prev)
    (hfaithful : e.faithful = true) : chainHash (entries ++ [(e, prev)]) = newHash e prev := by
  obtain ⟨hskip, -, -⟩ := e.faithful_iff.mp hfaithful
  obtain ⟨entry, hentry, hhash, -⟩ := exists_entry_fullLogEntry e hprev hskip
  have hline : checkedEntries [fullLogEntry e prev] = [entry] := by
    rw [checkedEntries, filterMap_cons, checksLine_fullLogEntry e hprev, hskip, Bool.not_false,
      if_pos rfl, hentry]
    rfl
  rw [chainHash, writtenLines, map_append, checkedEntries, filterMap_append]
  show lastHash _ _ (_ ++ checkedEntries [fullLogEntry e prev]) = _
  rw [hline, lastHash_concat, hhash]

end

namespace Ledger

/-- The verifier accepts the lines. -/
def Verified (ledger : Ledger) : Prop := verifyLines [] (writtenLines ledger.entries) = true

section

variable {ledger : Ledger} (h : ledger.Proper)
include h

theorem Proper.verifyLogIntegrity_iff :
    verifyLogIntegrity ledger.writers.file = .ok true ↔ ledger.Verified := by
  rw [writers, verifyLogIntegrity_writtenText h.writable, Except.ok.injEq, Verified]

/-- A call in turn, in terms of the lines. -/
theorem Proper.inTurn_log_iff {writer : ℕ} {e : Event} {prev : Str}
    (hprev : ledger.lastHashes[writer]? = some prev) :
    InTurn ledger.writers (.log writer e) ↔
      e.skipped = true ∨ e.faithful = true ∧ prev = chainHash ledger.entries := by
  show (∀ lastHash ∈ ledger.lastHashes[writer]?, _) ↔ _
  rw [hprev, writers, storedHash_writtenText h.writable]
  exact ⟨fun hturn => hturn prev rfl, fun hturn lastHash hlast => Option.some.inj hlast ▸ hturn⟩

/-- **One call.**  The log verifies after a call in turn if it did before, and only
then, unless SHA-256 collides. -/
theorem Proper.verified_step (op : WriterOp) :
    (ledger.Verified → InTurn ledger.writers op → (ledger.step op).Verified) ∧
      (Set.InjOn sha256Hex (hashedFor (ledger.step op).entries) → (ledger.step op).Verified →
        ledger.Verified ∧ InTurn ledger.writers op) := by
  cases op with
  | init timestamp => exact ⟨fun hverified _ => hverified, fun _ hverified => ⟨hverified, trivial⟩⟩
  | log writer e =>
    cases hget : ledger.lastHashes[writer]? with
    | none =>
      have hsame : ledger.step (.log writer e) = ledger := by
        rw [step, hget]
      have hturn : InTurn ledger.writers (.log writer e) := by
        intro lastHash hlast
        rw [writers, hget] at hlast
        cases hlast
      rw [hsame]
      exact ⟨fun hverified _ => hverified, fun _ hverified => ⟨hverified, hturn⟩⟩
    | some prev =>
      have hentries : (ledger.step (.log writer e)).entries = ledger.entries ++ [(e, prev)] := by
        rw [step, hget]
      have hprev := h.hex prev (mem_of_getElem? hget)
      rw [h.inTurn_log_iff hget, Verified, Verified, hentries, verifyLines_writtenLines_concat]
      refine ⟨fun hverified hturn => ⟨hverified, verifyLines_singleton_of hprev hturn⟩, ?_⟩
      rintro hinj ⟨hverified, hline⟩
      refine ⟨hverified, inTurn_of_verifyLines_singleton hprev (hexText_chainHash h.writable) ?_ hline⟩
      intro hcollide
      have hmem : (e, prev) ∈ ledger.entries ++ [(e, prev)] := by simp
      have hbytes := hinj ⟨_, hmem, .inr rfl⟩ ⟨_, hmem, .inl rfl⟩ hcollide
      exact append_cancel_right (append_cancel_right (encodeUtf8_injective hbytes))

end

end Ledger

theorem allInTurn_concat_iff {timestamp : Timestamp} {ops : List WriterOp} {op : WriterOp}
    {s : Writers} (hrun : runWriters timestamp ops = .ok s) :
    AllInTurn timestamp (ops ++ [op]) ↔ AllInTurn timestamp ops ∧ InTurn s op := by
  constructor
  · intro h
    refine ⟨fun before op' after hops => h before op' (after ++ [op]) ?_, h ops op [] rfl s hrun⟩
    rw [hops, append_assoc, cons_append]
  · rintro ⟨hinit, hlast⟩ before op' after hops s' hrun'
    cases after using List.reverseRecOn with
    | nil =>
      obtain ⟨rfl, hop⟩ := append_inj' hops rfl
      obtain rfl : op = op' := (List.cons.inj hop).1
      obtain rfl : s = s' := Except.ok.inj (hrun.symm.trans hrun')
      exact hlast
    | append_singleton after op'' =>
      rw [← cons_append, ← append_assoc] at hops
      obtain ⟨hops, -⟩ := append_inj' hops rfl
      exact hinit before op' after hops s' hrun'

theorem hashedFor_mono {entries entries' : List (Event × Str)} (h : entries ⊆ entries') :
    hashedFor entries ⊆ hashedFor entries' := by
  rintro bytes ⟨entry, hentry, hbytes⟩
  exact ⟨entry, h hentry, hbytes⟩

theorem Ledger.entries_subset_step (ledger : Ledger) (op : WriterOp) :
    ledger.entries ⊆ (ledger.step op).entries := by
  cases op with
  | init timestamp => exact .refl _
  | log writer e =>
    rw [step]
    split
    · exact .refl _
    · exact subset_append_left _ _

/-- All calls. -/
theorem verified_after {ops : List WriterOp} (hops : ∀ op ∈ ops, op.NoBreaks) :
    (AllInTurn timestamp ops → (Ledger.after timestamp ops).Verified) ∧
      (Set.InjOn sha256Hex (hashedFor (Ledger.after timestamp ops).entries) →
        (Ledger.after timestamp ops).Verified → AllInTurn timestamp ops) := by
  induction ops using List.reverseRecOn with
  | nil =>
    refine ⟨fun _ => ?_, fun _ _ before op after hnil => by simp at hnil⟩
    exact verifyLines_singleton_of hexText_nil (.inr ⟨faithful_genesis timestamp, rfl⟩)
  | append_singleton ops op ih =>
    have hinit : ∀ op' ∈ ops, op'.NoBreaks := fun op' hop' => hops op' (mem_append_left _ hop')
    obtain ⟨hrun, hproper⟩ := runWriters_eq timestamp hinit
    obtain ⟨hsound, hcomplete⟩ := ih hinit
    obtain ⟨hstep, hback⟩ := hproper.verified_step op
    rw [allInTurn_concat_iff hrun, Ledger.after_concat]
    refine ⟨fun hall => hstep (hsound hall.1) hall.2, fun hinj hverified => ?_⟩
    obtain ⟨hbefore, hturn⟩ := hback hinj hverified
    exact ⟨hcomplete (hinj.mono (hashedFor_mono (Ledger.entries_subset_step _ op))) hbefore, hturn⟩

/-- **When several writers agree with the verifier.**  Make any number of `AuditLog`
objects on one directory and any calls of their `log_event`, in any order, with
arguments free of line breaks.  The calls succeed.  The log verifies if every call is
made in turn, and only then, unless SHA-256 collides on the texts hashed. -/
theorem verify_writers
    (hops : ∀ op ∈ ops, op.NoBreaks) :
    ∃ s, runWriters timestamp ops = .ok s ∧
      (AllInTurn timestamp ops → verifyLogIntegrity s.file = .ok true) ∧
      (Set.InjOn sha256Hex (hashedFor (Ledger.after timestamp ops).entries) →
        (verifyLogIntegrity s.file = .ok true ↔ AllInTurn timestamp ops)) := by
  obtain ⟨hrun, hproper⟩ := runWriters_eq timestamp hops
  obtain ⟨hsound, hcomplete⟩ := verified_after timestamp hops
  refine ⟨_, hrun, ?_, fun hinj => ?_⟩
  · rw [hproper.verifyLogIntegrity_iff]
    exact hsound
  · rw [hproper.verifyLogIntegrity_iff]
    exact ⟨hcomplete hinj, hsound⟩

/-- The second object logs an event. -/
theorem allInTurn_second {timestamp timestamp' : Timestamp} {e : Event} (he : e.faithful = true) :
    AllInTurn timestamp [.init timestamp', .log 1 e] := by
  have hnone : AllInTurn timestamp [] := by
    intro before op after hnil
    simp at hnil
  have hfirst : ∀ op ∈ ([] : List WriterOp), op.NoBreaks := fun op hop => absurd hop not_mem_nil
  have hsecond : ∀ op ∈ [WriterOp.init timestamp'], op.NoBreaks := forall_mem_singleton.mpr trivial
  have hinit : AllInTurn timestamp ([] ++ [.init timestamp']) :=
    (allInTurn_concat_iff (runWriters_eq timestamp hfirst).1).mpr ⟨hnone, trivial⟩
  obtain ⟨hrun, hproper⟩ := runWriters_eq timestamp hsecond
  have hlog : AllInTurn timestamp ([.init timestamp'] ++ [.log 1 e]) := by
    refine (allInTurn_concat_iff hrun).mpr ⟨hinit, ?_⟩
    have hchain : chainHash ([] ++ [(genesis timestamp, [])]) = newHash (genesis timestamp) [] :=
      chainHash_concat_faithful hexText_nil (faithful_genesis timestamp)
    exact (hproper.inTurn_log_iff rfl).mpr (.inr ⟨he, hchain.symm⟩)
  exact hlog

/-- An ordinary event. -/
def access (actor : Str) : Event := ⟨"ACCESS", actor, "budget", noon, []⟩

theorem noBreaks_access : (access "alice").NoBreaks ∧ (access "bob").NoBreaks := by
  simp only [Event.NoBreaks]
  decide

/-- The second object has read the hash that the first one wrote. -/
theorem verify_writers_second_logs :
    ∃ s, runWriters noon [.init noon, .log 1 (access "bob")] = .ok s ∧
      verifyLogIntegrity s.file = .ok true := by
  have hops : ∀ op ∈ [WriterOp.init noon, .log 1 (access "bob")], op.NoBreaks :=
    forall_mem_cons.mpr ⟨trivial, forall_mem_singleton.mpr noBreaks_access.2⟩
  obtain ⟨s, hrun, hverify, -⟩ := verify_writers noon _ hops
  exact ⟨s, hrun, hverify (allInTurn_second (by decide))⟩

/-- Two objects are made, and each logs an event: the second one does not know what the first
one has written since. -/
theorem verify_writers_fails_on_both :
    ∃ s, runWriters noon [.init noon, .log 0 (access "alice"), .log 1 (access "bob")] = .ok s ∧
      verifyLogIntegrity s.file = .ok false := by
  have hops : ∀ op ∈ [WriterOp.init noon, .log 0 (access "alice"), .log 1 (access "bob")],
      op.NoBreaks :=
    forall_mem_cons.mpr ⟨trivial, forall_mem_cons.mpr
      ⟨noBreaks_access.1, forall_mem_singleton.mpr noBreaks_access.2⟩⟩
  obtain ⟨hrun, hproper⟩ := runWriters_eq noon hops
  refine ⟨_, hrun, ?_⟩
  rw [Ledger.writers, verifyLogIntegrity_writtenText hproper.writable]
  decide +kernel

end TrustFlow.Audit
