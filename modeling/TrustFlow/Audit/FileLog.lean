import TrustFlow.Library.HashChain
import TrustFlow.Library.Outcome
import TrustFlow.Library.Sha256

/-!
# The audit log file

`AuditLog` of `core/audit_log.py` and the endpoint `get_audit_log` of
`api/server.py`, over the bytes of the log file.

A line holds seven fields, separated by `" | "`: event type, actor, target,
timestamp, details, the hash stored on the line before, and the SHA-256 of the
text in front of it.  Two programs read the file: `verify_log_integrity` checks
the hashes, `get_audit_log` lists the entries.

* `openLog`, `logEvent` — the writer; the file is appended to, never seeked.
* `verifyLogIntegrity` — the checking reader, with the lines it passes over.
* `getAuditLog` — the listing reader.
* `verifyLogIntegrity_eq_true_iff` — the checking reader accepts a file exactly
  when the entries of the lines it looks at form a hash chain.

Files are read and written as UTF-8 with universal newlines; a clock reading
enters as the text `isoformat()` gives it.

A step is one call of a writer, which writes a whole line.  The directory of the log and
the program's own log output are left out.
-/

namespace TrustFlow.Audit

open Library

/-! ## Writing -/

/-- A log file: its bytes, or no file. -/
abbrev LogFile : Type := Option Bytes

/-- `UnicodeDecodeError`, which neither reader catches. -/
inductive LogError where
  | unicodeDecode
  deriving DecidableEq, Repr

/-- The field separator `" | "`. -/
def sep : Str := [' ', '|', ' ']

/-- The text of a clock reading: `datetime.now(timezone.utc).isoformat()` uses
digits and the characters `-`, `:`, `.`, `+` and `T`. -/
def Timestamp : Type :=
  {text : Str // ∀ c ∈ text, c ∈ ['0', '1', '2', '3', '4', '5', '6', '7', '8', '9', '-', ':', '.',
    '+', 'T']}

instance : DecidableEq Timestamp := inferInstanceAs (DecidableEq (Subtype _))

/-- The arguments of `log_event` with the clock reading it makes. -/
structure Event where
  eventType : Str
  actor : Str
  target : Str
  timestamp : Timestamp
  details : Str
  deriving DecidableEq

variable (e : Event)

/-- The part of a line that comes from the event. -/
def Event.text : Str :=
  e.eventType ++ sep ++ e.actor ++ sep ++ e.target ++ sep ++ e.timestamp.1 ++ sep ++ e.details

/-- `log_entry_content`. -/
def logEntryContent (lastHash : Str) : Str := e.text ++ sep ++ lastHash

/-- `new_hash`. -/
def newHash (lastHash : Str) : Str :=
  sha256Hex (encodeUtf8 (logEntryContent e lastHash))

/-- `full_log_entry`. -/
def fullLogEntry (lastHash : Str) : Str :=
  logEntryContent e lastHash ++ sep ++ newHash e lastHash ++ ['\n']

variable (file : LogFile)

/-- `log_event`: the file and `last_hash` afterwards. -/
def logEvent (lastHash : Str) (e : Event) : LogFile × Str :=
  (some (file.getD [] ++ encodeUtf8 (fullLogEntry e lastHash)), newHash e lastHash)

/-- The two comment lines of a new log. -/
def headerLines : List Str :=
  ["# Audit Log - Chain of Custody Simulator",
    "# Each entry is chained by hashing the previous entry's hash."]

/-- The text a new log starts with. -/
def header : Str := headerLines.flatMap (· ++ ['\n'])

/-- The first event of a new log. -/
def genesis (timestamp : Timestamp) : Event where
  eventType := "GENESIS"
  actor := "SYSTEM"
  target := "Log Initialized"
  timestamp := timestamp
  details := "Initial state."

/-- The last line, read backwards from the last byte but one to a newline.
`none` where the source's `seek` fails: on files that hold no such newline. -/
def lastLine (bytes : Bytes) : Option Bytes :=
  let front := bytes.dropLast.reverse
  match front.dropWhile (· ≠ 10) with
  | [] => none
  | _ :: _ => some ((front.takeWhile (· ≠ 10)).reverse ++ bytes.getLast?.toList)

/-- `_get_last_hash()`. -/
def getLastHash : Except LogError Str :=
  match file.bind lastLine with
  | none => .ok []
  | some line =>
    match decodeUtf8 line with
    | none => .error .unicodeDecode
    | some line => .ok ((split sep (strip line)).getLastD [])

/-- `AuditLog(log_directory)`: the file and `last_hash` after construction.  The
timestamp is that of the event a new log starts with. -/
def openLog (timestamp : Timestamp) : Except LogError (LogFile × Str) := do
  let lastHash ← getLastHash file
  if lastHash = [] then return logEvent (some (encodeUtf8 header)) [] (genesis timestamp)
  else return (file, lastHash)

/-! ## Reading -/

/-- `AuditEntry`: the first seven fields of a line. -/
structure AuditEntry where
  eventType : Str
  actor : Str
  target : Str
  timestamp : Str
  details : Str
  prevHash : Str
  entryHash : Str
  deriving DecidableEq, Repr

/-- The entry of a line with at least seven fields. -/
def entryOf : List Str → Option AuditEntry
  | eventType :: actor :: target :: timestamp :: details :: prevHash :: entryHash :: _ =>
    some { eventType, actor, target, timestamp, details, prevHash, entryHash }
  | _ => none

/-- The text in front of the stored hash, as `" | ".join(parts[:-1])`. -/
def AuditEntry.hashedText (entry : AuditEntry) : Str :=
  List.intercalate sep [entry.eventType, entry.actor, entry.target, entry.timestamp,
    entry.details, entry.prevHash]

/-- The hash an entry should store. -/
def AuditEntry.digest (entry : AuditEntry) : Str := sha256Hex (encodeUtf8 entry.hashedText)

/-- The lines `verify_log_integrity` checks: not a comment, and seven fields
after stripping. -/
def checksLine (line : Str) : Bool :=
  !(['#'].isPrefixOf line) && decide ((split sep (strip line)).length = 7)

/-- The lines `get_audit_log` lists: not a comment after stripping, not empty,
and seven fields or more. -/
def listsLine (line : Str) : Bool :=
  !(['#'].isPrefixOf (strip line) || decide (strip line = [])) &&
    decide (7 ≤ (split sep (strip line)).length)

/-- The loop of `verify_log_integrity` over the lines of the file. -/
def verifyLines : Str → List Str → Bool
  | _, [] => true
  | current, line :: lines =>
    if checksLine line then
      match entryOf (split sep (strip line)) with
      | none => verifyLines current lines
      | some entry =>
        if entry.prevHash ≠ current then false
        else if entry.digest ≠ entry.entryHash then false
        else verifyLines entry.entryHash lines
    else verifyLines current lines

/-- `f.readlines()` of the whole file. -/
def fileLines (bytes : Bytes) : Except LogError (List Str) :=
  match decodeUtf8 bytes with
  | none => .error .unicodeDecode
  | some text => .ok (readlines text)

/-- `verify_log_integrity()`. -/
def verifyLogIntegrity : Except LogError Bool :=
  match file with
  | none => .ok false
  | some bytes => (fileLines bytes).map (verifyLines [])

/-- The entries `get_audit_log` lists from the lines of the file. -/
def listedEntries (lines : List Str) : List AuditEntry :=
  lines.filterMap fun line =>
    if listsLine line then entryOf (split sep (strip line)) else none

/-- The entries of the lines `verify_log_integrity` checks. -/
def checkedEntries (lines : List Str) : List AuditEntry :=
  lines.filterMap fun line =>
    if checksLine line then entryOf (split sep (strip line)) else none

/-- `get_audit_log`: the listed entries and `integrity_valid`. -/
def getAuditLog : Except LogError (List AuditEntry × Bool) := do
  let entries ← match file with
    | none => pure []
    | some bytes => (fileLines bytes).map listedEntries
  let integrity ← verifyLogIntegrity file
  return (entries, integrity)

/-! ## What the readers accept -/

/-- The entries of a list form a hash chain from the empty string. -/
def EntriesChain (entries : List AuditEntry) : Prop :=
  HashChain AuditEntry.prevHash AuditEntry.entryHash AuditEntry.digest [] entries

theorem entryOf_isSome {parts : List Str} : (entryOf parts).isSome ↔ 7 ≤ parts.length := by
  match parts with
  | [] | [_] | [_, _] | [_, _, _] | [_, _, _, _] | [_, _, _, _, _] | [_, _, _, _, _, _] =>
    simp [entryOf]
  | _ :: _ :: _ :: _ :: _ :: _ :: _ :: _ => simp [entryOf]

/-- A checked line has an entry. -/
theorem exists_entry_of_checksLine {line : Str} (h : checksLine line = true) :
    ∃ entry, entryOf (split sep (strip line)) = some entry := by
  refine Option.isSome_iff_exists.mp (entryOf_isSome.mpr ?_)
  simp only [checksLine, Bool.and_eq_true, decide_eq_true_eq] at h
  exact h.2.ge

/-- A listed line has an entry. -/
theorem exists_entry_of_listsLine {line : Str} (h : listsLine line = true) :
    ∃ entry, entryOf (split sep (strip line)) = some entry := by
  refine Option.isSome_iff_exists.mp (entryOf_isSome.mpr ?_)
  simp only [listsLine, Bool.and_eq_true, decide_eq_true_eq] at h
  exact h.2

/-- The checking loop decides the chain property of the checked entries. -/
theorem verifyLines_eq_true_iff (current : Str) (lines : List Str) :
    verifyLines current lines = true ↔
      HashChain AuditEntry.prevHash AuditEntry.entryHash AuditEntry.digest current
        (checkedEntries lines) := by
  induction lines generalizing current with
  | nil => simp [verifyLines, checkedEntries, HashChain]
  | cons line lines ih =>
    rw [verifyLines, checkedEntries, List.filterMap_cons]
    cases hcheck : checksLine line with
    | false => simpa [checkedEntries] using ih current
    | true =>
      obtain ⟨entry, hentry⟩ := exists_entry_of_checksLine hcheck
      simp only [if_true, hentry, HashChain]
      by_cases hprev : entry.prevHash = current
      · by_cases hhash : entry.entryHash = entry.digest
        · rw [if_neg (not_not.mpr hprev), if_neg (not_not.mpr hhash.symm), ih]
          simp [hprev, hhash, checkedEntries]
        · rw [if_neg (not_not.mpr hprev), if_pos (.symm hhash)]
          simp [hhash]
      · rw [if_pos hprev]
        simp [hprev]

/-- **What verification means.**  A file verifies exactly when it can be read
and the entries of its checked lines form a hash chain. -/
theorem verifyLogIntegrity_eq_true_iff :
    verifyLogIntegrity file = .ok true ↔
      ∃ bytes lines, file = some bytes ∧ fileLines bytes = .ok lines ∧
        EntriesChain (checkedEntries lines) := by
  cases file with
  | none => simp [verifyLogIntegrity]
  | some bytes =>
    cases hlines : fileLines bytes with
    | error e => simp [verifyLogIntegrity, hlines, Except.map]
    | ok lines =>
      simp [verifyLogIntegrity, hlines, Except.map, verifyLines_eq_true_iff, EntriesChain]

end TrustFlow.Audit
