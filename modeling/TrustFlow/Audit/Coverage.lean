import TrustFlow.Audit.FileLog

/-!
# What the integrity check covers

`verify_log_integrity` and `get_audit_log` read the same file with different
rules.  The check looks at lines that do not *start* with `#` and have exactly
seven fields; the listing shows lines that do not start with `#` *once
stripped* and have seven fields or more.  So there are two kinds of lines that
one reader takes and the other does not:

* a line with eight fields is shown and not checked, whatever hashes it holds;
* an indented comment with seven fields is checked and not shown, and the entry
  shown behind it then stores a hash that is not that of the entry shown before.

`Aligned` says where such lines may stand.  It is a condition on the shape of
the lines, that is on their first characters and the number of their fields: it
reads no stored hash and recomputes none, and it does not ask whether the file
verifies.  `listed_chain_of_aligned` proves it enough: whatever else the
adversary has written into a file of this shape, if the check accepts it, the
listed entries form one hash chain.  The reason is that the listed entries are
then the first of the checked ones (`listedEntries_prefix_checkedEntries`).

A file is its bytes; one that is no UTF-8 has no lines here, since both readers
raise on it.
-/

namespace TrustFlow.Audit

open Library List

/-! ## Statement -/

variable (file : LogFile)

/-- The lines of a file that can be read. -/
def logLines : List Str :=
  match file with
  | none => []
  | some bytes =>
    match fileLines bytes with
    | .error _ => []
    | .ok lines => lines

/-- The shape of a file whose listing the check covers: every line that is
listed is one that is checked, and a line that is checked but not listed, that
is an indented comment with seven fields, has no listed line behind it. -/
structure Aligned (lines : List Str) : Prop where
  checked : ∀ line ∈ lines, listsLine line = true → checksLine line = true
  listed : lines.Pairwise fun earlier later =>
    listsLine later = true → checksLine earlier = true → listsLine earlier = true

instance (lines : List Str) : Decidable (Aligned lines) :=
  decidable_of_iff (_ ∧ _) ⟨fun h => ⟨h.1, h.2⟩, fun h => ⟨h.checked, h.listed⟩⟩

/-- If the check accepts the file, the listed entries form one hash chain. -/
def VerifiedListingIsChain : Prop :=
  verifyLogIntegrity file = .ok true →
    ∀ entries integrity, getAuditLog file = .ok (entries, integrity) → EntriesChain entries

/-! ## The two readers line by line -/

variable {line : Str} {lines : List Str}

theorem Aligned.tail (h : Aligned (line :: lines)) : Aligned lines where
  checked := fun line' hline' => h.checked line' (mem_cons_of_mem line hline')
  listed := (pairwise_cons.mp h.listed).2

/-- Behind a line that is checked but not listed nothing is listed. -/
theorem Aligned.listedEntries_eq_nil (h : Aligned (line :: lines)) (hcheck : checksLine line = true)
    (hlist : listsLine line = false) : listedEntries lines = [] := by
  refine filterMap_eq_nil_iff.mpr fun later hlater => if_neg fun hlater' => ?_
  have hline := (pairwise_cons.mp h.listed).1 later hlater hlater' hcheck
  rw [hlist] at hline
  cases hline

/-- The listing shows the first of the checked entries. -/
theorem listedEntries_prefix_checkedEntries (h : Aligned lines) :
    listedEntries lines <+: checkedEntries lines := by
  induction lines with
  | nil => exact prefix_refl []
  | cons line lines ih =>
    cases hlist : listsLine line with
    | true =>
      have hcheck := h.checked line mem_cons_self hlist
      obtain ⟨entry, hentry⟩ := exists_entry_of_listsLine hlist
      have hlisted : listedEntries (line :: lines) = entry :: listedEntries lines :=
        filterMap_cons_some (by rw [if_pos hlist, hentry])
      have hchecked : checkedEntries (line :: lines) = entry :: checkedEntries lines :=
        filterMap_cons_some (by rw [if_pos hcheck, hentry])
      rw [hlisted, hchecked]
      exact (prefix_cons_inj entry).mpr (ih h.tail)
    | false =>
      have hlisted : listedEntries (line :: lines) = listedEntries lines :=
        filterMap_cons_none (by rw [hlist]; rfl)
      rw [hlisted]
      cases hcheck : checksLine line with
      | false =>
        have hchecked : checkedEntries (line :: lines) = checkedEntries lines :=
          filterMap_cons_none (by rw [hcheck]; rfl)
        rw [hchecked]
        exact ih h.tail
      | true =>
        -- only the check takes this line, so the listing ends here
        rw [h.listedEntries_eq_nil hcheck hlist]
        exact nil_prefix

/-! ## Files -/

/-- The endpoint lists the entries of the lines. -/
theorem getAuditLog_eq {file : LogFile} (hverify : verifyLogIntegrity file = .ok true) :
    getAuditLog file = .ok (listedEntries (logLines file), true) := by
  obtain ⟨bytes, lines, rfl, hlines, -⟩ := (verifyLogIntegrity_eq_true_iff file).mp hverify
  simp [getAuditLog, hverify, logLines, hlines, Except.map]

theorem entriesChain_of_verify {file : LogFile} (hverify : verifyLogIntegrity file = .ok true) :
    EntriesChain (checkedEntries (logLines file)) := by
  obtain ⟨bytes, lines, rfl, hlines, hchain⟩ := (verifyLogIntegrity_eq_true_iff file).mp hverify
  simpa [logLines, hlines] using hchain

/-- **The check covers the listing of an aligned file.**  For every file, edited
or not, whose lines have this shape: if it verifies, the entries that the
endpoint lists form one hash chain. -/
theorem listed_chain_of_aligned (haligned : Aligned (logLines file)) :
    VerifiedListingIsChain file := by
  intro hverify entries integrity hget
  rw [getAuditLog_eq hverify] at hget
  cases hget
  obtain ⟨rest, hrest⟩ := listedEntries_prefix_checkedEntries haligned
  have hchain := entriesChain_of_verify hverify
  rw [← hrest, EntriesChain, hashChain_append] at hchain
  exact hchain.1

/-- An event of the log below. -/
def viewed (actor : Str) : Event :=
  ⟨"VIEW", actor, "memo", ⟨"12:00", List.all_iff_forall_prop.mp (by decide)⟩, "ok"⟩

/-- The lines of a log with two chained entries, a remark between them, and
behind them an indented comment with seven fields that only the check takes. -/
def twoViews : List Str :=
  let first := viewed "alice"
  let second := viewed "bob"
  let comment : Event := { viewed "carol" with eventType := "#" }
  [fullLogEntry first [], "# a remark\n", fullLogEntry second (newHash first []),
    ' ' :: fullLogEntry comment (newHash second (newHash first []))]

/-- The file of these lines verifies, three of its entries are checked, and the
two listed ones form a chain. -/
theorem listed_chain_of_aligned_twoViews :
    ∃ (file : LogFile) (first second : AuditEntry), file = some (encodeUtf8 twoViews.flatten) ∧
      verifyLogIntegrity file = .ok true ∧ (checkedEntries (logLines file)).length = 3 ∧
      getAuditLog file = .ok ([first, second], true) ∧ EntriesChain [first, second] := by
  have hviews : verifyLines [] twoViews = true ∧ Aligned twoViews ∧
      (checkedEntries twoViews).length = 3 ∧ (listedEntries twoViews).length = 2 ∧
      ∀ line ∈ twoViews, line = line.dropLast ++ ['\n'] ∧ '\n' ∉ line.dropLast ∧
        '\r' ∉ line.dropLast := by decide +kernel
  obtain ⟨hverified, haligned, hchecked, hlisted, hbreaks⟩ := hviews
  have hread : fileLines (encodeUtf8 twoViews.flatten) = .ok twoViews := by
    rw [fileLines, decodeUtf8_encodeUtf8]
    exact congrArg Except.ok (readlines_flatten fun line hline => ⟨_, hbreaks line hline⟩)
  generalize hfile : some (encodeUtf8 twoViews.flatten) = file
  have hlines : logLines file = twoViews := by
    rw [← hfile, logLines, hread]
  have hverify : verifyLogIntegrity file = .ok true := by
    rw [← hfile, verifyLogIntegrity, hread, Except.map, hverified]
  have hget := getAuditLog_eq hverify
  obtain ⟨first, second, htwo⟩ := length_eq_two.mp hlisted
  rw [hlines, htwo] at hget
  rw [← hlines] at haligned hchecked
  exact ⟨file, first, second, rfl, hverify, hchecked, hget,
    listed_chain_of_aligned file haligned hverify _ _ hget⟩

/-- A line with eight fields is listed without having been checked. -/
theorem listed_chain_fails_on_eight_fields :
    ∃ file : LogFile, file = some (encodeUtf8 "a | b | c | d | e | f | g | h\n") ∧
      verifyLogIntegrity file = .ok true ∧ ¬ VerifiedListingIsChain file := by
  refine ⟨_, rfl, by decide, fun hchain => ?_⟩
  have hverify : verifyLogIntegrity
      (some (encodeUtf8 "a | b | c | d | e | f | g | h\n")) = .ok true := by decide
  have hlisted := hchain hverify _ _ (getAuditLog_eq hverify)
  have hentries : listedEntries (logLines
      (some (encodeUtf8 "a | b | c | d | e | f | g | h\n")))
      = [⟨['a'], ['b'], ['c'], ['d'], ['e'], ['f'], ['g']⟩] := by decide
  rw [hentries] at hlisted
  exact absurd hlisted.1 (by decide)

end TrustFlow.Audit
