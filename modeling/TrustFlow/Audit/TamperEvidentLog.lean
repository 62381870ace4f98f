import TrustFlow.Library.HashChain
import TrustFlow.Library.Json
import TrustFlow.Library.Sha256

/-!
# The in-memory audit log

`TamperEvidentLog` of `core/audit_log.py`: entries chained by the SHA-256 of
their sorted JSON text.

* `TamperEvidentLog.append`, `TamperEvidentLog.verify` — the two operations;
  an `append` takes the text of its clock reading as an argument.
* `verify_eq_true_iff` — `verify` decides whether the entries form a hash chain
  from the empty string.
* `verify_tamperEvident` — every log built by appends verifies, and a log that
  verifies is determined by its last hash.

The data of an entry is a JSON dictionary.  Dictionaries that differ only in
the order of their keys are the same value (`LogEntry.Same`), as for Python's
`==`; the log cannot tell them apart and need not.
-/

namespace TrustFlow.Audit

open Library

/-! ## Model -/

/-- A JSON dictionary with string keys: the fields of an object in which no key
is repeated, at any depth. -/
def JsonDict : Type := {fields : List (Str × Json) // (Json.obj fields).Unique}

/-- The dictionary as a JSON value. -/
def JsonDict.toJson (d : JsonDict) : Json := .obj d.1

/-- `LogEntry`. -/
structure LogEntry where
  data : JsonDict
  timestamp : Str
  prevHash : Str
  entryHash : Str

/-- `content_to_hash` of `append` and `verify`. -/
def contentToHash (data : JsonDict) (timestamp prevHash : Str) : Str :=
  dumpsSorted false (.obj [("data", data.toJson), ("timestamp", .str timestamp),
    ("prev_hash", .str prevHash)])

/-- The hash of an entry's content. -/
def recalculatedHash (data : JsonDict) (timestamp prevHash : Str) : Str :=
  sha256Hex (encodeUtf8 (contentToHash data timestamp prevHash))

/-- `TamperEvidentLog._entries`. -/
abbrev TamperEvidentLog : Type := List LogEntry

namespace TamperEvidentLog

/-- `append(data)` at a clock reading with text `timestamp`. -/
def append (log : TamperEvidentLog) (data : JsonDict) (timestamp : Str) : TamperEvidentLog :=
  let prevHash := match log.getLast? with
    | some entry => entry.entryHash
    | none => []
  log ++ [{ data := data
            timestamp := timestamp
            prevHash := prevHash
            entryHash := recalculatedHash data timestamp prevHash }]

/-- The loop of `verify`. -/
def verifyFrom : Str → List LogEntry → Bool
  | _, [] => true
  | prevHash, entry :: entries =>
    if entry.prevHash ≠ prevHash then false
    else if recalculatedHash entry.data entry.timestamp entry.prevHash ≠ entry.entryHash then
      false
    else verifyFrom entry.entryHash entries

/-- `verify()`. -/
def verify (log : TamperEvidentLog) : Bool :=
  match log with
  | [] => true
  | entries => verifyFrom [] entries

end TamperEvidentLog

/-- The digest an entry should store. -/
def LogEntry.digest (entry : LogEntry) : Str :=
  recalculatedHash entry.data entry.timestamp entry.prevHash

/-- Equality of entries, with dictionaries compared as values. -/
def LogEntry.Same (e e' : LogEntry) : Prop :=
  sortKeys e.data.toJson = sortKeys e'.data.toJson ∧ e.timestamp = e'.timestamp ∧
    e.prevHash = e'.prevHash ∧ e.entryHash = e'.entryHash

/-! ## Verification is the chain property -/

open TamperEvidentLog

variable (log : TamperEvidentLog) (data : JsonDict) (timestamp prevHash : Str)

theorem verifyFrom_eq_true_iff (entries : List LogEntry) :
    verifyFrom prevHash entries = true ↔
      HashChain LogEntry.prevHash LogEntry.entryHash LogEntry.digest prevHash entries := by
  induction entries generalizing prevHash with
  | nil => simp [verifyFrom, HashChain]
  | cons entry entries ih =>
    rw [verifyFrom, HashChain]
    show (if entry.prevHash ≠ prevHash then false else
      if entry.digest ≠ entry.entryHash then false else verifyFrom entry.entryHash entries)
        = true ↔ _
    by_cases hprev : entry.prevHash = prevHash
    · by_cases hhash : entry.entryHash = entry.digest
      · rw [if_neg (not_not.mpr hprev), if_neg (not_not.mpr hhash.symm), ih]
        simp [hprev, hhash]
      · rw [if_neg (not_not.mpr hprev), if_pos (.symm hhash)]
        simp [hhash]
    · rw [if_pos hprev]
      simp [hprev]

/-- `verify` decides the chain property. -/
theorem verify_eq_true_iff :
    verify log = true ↔ HashChain LogEntry.prevHash LogEntry.entryHash LogEntry.digest [] log := by
  cases log with
  | nil => simp [verify, HashChain]
  | cons entry entries => exact verifyFrom_eq_true_iff [] (entry :: entries)

/-- One append keeps the chain. -/
theorem hashChain_append_entry
    (hlog : HashChain LogEntry.prevHash LogEntry.entryHash LogEntry.digest [] log) :
    HashChain LogEntry.prevHash LogEntry.entryHash LogEntry.digest []
      (append log data timestamp) := by
  refine (hashChain_concat _ _ _ _ _ _).mpr ⟨hlog, ?_, rfl⟩
  cases h : log.getLast? with
  | none => simp [lastHash, h]
  | some entry => simp [lastHash, h]

/-! ## What the hashed text determines -/

/-- The sorted text lists the three fields in key order. -/
theorem sortKeys_content :
    sortKeys (.obj [("data", data.toJson), ("timestamp", .str timestamp),
        ("prev_hash", .str prevHash)])
      = .obj [("data", sortKeys data.toJson), ("prev_hash", .str prevHash),
          ("timestamp", .str timestamp)] := by
  rfl

theorem unique_content :
    (.obj [("data", data.toJson), ("timestamp", .str timestamp),
      ("prev_hash", .str prevHash)] : Json).Unique := by
  simp only [Json.Unique, UniqueFields, List.map_cons, List.map_nil]
  exact ⟨by decide, data.2, trivial, trivial, trivial⟩

/-- The hashed text determines data (as a value), timestamp and previous hash. -/
theorem contentToHash_injective {d d' : JsonDict} {t t' p p' : Str}
    (h : contentToHash d t p = contentToHash d' t' p') :
    sortKeys d.toJson = sortKeys d'.toJson ∧ t = t' ∧ p = p' := by
  have hsort := dumpsSorted_injective false (unique_content d t p) (unique_content d' t' p') h
  rw [sortKeys_content, sortKeys_content] at hsort
  simp only [Json.obj.injEq, List.cons.injEq, Prod.mk.injEq, true_and, Json.str.injEq,
    and_true] at hsort
  exact ⟨hsort.1, hsort.2.2, hsort.2.1⟩

theorem digest_ne_nil (entry : LogEntry) : entry.digest ≠ [] := sha256Hex_ne_nil _

/-! ## The log -/

/-- The log after a sequence of appends. -/
def appendAll (calls : List (JsonDict × Str)) : TamperEvidentLog :=
  calls.foldl (fun log call => append log call.1 call.2) []

/-- The bytes `verify` hashes for the entries of a log. -/
def hashedBytes (log : TamperEvidentLog) : Set Bytes :=
  {bytes | ∃ entry ∈ log,
    bytes = encodeUtf8 (contentToHash entry.data entry.timestamp entry.prevHash)}

/-- Every log built by appends is a chain. -/
theorem hashChain_appendAll (calls : List (JsonDict × Str)) :
    HashChain LogEntry.prevHash LogEntry.entryHash LogEntry.digest [] (appendAll calls) := by
  induction calls using List.reverseRecOn with
  | nil => trivial
  | append_singleton calls call ih =>
    rw [appendAll, List.foldl_append]
    exact hashChain_append_entry _ call.1 call.2 ih

/-- **Tamper evidence.**  Every log built by appends verifies.  Two logs that
verify and end in the same hash are equal entry by entry, provided SHA-256 does
not collide on the bytes hashed for their entries. -/
theorem verify_tamperEvident :
    (∀ calls : List (JsonDict × Str), verify (appendAll calls) = true) ∧
      ∀ (log₁ log₂ : TamperEvidentLog) (last₁ last₂ : LogEntry),
        Set.InjOn sha256Hex (hashedBytes log₁ ∪ hashedBytes log₂) →
        verify log₁ = true → verify log₂ = true →
        log₁.getLast? = some last₁ → log₂.getLast? = some last₂ →
        last₁.entryHash = last₂.entryHash →
        List.Forall₂ LogEntry.Same log₁ log₂ := by
  refine ⟨fun calls => (verify_eq_true_iff _).mpr (hashChain_appendAll calls), ?_⟩
  intro log₁ log₂ last₁ last₂ hinj hverify₁ hverify₂ hlast₁ hlast₂ hhash
  have hkey : ∀ e ∈ log₁, ∀ e' ∈ log₂, e.digest = e'.digest →
      (sortKeys e.data.toJson, e.timestamp, e.prevHash)
        = (sortKeys e'.data.toJson, e'.timestamp, e'.prevHash) := by
    intro e he e' he' hdigest
    have hbytes := hinj (.inl ⟨e, he, rfl⟩) (.inr ⟨e', he', rfl⟩) hdigest
    have htext := congrArg decodeUtf8 hbytes
    rw [decodeUtf8_encodeUtf8, decodeUtf8_encodeUtf8, Option.some_inj] at htext
    obtain ⟨hdata, htime, hprev⟩ := contentToHash_injective htext
    rw [hdata, htime, hprev]
  have hchains := HashChain.unique hkey (fun e _ e' _ h => congrArg (fun k => k.2.2) h)
    (fun e _ => digest_ne_nil e) (fun e _ => digest_ne_nil e)
    ((verify_eq_true_iff log₁).mp hverify₁) ((verify_eq_true_iff log₂).mp hverify₂)
    (by simpa [lastHash, hlast₁, hlast₂] using hhash)
  refine hchains.imp ?_
  rintro e e' ⟨hsame, hentry⟩
  simp only [Prod.mk.injEq] at hsame
  exact ⟨hsame.1, hsame.2.1, hsame.2.2, hentry⟩

/-- Two entries with the same data. -/
def inOrder : TamperEvidentLog :=
  let data : JsonDict := ⟨[("a", .int 1), ("b", .null)], by simp [Json.Unique, UniqueFields]⟩
  appendAll [(data, []), (data, [])]

/-- The entries with the keys of their data the other way round. -/
def swapped : TamperEvidentLog :=
  let data : JsonDict := ⟨[("b", .null), ("a", .int 1)], by simp [Json.Unique, UniqueFields]⟩
  appendAll [(data, []), (data, [])]

/-- Two entries, the data of each logged with its two keys in either order. -/
theorem verify_tamperEvident_key_order :
    ∃ log₁ log₂ : TamperEvidentLog, log₁.length = 2 ∧ log₁ ≠ log₂ ∧ verify log₁ = true ∧
      verify log₂ = true ∧ List.Forall₂ LogEntry.Same log₁ log₂ := by
  have hinj : Set.InjOn sha256Hex (hashedBytes inOrder ∪ hashedBytes swapped) := by
    have hmem : ∀ bytes ∈ hashedBytes inOrder ∪ hashedBytes swapped, ∃ e ∈ inOrder ++ swapped,
        encodeUtf8 (contentToHash e.data e.timestamp e.prevHash) = bytes := by
      rintro bytes (⟨e, he, rfl⟩ | ⟨e, he, rfl⟩)
      · exact ⟨e, List.mem_append_left _ he, rfl⟩
      · exact ⟨e, List.mem_append_right _ he, rfl⟩
    have hdigests : ∀ e ∈ inOrder ++ swapped, ∀ e' ∈ inOrder ++ swapped, e.digest = e'.digest →
        encodeUtf8 (contentToHash e.data e.timestamp e.prevHash)
          = encodeUtf8 (contentToHash e'.data e'.timestamp e'.prevHash) := by
      decide +kernel
    intro x hx y hy hxy
    obtain ⟨e, he, rfl⟩ := hmem x hx
    obtain ⟨e', he', rfl⟩ := hmem y hy
    exact hdigests e he e' he' hxy
  have hne : inOrder.map (fun e => e.data.1.map Prod.fst) ≠ swapped.map fun e => e.data.1.map Prod.fst := by
    decide
  exact ⟨inOrder, swapped, rfl, fun heq => hne (heq ▸ rfl), verify_tamperEvident.1 _,
    verify_tamperEvident.1 _, verify_tamperEvident.2 _ _ _ _ hinj (verify_tamperEvident.1 _)
      (verify_tamperEvident.1 _) rfl rfl (by decide +kernel)⟩

end TrustFlow.Audit
