import Mathlib.Algebra.Order.Group.Nat
import TrustFlow.Library.Numeral

/-!
# Clock readings and their text

`datetime.now(timezone.utc)` and the two directions of its ISO 8601 text.  A
reading is its number of microseconds since the first day of the year 1, as
`datetime` counts; the years run to 9999.

* `Instant` — a clock reading.
* `isoformat` — the text of a reading in UTC.
* `IsoReader` — `datetime.fromisoformat`.  Which texts it accepts besides those
  of `isoformat` depends on the Python version, so it is a parameter, with the
  documented law that it reads back what `isoformat` wrote.
* `isoReader` — a reader of just that format.
-/

namespace TrustFlow.Library

open List

/-! ## The calendar -/

/-- The days before January 1 of the year that comes after `years` years. -/
def daysBeforeYear (years : ℕ) : ℕ := 365 * years + years / 4 - years / 100 + years / 400

/-- The year that comes after `years` years is a leap year. -/
def isLeap (years : ℕ) : Bool :=
  (years + 1) % 4 = 0 && ((years + 1) % 100 ≠ 0 || (years + 1) % 400 = 0)

/-- The lengths of the months. -/
def monthLengths (leap : Bool) : List ℕ :=
  [31, if leap then 29 else 28, 31, 30, 31, 30, 31, 31, 30, 31, 30, 31]

/-- The whole years before day `n`, with day 0 the first of the year 1, and the
days of the year before it.  The cycles of 400, 100, 4 and 1 years are taken
off in turn; the last day of a cycle counts to its last year. -/
def yearOfDay (n : ℕ) : ℕ × ℕ :=
  let n400 := n / 146097
  let n100 := min (n % 146097 / 36524) 3
  let r := n % 146097 - 36524 * n100
  let n1 := min (r % 1461 / 365) 3
  (400 * n400 + 100 * n100 + 4 * (r / 1461) + n1, r % 1461 - 365 * n1)

/-- The whole months before day `n` of the year, and the days before it. -/
def monthOfDay : List ℕ → ℕ → ℕ × ℕ
  | [], n => (0, n)
  | length :: lengths, n =>
    if n < length then (0, n)
    else ((monthOfDay lengths (n - length)).1 + 1, (monthOfDay lengths (n - length)).2)

/-- The day in terms of its cycles: 36524 days have 24 leap years, unless a
leap year of 400 closes them. -/
theorem yearOfDay_cycles (n : ℕ) :
    ∃ a b c d e, b ≤ 3 ∧ c ≤ 24 ∧ d ≤ 3 ∧ (e < 365 ∨ e = 365 ∧ d = 3 ∧ (c < 24 ∨ b = 3)) ∧
      n = 146097 * a + 36524 * b + 1461 * c + 365 * d + e ∧
      yearOfDay n = (400 * a + 100 * b + 4 * c + d, e) := by
  refine ⟨n / 146097, min (n % 146097 / 36524) 3, _, _, _, ?_, ?_, ?_, ?_, ?_, rfl⟩
  all_goals omega

theorem daysBeforeYear_yearOfDay (n : ℕ) :
    daysBeforeYear (yearOfDay n).1 + (yearOfDay n).2 = n := by
  obtain ⟨a, b, c, d, e, hb, hc, hd, he, hn, hyear⟩ := yearOfDay_cycles n
  have h4 : (400 * a + 100 * b + 4 * c + d) / 4 = 100 * a + 25 * b + c := by omega
  have h100 : (400 * a + 100 * b + 4 * c + d) / 100 = 4 * a + b := by omega
  have h400 : (400 * a + 100 * b + 4 * c + d) / 400 = a := by omega
  simp only [hyear, daysBeforeYear, h4, h100, h400]
  omega

theorem yearOfDay_lt (n : ℕ) : (yearOfDay n).2 < (monthLengths (isLeap (yearOfDay n).1)).sum := by
  have hlength : ∀ leap : Bool, (monthLengths leap).sum = if leap then 366 else 365 := by decide
  obtain ⟨a, b, c, d, e, hb, hc, hd, he, hn, hyear⟩ := yearOfDay_cycles n
  rw [hlength, hyear]
  rcases he with he | ⟨he, rfl, hlast⟩
  · exact lt_of_lt_of_le he (by split <;> decide)
  · have hleap : isLeap (400 * a + 100 * b + 4 * c + 3) = true := by
      simp only [isLeap, Bool.and_eq_true, Bool.or_eq_true, decide_eq_true_eq]
      omega
    rw [hleap, he, if_pos rfl]
    show 365 < 366
    decide

theorem monthOfDay_spec {lengths : List ℕ} {n : ℕ} (hn : n < lengths.sum) :
    (monthOfDay lengths n).1 < lengths.length ∧
      (lengths.take (monthOfDay lengths n).1).sum + (monthOfDay lengths n).2 = n ∧
      (monthOfDay lengths n).2 < lengths.getD (monthOfDay lengths n).1 0 := by
  induction lengths generalizing n with
  | nil => simp at hn
  | cons length lengths ih =>
    rw [monthOfDay]
    by_cases hlt : n < length
    · simp [hlt]
    · rw [if_neg hlt]
      rw [sum_cons] at hn
      obtain ⟨hmonth, hday, hbound⟩ := ih (n := n - length) (by omega)
      refine ⟨by simpa using hmonth, ?_, by simpa using hbound⟩
      rw [take_succ_cons, sum_cons]
      omega

/-! ## Numbers of fixed width -/

/-- `n` in `width` decimal digits. -/
def padded : ℕ → ℕ → Str
  | 0, _ => []
  | width + 1, n => padded width (n / 10) ++ [Nat.digitChar (n % 10)]

@[simp] theorem length_padded (width n : ℕ) : (padded width n).length = width := by
  induction width generalizing n with
  | zero => rfl
  | succ width ih => simp [padded, ih]

/-- The characters of a number are digits. -/
theorem mem_padded {width n : ℕ} {c : Char} (hc : c ∈ padded width n) :
    ∃ d < 10, c = Nat.digitChar d := by
  induction width generalizing n with
  | zero => cases hc
  | succ width ih =>
    rcases mem_append.mp hc with hc | hc
    · exact ih hc
    · exact ⟨n % 10, Nat.mod_lt _ (by decide), by simpa using hc⟩

theorem readNumeral_padded {width n : ℕ} (hwidth : 0 < width) (hn : n < 10 ^ width) :
    readNumeral 10 (padded width n) = some n := by
  have hfold : ∀ width n, n < 10 ^ width →
      (padded width n).foldlM (fun acc c => (digitVal c).bind fun d =>
        if d < 10 then some (acc * 10 + d) else none) 0 = some n := by
    intro width
    induction width with
    | zero => intro n hn; rw [Nat.lt_one_iff.mp hn]; rfl
    | succ width ih =>
      intro n hn
      have hmod : n % 10 < 10 := Nat.mod_lt _ (by decide)
      have hdiv := ih (n / 10) (by rw [pow_succ] at hn; omega)
      rw [padded, foldlM_append, hdiv]
      show ((digitVal (Nat.digitChar (n % 10))).bind _).bind _ = _
      rw [digitVal_digitChar _ (by omega), Option.bind_some, if_pos hmod, Option.bind_some]
      exact congrArg some (by omega)
  rw [readNumeral, if_neg, hfold width n hn]
  intro hnil
  have hlength := length_padded width n
  rw [hnil, length_nil] at hlength
  omega

/-- A number of fixed width at the front of a text, and the rest. -/
def readField (width : ℕ) (s : Str) : Option (ℕ × Str) :=
  (readNumeral 10 (s.take width)).map fun n => (n, s.drop width)

/-- A given character at the front of a text. -/
def expect (c : Char) : Str → Option Str
  | [] => none
  | d :: s => if d = c then some s else none

theorem readField_padded {w n : ℕ} (hw : 0 < w) (hn : n < 10 ^ w) (s : Str) :
    readField w (padded w n ++ s) = some (n, s) := by
  rw [readField, take_left' (length_padded w n), readNumeral_padded hw hn,
    drop_left' (length_padded w n)]
  rfl

@[simp] theorem expect_cons (c : Char) (s : Str) : expect c (c :: s) = some s := if_pos rfl

/-! ## The text of a reading -/

/-- The microseconds of a day. -/
def dayMicros : ℕ := 86400000000

/-- The microseconds from the beginning of the year 1 to the end of 9999. -/
def datetimeMax : ℕ := 3652059 * dayMicros

theorem datetimeMax_pos : 0 < datetimeMax := by decide

/-- A clock reading. -/
def Instant : Type := {t : ℕ // t < datetimeMax}

instance : DecidableEq Instant := inferInstanceAs (DecidableEq (Subtype _))

/-- The date of a day. -/
def isoDate (day : ℕ) : Str :=
  let year := yearOfDay day
  let month := monthOfDay (monthLengths (isLeap year.1)) year.2
  padded 4 (year.1 + 1) ++ '-' :: (padded 2 (month.1 + 1) ++ '-' :: padded 2 (month.2 + 1))

/-- The time of day.  Microseconds are left out when they are 0. -/
def isoTime (t : ℕ) : Str :=
  padded 2 (t / 3600000000) ++ ':' :: (padded 2 (t / 60000000 % 60) ++ ':' ::
    (padded 2 (t / 1000000 % 60) ++
      if t % 1000000 = 0 then [] else '.' :: padded 6 (t % 1000000)))

/-- `isoformat()` of a reading in UTC. -/
def isoformat (t : ℕ) : Str :=
  isoDate (t / dayMicros) ++ 'T' :: (isoTime (t % dayMicros) ++ "+00:00")

/-- `datetime.fromisoformat` on texts with a UTC offset, as microseconds in
UTC.  `none` stands for `ValueError`, and for the `TypeError` that the
comparison of a text without offset runs into. -/
structure IsoReader where
  read : Str → Option ℤ
  read_isoformat : ∀ t : Instant, read (isoformat t.1) = some (t.1 : ℤ)

/-! ## A reader -/

/-- A date at the front of a text. -/
def readIsoDate (s : Str) : Option (ℕ × Str) := do
  let (year, s) ← readField 4 s
  let s ← expect '-' s
  let (month, s) ← readField 2 s
  let s ← expect '-' s
  let (day, s) ← readField 2 s
  let lengths := monthLengths (isLeap (year - 1))
  if 0 < year ∧ 0 < month ∧ month ≤ 12 ∧ 0 < day ∧ day ≤ lengths.getD (month - 1) 0 then
    some (daysBeforeYear (year - 1) + (lengths.take (month - 1)).sum + (day - 1), s)
  else none

/-- Microseconds at the front of a text, if there are any. -/
def readMicros (s : Str) : Option (ℕ × Str) :=
  match expect '.' s with
  | some s => readField 6 s
  | none => some (0, s)

/-- A time of day at the front of a text. -/
def readIsoTime (s : Str) : Option (ℕ × Str) := do
  let (hour, s) ← readField 2 s
  let s ← expect ':' s
  let (minute, s) ← readField 2 s
  let s ← expect ':' s
  let (second, s) ← readField 2 s
  let (micros, s) ← readMicros s
  if hour < 24 ∧ minute < 60 ∧ second < 60 then
    some (((hour * 60 + minute) * 60 + second) * 1000000 + micros, s)
  else none

/-- The reader of what `isoformat` writes. -/
def readIso (s : Str) : Option ℤ := do
  let (day, s) ← readIsoDate s
  let s ← expect 'T' s
  let (time, s) ← readIsoTime s
  if s = "+00:00" then some ((day * dayMicros + time : ℕ) : ℤ) else none

theorem yearOfDay_fst_lt {day : ℕ} (hday : day < 3652059) : (yearOfDay day).1 < 9999 := by
  have hbefore := daysBeforeYear_yearOfDay day
  rw [daysBeforeYear] at hbefore
  omega

theorem readIsoDate_isoDate {day : ℕ} (hday : day < 3652059) (s : Str) :
    readIsoDate (isoDate day ++ s) = some (day, s) := by
  have hyear := yearOfDay_fst_lt hday
  have hbefore := daysBeforeYear_yearOfDay day
  obtain ⟨hmonth, hsum, hlength⟩ := monthOfDay_spec (yearOfDay_lt day)
  have hshort : ∀ leap : Bool, ∀ m < 12, (monthLengths leap).getD m 0 ≤ 31 := by decide
  have hlt := hshort (isLeap (yearOfDay day).1) _ hmonth
  generalize hm : monthOfDay (monthLengths (isLeap (yearOfDay day).1)) (yearOfDay day).2 = month
    at hmonth hsum hlength hlt
  have hmonth12 : month.1 < 12 := hmonth
  simp only [isoDate, hm, readIsoDate, append_assoc, cons_append, Option.bind_eq_bind,
    readField_padded (w := 4) (n := (yearOfDay day).1 + 1) (by decide) (by omega),
    readField_padded (w := 2) (n := month.1 + 1) (by decide) (by omega),
    readField_padded (w := 2) (n := month.2 + 1) (by decide) (by omega),
    Option.bind_some, expect_cons, Nat.add_sub_cancel]
  rw [if_pos ⟨by omega, by omega, by omega, by omega, hlength⟩]
  exact congrArg (fun d => some (d, s)) (by omega)

theorem readMicros_isoTime {n : ℕ} (hn : n < 1000000) {s : Str} (hs : expect '.' s = none) :
    readMicros ((if n = 0 then [] else '.' :: padded 6 n) ++ s) = some (n, s) := by
  by_cases hzero : n = 0
  · rw [if_pos hzero, nil_append, readMicros, hs, hzero]
  · rw [if_neg hzero, cons_append, readMicros, expect_cons]
    exact readField_padded (by decide) (by omega) s

theorem readIsoTime_isoTime {t : ℕ} (ht : t < dayMicros) {s : Str} (hs : expect '.' s = none) :
    readIsoTime (isoTime t ++ s) = some (t, s) := by
  rw [dayMicros] at ht
  simp only [isoTime, readIsoTime, append_assoc, cons_append, Option.bind_eq_bind,
    readField_padded (w := 2) (n := t / 3600000000) (by decide) (by omega),
    readField_padded (w := 2) (n := t / 60000000 % 60) (by decide) (by omega),
    readField_padded (w := 2) (n := t / 1000000 % 60) (by decide) (by omega),
    readMicros_isoTime (n := t % 1000000) (by omega) hs,
    Option.bind_some, expect_cons]
  rw [if_pos ⟨by omega, by omega, by omega⟩]
  exact congrArg (fun d => some (d, s)) (by omega)

/-- **The reader reads what `isoformat` writes.** -/
theorem readIso_isoformat (t : Instant) : readIso (isoformat t.1) = some (t.1 : ℤ) := by
  have hday : t.1 / dayMicros < 3652059 :=
    Nat.div_lt_of_lt_mul (by rw [Nat.mul_comm]; exact t.2)
  have htime : t.1 % dayMicros < dayMicros := Nat.mod_lt _ (by decide)
  simp only [readIso, isoformat, readIsoDate_isoDate hday, Option.bind_eq_bind, Option.bind_some,
    expect_cons, readIsoTime_isoTime htime (s := "+00:00") (by decide), if_pos]
  rw [Nat.div_add_mod']

/-- A reader of the format of `isoformat`. -/
def isoReader : IsoReader := ⟨readIso, readIso_isoformat⟩

/-- The characters of a date and time. -/
theorem mem_isoformat {t : ℕ} {c : Char} (hc : c ∈ isoformat t) :
    (∃ d < 10, c = Nat.digitChar d) ∨ c ∈ ['-', 'T', ':', '.', '+'] := by
  have htail : "+00:00" = '+' :: (padded 2 0 ++ ':' :: padded 2 0) := by decide
  have hdigit : ∀ {w n}, c ∈ padded w n →
      (∃ d < 10, c = Nat.digitChar d) ∨ c ∈ ['-', 'T', ':', '.', '+'] :=
    fun h => .inl (mem_padded h)
  have hmark : ∀ {c'}, c' ∈ ['-', 'T', ':', '.', '+'] → c = c' →
      (∃ d < 10, c = Nat.digitChar d) ∨ c ∈ ['-', 'T', ':', '.', '+'] :=
    fun hc' h => .inr (h ▸ hc')
  simp only [isoformat, isoDate, isoTime, htail, mem_append, mem_cons, or_assoc] at hc
  rcases hc with h | h | h | h | h | h | h | h | h | h | h | h | h | h | h | h
  case inr.inr.inr.inr.inr.inr.inr.inr.inr.inr.inr.inl =>
    split at h
    · cases h
    · rcases mem_cons.mp h with h | h
      exacts [hmark (by decide) h, hdigit h]
  all_goals first | exact hdigit h | exact hmark (by decide) h

example : isoformat 63902865600000000 = "2026-01-01T12:00:00+00:00" := by decide

/-! ## Dates with and without an offset -/

/-- A date that was read: with an offset, in microseconds in UTC, or without. -/
inductive Stamp where
  | aware (time : ℤ)
  | naive
  deriving DecidableEq

/-- `datetime.fromisoformat`; `none` is its `ValueError`. -/
structure DateParser where
  parse : Str → Option Stamp
  parse_isoformat : ∀ t : Instant, parse (isoformat t.1) = some (.aware t.1)

/-- A parser for dates with an offset. -/
def IsoReader.parser (iso : IsoReader) : DateParser where
  parse s := (iso.read s).map .aware
  parse_isoformat t := by rw [iso.read_isoformat, Option.map_some]

end TrustFlow.Library
