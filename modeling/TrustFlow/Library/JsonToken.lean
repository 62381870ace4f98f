import TrustFlow.Library.Numeral

/-!
# JSON values and their tokens

The values of the `json` module and the two kinds of tokens that need work:
string literals with `ensure_ascii` escapes, and number literals.

* `Json` — JSON values.  Objects are association lists in insertion order; a
  float is kept as the decimal literal that denotes it.
* `quote` / `parseString`, `parsePoints` — string literals; characters outside
  printable ASCII are written as UTF-16 escapes, in surrogate pairs where needed.
* `showInt`, `PyFloat.text` / `parseNumber` — number literals.

Each reader takes the text after the token as it is, so that the round trips
`parseString_quote`, `parseNumber_int` and `parseNumber_decimal` compose.

The texts are those of CPython.  A Python string is a sequence of code points
and may hold unpaired surrogates, which an escape can spell and which are no
`Char`.  So a value is over the type of its strings: texts for the program's own
values and for what it reads back of them (`parseString`, which has no string
for an unpaired surrogate), lists of code points for a reader of arbitrary JSON
(`parsePoints`, which has one for every literal).
-/

namespace TrustFlow.Library

open List

/-! ## Values -/

/-- A finite float, as a decimal literal with a point or an exponent. -/
structure Decimal where
  negative : Bool
  whole : ℕ
  fraction : List (Fin 10)
  exponent : Option ℤ
  proper : fraction ≠ [] ∨ exponent.isSome
  deriving DecidableEq

/-- A whole number with a fraction of zero. -/
def Decimal.ofNat (n : ℕ) : Decimal :=
  ⟨false, n, [0], none, .inl (List.cons_ne_nil _ _)⟩

/-- A float. -/
inductive PyFloat where
  | finite (d : Decimal)
  | nan
  | posInf
  | negInf
  deriving DecidableEq

/-- A JSON value, over the type of its strings; these are texts if nothing else is
said. -/
inductive Json (σ : Type := Str) where
  | null
  | bool (b : Bool)
  | int (z : ℤ)
  | float (f : PyFloat)
  | str (s : σ)
  | arr (items : List (Json σ))
  | obj (fields : List (σ × Json σ))

/-! ## Strings -/

/-- `'\\u{0:04x}'.format(n)`. -/
def unicodeEscape (n : ℕ) : Str :=
  ['\\', 'u', Nat.digitChar (n / 4096 % 16), Nat.digitChar (n / 256 % 16),
    Nat.digitChar (n / 16 % 16), Nat.digitChar (n % 16)]

/-- The UTF-16 code units of a character. -/
def codeUnits (c : Char) : List ℕ :=
  if c.toNat < 0x10000 then [c.toNat]
  else [0xd800 + (c.toNat - 0x10000) / 0x400, 0xdc00 + (c.toNat - 0x10000) % 0x400]

/-- One character inside a JSON string. -/
def escapeChar (c : Char) : Str :=
  if c = '"' then ['\\', '"']
  else if c = '\\' then ['\\', '\\']
  else if c = '\n' then ['\\', 'n']
  else if c = '\r' then ['\\', 'r']
  else if c = '\t' then ['\\', 't']
  else if c.toNat = 12 then ['\\', 'f']
  else if c.toNat = 8 then ['\\', 'b']
  else if 32 ≤ c.toNat ∧ c.toNat ≤ 126 then [c]
  else (codeUnits c).flatMap unicodeEscape

/-- A string literal. -/
def quote (s : Str) : Str := '"' :: s.flatMap escapeChar ++ ['"']

/-- The value of four hexadecimal digits. -/
def hexQuad (a b c d : Char) : Option ℕ :=
  (digitVal a).bind fun a => (digitVal b).bind fun b => (digitVal c).bind fun c =>
    (digitVal d).map fun d => 4096 * a + 256 * b + 16 * c + d

/-- The code a one-letter escape stands for. -/
def simpleEscape (c : Char) : Option ℕ :=
  if c = '"' then some 34
  else if c = '\\' then some 92
  else if c = '/' then some 47
  else if c = 'b' then some 8
  else if c = 'f' then some 12
  else if c = 'n' then some 10
  else if c = 'r' then some 13
  else if c = 't' then some 9
  else none

/-- Read the rest of a string literal as code units, up to the closing quote. -/
def parseUnits : Str → Option (List ℕ × Str)
  | [] => none
  | '\\' :: 'u' :: a :: b :: c :: d :: rest =>
    (hexQuad a b c d).bind fun n => (parseUnits rest).map fun r => (n :: r.1, r.2)
  | '\\' :: e :: rest =>
    (simpleEscape e).bind fun n => (parseUnits rest).map fun r => (n :: r.1, r.2)
  | c :: rest =>
    if c = '"' then some ([], rest)
    else if c = '\\' then none
    -- `strict=True`: control characters must be escaped
    else if c.toNat < 32 then none
    else (parseUnits rest).map fun r => (c.toNat :: r.1, r.2)

/-- Join surrogate pairs; an unpaired surrogate is a code point of its own. -/
def joinPoints : List ℕ → List ℕ
  | u :: v :: us =>
    if (0xd800 ≤ u ∧ u ≤ 0xdbff) ∧ 0xdc00 ≤ v ∧ v ≤ 0xdfff then
      (0x10000 + (u - 0xd800) * 0x400 + (v - 0xdc00)) :: joinPoints us
    else u :: joinPoints (v :: us)
  | us => us

/-- Read a string literal after its opening quote, as code points. -/
def parsePoints (s : Str) : Option (List ℕ × Str) :=
  (parseUnits s).map fun r => (joinPoints r.1, r.2)

/-- The text of some code points, if none is a surrogate. -/
def toText (points : List ℕ) : Option Str :=
  points.mapM fun u => if 0xd800 ≤ u ∧ u ≤ 0xdfff then none else some (Char.ofNat u)

/-- Read a string literal after its opening quote, as a text. -/
def parseString (s : Str) : Option (Str × Str) :=
  (parsePoints s).bind fun r => (toText r.1).map fun t => (t, r.2)

theorem hexQuad_digitChar {a b c d : ℕ} (ha : a < 16) (hb : b < 16) (hc : c < 16) (hd : d < 16) :
    hexQuad (Nat.digitChar a) (Nat.digitChar b) (Nat.digitChar c) (Nat.digitChar d)
      = some (4096 * a + 256 * b + 16 * c + d) := by
  simp only [hexQuad, digitVal_digitChar a ha, digitVal_digitChar b hb, digitVal_digitChar c hc,
    digitVal_digitChar d hd, Option.bind_some, Option.map_some]

theorem parseUnits_unicodeEscape {n : ℕ} (hn : n < 65536) (rest : Str) :
    parseUnits (unicodeEscape n ++ rest) = (parseUnits rest).map fun r => (n :: r.1, r.2) := by
  have hval : 4096 * (n / 4096 % 16) + 256 * (n / 256 % 16) + 16 * (n / 16 % 16) + n % 16 = n := by
    omega
  simp only [unicodeEscape, cons_append, nil_append, parseUnits]
  rw [hexQuad_digitChar (Nat.mod_lt _ (by norm_num)) (Nat.mod_lt _ (by norm_num))
    (Nat.mod_lt _ (by norm_num)) (Nat.mod_lt _ (by norm_num)), hval, Option.bind_some]

variable (c : Char) (negative : Bool) (n : ℕ) (rest : Str)

/-- Characters are scalar values: no surrogates, below `0x110000`. -/
theorem Char.toNat_scalar : c.toNat < 55296 ∨ (57343 < c.toNat ∧ c.toNat < 1114112) := by
  rcases c.valid with h | h
  · exact Or.inl h
  · exact Or.inr h

theorem codeUnits_lt : ∀ u ∈ codeUnits c, u < 65536 := by
  have hscalar := Char.toNat_scalar c
  by_cases hsmall : c.toNat < 0x10000
  · simp [codeUnits, hsmall]
  · intro u hu
    simp only [codeUnits, hsmall, if_false, mem_cons, not_mem_nil, or_false] at hu
    omega

theorem parseUnits_flatMap_unicodeEscape :
    ∀ us : List ℕ, (∀ u ∈ us, u < 65536) →
      parseUnits (us.flatMap unicodeEscape ++ rest)
        = (parseUnits rest).map fun r => (us ++ r.1, r.2) := by
  intro us
  induction us with
  | nil =>
    intro _
    cases h : parseUnits rest <;> simp [h]
  | cons u us ih =>
    intro hus
    rw [flatMap_cons, append_assoc, parseUnits_unicodeEscape (hus u mem_cons_self),
      ih fun v hv => hus v (mem_cons_of_mem _ hv), Option.map_map]
    rfl

/-- Reading back one escaped character. -/
theorem parseUnits_escapeChar :
    parseUnits (escapeChar c ++ rest)
      = (parseUnits rest).map fun r => (codeUnits c ++ r.1, r.2) := by
  by_cases hquote : c = '"'
  · subst hquote; simp [escapeChar, parseUnits, simpleEscape, codeUnits]
  by_cases hback : c = '\\'
  · subst hback; simp [escapeChar, parseUnits, simpleEscape, codeUnits]
  by_cases hnl : c = '\n'
  · subst hnl; simp [escapeChar, parseUnits, simpleEscape, codeUnits]
  by_cases hcr : c = '\r'
  · subst hcr; simp [escapeChar, parseUnits, simpleEscape, codeUnits]
  by_cases htab : c = '\t'
  · subst htab; simp [escapeChar, parseUnits, simpleEscape, codeUnits]
  by_cases hff : c.toNat = 12
  · simp [escapeChar, hquote, hback, hnl, hcr, htab, parseUnits, simpleEscape, codeUnits, hff]
  by_cases hbs : c.toNat = 8
  · simp [escapeChar, hquote, hback, hnl, hcr, htab, parseUnits, simpleEscape, codeUnits, hbs]
  by_cases hplain : 32 ≤ c.toNat ∧ c.toNat ≤ 126
  · have hlow : ¬ c.toNat < 32 := by omega
    have hsmall : c.toNat < 0x10000 := by omega
    simp [escapeChar, hquote, hback, hnl, hcr, htab, hff, hbs, hplain, parseUnits, hlow, codeUnits,
      hsmall]
  · simp only [escapeChar, hquote, hback, hnl, hcr, htab, hff, hbs, hplain, if_false]
    exact parseUnits_flatMap_unicodeEscape rest _ (codeUnits_lt c)

theorem joinPoints_codeUnits (us : List ℕ) :
    joinPoints (codeUnits c ++ us) = c.toNat :: joinPoints us := by
  have hscalar := Char.toNat_scalar c
  by_cases hsmall : c.toNat < 0x10000
  · rw [codeUnits, if_pos hsmall, singleton_append]
    cases us with
    | nil => rfl
    | cons v us => rw [joinPoints, if_neg (by omega)]
  · have hvalue : 0x10000 + (0xd800 + (c.toNat - 0x10000) / 0x400 - 0xd800) * 0x400
        + (0xdc00 + (c.toNat - 0x10000) % 0x400 - 0xdc00) = c.toNat := by omega
    rw [codeUnits, if_neg hsmall, cons_append, cons_append, nil_append, joinPoints,
      if_pos (by omega), hvalue]

/-- The code points of a text are no surrogates. -/
theorem toText_toNat (s : Str) : toText (s.map Char.toNat) = some s := by
  induction s with
  | nil => rfl
  | cons c s ih =>
    have hscalar := Char.toNat_scalar c
    rw [toText, map_cons, mapM_cons, if_neg (by omega), Char.ofNat_toNat, ← toText, ih]
    rfl

/-- A string literal reads back as its string. -/
theorem parseString_quote (s rest : Str) :
    parseString (s.flatMap escapeChar ++ '"' :: rest) = some (s, rest) := by
  have hunits : ∀ s : Str, parseUnits (s.flatMap escapeChar ++ '"' :: rest)
      = some (s.flatMap codeUnits, rest) := by
    intro s
    induction s with
    | nil => simp [parseUnits]
    | cons c s ih =>
      rw [flatMap_cons, append_assoc, parseUnits_escapeChar, ih]
      simp
  have hjoin : ∀ s : Str, joinPoints (s.flatMap codeUnits) = s.map Char.toNat := by
    intro s
    induction s with
    | nil => rfl
    | cons c s ih => rw [flatMap_cons, joinPoints_codeUnits, ih, map_cons]
  rw [parseString, parsePoints, hunits, Option.map_some, Option.bind_some, hjoin, toText_toNat,
    Option.map_some]

/-- String literals are ASCII. -/
theorem ascii_quote {s : Str} {c : Char} (hc : c ∈ quote s) : c.toNat < 128 := by
  have hunit : ∀ n, ∀ d ∈ unicodeEscape n, d.toNat < 128 := by
    intro n d hd
    simp only [unicodeEscape, mem_cons, not_mem_nil, or_false] at hd
    rcases hd with rfl | rfl | rfl | rfl | rfl | rfl
    · decide
    · decide
    all_goals exact toNat_digitChar_lt _ (Nat.mod_lt _ (by decide))
  have hsimple : ∀ e : Char, e.toNat < 128 → ∀ d ∈ ['\\', e], d.toNat < 128 := by
    intro e he d hd
    simp only [mem_cons, not_mem_nil, or_false] at hd
    rcases hd with rfl | rfl
    · decide
    · exact he
  have hchar : ∀ e : Char, ∀ d ∈ escapeChar e, d.toNat < 128 := by
    intro e d hd
    unfold escapeChar at hd
    split_ifs at hd with _ _ _ _ _ _ _ hplain
    iterate 7 exact hsimple _ (by decide) d hd
    · rw [mem_singleton.mp hd]
      omega
    · obtain ⟨n, -, hn⟩ := mem_flatMap.mp hd
      exact hunit n d hn
  rw [quote, cons_append, mem_cons, mem_append, mem_singleton] at hc
  rcases hc with rfl | hc | rfl
  · decide
  · obtain ⟨e, -, he⟩ := mem_flatMap.mp hc
    exact hchar e c he
  · decide

/-! ## Numbers -/

/-- At least two digits, as in the exponent of a printed float. -/
def twoDigits (n : ℕ) : Str := if n < 10 then '0' :: numeral 10 n else numeral 10 n

/-- The exponent of a literal. -/
def exponentText : Option ℤ → Str
  | none => []
  | some e => 'e' :: (if e < 0 then '-' else '+') :: twoDigits e.natAbs

/-- The digits after the point of a literal. -/
def fractionText (ds : List (Fin 10)) : Str :=
  if ds = [] then [] else '.' :: ds.map fun d : Fin 10 => Nat.digitChar d

/-- The text of a finite float. -/
def Decimal.text (d : Decimal) : Str :=
  (if d.negative then ['-'] else []) ++ (numeral 10 d.whole ++
    (fractionText d.fraction ++ exponentText d.exponent))

/-- The text of a float. -/
def PyFloat.text : PyFloat → Str
  | finite d => d.text
  | nan => ['N', 'a', 'N']
  | posInf => ['I', 'n', 'f', 'i', 'n', 'i', 't', 'y']
  | negInf => ['-', 'I', 'n', 'f', 'i', 'n', 'i', 't', 'y']

/-- A decimal digit. -/
def isDigit (c : Char) : Bool := '0' ≤ c && c ≤ '9'

/-- The value of a run of digits. -/
def digitsVal (ds : Str) : ℕ := (readNumeral 10 ds).getD 0

/-- The whole part of a literal: `0` or digits without a leading zero. -/
def parseWhole : Str → Option (ℕ × Str)
  | [] => none
  | c :: cs =>
    if c = '0' then some (0, cs)
    else if isDigit c then
      some (digitsVal ((c :: cs).takeWhile isDigit), (c :: cs).dropWhile isDigit)
    else none

/-- A point and digits, if they are there. -/
def parseFraction : Str → List (Fin 10) × Str
  | '.' :: cs =>
    let ds := cs.takeWhile isDigit
    if ds = [] then ([], '.' :: cs)
    else (ds.map fun d => Fin.ofNat 10 (digitsVal [d]), cs.dropWhile isDigit)
  | cs => ([], cs)

/-- Sign and digits of an exponent, if they are there. -/
def parseExponentDigits (negative : Bool) (cs : Str) : Option (ℤ × Str) :=
  let ds := cs.takeWhile isDigit
  if ds = [] then none
  else some (if negative then -(digitsVal ds : ℤ) else digitsVal ds, cs.dropWhile isDigit)

/-- An exponent, if it is there. -/
def parseExponent (s : Str) : Option ℤ × Str :=
  match s with
  | [] => (none, s)
  | c :: cs =>
    if c = 'e' ∨ c = 'E' then
      match (match cs with
        | '-' :: ds => parseExponentDigits true ds
        | '+' :: ds => parseExponentDigits false ds
        | ds => parseExponentDigits false ds) with
      | some r => (some r.1, r.2)
      | none => (none, s)
    else (none, s)

variable {σ : Type}

/-- The value of a literal from its parts. -/
def numberOf (negative : Bool) (whole : ℕ) (fraction : List (Fin 10)) (exponent : Option ℤ) :
    Json σ :=
  if h : fraction ≠ [] ∨ exponent.isSome then
    .float (.finite ⟨negative, whole, fraction, exponent, h⟩)
  else .int (if negative then -(whole : ℤ) else whole)

/-- A number literal without its sign. -/
def parseUnsigned (negative : Bool) (s : Str) : Option (Json σ × Str) :=
  (parseWhole s).map fun w =>
    let f := parseFraction w.2
    let e := parseExponent f.2
    (numberOf negative w.1 f.1 e.1, e.2)

/-- A number literal. -/
def parseNumber : Str → Option (Json σ × Str)
  | '-' :: cs => parseUnsigned true cs
  | cs => parseUnsigned false cs

/-- A text after which a number literal ends. -/
def NumberStop (rest : Str) : Prop :=
  ∀ c ∈ rest.head?, isDigit c = false ∧ c ≠ '.' ∧ c ≠ 'e' ∧ c ≠ 'E'

theorem isDigit_digitChar : ∀ d < 10, isDigit (Nat.digitChar d) = true := by decide

variable {rest : Str}

theorem takeWhile_isDigit {ds : Str} (hds : ∀ c ∈ ds, isDigit c = true)
    (hrest : ∀ c ∈ rest.head?, isDigit c = false) :
    (ds ++ rest).takeWhile isDigit = ds ∧ (ds ++ rest).dropWhile isDigit = rest := by
  rw [takeWhile_append_of_pos hds, dropWhile_append_of_pos hds]
  cases rest with
  | nil => simp
  | cons c cs =>
    have hc : isDigit c = false := hrest c rfl
    simp [hc]

theorem mem_numeral_isDigit {n : ℕ} {c : Char} (hc : c ∈ numeral 10 n) : isDigit c = true := by
  obtain ⟨d, hd, rfl⟩ := mem_numeral (by norm_num) hc
  exact isDigit_digitChar d hd

@[simp] theorem digitsVal_numeral : digitsVal (numeral 10 n) = n := by
  rw [digitsVal, readNumeral_numeral (by norm_num) (by norm_num), Option.getD_some]

theorem digitChar_ne_zero : ∀ d < 10, d ≠ 0 → Nat.digitChar d ≠ '0' := by decide

/-- A numeral starts with `0` only if it is `0`. -/
theorem numeral_cases :
    (n = 0 ∧ numeral 10 n = ['0']) ∨
      ∃ c cs, numeral 10 n = c :: cs ∧ c ≠ '0' ∧ isDigit c = true := by
  by_cases hn : n = 0
  · exact Or.inl ⟨hn, by simp [numeral, hn]⟩
  · right
    have hne : Nat.digits 10 n ≠ [] := Nat.digits_ne_nil_iff_ne_zero.mpr hn
    have hlt : (Nat.digits 10 n).getLast hne < 10 :=
      Nat.digits_lt_base (by norm_num) (getLast_mem hne)
    refine ⟨Nat.digitChar ((Nat.digits 10 n).getLast hne),
      ((Nat.digits 10 n).dropLast.reverse.map Nat.digitChar), ?_,
      digitChar_ne_zero _ hlt (Nat.getLast_digit_ne_zero 10 hn), isDigit_digitChar _ hlt⟩
    rw [numeral, if_neg hn]
    conv_lhs => rw [← dropLast_append_getLast hne]
    simp

theorem parseWhole_numeral (hrest : ∀ c ∈ rest.head?, isDigit c = false) :
    parseWhole (numeral 10 n ++ rest) = some (n, rest) := by
  obtain ⟨rfl, hzero⟩ | ⟨c, cs, hcons, hc0, hcd⟩ := numeral_cases n
  · rw [hzero]
    simp [parseWhole]
  · obtain ⟨htake, hdrop⟩ := takeWhile_isDigit (fun x hx => mem_numeral_isDigit (n := n) hx) hrest
    rw [hcons, cons_append] at htake hdrop ⊢
    rw [parseWhole, if_neg hc0, if_pos hcd, htake, hdrop, ← hcons, digitsVal_numeral]

theorem digitsVal_digitChar : ∀ d : Fin 10, Fin.ofNat 10 (digitsVal [Nat.digitChar d]) = d := by
  decide

theorem parseFraction_fractionText (ds : List (Fin 10))
    (hrest : ∀ c ∈ rest.head?, isDigit c = false ∧ c ≠ '.') :
    parseFraction (fractionText ds ++ rest) = (ds, rest) := by
  by_cases hds : ds = []
  · rw [fractionText, if_pos hds, nil_append, hds]
    cases rest with
    | nil => rfl
    | cons c cs =>
      have hc : c ≠ '.' := (hrest c rfl).2
      rw [parseFraction]
      simpa using hc
  · have hdigit : ∀ c ∈ ds.map (fun d : Fin 10 => Nat.digitChar d), isDigit c = true := by
      intro c hc
      obtain ⟨d, -, rfl⟩ := mem_map.mp hc
      exact isDigit_digitChar d d.isLt
    obtain ⟨htake, hdrop⟩ := takeWhile_isDigit hdigit (fun c hc => (hrest c hc).1)
    rw [fractionText, if_neg hds, cons_append, parseFraction, htake, hdrop]
    simp only [map_eq_nil_iff, hds, if_false, map_map]
    rw [show ((fun d => Fin.ofNat 10 (digitsVal [d])) ∘ fun d : Fin 10 => Nat.digitChar d) = id from
      funext digitsVal_digitChar, map_id]

theorem twoDigits_spec :
    twoDigits n ≠ [] ∧ (∀ c ∈ twoDigits n, isDigit c = true) ∧ digitsVal (twoDigits n) = n := by
  unfold twoDigits
  by_cases hn : n < 10
  · rw [if_pos hn]
    refine ⟨cons_ne_nil _ _, ?_, ?_⟩
    · intro c hc
      rcases mem_cons.mp hc with rfl | hc
      · decide
      · exact mem_numeral_isDigit hc
    · interval_cases n <;> decide
  · rw [if_neg hn]
    exact ⟨numeral_ne_nil 10 n, fun c hc => mem_numeral_isDigit hc, digitsVal_numeral n⟩

theorem parseExponentDigits_twoDigits (hrest : ∀ c ∈ rest.head?, isDigit c = false) :
    parseExponentDigits negative (twoDigits n ++ rest)
      = some (if negative then -(n : ℤ) else n, rest) := by
  obtain ⟨hne, hdigit, hval⟩ := twoDigits_spec n
  obtain ⟨htake, hdrop⟩ := takeWhile_isDigit hdigit hrest
  simp only [parseExponentDigits, htake, hdrop, hne, if_false, hval]

theorem parseExponent_exponentText (e : Option ℤ) (hrest : NumberStop rest) :
    parseExponent (exponentText e ++ rest) = (e, rest) := by
  cases e with
  | none =>
    rw [exponentText, nil_append]
    cases rest with
    | nil => rfl
    | cons c cs =>
      obtain ⟨-, -, he, hE⟩ := hrest c rfl
      simp [parseExponent, he, hE]
  | some e =>
    have hdigits : ∀ c ∈ rest.head?, isDigit c = false := fun c hc => (hrest c hc).1
    by_cases hneg : e < 0
    · have hparse := parseExponentDigits_twoDigits true e.natAbs hdigits
      simp only [exponentText, hneg, if_true, cons_append, parseExponent, true_or, hparse]
      simp only [Prod.mk.injEq, Option.some_inj, and_true]
      omega
    · have hparse := parseExponentDigits_twoDigits false e.natAbs hdigits
      simp only [exponentText, hneg, if_false, cons_append, parseExponent, true_or, if_true, hparse]
      simp only [Prod.mk.injEq, Option.some_inj, and_true, Bool.false_eq_true, if_false]
      omega

/-- The parts of a printed literal, read back. -/
theorem parseUnsigned_text (whole : ℕ) (fraction : List (Fin 10)) (exponent : Option ℤ)
    (hrest : NumberStop rest) :
    parseUnsigned (σ := σ) negative (numeral 10 whole ++
        (fractionText fraction ++ exponentText exponent) ++ rest)
      = some (numberOf negative whole fraction exponent, rest) := by
  have hexp : ∀ c ∈ (exponentText exponent ++ rest).head?, isDigit c = false ∧ c ≠ '.' := by
    cases exponent with
    | none => exact fun c hc => ⟨(hrest c hc).1, (hrest c hc).2.1⟩
    | some e =>
      rintro c ⟨⟩
      decide
  have hfrac : ∀ c ∈ (fractionText fraction ++ (exponentText exponent ++ rest)).head?,
      isDigit c = false := by
    by_cases hds : fraction = []
    · rw [fractionText, if_pos hds]
      exact fun c hc => (hexp c hc).1
    · rw [fractionText, if_neg hds]
      rintro c ⟨⟩
      decide
  rw [append_assoc, append_assoc, parseUnsigned, parseWhole_numeral whole hfrac]
  simp only [Option.map_some, parseFraction_fractionText fraction hexp,
    parseExponent_exponentText exponent hrest]

theorem numeral_append_ne_minus (cs : Str) : numeral 10 n ++ rest ≠ '-' :: cs := by
  intro heq
  obtain ⟨-, hzero⟩ | ⟨c, ds, hcons, -, hcd⟩ := numeral_cases n
  · rw [hzero] at heq
    simp at heq
  · rw [hcons, cons_append, List.cons.injEq] at heq
    rw [heq.1] at hcd
    exact absurd hcd (by decide)

theorem parseNumber_sign :
    parseNumber (σ := σ) ((if negative then ['-'] else []) ++ (numeral 10 n ++ rest))
      = parseUnsigned negative (numeral 10 n ++ rest) := by
  cases negative with
  | true => rfl
  | false =>
    show parseNumber (numeral 10 n ++ rest) = _
    unfold parseNumber
    split
    · rename_i cs heq
      exact absurd heq (numeral_append_ne_minus n cs)
    · rfl

/-- A printed float reads back. -/
theorem parseNumber_decimal (d : Decimal) (hrest : NumberStop rest) :
    parseNumber (σ := σ) (d.text ++ rest) = some (.float (.finite d), rest) := by
  rw [Decimal.text, append_assoc, append_assoc, parseNumber_sign, ← append_assoc,
    parseUnsigned_text d.negative d.whole d.fraction d.exponent hrest, numberOf, dif_pos d.proper]

/-- A printed integer reads back. -/
theorem parseNumber_int (z : ℤ) (hrest : NumberStop rest) :
    parseNumber (σ := σ) (showInt z ++ rest) = some (.int z, rest) := by
  have hshow : showInt z = (if decide (z < 0) then ['-'] else []) ++ numeral 10 z.natAbs := by
    by_cases hneg : z < 0
    · simp [showInt, hneg]
    · simp [showInt, hneg]
  have hparse := parseUnsigned_text (σ := σ) (decide (z < 0)) z.natAbs [] none hrest
  rw [hshow, append_assoc, parseNumber_sign]
  rw [fractionText, if_pos rfl, exponentText, append_nil, append_nil] at hparse
  rw [hparse, numberOf, dif_neg (by simp)]
  congr 3
  by_cases hneg : z < 0
  · simp only [hneg, decide_true, if_true]
    omega
  · simp only [hneg, decide_false, Bool.false_eq_true, if_false]
    omega

end TrustFlow.Library
