import Mathlib.Data.List.Sort
import TrustFlow.Library.Dict
import TrustFlow.Library.JsonToken
import TrustFlow.Library.Outcome

/-!
# `json.dumps` and `json.loads`

The printer and the parser of JSON values, and the round trip between them.

* `dumps compact v` — the text of `v`, with or without blanks after the
  separators.
* `loadsBy R s` — the value of `s`, or the exception that `json.loads` raises
  (`LoadsError`).  A step of the scanner reads one token: the first thing that is
  wrong, in the order of the text, decides which exception it is.  The `Reader`
  says what a string literal is read as, and carries the two limits of the
  interpreter: the digits of an integer literal and the depth of nesting.  As in
  Python a repeated key keeps its first position and its last value.
* `loads s` — the value of `s` whose strings are texts, without limits; `none` is
  an exception, or a string with an unpaired surrogate.  This is how the program
  reads back what it has written itself.
* `Json.Unique` — no object repeats a key, as for every Python `dict`.
* `loads_dumps` — **the round trip** for such values; `dumps_injective`.
* `unique_of_loads` — the parser returns such values only.
* `sortKeys` — the value `sort_keys=True` prints.  Two values with equal
  `sortKeys` are the same up to the order of their keys.
-/

namespace TrustFlow.Library

open Option

open List

/-! ## Printing -/

/-- The blank after a separator. -/
def blank (compact : Bool) : Str := if compact then [] else [' ']

mutual

/-- `json.dumps(v)`; `compact` is `separators=(",", ":")`. -/
def dumps (compact : Bool) : Json → Str
  | .null => ['n', 'u', 'l', 'l']
  | .bool true => ['t', 'r', 'u', 'e']
  | .bool false => ['f', 'a', 'l', 's', 'e']
  | .int z => showInt z
  | .float f => f.text
  | .str s => quote s
  | .arr [] => ['[', ']']
  | .arr (v :: vs) => '[' :: (dumps compact v ++ dumpsItems compact vs)
  | .obj [] => ['\x7b', '\x7d']
  | .obj ((k, v) :: fs) =>
    '\x7b' :: (quote k ++ ':' :: (blank compact ++ (dumps compact v ++ dumpsFields compact fs)))

/-- The remaining items of an array and its closing bracket. -/
def dumpsItems (compact : Bool) : List Json → Str
  | [] => [']']
  | v :: vs => ',' :: (blank compact ++ (dumps compact v ++ dumpsItems compact vs))

/-- The remaining fields of an object and its closing brace. -/
def dumpsFields (compact : Bool) : List (Str × Json) → Str
  | [] => ['\x7d']
  | (k, v) :: fs =>
    ',' :: (blank compact ++ (quote k ++ ':' :: (blank compact ++
      (dumps compact v ++ dumpsFields compact fs))))

end

variable (compact negative : Bool) (k rest : Str)

theorem ascii_blank : ∀ c ∈ blank compact, c.toNat < 128 := by
  cases compact with
  | true => exact all_iff_forall_prop.mp (by decide)
  | false => exact all_iff_forall_prop.mp (by decide)

variable {fs : List (Str × Json)} {c : Char} {s : Str} {v : Json}

theorem ascii_dumpsFields {compact : Bool} (hfs : ∀ f ∈ fs, ∀ c ∈ dumps compact f.2, c.toNat < 128) :
    ∀ c ∈ dumpsFields compact fs, c.toNat < 128 := by
  have hblank := ascii_blank compact
  induction fs with
  | nil =>
    intro c hc
    rw [dumpsFields, mem_singleton] at hc
    rw [hc]
    decide
  | cons f fs ih =>
    intro c hc
    simp only [dumpsFields, mem_cons, mem_append] at hc
    rcases hc with rfl | hc | hc | rfl | hc | hc | hc
    · decide
    · exact hblank c hc
    · exact ascii_quote hc
    · decide
    · exact hblank c hc
    · exact hfs f mem_cons_self c hc
    · exact ih (fun g hg => hfs g (mem_cons_of_mem _ hg)) c hc

/-- An object is ASCII, if its values are. -/
theorem ascii_dumps_obj {compact : Bool} (hfs : ∀ f ∈ fs, ∀ c ∈ dumps compact f.2, c.toNat < 128) :
    ∀ c ∈ dumps compact (.obj fs), c.toNat < 128 := by
  intro c hc
  cases fs with
  | nil =>
    rw [dumps] at hc
    revert c
    exact all_iff_forall_prop.mp (by decide)
  | cons f fs =>
    have hblank := ascii_blank compact
    have hrest := ascii_dumpsFields fun g hg => hfs g (mem_cons_of_mem _ hg)
    simp only [dumps, mem_cons, mem_append] at hc
    rcases hc with rfl | hc | rfl | hc | hc | hc
    · decide
    · exact ascii_quote hc
    · decide
    · exact hblank c hc
    · exact hfs f mem_cons_self c hc
    · exact hrest c hc

/-! ## Parsing -/

/-- Skip JSON white space. -/
def skipBlanks (s : Str) : Str :=
  s.dropWhile fun c => c = ' ' || c = '\t' || c = '\n' || c = '\r'

section

variable {σ : Type} [DecidableEq σ]

/-- `dict(pairs)`. -/
def collectFields (fields : List (σ × Json σ)) : List (σ × Json σ) :=
  fields.foldl (fun acc field => Assoc.set field.1 field.2 acc) []

/-- The part of a constant or number: what is neither a string nor a bracket. -/
def parseScalar (s : Str) : Option (Json σ × Str) :=
  match s with
  | 'n' :: 'u' :: 'l' :: 'l' :: rest => some (.null, rest)
  | 't' :: 'r' :: 'u' :: 'e' :: rest => some (.bool true, rest)
  | 'f' :: 'a' :: 'l' :: 's' :: 'e' :: rest => some (.bool false, rest)
  | 'N' :: 'a' :: 'N' :: rest => some (.float .nan, rest)
  | 'I' :: 'n' :: 'f' :: 'i' :: 'n' :: 'i' :: 't' :: 'y' :: rest => some (.float .posInf, rest)
  | '-' :: 'I' :: 'n' :: 'f' :: 'i' :: 'n' :: 'i' :: 't' :: 'y' :: rest => some (.float .negInf, rest)
  | _ => parseNumber s

/-- The exceptions of `json.loads`: `JSONDecodeError`, the `ValueError` of an integer
with too many digits, and `RecursionError`. -/
inductive LoadsError where
  | decode
  | digits
  | recursion
  deriving DecidableEq

/-- How a text is read: what a string literal is read as, what a text is as such a
string, and the limits of the interpreter, `none` for no limit.  `maxDigits` is
`sys.get_int_max_str_digits()`; `depth` is the number of arrays and objects that may
still be opened inside one another. -/
structure Reader (σ : Type) where
  string : Str → Option (σ × Str)
  ofText : Str → σ
  maxDigits : Option ℕ
  depth : Option ℕ

namespace Reader

/-- Strings are texts, and there are no limits. -/
def plain : Reader Str := ⟨parseString, id, none, none⟩

/-- CPython: strings are code points. -/
def cpython (maxDigits depth : ℕ) : Reader (List ℕ) :=
  ⟨parsePoints, List.map Char.toNat, some maxDigits, some depth⟩

variable (R : Reader σ)

/-- One array or object further in. -/
def enter : Except LoadsError (Reader σ) :=
  match R.depth with
  | none => .ok R
  | some 0 => .error .recursion
  | some (depth + 1) => .ok { R with depth := some depth }

/-- `int(literal)` of an integer literal. -/
def checkDigits (r : Json σ × Str) : Except LoadsError (Json σ × Str) :=
  match r.1, R.maxDigits with
  | .int z, some maxDigits =>
    if maxDigits < (numeral 10 z.natAbs).length then .error .digits else .ok r
  | _, _ => .ok r

end Reader

@[simp] theorem Reader.string_plain : Reader.plain.string = parseString := rfl

@[simp] theorem Reader.ofText_plain (s : Str) : Reader.plain.ofText s = s := rfl

@[simp] theorem Reader.enter_plain : Reader.plain.enter = .ok .plain := rfl

/-- What is no token is a `JSONDecodeError`. -/
def token {α : Type} (parsed : Option α) : Except LoadsError α := parsed.elim (.error .decode) .ok

@[simp] theorem token_some {α : Type} (a : α) : token (some a) = .ok a := rfl

theorem token_eq_ok {α : Type} {parsed : Option α} {a : α} : token parsed = .ok a ↔ parsed = some a := by
  cases parsed with
  | none => simp [token]
  | some b => simp

mutual

/-- One value at the head of the text.  The number bounds the nested calls. -/
def parseValue : Reader σ → ℕ → Str → Except LoadsError (Json σ × Str)
  | _, 0, _ => .error .decode
  | _, _ + 1, [] => .error .decode
  | R, fuel + 1, c :: cs =>
    if c = '"' then (token (R.string cs)).map fun r => (.str r.1, r.2)
    else if c = '[' then
      R.enter >>= fun R =>
        match skipBlanks cs with
        | ']' :: rest => .ok (.arr [], rest)
        | rest => (parseItems R fuel rest).map fun r => (.arr r.1, r.2)
    else if c = '\x7b' then
      R.enter >>= fun R =>
        match skipBlanks cs with
        | '\x7d' :: rest => .ok (.obj [], rest)
        | rest => (parseFields R fuel rest).map fun r => (.obj (collectFields r.1), r.2)
    else token (parseScalar (c :: cs)) >>= R.checkDigits

/-- Items up to the closing bracket. -/
def parseItems : Reader σ → ℕ → Str → Except LoadsError (List (Json σ) × Str)
  | _, 0, _ => .error .decode
  | R, fuel + 1, s =>
    parseValue R fuel s >>= fun r =>
      match skipBlanks r.2 with
      | ']' :: rest => .ok ([r.1], rest)
      | ',' :: rest => (parseItems R fuel (skipBlanks rest)).map fun q => (r.1 :: q.1, q.2)
      | _ => .error .decode

/-- Fields up to the closing brace. -/
def parseFields : Reader σ → ℕ → Str → Except LoadsError (List (σ × Json σ) × Str)
  | _, 0, _ => .error .decode
  | R, fuel + 1, s =>
    match s with
    | '"' :: s =>
      token (R.string s) >>= fun k =>
        match skipBlanks k.2 with
        | ':' :: rest =>
          parseValue R fuel (skipBlanks rest) >>= fun r =>
            match skipBlanks r.2 with
            | '\x7d' :: rest => .ok ([(k.1, r.1)], rest)
            | ',' :: rest =>
              (parseFields R fuel (skipBlanks rest)).map fun q => ((k.1, r.1) :: q.1, q.2)
            | _ => .error .decode
        | _ => .error .decode
    | _ => .error .decode

end

/-- `json.loads(s)`. -/
def loadsBy (R : Reader σ) (s : Str) : Except LoadsError (Json σ) :=
  parseValue R (2 * s.length + 2) (skipBlanks s) >>= fun r =>
    if skipBlanks r.2 = [] then .ok r.1 else .error .decode

end

-- an unpaired surrogate is read; the limits are met before what is wrong behind them
example : (loadsBy (.cpython 4300 1000) "[\"\\ud800\"]").map (fun _ => ()) = .ok () ∧
    (loadsBy (.cpython 3 1000) "[1234").map (fun _ => ()) = .error .digits ∧
    (loadsBy (.cpython 4300 1) "[[").map (fun _ => ()) = .error .recursion := by
  decide +kernel

/-- `json.loads(s)`, of a text of the program. -/
def loads (s : Str) : Option Json := (loadsBy .plain s).toOption

/-! ## Sizes and unique keys -/

mutual

/-- The number of nested parser calls a value needs. -/
def Json.size : Json → ℕ
  | .arr vs => 1 + sizeItems vs
  | .obj fs => 1 + sizeFields fs
  | _ => 1

def sizeItems : List Json → ℕ
  | [] => 0
  | v :: vs => 1 + v.size + sizeItems vs

def sizeFields : List (Str × Json) → ℕ
  | [] => 0
  | (_, v) :: fs => 1 + v.size + sizeFields fs

end

mutual

/-- No object in the value repeats a key. -/
def Json.Unique : Json → Prop
  | .arr vs => UniqueItems vs
  | .obj fs => (fs.map Prod.fst).Nodup ∧ UniqueFields fs
  | _ => True

def UniqueItems : List Json → Prop
  | [] => True
  | v :: vs => v.Unique ∧ UniqueItems vs

def UniqueFields : List (Str × Json) → Prop
  | [] => True
  | (_, v) :: fs => v.Unique ∧ UniqueFields fs

end

/-! ## The round trip -/

/-- What a value's text can start with. -/
def valueHead (c : Char) : Prop :=
  c ≠ ' ' ∧ c ≠ '\t' ∧ c ≠ '\n' ∧ c ≠ '\r' ∧ c ≠ ']'

instance (c : Char) : Decidable (valueHead c) :=
  inferInstanceAs (Decidable (c ≠ ' ' ∧ c ≠ '\t' ∧ c ≠ '\n' ∧ c ≠ '\r' ∧ c ≠ ']'))

theorem valueHead_of_isDigit (hc : isDigit c = true) :
    valueHead c ∧ c ≠ '"' ∧ c ≠ '[' ∧ c ≠ '\x7b' ∧ c ≠ 'I' := by
  refine ⟨⟨?_, ?_, ?_, ?_, ?_⟩, ?_, ?_, ?_, ?_⟩ <;> rintro rfl <;> exact absurd hc (by decide)

/-- A literal that starts with a digit, or with a sign and a digit. -/
def NumberHead (s : Str) : Prop :=
  ∃ c cs, isDigit c = true ∧ (s = c :: cs ∨ s = '-' :: c :: cs)

theorem numberHead_numeral (n : ℕ) (rest : Str) :
    NumberHead ((if negative then ['-'] else []) ++ (numeral 10 n ++ rest)) := by
  obtain ⟨c, cs, hcons⟩ := exists_cons_of_ne_nil (numeral_ne_nil 10 n)
  have hc : isDigit c = true := mem_numeral_isDigit (n := n) (hcons ▸ mem_cons_self)
  refine ⟨c, cs ++ rest, hc, ?_⟩
  cases negative with
  | true => exact Or.inr (by rw [hcons]; rfl)
  | false => exact Or.inl (by rw [hcons]; rfl)

theorem numberHead_showInt (z : ℤ) (rest : Str) : NumberHead (showInt z ++ rest) := by
  have hshow : showInt z = (if decide (z < 0) then ['-'] else []) ++ numeral 10 z.natAbs := by
    by_cases hneg : z < 0 <;> simp [showInt, hneg]
  rw [hshow, append_assoc]
  exact numberHead_numeral _ _ _

theorem numberHead_decimal (d : Decimal) (rest : Str) : NumberHead (d.text ++ rest) := by
  rw [Decimal.text, append_assoc, append_assoc]
  exact numberHead_numeral _ _ _

/-- A number literal is no constant. -/
theorem parseScalar_number (hs : NumberHead s) : parseScalar (σ := Str) s = parseNumber s := by
  unfold parseScalar
  split
  -- every constant starts with a letter, or with a sign and a letter
  case h_7 => rfl
  all_goals
    obtain ⟨c, cs, hc, h | h⟩ := hs <;> cases h <;> exact absurd hc (by decide)

theorem parseValue_number (hs : NumberHead s) (fuel : ℕ) {r : Json × Str}
    (h : parseNumber s = some r) : parseValue .plain (fuel + 1) s = .ok r := by
  rw [← parseScalar_number hs] at h
  have hvalue : parseValue .plain (fuel + 1) s = token (parseScalar s) >>= Reader.plain.checkDigits := by
    obtain ⟨c, cs, hc, rfl | rfl⟩ := hs
    · obtain ⟨-, hquote, harr, hobj, -⟩ := valueHead_of_isDigit hc
      rw [parseValue, if_neg hquote, if_neg harr, if_neg hobj]
    · rfl
  rw [hvalue, h]
  obtain ⟨v, rest⟩ := r
  cases v <;> rfl

/-- The text of a value starts neither with a blank nor with a bracket that
closes. -/
theorem dumps_head (v : Json) : ∃ c cs, dumps compact v = c :: cs ∧ valueHead c := by
  have hnumber : ∀ s : Str, NumberHead (s ++ []) → ∃ c cs, s = c :: cs ∧ valueHead c := by
    rintro s ⟨c, cs, hc, h | h⟩
    · exact ⟨c, cs, by simpa using h, (valueHead_of_isDigit hc).1⟩
    · exact ⟨'-', c :: cs, by simpa using h, by decide⟩
  cases v with
  | null => exact ⟨_, _, rfl, by decide⟩
  | bool b => cases b <;> exact ⟨_, _, rfl, by decide⟩
  | int z => exact hnumber _ (numberHead_showInt z [])
  | float f =>
    cases f with
    | finite d => exact hnumber _ (numberHead_decimal d [])
    | nan => exact ⟨_, _, rfl, by decide⟩
    | posInf => exact ⟨_, _, rfl, by decide⟩
    | negInf => exact ⟨_, _, rfl, by decide⟩
  | str s => exact ⟨_, _, rfl, by decide⟩
  | arr vs => cases vs <;> exact ⟨_, _, rfl, by decide⟩
  | obj fs => cases fs <;> exact ⟨_, _, rfl, by decide⟩

theorem length_pos_of_head (v : Json) (hsize : v.size = 1) : v.size ≤ (dumps compact v).length := by
  obtain ⟨c, cs, hdumps, -⟩ := dumps_head compact v
  rw [hsize, hdumps, length_cons]
  omega

theorem skipBlanks_cons (hc : valueHead c) (cs : Str) : skipBlanks (c :: cs) = c :: cs := by
  obtain ⟨h1, h2, h3, h4, -⟩ := hc
  simp [skipBlanks, h1, h2, h3, h4]

theorem skipBlanks_blank (s : Str) : skipBlanks (blank compact ++ s) = skipBlanks s := by
  cases compact <;> simp [blank, skipBlanks]

/-- After a separator the parser stands at the next value. -/
theorem skipBlanks_dumps (v : Json) (rest : Str) :
    skipBlanks (dumps compact v ++ rest) = dumps compact v ++ rest := by
  obtain ⟨c, cs, hdumps, hhead⟩ := dumps_head compact v
  rw [hdumps, cons_append]
  exact skipBlanks_cons hhead _

theorem skipBlanks_quote : skipBlanks (quote k ++ rest) = quote k ++ rest :=
  skipBlanks_cons (by decide) _

theorem parseString_quote_append :
    parseString ((k.flatMap escapeChar ++ ['"']) ++ rest) = some (k, rest) := by
  rw [append_assoc]
  exact parseString_quote k rest

theorem numberStop_cons (hc : isDigit c = false ∧ c ≠ '.' ∧ c ≠ 'e' ∧ c ≠ 'E') (rest : Str) :
    NumberStop (c :: rest) := by
  rintro _ ⟨⟩
  exact hc

/-- Closing and separating characters end a number. -/
theorem numberStop_dumpsItems (vs : List Json) (rest : Str) :
    NumberStop (dumpsItems compact vs ++ rest) := by
  cases vs <;> exact numberStop_cons (by decide) _

theorem numberStop_dumpsFields (fs : List (Str × Json)) (rest : Str) :
    NumberStop (dumpsFields compact fs ++ rest) := by
  rcases fs with _ | ⟨⟨k, v⟩, fs⟩ <;> exact numberStop_cons (by decide) _

/-- A dictionary built from distinct keys lists them as they come. -/
theorem collectFields_of_nodup (hfs : (fs.map Prod.fst).Nodup) : collectFields fs = fs := by
  have hfold : ∀ (fs acc : List (Str × Json)), ((acc ++ fs).map Prod.fst).Nodup →
      fs.foldl (fun acc field => Assoc.set field.1 field.2 acc) acc = acc ++ fs := by
    intro fs
    induction fs with
    | nil => simp
    | cons field fs ih =>
      intro acc hnodup
      have hnew : field.1 ∉ acc.map Prod.fst := by
        rw [map_append, map_cons] at hnodup
        exact fun h => (nodup_append.mp hnodup).2.2 _ h _ mem_cons_self rfl
      rw [foldl_cons, Assoc.set_of_notMem hnew, ih _ (by simpa using hnodup)]
      simp
  exact hfold fs [] (by simpa using hfs)

theorem exists_fuel {fuel : ℕ} (hfuel : v.size ≤ fuel) : ∃ m, fuel = m + 1 := by
  have hpos : 0 < v.size := by cases v <;> simp [Json.size]
  exact ⟨fuel - 1, by omega⟩

/-- How the parser reads one value, as a property of the value. -/
def Reads (compact : Bool) (v : Json) : Prop :=
  ∀ (fuel : ℕ) (rest : Str), v.size ≤ fuel → NumberStop rest →
    parseValue .plain fuel (dumps compact v ++ rest) = .ok (v, rest)

theorem parseItems_dumps :
    ∀ (vs : List Json) (v : Json) (fuel : ℕ) (rest : Str), Reads compact v →
      (∀ w ∈ vs, Reads compact w) → 1 + v.size + sizeItems vs ≤ fuel →
      parseItems .plain fuel (dumps compact v ++ dumpsItems compact vs ++ rest)
        = .ok (v :: vs, rest) := by
  intro vs
  induction vs with
  | nil =>
    intro v fuel rest hv _ hfuel
    obtain ⟨fuel, rfl⟩ : ∃ m, fuel = m + 1 := ⟨fuel - 1, by omega⟩
    rw [sizeItems] at hfuel
    rw [append_assoc, parseItems,
      hv fuel _ (by omega) (numberStop_dumpsItems compact [] rest), ok_bind]
    rfl
  | cons w vs ih =>
    intro v fuel rest hv hvs hfuel
    obtain ⟨fuel, rfl⟩ : ∃ m, fuel = m + 1 := ⟨fuel - 1, by omega⟩
    rw [sizeItems] at hfuel
    have hrest := ih w fuel rest (hvs w mem_cons_self)
      (fun x hx => hvs x (mem_cons_of_mem _ hx)) (by omega)
    rw [append_assoc, parseItems,
      hv fuel _ (by omega) (numberStop_dumpsItems compact (w :: vs) rest), ok_bind,
      dumpsItems, cons_append, skipBlanks_cons (by decide)]
    simp only [append_assoc] at hrest ⊢
    rw [skipBlanks_blank, skipBlanks_dumps, hrest]
    rfl

theorem parseFields_dumps :
    ∀ (fs : List (Str × Json)) (k : Str) (v : Json) (fuel : ℕ) (rest : Str), Reads compact v →
      (∀ f ∈ fs, Reads compact f.2) → 1 + v.size + sizeFields fs ≤ fuel →
      parseFields .plain fuel (quote k ++ ':' :: (blank compact ++ (dumps compact v ++
        dumpsFields compact fs)) ++ rest) = .ok ((k, v) :: fs, rest) := by
  intro fs
  induction fs with
  | nil =>
    intro k v fuel rest hv _ hfuel
    obtain ⟨fuel, rfl⟩ : ∃ m, fuel = m + 1 := ⟨fuel - 1, by omega⟩
    rw [sizeFields] at hfuel
    simp only [quote, cons_append, append_assoc, nil_append, parseFields, Reader.string_plain,
      parseString_quote, token_some, ok_bind]
    rw [skipBlanks_cons (by decide)]
    simp only [skipBlanks_blank, skipBlanks_dumps,
      hv fuel _ (by omega) (numberStop_dumpsFields compact [] rest), ok_bind]
    rfl
  | cons f fs ih =>
    obtain ⟨k', w⟩ := f
    intro k v fuel rest hv hfs hfuel
    obtain ⟨fuel, rfl⟩ : ∃ m, fuel = m + 1 := ⟨fuel - 1, by omega⟩
    rw [sizeFields] at hfuel
    have hrest := ih k' w fuel rest (hfs _ mem_cons_self)
      (fun x hx => hfs x (mem_cons_of_mem _ hx)) (by omega)
    simp only [quote, cons_append, append_assoc, nil_append, parseFields, Reader.string_plain,
      parseString_quote, token_some, ok_bind] at hrest ⊢
    rw [skipBlanks_cons (by decide)]
    simp only [skipBlanks_blank, skipBlanks_dumps,
      hv fuel _ (by omega) (numberStop_dumpsFields compact ((k', w) :: fs) rest),
      ok_bind]
    rw [dumpsFields, cons_append, skipBlanks_cons (by decide)]
    simp only [append_assoc, skipBlanks_blank]
    rw [skipBlanks_quote]
    simp only [quote, cons_append, append_assoc, nil_append, hrest]
    rfl

mutual

/-- The parser reads every value without repeated keys. -/
theorem reads_of_unique (compact : Bool) : ∀ v : Json, v.Unique → Reads compact v
  | .null, _, fuel, rest, hfuel, _ => by
      obtain ⟨fuel, rfl⟩ := exists_fuel hfuel
      rfl
  | .bool b, _, fuel, rest, hfuel, _ => by
      obtain ⟨fuel, rfl⟩ := exists_fuel hfuel
      cases b <;> rfl
  | .int z, _, fuel, rest, hfuel, hstop => by
      obtain ⟨fuel, rfl⟩ := exists_fuel hfuel
      rw [dumps, parseValue_number (numberHead_showInt z rest) fuel (parseNumber_int z hstop)]
  | .float f, _, fuel, rest, hfuel, hstop => by
      obtain ⟨fuel, rfl⟩ := exists_fuel hfuel
      cases f with
      | finite d =>
        rw [dumps, PyFloat.text, parseValue_number (numberHead_decimal d rest) fuel
          (parseNumber_decimal d hstop)]
      | nan => rfl
      | posInf => rfl
      | negInf => rfl
  | .str s, _, fuel, rest, hfuel, _ => by
      obtain ⟨fuel, rfl⟩ := exists_fuel hfuel
      rw [dumps, quote, cons_append, cons_append, parseValue, if_pos rfl, Reader.string_plain,
        parseString_quote_append, token_some]
      rfl
  | .arr vs, hunique, fuel, rest, hfuel, _ => by
      obtain ⟨fuel, rfl⟩ := exists_fuel hfuel
      rw [Json.size] at hfuel
      have hall := readsItems_of_unique compact vs (by rwa [Json.Unique] at hunique)
      cases vs with
      | nil => rfl
      | cons v vs =>
        rw [sizeItems] at hfuel
        have hitems := parseItems_dumps compact vs v fuel rest (hall v mem_cons_self)
          (fun w hw => hall w (mem_cons_of_mem _ hw)) (by omega)
        obtain ⟨c, cs, hdumps, hhead⟩ := dumps_head compact v
        rw [dumps, cons_append, parseValue, if_neg (by decide), if_pos rfl, Reader.enter_plain,
          ok_bind]
        rw [hdumps, cons_append, cons_append] at hitems ⊢
        rw [skipBlanks_cons hhead]
        split
        · rename_i heq
          exact absurd (List.cons.inj heq).1 hhead.2.2.2.2
        · rw [hitems]
          rfl
  | .obj fs, hunique, fuel, rest, hfuel, _ => by
      obtain ⟨fuel, rfl⟩ := exists_fuel hfuel
      rw [Json.size] at hfuel
      rw [Json.Unique] at hunique
      have hall := readsFields_of_unique compact fs hunique.2
      cases fs with
      | nil => rfl
      | cons f fs =>
        obtain ⟨k, v⟩ := f
        rw [sizeFields] at hfuel
        have hfields := parseFields_dumps compact fs k v fuel rest (hall _ mem_cons_self)
          (fun f hf => hall f (mem_cons_of_mem _ hf)) (by omega)
        rw [dumps, cons_append, parseValue, if_neg (by decide), if_neg (by decide), if_pos rfl,
          Reader.enter_plain, ok_bind]
        rw [quote, cons_append, cons_append, cons_append] at hfields ⊢
        rw [skipBlanks_cons (by decide)]
        split
        · rename_i heq
          exact absurd (List.cons.inj heq).1 (by decide)
        · rw [hfields]
          show Except.ok (Json.obj (collectFields ((k, v) :: fs)), rest) = _
          rw [collectFields_of_nodup hunique.1]

theorem readsItems_of_unique (compact : Bool) :
    ∀ vs : List Json, UniqueItems vs → ∀ w ∈ vs, Reads compact w
  | [], _, w, hw => absurd hw not_mem_nil
  | v :: vs, hunique, w, hw => by
      rw [UniqueItems] at hunique
      rcases mem_cons.mp hw with heq | hw
      · rw [heq]
        exact reads_of_unique compact v hunique.1
      · exact readsItems_of_unique compact vs hunique.2 w hw

theorem readsFields_of_unique (compact : Bool) :
    ∀ fs : List (Str × Json), UniqueFields fs → ∀ f ∈ fs, Reads compact f.2
  | [], _, f, hf => absurd hf not_mem_nil
  | (k, v) :: fs, hunique, f, hf => by
      rw [UniqueFields] at hunique
      rcases mem_cons.mp hf with heq | hf
      · rw [heq]
        exact reads_of_unique compact v hunique.1
      · exact readsFields_of_unique compact fs hunique.2 f hf

end

mutual

theorem size_le_length (compact : Bool) : ∀ v : Json, v.size ≤ (dumps compact v).length
  | .arr [] => by simp [Json.size, sizeItems, dumps]
  | .arr (v :: vs) => by
      have hv := size_le_length compact v
      have hvs := sizeItems_lt_length compact vs
      rw [Json.size, sizeItems, dumps, length_cons, length_append]
      omega
  | .obj [] => by simp [Json.size, sizeFields, dumps]
  | .obj ((k, v) :: fs) => by
      have hv := size_le_length compact v
      have hfs := sizeFields_lt_length compact fs
      rw [Json.size, sizeFields, dumps]
      simp only [length_cons, length_append]
      omega
  | .null => by simp [Json.size, dumps]
  | .bool b => by cases b <;> simp [Json.size, dumps]
  | .int z => length_pos_of_head compact (.int z) rfl
  | .float f => length_pos_of_head compact (.float f) rfl
  | .str s => length_pos_of_head compact (.str s) rfl

theorem sizeItems_lt_length (compact : Bool) :
    ∀ vs : List Json, sizeItems vs < (dumpsItems compact vs).length
  | [] => by simp [sizeItems, dumpsItems]
  | v :: vs => by
      have hv := size_le_length compact v
      have hvs := sizeItems_lt_length compact vs
      rw [sizeItems, dumpsItems]
      simp only [length_cons, length_append]
      omega

theorem sizeFields_lt_length (compact : Bool) :
    ∀ fs : List (Str × Json), sizeFields fs < (dumpsFields compact fs).length
  | [] => by simp [sizeFields, dumpsFields]
  | (k, v) :: fs => by
      have hv := size_le_length compact v
      have hfs := sizeFields_lt_length compact fs
      rw [sizeFields, dumpsFields]
      simp only [length_cons, length_append]
      omega

end

theorem loadsBy_dumps (hv : v.Unique) : loadsBy .plain (dumps compact v) = .ok v := by
  have hsize := size_le_length compact v
  have hread := reads_of_unique compact v hv (2 * (dumps compact v).length + 2) [] (by omega)
    (by rintro c ⟨⟩)
  have hskip := skipBlanks_dumps compact v []
  rw [append_nil] at hread hskip
  rw [loadsBy, hskip, hread]
  rfl

/-- **The round trip.**  A printed value without repeated keys parses to
itself. -/
theorem loads_dumps (hv : v.Unique) : loads (dumps compact v) = some v := by
  rw [loads, loadsBy_dumps compact hv]
  rfl

/-- Printing is injective on values without repeated keys. -/
theorem dumps_injective {w : Json} (hv : v.Unique) (hw : w.Unique)
    (h : dumps compact v = dumps compact w) : v = w := by
  have hloads := congrArg loads h
  rwa [loads_dumps compact hv, loads_dumps compact hw, some_inj] at hloads

/-! ## What the parser returns -/

/-- A dictionary has no key twice, and its items are among those it was built
from. -/
theorem nodup_mem_collectFields (fs : List (Str × Json)) :
    ((collectFields fs).map Prod.fst).Nodup ∧ ∀ f ∈ collectFields fs, f ∈ fs := by
  have hfold : ∀ (fs acc : List (Str × Json)), (acc.map Prod.fst).Nodup →
      ((fs.foldl (fun acc field => Assoc.set field.1 field.2 acc) acc).map Prod.fst).Nodup ∧
        ∀ f ∈ fs.foldl (fun acc field => Assoc.set field.1 field.2 acc) acc, f ∈ acc ∨ f ∈ fs := by
    intro fs
    induction fs with
    | nil => exact fun acc hacc => ⟨hacc, fun f hf => .inl hf⟩
    | cons field fs ih =>
      intro acc hacc
      obtain ⟨hnodup, hmem⟩ := ih _ (Assoc.nodup_set hacc)
      refine ⟨hnodup, fun f hf => ?_⟩
      rcases hmem f hf with hf | hf
      · rcases Assoc.mem_set hf with rfl | hf
        · exact .inr mem_cons_self
        · exact .inl hf
      · exact .inr (mem_cons_of_mem _ hf)
  obtain ⟨hnodup, hmem⟩ := hfold fs [] nodup_nil
  exact ⟨hnodup, fun f hf => (hmem f hf).resolve_left not_mem_nil⟩

theorem unique_parseNumber {r : Json × Str} (h : parseNumber s = some r) : r.1.Unique := by
  have hunsigned : ∀ negative cs, parseUnsigned negative cs = some r → r.1.Unique := by
    intro negative cs hcs
    obtain ⟨w, -, rfl⟩ := map_eq_some_iff.mp hcs
    dsimp only [numberOf]
    split <;> trivial
  rw [parseNumber.eq_def] at h
  split at h
  · exact hunsigned _ _ h
  · exact hunsigned _ _ h

theorem unique_parseScalar {r : Json × Str} (h : parseScalar s = some r) : r.1.Unique := by
  unfold parseScalar at h
  split at h
  case h_7 => exact unique_parseNumber h
  all_goals
    rw [← some_inj.mp h]
    trivial

theorem uniqueItems_iff {vs : List Json} : UniqueItems vs ↔ ∀ v ∈ vs, v.Unique := by
  induction vs with
  | nil => simp [UniqueItems]
  | cons v vs ih => simp [UniqueItems, ih]

theorem uniqueFields_iff : UniqueFields fs ↔ ∀ f ∈ fs, f.2.Unique := by
  induction fs with
  | nil => simp [UniqueFields]
  | cons f fs ih => simp [UniqueFields, ih]

/-- Whatever the parser accepts repeats no key. -/
theorem unique_of_parse (fuel : ℕ) :
    (∀ s r, parseValue .plain fuel s = .ok r → r.1.Unique) ∧
      (∀ s r, parseItems .plain fuel s = .ok r → UniqueItems r.1) ∧
      ∀ s r, parseFields .plain fuel s = .ok r → UniqueFields r.1 := by
  induction fuel with
  | zero => exact ⟨fun s r h => (by cases h), fun s r h => (by cases h), fun s r h => (by cases h)⟩
  | succ fuel ih =>
    obtain ⟨ihValue, ihItems, ihFields⟩ := ih
    refine ⟨?_, ?_, ?_⟩
    · intro s r h
      cases s with
      | nil => cases h
      | cons c cs =>
        rw [parseValue] at h
        split at h
        · obtain ⟨t, -, rfl⟩ := map_eq_ok.mp h
          trivial
        split at h
        · rw [Reader.enter_plain, ok_bind] at h
          split at h
          · rw [← Except.ok.inj h]
            trivial
          · obtain ⟨q, hq, rfl⟩ := map_eq_ok.mp h
            exact ihItems _ q hq
        split at h
        · rw [Reader.enter_plain, ok_bind] at h
          split at h
          · rw [← Except.ok.inj h]
            exact ⟨nodup_nil, trivial⟩
          · obtain ⟨q, hq, rfl⟩ := map_eq_ok.mp h
            obtain ⟨hnodup, hmem⟩ := nodup_mem_collectFields q.1
            have hfields := uniqueFields_iff.mp (ihFields _ q hq)
            exact ⟨hnodup, uniqueFields_iff.mpr fun f hf => hfields f (hmem f hf)⟩
        · obtain ⟨q, hq, h⟩ := bind_eq_ok.mp h
          have hadmit : q = r := by
            obtain ⟨v, rest⟩ := q
            cases v <;> exact Except.ok.inj h
          exact hadmit ▸ unique_parseScalar (token_eq_ok.mp hq)
    · intro s r h
      rw [parseItems] at h
      obtain ⟨v, hv, h⟩ := bind_eq_ok.mp h
      have hunique := ihValue _ v hv
      split at h
      · rw [← Except.ok.inj h]
        exact ⟨hunique, trivial⟩
      · obtain ⟨q, hq, rfl⟩ := map_eq_ok.mp h
        exact ⟨hunique, ihItems _ q hq⟩
      · cases h
    · intro s r h
      unfold parseFields at h
      split at h
      · obtain ⟨k, -, h⟩ := bind_eq_ok.mp h
        split at h
        · obtain ⟨v, hv, h⟩ := bind_eq_ok.mp h
          have hunique := ihValue _ v hv
          split at h
          · rw [← Except.ok.inj h]
            exact ⟨hunique, trivial⟩
          · obtain ⟨q, hq, rfl⟩ := map_eq_ok.mp h
            exact ⟨hunique, ihFields _ q hq⟩
          · cases h
        · cases h
      · cases h

/-- **What `json.loads` returns repeats no key.** -/
theorem unique_of_loads (h : loads s = some v) : v.Unique := by
  have hloads : loadsBy .plain s = .ok v := by
    rw [loads] at h
    cases hby : loadsBy .plain s with
    | error e => rw [hby] at h; cases h
    | ok w => rw [hby] at h; cases h; rfl
  obtain ⟨r, hr, h⟩ := bind_eq_ok.mp hloads
  split at h
  · rw [← Except.ok.inj h]
    exact (unique_of_parse _).1 _ r hr
  · cases h

/-! ## Sorted keys -/

/-- Strings are compared by code points. -/
def keyLe : Str → Str → Bool
  | [], _ => true
  | _ :: _, [] => false
  | a :: as, b :: bs => a.toNat < b.toNat || (a.toNat = b.toNat && keyLe as bs)

theorem keyLe_total (s t : Str) : keyLe s t = true ∨ keyLe t s = true := by
  induction s generalizing t with
  | nil => exact .inl (by rw [keyLe])
  | cons a s ih =>
    cases t with
    | nil => exact .inr (by rw [keyLe])
    | cons b t =>
      simp only [keyLe, Bool.or_eq_true, Bool.and_eq_true, decide_eq_true_eq]
      rcases lt_trichotomy a.toNat b.toNat with h | h | h
      · exact .inl (.inl h)
      · exact (ih t).imp (fun ht => .inr ⟨h, ht⟩) fun ht => .inr ⟨h.symm, ht⟩
      · exact .inr (.inl h)

theorem keyLe_append (s t : Str) : keyLe s (s ++ t) = true := by
  induction s with
  | nil => rw [keyLe]
  | cons a s ih =>
    rw [cons_append, keyLe, ih]
    simp

theorem keyLe_trans {t u : Str} (hst : keyLe s t = true) (htu : keyLe t u = true) :
    keyLe s u = true := by
  induction s generalizing t u with
  | nil => rw [keyLe]
  | cons a s ih =>
    cases t with
    | nil => cases hst
    | cons b t =>
      cases u with
      | nil => cases htu
      | cons c u =>
        simp only [keyLe, Bool.or_eq_true, Bool.and_eq_true, decide_eq_true_eq] at *
        rcases hst with hab | ⟨hab, hst⟩ <;> rcases htu with hbc | ⟨hbc, htu⟩
        · exact .inl (hab.trans hbc)
        · exact .inl (hbc ▸ hab)
        · exact .inl (hab ▸ hbc)
        · exact .inr ⟨hab.trans hbc, ih hst htu⟩

theorem keyLe_antisymm {t : Str} (hst : keyLe s t = true) (hts : keyLe t s = true) : s = t := by
  induction s generalizing t with
  | nil =>
    cases t with
    | nil => rfl
    | cons b t => cases hts
  | cons a s ih =>
    cases t with
    | nil => cases hst
    | cons b t =>
      simp only [keyLe, Bool.or_eq_true, Bool.and_eq_true, decide_eq_true_eq] at hst hts
      rcases hst with hab | ⟨hab, hst⟩
      · rcases hts with hba | ⟨hba, -⟩ <;> omega
      · rcases hts with hba | ⟨-, hts⟩
        · omega
        · rw [Char.toNat_inj.mp hab, ih hst hts]

instance : Std.Total fun s t : Str => keyLe s t = true := ⟨keyLe_total⟩

instance : IsTrans Str fun s t => keyLe s t = true := ⟨fun _ _ _ => keyLe_trans⟩

instance : Std.Antisymm fun s t : Str => keyLe s t = true := ⟨fun _ _ => keyLe_antisymm⟩

/-- `sorted(strings)`. -/
def sortStrings (l : List Str) : List Str := l.insertionSort fun s t => keyLe s t

theorem pairwise_sortStrings (l : List Str) :
    (sortStrings l).Pairwise fun s t => keyLe s t = true :=
  pairwise_insertionSort _ l

@[simp] theorem mem_sortStrings {l : List Str} : s ∈ sortStrings l ↔ s ∈ l :=
  (perm_insertionSort _ l).mem_iff

mutual

/-- The value `sort_keys=True` prints: the fields of every object in key
order. -/
def sortKeys : Json → Json
  | .arr vs => .arr (sortItems vs)
  | .obj fs => .obj ((sortFields fs).insertionSort fun f g => keyLe f.1 g.1)
  | .null => .null
  | .bool b => .bool b
  | .int z => .int z
  | .float f => .float f
  | .str s => .str s

def sortItems : List Json → List Json
  | [] => []
  | v :: vs => sortKeys v :: sortItems vs

def sortFields : List (Str × Json) → List (Str × Json)
  | [] => []
  | (k, v) :: fs => (k, sortKeys v) :: sortFields fs

end

theorem keys_sortFields (fs : List (Str × Json)) :
    (sortFields fs).map Prod.fst = fs.map Prod.fst := by
  induction fs with
  | nil => rfl
  | cons f fs ih => rw [sortFields, map_cons, map_cons, ih]

mutual

theorem unique_sortKeys : ∀ {v : Json}, v.Unique → (sortKeys v).Unique
  | .arr vs, hv => by
      rw [Json.Unique] at hv
      rw [sortKeys, Json.Unique]
      exact uniqueItems_sortItems hv
  | .obj fs, hv => by
      rw [Json.Unique] at hv
      rw [sortKeys, Json.Unique]
      have hperm := perm_insertionSort (fun f g : Str × Json => keyLe f.1 g.1) (sortFields fs)
      refine ⟨(hperm.map Prod.fst).nodup_iff.mpr ?_, ?_⟩
      · rw [keys_sortFields]
        exact hv.1
      · rw [uniqueFields_iff]
        intro f hf
        exact uniqueFields_iff.mp (uniqueFields_sortFields hv.2) f (hperm.mem_iff.mp hf)
  | .null, hv => hv
  | .bool _, hv => hv
  | .int _, hv => hv
  | .float _, hv => hv
  | .str _, hv => hv

theorem uniqueItems_sortItems : ∀ {vs : List Json}, UniqueItems vs → UniqueItems (sortItems vs)
  | [], hvs => hvs
  | v :: vs, hvs => by
      rw [UniqueItems] at hvs
      rw [sortItems, UniqueItems]
      exact ⟨unique_sortKeys hvs.1, uniqueItems_sortItems hvs.2⟩

theorem uniqueFields_sortFields :
    ∀ {fs : List (Str × Json)}, UniqueFields fs → UniqueFields (sortFields fs)
  | [], hfs => hfs
  | (k, v) :: fs, hfs => by
      rw [UniqueFields] at hfs
      rw [sortFields, UniqueFields]
      exact ⟨unique_sortKeys hfs.1, uniqueFields_sortFields hfs.2⟩

end

/-- `json.dumps(v, sort_keys=True)`. -/
def dumpsSorted (compact : Bool) (v : Json) : Str := dumps compact (sortKeys v)

/-- Sorted printing is injective up to the order of keys. -/
theorem dumpsSorted_injective {w : Json} (hv : v.Unique) (hw : w.Unique)
    (h : dumpsSorted compact v = dumpsSorted compact w) : sortKeys v = sortKeys w :=
  dumps_injective compact (unique_sortKeys hv) (unique_sortKeys hw) h

end TrustFlow.Library
