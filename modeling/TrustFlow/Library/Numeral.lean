import Mathlib.Data.Nat.Digits.Lemmas
import TrustFlow.Library.Text

/-!
# Numerals, big-endian bytes, hexadecimal and base 64 text

Positional encodings of natural numbers and byte strings, each with its
round trip:

* `numeral b n` / `readNumeral b` — digits to a base, most significant first.
* `showInt`, `showHex` / `readHex` — `str(z)`, `hex(z)` and `int(s, 16)`.
* `toBytesBE len n` / `fromBytesBE` — `n.to_bytes(len, 'big')` and
  `int.from_bytes(bs, 'big')`.
* `hexEncode` / `hexDecode` — `bs.hex()` and `bytes.fromhex(s)`.
* `b64encode` / `b64decodeFrom` — `base64.b64encode(bs)` and `base64.b64decode(s)`.
-/

namespace TrustFlow.Library

open Option

open List

/-! ## Numerals -/

/-- The value of a digit character, in either case. -/
def digitVal (c : Char) : Option ℕ :=
  if '0' ≤ c ∧ c ≤ '9' then some (c.toNat - 48)
  else if 'a' ≤ c ∧ c ≤ 'f' then some (c.toNat - 87)
  else if 'A' ≤ c ∧ c ≤ 'F' then some (c.toNat - 55)
  else none

/-- The digits of `n` to the base `b`, most significant first. -/
def numeral (b n : ℕ) : Str :=
  if n = 0 then ['0'] else ((Nat.digits b n).reverse.map Nat.digitChar)

/-- The value of a non-empty run of digits to the base `b`. -/
def readNumeral (b : ℕ) (s : Str) : Option ℕ :=
  if s = [] then none
  else s.foldlM (fun acc c => (digitVal c).bind fun d =>
    if d < b then some (acc * b + d) else none) 0

theorem digitVal_digitChar : ∀ d < 16, digitVal (Nat.digitChar d) = some d := by decide

theorem digitChar_ne_bar : ∀ d < 16, Nat.digitChar d ≠ '|' := by decide

theorem toNat_digitChar_lt : ∀ d < 16, (Nat.digitChar d).toNat < 128 := by decide

theorem isSpace_digitChar : ∀ d < 16, isSpace (Nat.digitChar d) = false := by decide

variable {b : ℕ} {c : Char} {z : ℤ}

/-- Every character of a numeral is a digit of its base. -/
theorem mem_numeral {n : ℕ} (hb : 1 < b) (hc : c ∈ numeral b n) : ∃ d < b, c = Nat.digitChar d := by
  unfold numeral at hc
  split at hc
  · exact ⟨0, by omega, mem_singleton.mp hc⟩
  · obtain ⟨d, hd, rfl⟩ := mem_map.mp hc
    exact ⟨d, Nat.digits_lt_base hb (mem_reverse.mp hd), rfl⟩

theorem numeral_ne_nil (b n : ℕ) : numeral b n ≠ [] := by
  unfold numeral
  split
  · simp
  · simpa using Nat.digits_ne_nil_iff_ne_zero.mpr ‹_›

/-- Reading digit characters accumulates their values. -/
private theorem foldlM_digitChar (hb : b ≤ 16) :
    ∀ (ds : List ℕ) (acc : ℕ), (∀ d ∈ ds, d < b) →
      (ds.map Nat.digitChar).foldlM (fun acc c => (digitVal c).bind fun d =>
        if d < b then some (acc * b + d) else none) acc
        = some (ds.foldl (fun acc d => acc * b + d) acc) := by
  intro ds
  induction ds with
  | nil => intro acc _; rfl
  | cons d ds ih =>
    intro acc hlt
    have hd : d < b := hlt d mem_cons_self
    simp only [map_cons, foldlM_cons, foldl_cons,
      digitVal_digitChar d (by omega), bind_some, if_pos hd]
    exact ih (acc * b + d) fun e he => hlt e (mem_cons_of_mem _ he)

/-- A printed numeral reads back as its number. -/
theorem readNumeral_numeral (hb : 1 < b) (hb' : b ≤ 16) (n : ℕ) :
    readNumeral b (numeral b n) = some n := by
  rw [readNumeral, if_neg (numeral_ne_nil b n)]
  unfold numeral
  split
  · have := foldlM_digitChar hb' [0] 0 (by simpa using by omega)
    simpa [Nat.digitChar, *] using this
  · have hread := foldlM_digitChar hb' (Nat.digits b n).reverse 0
      fun d hd => Nat.digits_lt_base hb (mem_reverse.mp hd)
    rw [hread, foldl_reverse]
    have hval : (Nat.digits b n).foldr (fun d acc => acc * b + d) 0 = n := by
      conv_rhs => rw [← Nat.ofDigits_digits b n, Nat.ofDigits_eq_foldr]
      simp [Nat.add_comm, Nat.mul_comm]
    rw [hval]

/-! ## Signed literals -/

/-- `str(z)`. -/
def showInt (z : ℤ) : Str :=
  if z < 0 then '-' :: numeral 10 z.natAbs else numeral 10 z.natAbs

/-- The characters of an integer. -/
theorem mem_showInt (hc : c ∈ showInt z) : c = '-' ∨ ∃ d < 10, c = Nat.digitChar d := by
  rw [showInt] at hc
  split at hc
  · rcases mem_cons.mp hc with rfl | hc
    · exact .inl rfl
    · exact .inr (mem_numeral (by decide) hc)
  · exact .inr (mem_numeral (by decide) hc)

theorem showInt_injective : Function.Injective showInt := by
  have hdigit : ∀ n rest, '-' :: rest ≠ numeral 10 n := by
    intro n rest h
    obtain ⟨d, hd, hc⟩ := mem_numeral (b := 10) (by decide) (h ▸ mem_cons_self)
    exact (by decide : ∀ d < 10, '-' ≠ Nat.digitChar d) d hd hc
  have hnat : ∀ {m n}, numeral 10 m = numeral 10 n → m = n := by
    intro m n h
    have hread := congrArg (readNumeral 10) h
    rwa [readNumeral_numeral (by decide) (by decide), readNumeral_numeral (by decide) (by decide),
      some_inj] at hread
  intro z z' h
  rw [showInt, showInt] at h
  split at h <;> split at h
  · have habs := hnat (List.cons.inj h).2
    omega
  · exact absurd h (hdigit _ _)
  · exact absurd h.symm (hdigit _ _)
  · have habs := hnat h
    omega

theorem ascii_showInt (hc : c ∈ showInt z) : c.toNat < 128 := by
  rcases mem_showInt hc with rfl | ⟨d, hd, rfl⟩
  · decide
  · exact toNat_digitChar_lt d (Nat.lt_trans hd (by decide))

/-- `hex(z)`. -/
def showHex (z : ℤ) : Str :=
  if z < 0 then '-' :: '0' :: 'x' :: numeral 16 z.natAbs else '0' :: 'x' :: numeral 16 z.natAbs

/-- Remove the underscores of an integer literal; each must stand between two
digits.  `ready` says that an underscore may come next. -/
def dropUnderscores : Bool → Str → Option Str
  | ready, [] => if ready then some [] else none
  | ready, c :: cs =>
    if c = '_' then (if ready then dropUnderscores false cs else none)
    else (dropUnderscores true cs).map (c :: ·)

/-- The digits after an optional `0x`. -/
def readHexBody : Str → Option ℕ
  | '0' :: 'x' :: cs => (dropUnderscores true cs).bind (readNumeral 16)
  | '0' :: 'X' :: cs => (dropUnderscores true cs).bind (readNumeral 16)
  | cs => (dropUnderscores false cs).bind (readNumeral 16)

/-- `int(s, 16)` on the ASCII digits; `none` is `ValueError`. -/
def readHex (s : Str) : Option ℤ :=
  match strip s with
  | '-' :: cs => (readHexBody cs).map fun n : ℕ => -(n : ℤ)
  | '+' :: cs => (readHexBody cs).map fun n : ℕ => (n : ℤ)
  | cs => (readHexBody cs).map fun n : ℕ => (n : ℤ)

/-- `int(s)` on the ASCII digits; `none` is `ValueError`. -/
def readInt (s : Str) : Option ℤ :=
  let body (cs : Str) : Option ℕ := (dropUnderscores false cs).bind (readNumeral 10)
  match strip s with
  | '-' :: cs => (body cs).map fun n : ℕ => -(n : ℤ)
  | '+' :: cs => (body cs).map fun n : ℕ => (n : ℤ)
  | cs => (body cs).map fun n : ℕ => (n : ℤ)

theorem digitChar_ne_underscore : ∀ d < 16, Nat.digitChar d ≠ '_' := by decide

theorem dropUnderscores_numeral (n : ℕ) :
    dropUnderscores true (numeral 16 n) = some (numeral 16 n) := by
  have hkeep : ∀ s : Str, (∀ c ∈ s, c ≠ '_') → dropUnderscores true s = some s := by
    intro s
    induction s with
    | nil => intro _; rfl
    | cons c cs ih =>
      intro hs
      rw [dropUnderscores, if_neg (hs c mem_cons_self), ih fun d hd => hs d (mem_cons_of_mem _ hd)]
      rfl
  refine hkeep _ fun c hc => ?_
  obtain ⟨d, hd, rfl⟩ := mem_numeral (by norm_num) hc
  exact digitChar_ne_underscore d hd

/-- What `hex` prints has neither blanks nor bars in it. -/
theorem mem_showHex (hc : c ∈ showHex z) : isSpace c = false ∧ c ≠ '|' := by
  have hdigit : ∀ x ∈ numeral 16 z.natAbs, isSpace x = false ∧ x ≠ '|' := by
    intro x hx
    obtain ⟨d, hd, rfl⟩ := mem_numeral (by norm_num) hx
    exact ⟨isSpace_digitChar d hd, digitChar_ne_bar d hd⟩
  unfold showHex at hc
  split at hc <;> simp only [mem_cons] at hc
  · rcases hc with rfl | rfl | rfl | hc
    exacts [by decide, by decide, by decide, hdigit c hc]
  · rcases hc with rfl | rfl | hc
    exacts [by decide, by decide, hdigit c hc]

/-- A printed hexadecimal literal reads back as its number. -/
@[simp] theorem readHex_showHex (z : ℤ) : readHex (showHex z) = some z := by
  have hbody : readHexBody ('0' :: 'x' :: numeral 16 z.natAbs) = some z.natAbs := by
    rw [readHexBody, dropUnderscores_numeral, bind_some, readNumeral_numeral (by norm_num) le_rfl]
  rw [readHex, strip_of_visible fun c hc => (mem_showHex hc).1, showHex]
  by_cases hneg : z < 0
  · rw [if_pos hneg]
    show (readHexBody ('0' :: 'x' :: numeral 16 z.natAbs)).map (fun n : ℕ => -(n : ℤ)) = some z
    rw [hbody, map_some, some_inj]
    omega
  · rw [if_neg hneg]
    show (readHexBody ('0' :: 'x' :: numeral 16 z.natAbs)).map (fun n : ℕ => (n : ℤ)) = some z
    rw [hbody, map_some, some_inj]
    omega

/-! ## Big-endian bytes -/

/-- `n.to_bytes(len, 'big')`, for `n` below `256 ^ len`. -/
def toBytesBE : ℕ → ℕ → Bytes
  | 0, _ => []
  | len + 1, n => toBytesBE len (n / 256) ++ [UInt8.ofNat (n % 256)]

/-- `int.from_bytes(bs, 'big')`. -/
def fromBytesBE (bs : Bytes) : ℕ := bs.foldl (fun acc b => acc * 256 + b.toNat) 0

variable (bs : Bytes)

@[simp] theorem fromBytesBE_concat (b : UInt8) :
    fromBytesBE (bs ++ [b]) = fromBytesBE bs * 256 + b.toNat := by
  simp [fromBytesBE]

@[simp] theorem length_toBytesBE (len n : ℕ) : (toBytesBE len n).length = len := by
  induction len generalizing n with
  | zero => rfl
  | succ len ih => simp [toBytesBE, ih]

theorem fromBytesBE_lt : fromBytesBE bs < 256 ^ bs.length := by
  induction bs using List.reverseRecOn with
  | nil => simp [fromBytesBE]
  | append_singleton bs b ih =>
    have hb : b.toNat < 256 := b.toNat_lt
    rw [fromBytesBE_concat, length_append, length_singleton, pow_succ]
    omega

/-- Bytes, read as a number and written with their own length, come back. -/
theorem toBytesBE_fromBytesBE : toBytesBE bs.length (fromBytesBE bs) = bs := by
  induction bs using List.reverseRecOn with
  | nil => rfl
  | append_singleton bs b ih =>
    have hb : b.toNat < 256 := b.toNat_lt
    have hdiv : (fromBytesBE bs * 256 + b.toNat) / 256 = fromBytesBE bs := by omega
    have hmod : (fromBytesBE bs * 256 + b.toNat) % 256 = b.toNat := by omega
    rw [length_append, length_singleton, toBytesBE, fromBytesBE_concat, hdiv, hmod, ih]
    simp

/-- A number that fits is read back from its bytes. -/
theorem fromBytesBE_toBytesBE {len n : ℕ} (hn : n < 256 ^ len) :
    fromBytesBE (toBytesBE len n) = n := by
  induction len generalizing n with
  | zero =>
    obtain rfl : n = 0 := by simpa using hn
    rfl
  | succ len ih =>
    have hlt : n / 256 < 256 ^ len := by
      rw [pow_succ] at hn
      exact Nat.div_lt_of_lt_mul (by omega)
    have hdigit : (UInt8.ofNat (n % 256)).toNat = n % 256 := by
      simp [UInt8.toNat_ofNat']
    rw [toBytesBE, fromBytesBE_concat, ih hlt, hdigit]
    omega

/-! ## Hexadecimal text -/

/-- `bs.hex()`: two lower-case digits for each byte. -/
def hexEncode (bs : Bytes) : Str :=
  bs.flatMap fun b => [Nat.digitChar (b.toNat / 16), Nat.digitChar (b.toNat % 16)]

/-- The blanks `bytes.fromhex` skips between bytes. -/
def isAsciiSpace (c : Char) : Bool :=
  c = ' ' || c = '\t' || c = '\n' || c = '\r' || c.toNat = 11 || c.toNat = 12

/-- `bytes.fromhex(s)`; `none` is `ValueError`. -/
def hexDecode : Str → Option Bytes
  | [] => some []
  | [c] => if isAsciiSpace c then some [] else none
  | c :: d :: cs =>
    if isAsciiSpace c then hexDecode (d :: cs)
    else (digitVal c).bind fun hi => (digitVal d).bind fun lo =>
      (hexDecode cs).map fun bs => UInt8.ofNat (16 * hi + lo) :: bs

theorem isAsciiSpace_digitChar : ∀ d < 16, isAsciiSpace (Nat.digitChar d) = false := by decide

@[simp] theorem length_hexEncode : (hexEncode bs).length = 2 * bs.length := by
  induction bs with
  | nil => rfl
  | cons b bs ih => simp only [hexEncode, flatMap_cons, length_append] at *; simp [ih]; omega

/-- Every character of hexadecimal text is a digit. -/
theorem mem_hexEncode {bs : Bytes} (hc : c ∈ hexEncode bs) : ∃ d < 16, c = Nat.digitChar d := by
  obtain ⟨b, -, hmem⟩ := mem_flatMap.mp hc
  have hb : b.toNat < 256 := b.toNat_lt
  rcases mem_cons.mp hmem with rfl | hmem
  · exact ⟨b.toNat / 16, by omega, rfl⟩
  · exact ⟨b.toNat % 16, by omega, by simpa using hmem⟩

/-- Hexadecimal text decodes to the bytes it was made from. -/
@[simp] theorem hexDecode_hexEncode : hexDecode (hexEncode bs) = some bs := by
  induction bs with
  | nil => rfl
  | cons b bs ih =>
    have hb : b.toNat < 256 := b.toNat_lt
    have hhi : b.toNat / 16 < 16 := by omega
    have hlo : b.toNat % 16 < 16 := by omega
    have hval : 16 * (b.toNat / 16) + b.toNat % 16 = b.toNat := by omega
    rw [hexEncode, flatMap_cons, cons_append, cons_append, nil_append,
      hexDecode, isAsciiSpace_digitChar _ hhi, digitVal_digitChar _ hhi,
      digitVal_digitChar _ hlo]
    simp only [Bool.false_eq_true, if_false, bind_some, hval]
    rw [show hexDecode (List.flatMap _ bs) = some bs from ih]
    simp

theorem hexEncode_ne_nil {bs : Bytes} (hbs : bs ≠ []) : hexEncode bs ≠ [] := by
  intro hnil
  have hdecode := hexDecode_hexEncode bs
  rw [hnil] at hdecode
  exact hbs (some_inj.mp hdecode).symm

/-! ## Base 64 -/

/-- The digit of base 64 for six bits. -/
def base64Char (n : ℕ) : Char :=
  Char.ofNat (if n < 26 then 65 + n else if n < 52 then 71 + n else if n < 62 then n - 4
    else if n = 62 then 43 else 47)

/-- The six bits of a digit. -/
def base64Val (c : Char) : Option ℕ :=
  if 'A' ≤ c ∧ c ≤ 'Z' then some (c.toNat - 65)
  else if 'a' ≤ c ∧ c ≤ 'z' then some (c.toNat - 71)
  else if '0' ≤ c ∧ c ≤ '9' then some (c.toNat + 4)
  else if c = '+' then some 62
  else if c = '/' then some 63
  else none

/-- `base64.b64encode(bs)`: four digits for three bytes, with padding at the end. -/
def b64encode : Bytes → Str
  | a :: b :: c :: bs =>
    [a.toNat / 4, a.toNat % 4 * 16 + b.toNat / 16, b.toNat % 16 * 4 + c.toNat / 64,
      c.toNat % 64].map base64Char ++ b64encode bs
  | [a, b] =>
    [a.toNat / 4, a.toNat % 4 * 16 + b.toNat / 16, b.toNat % 16 * 4].map base64Char ++ ['=']
  | [a] => [a.toNat / 4, a.toNat % 4 * 16].map base64Char ++ ['=', '=']
  | [] => []

/-- The bytes of up to four digits. -/
def quadBytes : List ℕ → Bytes
  | x :: y :: zs => UInt8.ofNat (x * 4 + y / 16) ::
    match zs with
    | [] => []
    | z :: ws => UInt8.ofNat (y % 16 * 16 + z / 4) :: ws.map fun w => UInt8.ofNat (z % 4 * 64 + w)
  | _ => []

/-- `base64.b64decode(s)`, with the digits read since the last three bytes and the padding after
them: other characters are skipped, and padding that fills up the digits ends the text.  `none`
is an exception. -/
def b64decodeFrom (quad : List ℕ) (pads : ℕ) : Str → Option Bytes
  | [] => if quad = [] then some [] else none
  | c :: cs =>
    if 128 ≤ c.toNat then none
    else if c = '=' then
      if 2 ≤ quad.length ∧ 3 ≤ quad.length + pads then
        if cs.all fun c => c.toNat < 128 then some (quadBytes quad) else none
      else b64decodeFrom quad (pads + 1) cs
    else
      match base64Val c with
      | none => b64decodeFrom quad pads cs
      | some d =>
        if quad.length = 3 then (b64decodeFrom [] 0 cs).map (quadBytes (quad ++ [d]) ++ ·)
        else b64decodeFrom (quad ++ [d]) 0 cs

theorem base64Char_spec : ∀ n < 64, (base64Char n).toNat < 128 ∧ base64Char n ≠ '=' ∧
    base64Val (base64Char n) = some n := by
  decide

theorem b64decodeFrom_base64Char {n : ℕ} (hn : n < 64) (quad : List ℕ) (pads : ℕ) (cs : Str) :
    b64decodeFrom quad pads (base64Char n :: cs)
      = if quad.length = 3 then (b64decodeFrom [] 0 cs).map (quadBytes (quad ++ [n]) ++ ·)
        else b64decodeFrom (quad ++ [n]) 0 cs := by
  obtain ⟨hascii, hne, hval⟩ := base64Char_spec n hn
  rw [b64decodeFrom, if_neg (Nat.not_le.mpr hascii), if_neg hne, hval]

/-- Base 64 text decodes to the bytes it was made from. -/
theorem b64decodeFrom_b64encode (bs : Bytes) : b64decodeFrom [] 0 (b64encode bs) = some bs := by
  have hbyte (b : UInt8) {n : ℕ} (h : n = b.toNat) : UInt8.ofNat n = b := by
    rw [h, UInt8.ofNat_toNat]
  fun_induction b64encode bs with
  | case1 a b c bs ih =>
    have ha := a.toNat_lt
    have hb := b.toNat_lt
    have hc := c.toNat_lt
    have hquad : quadBytes [a.toNat / 4, a.toNat % 4 * 16 + b.toNat / 16,
        b.toNat % 16 * 4 + c.toNat / 64, c.toNat % 64] = [a, b, c] := by
      rw [quadBytes, map_cons, map_nil, hbyte a (by omega), hbyte b (by omega), hbyte c (by omega)]
    simp (disch := omega) only [map_cons, map_nil, cons_append, nil_append,
      b64decodeFrom_base64Char, ih, Option.map_some, hquad]
    rfl
  | case2 a b =>
    have ha := a.toNat_lt
    have hb := b.toNat_lt
    have hquad : quadBytes [a.toNat / 4, a.toNat % 4 * 16 + b.toNat / 16, b.toNat % 16 * 4]
        = [a, b] := by
      rw [quadBytes, map_nil, hbyte a (by omega), hbyte b (by omega)]
    simp (disch := omega) only [map_cons, map_nil, cons_append, nil_append, b64decodeFrom_base64Char]
    exact congrArg some hquad
  | case3 a =>
    have ha := a.toNat_lt
    have hquad : quadBytes [a.toNat / 4, a.toNat % 4 * 16] = [a] := by
      rw [quadBytes, hbyte a (by omega)]
    simp (disch := omega) only [map_cons, map_nil, cons_append, nil_append, b64decodeFrom_base64Char]
    exact congrArg some hquad
  | case4 => rfl

end TrustFlow.Library
