import Mathlib.Data.List.Infix

/-!
# Texts and UTF-8

A Python `str` is a sequence of code points and every operation on it works by
position, so a text is a `List Char` here and a byte string a `List UInt8`.
Lone surrogates, which a `str` may hold and UTF-8 may not, are no `Char`; the
one reader of the program that meets them has a text type of its own
(`TrustFlow.Library.JsonToken`).

* `encodeUtf8` — the encoder.
* `decodeReplace` — decoding with `errors='replace'`.  One step takes a
  character off the front, or replaces the bytes that could have started one:
  CPython's decoder replaces the longest such piece by a single `U+FFFD`, and a
  byte that can start nothing by itself.
* `decodeUtf8` — the strict decoder, which accepts what the encoder writes and
  nothing else; `none` stands for `UnicodeDecodeError`.

`encodeUtf8_or_replaced` splits every byte string at the first replacement.
From it come the two halves of what decoding with replacement can tell apart:
a file that is UTF-8 without `U+FFFD` (`PlainUtf8`) is the only one that is
read as its text (`PlainUtf8.eq_of_decodeReplace`), and any other file shares
its text with a file that is not longer (`exists_decodeReplace_eq`).
-/

namespace TrustFlow.Library

open List

/-- A text: the list of its code points. -/
abbrev Str := List Char

instance : Coe String Str := ⟨String.toList⟩

instance : LawfulBEq Str := inferInstance

/-- A byte string. -/
abbrev Bytes := List UInt8

/-! ## UTF-8 -/

/-- `s.encode('utf-8')`. -/
def encodeUtf8 (s : Str) : Bytes := s.flatMap String.utf8EncodeChar

@[simp] theorem encodeUtf8_append (s t : Str) :
    encodeUtf8 (s ++ t) = encodeUtf8 s ++ encodeUtf8 t :=
  flatMap_append

variable {s : Str} {c : Char}

/-- ASCII characters are a byte each. -/
theorem encodeUtf8_ascii (hs : ∀ c ∈ s, c.toNat < 128) :
    encodeUtf8 s = s.map fun c => UInt8.ofNat c.toNat := by
  induction s with
  | nil => rfl
  | cons c s ih =>
    have hc : c.val.toNat ≤ 127 := Nat.le_of_lt_succ (hs c mem_cons_self)
    have hbyte : String.utf8EncodeChar c = [UInt8.ofNat c.toNat] := by
      unfold String.utf8EncodeChar
      exact if_pos hc
    have htail := ih fun d hd => hs d (mem_cons_of_mem _ hd)
    rw [encodeUtf8] at htail ⊢
    rw [flatMap_cons, hbyte, htail]
    rfl

/-- An ASCII character is its byte; the bytes of any other are larger, and never the last two. -/
theorem mem_utf8EncodeChar {byte : UInt8} (h : byte ∈ String.utf8EncodeChar c) :
    c.toNat < 128 ∧ byte.toNat = c.toNat ∨ 128 ≤ byte.toNat ∧ byte.toNat < 0xFE := by
  have hval : ∀ n : ℕ, byte = UInt8.ofNat n → byte.toNat = n % 256 := by
    rintro n rfl
    exact UInt8.toNat_ofNat'
  have hc : c.toNat = c.val.toNat := rfl
  unfold String.utf8EncodeChar at h
  dsimp only at h
  split_ifs at h with h1 h2 h3 <;> simp only [mem_cons, not_mem_nil, or_false] at h
  · have := hval _ h
    omega
  · rcases h with h | h <;> have := hval _ h <;> omega
  · rcases h with h | h | h <;> have := hval _ h <;> omega
  · rcases h with h | h | h | h <;> have := hval _ h <;> omega

/-- An ASCII byte comes from its character only. -/
theorem mem_of_mem_encodeUtf8 (hc : c.toNat < 128) (hmem : UInt8.ofNat c.toNat ∈ encodeUtf8 s) :
    c ∈ s := by
  obtain ⟨d, hd, hbyte⟩ := mem_flatMap.mp hmem
  have hsame : d.toNat = c.toNat := by
    have := mem_utf8EncodeChar hbyte
    rw [UInt8.toNat_ofNat'] at this
    omega
  rwa [← Char.ofNat_toNat c, ← hsame, Char.ofNat_toNat]

theorem newline_notMem_encodeUtf8 (hs : '\n' ∉ s) : (10 : UInt8) ∉ encodeUtf8 s :=
  fun hmem => hs (mem_of_mem_encodeUtf8 (by decide) hmem)

/-! ## UTF-8 with replacement -/

/-- The character whose encoding a byte string starts with. -/
def decodeChar (b : Bytes) : Option Char := (b.take 4).toByteArray.utf8DecodeChar? 0

/-- A byte of the form `10xxxxxx`. -/
def isContinuation (byte : UInt8) : Bool := 0x80 ≤ byte && byte ≤ 0xBF

/-- The bytes that may stand second in a character of three or four bytes: no
overlong forms, no surrogates, nothing above `U+10FFFF`. -/
def continues (lead second : UInt8) : Bool :=
  if lead = 0xE0 then 0xA0 ≤ second && second ≤ 0xBF
  else if lead = 0xED then 0x80 ≤ second && second ≤ 0x9F
  else if lead = 0xF0 then 0x90 ≤ second && second ≤ 0xBF
  else if lead = 0xF4 then 0x80 ≤ second && second ≤ 0x8F
  else 0xE1 ≤ lead && lead ≤ 0xF3 && isContinuation second

/-- How many bytes one replacement character stands for: as many as could have
started a character, at least one. -/
def badLength : Bytes → ℕ
  | lead :: second :: rest =>
    if continues lead second then
      if 0xF0 ≤ lead && rest.head?.any isContinuation then 3 else 2
    else 1
  | _ => 1

/-- `U+FFFD`. -/
def replacementChar : Char := '�'

/-- The scan behind `decodeReplace`: `skip` bytes are still to be passed over. -/
def decodeReplaceFrom : ℕ → Bytes → Str
  | _, [] => []
  | skip + 1, _ :: b => decodeReplaceFrom skip b
  | 0, byte :: b =>
    match decodeChar (byte :: b) with
    | some c => c :: decodeReplaceFrom (c.utf8Size - 1) b
    | none => replacementChar :: decodeReplaceFrom (badLength (byte :: b) - 1) b

/-- `b.decode('utf-8', errors='replace')`. -/
def decodeReplace (b : Bytes) : Str := decodeReplaceFrom 0 b

-- bytes that start no character, a character cut short twice, and a surrogate
example : decodeReplace [0x61, 0xFF, 0xE2, 0x82, 0x41, 0xF0, 0x90, 0x80, 0xED, 0xA0, 0x80]
    = ['a', '�', '�', 'A', '�', '�', '�', '�'] := by
  decide +kernel

theorem decodeChar_encode (c : Char) (b : Bytes) :
    decodeChar (String.utf8EncodeChar c ++ b) = some c := by
  have hlength : (String.utf8EncodeChar c).length ≤ 4 := by
    rw [String.length_utf8EncodeChar]
    exact c.utf8Size_le_four
  rw [decodeChar, take_append, take_of_length_le hlength, toByteArray_append]
  exact ByteArray.utf8DecodeChar?_utf8EncodeChar_append

theorem exists_of_decodeChar {b : Bytes} (h : decodeChar b = some c) :
    ∃ rest, b = String.utf8EncodeChar c ++ rest := by
  obtain ⟨l, hl⟩ := ByteArray.exists_of_utf8DecodeChar?_eq_some h
  have htake : b.take 4 = String.utf8EncodeChar c ++ l.data.toList := by
    have := congrArg (fun a => a.data.toList) hl
    simpa using this
  refine ⟨l.data.toList ++ b.drop 4, ?_⟩
  rw [← append_assoc, ← htake, take_append_drop]

theorem decodeReplaceFrom_eq (skip : ℕ) (b : Bytes) :
    decodeReplaceFrom skip b = decodeReplace (b.drop skip) := by
  induction b generalizing skip with
  | nil => cases skip <;> rfl
  | cons byte b ih =>
    cases skip with
    | zero => rfl
    | succ skip => exact ih skip

/-- A character is decoded. -/
theorem decodeReplace_encode (c : Char) (b : Bytes) :
    decodeReplace (String.utf8EncodeChar c ++ b) = c :: decodeReplace b := by
  have hlength : (String.utf8EncodeChar c).length = c.utf8Size := String.length_utf8EncodeChar c
  have hpos := c.utf8Size_pos
  obtain ⟨byte, bytes, hbytes⟩ := exists_cons_of_length_pos (hlength ▸ hpos)
  have hchar := decodeChar_encode c b
  rw [hbytes] at hlength hchar ⊢
  rw [cons_append] at hchar ⊢
  rw [decodeReplace, decodeReplaceFrom, hchar]
  show c :: decodeReplaceFrom (c.utf8Size - 1) (bytes ++ b) = _
  rw [decodeReplaceFrom_eq, ← hlength, length_cons, Nat.add_sub_cancel, drop_left]

theorem decodeReplace_bad {byte : UInt8} {b : Bytes} (h : decodeChar (byte :: b) = none) :
    decodeReplace (byte :: b)
      = replacementChar :: decodeReplace (b.drop (badLength (byte :: b) - 1)) := by
  rw [decodeReplace, decodeReplaceFrom, h, ← decodeReplaceFrom_eq]

@[simp] theorem decodeReplace_encodeUtf8_append (s : Str) (b : Bytes) :
    decodeReplace (encodeUtf8 s ++ b) = s ++ decodeReplace b := by
  induction s with
  | nil => rfl
  | cons c s ih =>
    have hcons : encodeUtf8 (c :: s) = String.utf8EncodeChar c ++ encodeUtf8 s := rfl
    rw [hcons, append_assoc, decodeReplace_encode, ih, cons_append]

@[simp] theorem decodeReplace_encodeUtf8 (s : Str) : decodeReplace (encodeUtf8 s) = s := by
  have h := decodeReplace_encodeUtf8_append s []
  rwa [append_nil, show decodeReplace [] = [] from rfl, append_nil] at h

/-! ## Strict decoding -/

/-- Different texts are encoded differently. -/
theorem encodeUtf8_injective : Function.Injective encodeUtf8 :=
  Function.LeftInverse.injective decodeReplace_encodeUtf8

/-- `b.decode('utf-8')`: the text that `b` is the encoding of; `none` is `UnicodeDecodeError`. -/
def decodeUtf8 (b : Bytes) : Option Str := (some (decodeReplace b)).filter (encodeUtf8 · = b)

/-- Encoding undoes decoding. -/
theorem encodeUtf8_of_decodeUtf8 {b : Bytes} (h : decodeUtf8 b = some s) : encodeUtf8 s = b := by
  obtain ⟨-, hencoded⟩ := Option.filter_eq_some_iff.mp h
  exact of_decide_eq_true hencoded

/-- Decoding undoes encoding. -/
@[simp] theorem decodeUtf8_encodeUtf8 (s : Str) : decodeUtf8 (encodeUtf8 s) = some s := by
  rw [decodeUtf8, decodeReplace_encodeUtf8]
  exact Option.filter_eq_some_iff.mpr ⟨rfl, decide_eq_true rfl⟩

/-! ## What replacement loses -/

/-- **What is decoded to a text without replacement characters** is its encoding; in
anything else some bytes are replaced. -/
theorem encodeUtf8_or_replaced (b : Bytes) :
    (∃ s, b = encodeUtf8 s) ∨
      ∃ s bad rest, bad ≠ [] ∧ b = encodeUtf8 s ++ bad ++ rest ∧
        decodeReplace b = s ++ replacementChar :: decodeReplace rest := by
  induction hn : b.length using Nat.strong_induction_on generalizing b with
  | _ n ih =>
    cases b with
    | nil => exact .inl ⟨[], rfl⟩
    | cons byte b =>
      cases hchar : decodeChar (byte :: b) with
      | some c =>
        obtain ⟨rest, hrest⟩ := exists_of_decodeChar hchar
        have hlt : rest.length < n := by
          have hlength := congrArg length hrest
          rw [length_append, String.length_utf8EncodeChar] at hlength
          have := c.utf8Size_pos
          omega
        have hcons : ∀ s, encodeUtf8 (c :: s) = String.utf8EncodeChar c ++ encodeUtf8 s := fun _ => rfl
        rw [hrest, decodeReplace_encode]
        rcases ih _ hlt rest rfl with ⟨s, rfl⟩ | ⟨s, bad, tail, hbad, rfl, hdecode⟩
        · exact .inl ⟨c :: s, (hcons s).symm⟩
        · refine .inr ⟨c :: s, bad, tail, hbad, ?_, ?_⟩
          · rw [hcons, append_assoc, append_assoc, append_assoc]
          · rw [hdecode, cons_append]
      | none =>
        refine .inr ⟨[], byte :: b.take (badLength (byte :: b) - 1), _, cons_ne_nil _ _, ?_,
          decodeReplace_bad hchar⟩
        rw [encodeUtf8, flatMap_nil, nil_append, cons_append, take_append_drop]

/-- A byte that no character is encoded with is replaced by itself. -/
theorem decodeReplace_invalid {byte : UInt8} (hbyte : byte = 0xFE ∨ byte = 0xFF) (b : Bytes) :
    decodeReplace (byte :: b) = replacementChar :: decodeReplace b := by
  have hchar : decodeChar (byte :: b) = none := by
    refine Option.eq_none_iff_forall_ne_some.mpr fun c hc => ?_
    obtain ⟨rest, hrest⟩ := exists_of_decodeChar hc
    have hlength : 0 < (String.utf8EncodeChar c).length := by
      rw [String.length_utf8EncodeChar]
      exact c.utf8Size_pos
    obtain ⟨first, bytes, hbytes⟩ := exists_cons_of_length_pos hlength
    rw [hbytes, cons_append] at hrest
    have hmem : byte ∈ String.utf8EncodeChar c := by
      rw [hbytes, (cons.inj hrest).1]
      exact mem_cons_self
    have := mem_utf8EncodeChar hmem
    rcases hbyte with rfl | rfl <;> simp at this <;> omega
  have hbad : badLength (byte :: b) = 1 := by
    rcases hbyte with rfl | rfl <;> cases b <;> rfl
  rw [decodeReplace_bad hchar, hbad]
  rfl

/-- A text file that decoding with replacement keeps: UTF-8 without `U+FFFD`. -/
def PlainUtf8 (b : Bytes) : Prop := ∃ s, b = encodeUtf8 s ∧ replacementChar ∉ s

/-- No other file is read as the same text. -/
theorem PlainUtf8.eq_of_decodeReplace {b other : Bytes} (h : PlainUtf8 b)
    (heq : decodeReplace other = decodeReplace b) : other = b := by
  obtain ⟨s, rfl, hs⟩ := h
  rw [decodeReplace_encodeUtf8] at heq
  rcases encodeUtf8_or_replaced other with ⟨t, rfl⟩ | ⟨t, bad, rest, -, -, hdecode⟩
  · rw [← heq, decodeReplace_encodeUtf8]
  · rw [← heq, hdecode] at hs
    exact absurd (mem_append_right t mem_cons_self) hs

/-- **Any other file shares its text** with a file that is no longer. -/
theorem exists_decodeReplace_eq {b : Bytes} (h : ¬ PlainUtf8 b) :
    ∃ other, other ≠ b ∧ other.length ≤ b.length ∧ decodeReplace other = decodeReplace b := by
  have hreplaced : ∃ s bad rest, bad ≠ [] ∧ b = encodeUtf8 s ++ bad ++ rest ∧
      decodeReplace b = s ++ replacementChar :: decodeReplace rest := by
    rcases encodeUtf8_or_replaced b with ⟨s, rfl⟩ | hreplaced
    · -- the replacement character itself stands in the file
      have hmem : replacementChar ∈ s := by
        by_contra hs
        exact h ⟨s, rfl, hs⟩
      obtain ⟨s₁, s₂, rfl⟩ := append_of_mem hmem
      refine ⟨s₁, encodeUtf8 [replacementChar], encodeUtf8 s₂, by decide, ?_, ?_⟩
      · rw [← encodeUtf8_append, ← encodeUtf8_append, append_assoc, singleton_append]
      · rw [decodeReplace_encodeUtf8, decodeReplace_encodeUtf8]
    · exact hreplaced
  obtain ⟨s, bad, rest, hbad, rfl, hdecode⟩ := hreplaced
  -- one invalid byte in place of the bytes replaced
  obtain ⟨byte, hbyte, hne⟩ : ∃ byte : UInt8, (byte = 0xFE ∨ byte = 0xFF) ∧ [byte] ≠ bad := by
    by_cases hff : [0xFF] = bad
    · exact ⟨0xFE, .inl rfl, hff ▸ by decide⟩
    · exact ⟨0xFF, .inr rfl, hff⟩
  refine ⟨encodeUtf8 s ++ [byte] ++ rest, fun heq => hne ?_, ?_, ?_⟩
  · exact append_cancel_left (append_cancel_right heq)
  · simp only [length_append, length_singleton]
    have := length_pos_iff.mpr hbad
    omega
  · rw [hdecode, append_assoc, decodeReplace_encodeUtf8_append, singleton_append,
      decodeReplace_invalid hbyte]

end TrustFlow.Library
