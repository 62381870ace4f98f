import TrustFlow.Library.Text

/-!
# Marks of zero-width characters

The invisible mark of `core/steganography.py`: a text is written as the bits of
its UTF-8 bytes, a bit as one of two zero-width characters, with a start and an
end character around them.

* `encodeZeroWidth`, `decodeZeroWidth` — the mark of a text, and what is read out
  of a marked text: the characters between the first start and the first end.
* `decodeZeroWidth_mark` — an ASCII text comes back from its mark, if no start and
  no end stands before it.
* `decodeZeroWidth_eq_none` — a text without a start or without an end has no mark.

The bytes are read back one character each, so that a text with other characters
comes back as the Latin-1 reading of its bytes.
-/

namespace TrustFlow.Stegano

open Library List

/-- `ZERO_WIDTH_SPACE`, the bit 0. -/
def zeroWidthSpace : Char := '\u200b'

/-- `ZERO_WIDTH_NON_JOINER`, the bit 1. -/
def zeroWidthNonJoiner : Char := '\u200c'

/-- `ZERO_WIDTH_JOINER`. -/
def zeroWidthJoiner : Char := '\u200d'

/-- `WATERMARK_START`. -/
def watermarkStart : Char := '\ufeff'

/-- `WATERMARK_END`. -/
def watermarkEnd : Char := '\u2060'

/-- The characters of `_ZERO_WIDTH_REMOVAL_PATTERN`. -/
def isZeroWidth (c : Char) : Bool :=
  [watermarkStart, watermarkEnd, zeroWidthSpace, zeroWidthNonJoiner, zeroWidthJoiner].contains c

/-! ## Bits -/

/-- `format(byte, '08b')`. -/
def byteBits (b : UInt8) : List Bool := (List.range 8).map fun i => b.toNat.testBit (7 - i)

/-- `_string_to_bits`. -/
def stringToBits (s : Str) : List Bool := (encodeUtf8 s).flatMap byteBits

/-- `int(bits, 2)`. -/
def bitsVal (bits : List Bool) : ℕ := bits.foldl (fun n bit => 2 * n + bit.toNat) 0

/-- `_bits_to_string`: a character for every eight bits. -/
def bitsToString : List Bool → Str
  | b0 :: b1 :: b2 :: b3 :: b4 :: b5 :: b6 :: b7 :: bits =>
    Char.ofNat (bitsVal [b0, b1, b2, b3, b4, b5, b6, b7]) :: bitsToString bits
  | _ => []

theorem length_byteBits (b : UInt8) : (byteBits b).length = 8 := by
  rw [byteBits, length_map, length_range]

theorem bitsVal_byteBits : ∀ n : Fin 256, bitsVal (byteBits (UInt8.ofNat n)) = n := by
  decide +kernel

theorem bitsToString_append {byte : List Bool} (hbyte : byte.length = 8) (bits : List Bool) :
    bitsToString (byte ++ bits) = Char.ofNat (bitsVal byte) :: bitsToString bits := by
  match byte, hbyte with
  | [b0, b1, b2, b3, b4, b5, b6, b7], _ => rfl

theorem length_stringToBits (s : Str) : (stringToBits s).length = 8 * (encodeUtf8 s).length := by
  rw [stringToBits]
  induction encodeUtf8 s with
  | nil => rfl
  | cons b bytes ih =>
    rw [flatMap_cons, length_append, length_byteBits, ih, length_cons]
    omega

/-- ASCII texts come back from their bits. -/
theorem bitsToString_stringToBits {s : Str} (hs : ∀ c ∈ s, c.toNat < 128) :
    bitsToString (stringToBits s) = s := by
  rw [stringToBits, encodeUtf8_ascii hs, flatMap_map]
  induction s with
  | nil => rfl
  | cons c s ih =>
    have hc : c.toNat < 256 := Nat.lt_trans (hs c mem_cons_self) (by decide)
    have hval : bitsVal (byteBits (UInt8.ofNat c.toNat)) = c.toNat := bitsVal_byteBits ⟨_, hc⟩
    rw [flatMap_cons, bitsToString_append (length_byteBits _), hval, Char.ofNat_toNat,
      ih fun d hd => hs d (mem_cons_of_mem _ hd)]

/-! ## The mark -/

/-- `ZERO_WIDTH_CHARS`. -/
def bitChar (bit : Bool) : Char := if bit then zeroWidthNonJoiner else zeroWidthSpace

/-- The bit of a character between start and end; others are passed over. -/
def charBit (c : Char) : Option Bool :=
  if c = zeroWidthSpace then some false
  else if c = zeroWidthNonJoiner then some true
  else none

/-- `_encode_zero_width`. -/
def encodeZeroWidth (data : Str) : Str :=
  watermarkStart :: (stringToBits data).map bitChar ++ [watermarkEnd]

/-- `_decode_zero_width`. -/
def decodeZeroWidth (text : Str) : Option Str :=
  match text.idxOf? watermarkStart, text.idxOf? watermarkEnd with
  | some startIdx, some endIdx =>
    if endIdx ≤ startIdx then none
    else
      let bits := ((text.take endIdx).drop (startIdx + 1)).filterMap charBit
      if bits.length < 8 then none
      else some (bitsToString (bits.take (bits.length - bits.length % 8)))
  | _, _ => none

/-- `_remove_zero_width`. -/
def removeZeroWidth (content : Str) : Str := content.filter fun c => !isZeroWidth c

theorem charBit_bitChar (bit : Bool) : charBit (bitChar bit) = some bit := by
  cases bit <;> decide

theorem bitChar_ne (bit : Bool) : bitChar bit ≠ watermarkStart ∧ bitChar bit ≠ watermarkEnd := by
  cases bit <;> decide

/-- The characters of a mark. -/
theorem isZeroWidth_of_mem_encodeZeroWidth {data : Str} {c : Char}
    (hc : c ∈ encodeZeroWidth data) : isZeroWidth c = true := by
  rw [encodeZeroWidth, cons_append, mem_cons, mem_append, mem_map, mem_singleton] at hc
  rcases hc with rfl | ⟨bit, -, rfl⟩ | rfl
  · decide
  · cases bit <;> decide
  · decide

theorem decodeZeroWidth_eq_none {text : Str} (h : watermarkStart ∉ text ∨ watermarkEnd ∉ text) :
    decodeZeroWidth text = none := by
  rw [decodeZeroWidth]
  rcases h with h | h
  · rw [List.idxOf?_eq_none_iff.mpr h]
  · rw [List.idxOf?_eq_none_iff.mpr h]
    cases text.idxOf? watermarkStart <;> rfl

/-- The first occurrence. -/
theorem idxOf?_append_cons {c : Char} {before : Str} (hc : c ∉ before) (rest : Str) :
    (before ++ c :: rest).idxOf? c = some before.length := by
  rw [List.idxOf?, List.findIdx?_append, List.findIdx?_eq_none_iff.mpr, List.findIdx?_cons]
  · simp
  · intro d hd
    exact beq_false_of_ne fun h => hc (h ▸ hd)

/-- **The first mark of a text is read.** -/
theorem decodeZeroWidth_mark {before data : Str} (hstart : watermarkStart ∉ before)
    (hend : watermarkEnd ∉ before) (hdata : ∀ c ∈ data, c.toNat < 128) (hne : data ≠ [])
    (rest : Str) : decodeZeroWidth (before ++ encodeZeroWidth data ++ rest) = some data := by
  have hbits : ∀ c ∈ (stringToBits data).map bitChar, c ≠ watermarkEnd := by
    intro c hc
    obtain ⟨bit, -, rfl⟩ := mem_map.mp hc
    exact (bitChar_ne bit).2
  have htext : before ++ encodeZeroWidth data ++ rest
      = (before ++ watermarkStart :: (stringToBits data).map bitChar) ++ watermarkEnd :: rest := by
    rw [encodeZeroWidth]
    simp only [append_assoc, cons_append, nil_append]
  have hstartAt : (before ++ encodeZeroWidth data ++ rest).idxOf? watermarkStart
      = some before.length := by
    rw [encodeZeroWidth, append_assoc, cons_append, cons_append]
    exact idxOf?_append_cons hstart _
  have hendAt : (before ++ encodeZeroWidth data ++ rest).idxOf? watermarkEnd
      = some (before ++ watermarkStart :: (stringToBits data).map bitChar).length := by
    rw [htext]
    apply idxOf?_append_cons
    rw [mem_append, mem_cons]
    rintro (h | h | h)
    · exact hend h
    · exact absurd h (by decide)
    · exact hbits _ h rfl
  have hsection : ((before ++ encodeZeroWidth data ++ rest).take
        (before ++ watermarkStart :: (stringToBits data).map bitChar).length).drop
          (before.length + 1) = (stringToBits data).map bitChar := by
    rw [htext, take_left]
    have hcut : before ++ watermarkStart :: (stringToBits data).map bitChar
        = (before ++ [watermarkStart]) ++ (stringToBits data).map bitChar := by
      rw [append_assoc]
      rfl
    rw [hcut]
    exact drop_left' (by rw [length_append]; rfl)
  have hread : ((stringToBits data).map bitChar).filterMap charBit = stringToBits data := by
    rw [filterMap_map]
    have hall : (charBit ∘ bitChar) = some := by
      funext bit
      exact charBit_bitChar bit
    rw [hall, filterMap_some]
  have hlength : (stringToBits data).length = 8 * data.length := by
    rw [length_stringToBits, encodeUtf8_ascii hdata, length_map]
  have hpos : 0 < data.length := length_pos_iff.mpr hne
  have hafter : ¬ (before ++ watermarkStart :: (stringToBits data).map bitChar).length
      ≤ before.length := by
    rw [length_append, length_cons]
    omega
  rw [decodeZeroWidth, hstartAt, hendAt]
  dsimp only
  rw [if_neg hafter, hsection, hread, hlength, if_neg (by omega), Nat.mul_mod_right, Nat.sub_zero,
    ← hlength, take_length, bitsToString_stringToBits hdata]

end TrustFlow.Stegano
