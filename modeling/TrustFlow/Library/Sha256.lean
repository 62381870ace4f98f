import TrustFlow.Library.Numeral

/-!
# SHA-256 and HMAC-SHA-256

`hashlib.sha256` and `hmac.new(key, data, sha256)` as computable functions on
byte strings (FIPS 180-4, RFC 2104), so that a statement about a digest is
about the very digest the program computes and a concrete run can be evaluated.

Words are natural numbers below `2 ^ 32`, and the bit operations are those of `Nat`
by name: the kernel evaluates them directly.  Nothing in the development unfolds these definitions; the only facts
used are that a digest has 32 bytes (`length_sha256`), hence its hexadecimal
form 64 digits (`length_sha256Hex`), and, where a result needs it, injectivity
on the finitely many texts at hand as an explicit hypothesis.
-/

namespace TrustFlow.Library

namespace Sha256

/-- The chaining value: eight words. -/
structure State where
  a : ℕ
  b : ℕ
  c : ℕ
  d : ℕ
  e : ℕ
  f : ℕ
  g : ℕ
  h : ℕ

/-- The initial chaining value. -/
def initial : State :=
  ⟨0x6a09e667, 0xbb67ae85, 0x3c6ef372, 0xa54ff53a, 0x510e527f, 0x9b05688c, 0x1f83d9ab, 0x5be0cd19⟩

/-- The round constants. -/
def roundConstants : List ℕ :=
  [0x428a2f98, 0x71374491, 0xb5c0fbcf, 0xe9b5dba5, 0x3956c25b, 0x59f111f1, 0x923f82a4,
   0xab1c5ed5, 0xd807aa98, 0x12835b01, 0x243185be, 0x550c7dc3, 0x72be5d74, 0x80deb1fe,
   0x9bdc06a7, 0xc19bf174, 0xe49b69c1, 0xefbe4786, 0x0fc19dc6, 0x240ca1cc, 0x2de92c6f,
   0x4a7484aa, 0x5cb0a9dc, 0x76f988da, 0x983e5152, 0xa831c66d, 0xb00327c8, 0xbf597fc7,
   0xc6e00bf3, 0xd5a79147, 0x06ca6351, 0x14292967, 0x27b70a85, 0x2e1b2138, 0x4d2c6dfc,
   0x53380d13, 0x650a7354, 0x766a0abb, 0x81c2c92e, 0x92722c85, 0xa2bfe8a1, 0xa81a664b,
   0xc24b8b70, 0xc76c51a3, 0xd192e819, 0xd6990624, 0xf40e3585, 0x106aa070, 0x19a4c116,
   0x1e376c08, 0x2748774c, 0x34b0bcb5, 0x391c0cb3, 0x4ed8aa4a, 0x5b9cca4f, 0x682e6ff3,
   0x748f82ee, 0x78a5636f, 0x84c87814, 0x8cc70208, 0x90befffa, 0xa4506ceb, 0xbef9a3f7,
   0xc67178f2]

/-- Rotation of a word to the right. -/
def rotr (x n : ℕ) : ℕ := ((x.shiftRight n).lor (x.shiftLeft (32 - n))).mod 0x100000000

def bigSigma0 (x : ℕ) : ℕ := ((rotr x 2).xor (rotr x 13)).xor (rotr x 22)

def bigSigma1 (x : ℕ) : ℕ := ((rotr x 6).xor (rotr x 11)).xor (rotr x 25)

def smallSigma0 (x : ℕ) : ℕ := ((rotr x 7).xor (rotr x 18)).xor (x.shiftRight 3)

def smallSigma1 (x : ℕ) : ℕ := ((rotr x 17).xor (rotr x 19)).xor (x.shiftRight 10)

def choose (x y z : ℕ) : ℕ := (x.land y).xor ((0xffffffff - x).land z)

def majority (x y z : ℕ) : ℕ := ((x.land y).xor (x.land z)).xor (y.land z)

/-- Sixteen words of the message schedule. -/
structure Window where
  (w0 w1 w2 w3 w4 w5 w6 w7 w8 w9 w10 w11 w12 w13 w14 w15 : ℕ)

/-- The word sixteen places on comes in at the end of the window. -/
def Window.slide (v : Window) : Window :=
  ⟨v.w1, v.w2, v.w3, v.w4, v.w5, v.w6, v.w7, v.w8, v.w9, v.w10, v.w11, v.w12, v.w13, v.w14, v.w15,
    (smallSigma1 v.w14 + v.w9 + smallSigma0 v.w1 + v.w0) % 2 ^ 32⟩

/-- The rounds of one block.  Each of them takes the first word of the window, which slides over
the message schedule. -/
def rounds : List ℕ → Window → State → State
  | k :: ks, v, s =>
    let t1 := s.h + bigSigma1 s.e + choose s.e s.f s.g + k + v.w0
    let t2 := bigSigma0 s.a + majority s.a s.b s.c
    rounds ks v.slide ⟨(t1 + t2) % 2 ^ 32, s.a, s.b, s.c, (s.d + t1) % 2 ^ 32, s.e, s.f, s.g⟩
  | [], _, s => s

/-- The big-endian words of a byte string. -/
def words : Bytes → List ℕ
  | a :: b :: c :: d :: rest =>
    (a.toNat * 2 ^ 24 + b.toNat * 2 ^ 16 + c.toNat * 2 ^ 8 + d.toNat) :: words rest
  | _ => []

/-- One application of the compression function. -/
def compress (s : State) (block : Window) : State :=
  let r := rounds roundConstants block s
  ⟨(s.a + r.a) % 2 ^ 32, (s.b + r.b) % 2 ^ 32, (s.c + r.c) % 2 ^ 32, (s.d + r.d) % 2 ^ 32,
    (s.e + r.e) % 2 ^ 32, (s.f + r.f) % 2 ^ 32, (s.g + r.g) % 2 ^ 32, (s.h + r.h) % 2 ^ 32⟩

/-- All blocks of a padded message, in order; a block is sixteen words. -/
def absorb : List ℕ → State → State
  | w0 :: w1 :: w2 :: w3 :: w4 :: w5 :: w6 :: w7 :: w8 :: w9 :: w10 :: w11 :: w12 :: w13 :: w14 ::
      w15 :: ws, s =>
    absorb ws (compress s ⟨w0, w1, w2, w3, w4, w5, w6, w7, w8, w9, w10, w11, w12, w13, w14, w15⟩)
  | _, s => s

/-- Padding: a one bit, zeros, and the bit length in eight bytes. -/
def pad (msg : Bytes) : Bytes :=
  msg ++ 0x80 :: List.replicate ((119 - msg.length % 64) % 64) 0 ++ toBytesBE 8 (8 * msg.length)

/-- The digest held by a chaining value. -/
def State.digest (s : State) : Bytes :=
  [s.a, s.b, s.c, s.d, s.e, s.f, s.g, s.h].flatMap (toBytesBE 4)

end Sha256

/-- `hashlib.sha256(msg).digest()`. -/
def sha256 (msg : Bytes) : Bytes :=
  (Sha256.absorb (Sha256.words (Sha256.pad msg)) Sha256.initial).digest

/-- `hashlib.sha256(msg).hexdigest()`. -/
def sha256Hex (msg : Bytes) : Str := hexEncode (sha256 msg)

@[simp] theorem length_sha256 (msg : Bytes) : (sha256 msg).length = 32 := by
  simp [sha256, Sha256.State.digest]

@[simp] theorem length_sha256Hex (msg : Bytes) : (sha256Hex msg).length = 64 := by
  simp [sha256Hex]

theorem sha256Hex_ne_nil (msg : Bytes) : sha256Hex msg ≠ [] :=
  List.ne_nil_of_length_pos (by simp)

-- the test vector of FIPS 180-4 for the message "abc"
example : sha256Hex (encodeUtf8 "abc") =
    "ba7816bf8f01cfea414140de5dae2223b00361a396177a9cb410ff61f20015ad" := by
  decide +kernel

/-- `hmac.new(key, data, hashlib.sha256).hexdigest()`. -/
def hmacSha256Hex (key data : Bytes) : Str :=
  let base := if key.length ≤ 64 then key else sha256 key
  let block := base ++ List.replicate (64 - base.length) 0
  hexEncode (sha256 (block.map (· ^^^ 0x5c) ++ sha256 (block.map (· ^^^ 0x36) ++ data)))

theorem hmacSha256Hex_ne_nil (key data : Bytes) : hmacSha256Hex key data ≠ [] :=
  List.ne_nil_of_length_pos (by simp [hmacSha256Hex])

end TrustFlow.Library
