import TrustFlow.Library.Text

/-!
# Signature schemes

Ed25519 as the programs use it, by the functions and the laws they rely on: a
signature has 64 bytes, and the holder's own signatures verify.  That nobody
else's do, and for no other message, is not a law; results that need it say so with
`Separates` and `Binds`.
-/

namespace TrustFlow.Library

/-- A scheme for detached signatures. -/
structure SignatureScheme where
  SigningKey : Type
  VerifyKey : Type
  verifyKey : SigningKey → VerifyKey
  sign : SigningKey → Bytes → Bytes
  verify : VerifyKey → Bytes → Bytes → Bool
  length_sign : ∀ key msg, (sign key msg).length = 64
  verify_sign : ∀ key msg, verify (verifyKey key) msg (sign key msg) = true

namespace SignatureScheme

variable (S : SignatureScheme)

/-- No signature is accepted under both keys. -/
def Separates (key key' : S.VerifyKey) : Prop :=
  ∀ msg signature, S.verify key msg signature = true → S.verify key' msg signature = false

/-- The signature of the message is accepted for no other message. -/
def Binds (key : S.SigningKey) (msg : Bytes) : Prop :=
  ∀ msg', S.verify (S.verifyKey key) msg' (S.sign key msg) = true → msg' = msg

theorem sign_ne_nil (key : S.SigningKey) (msg : Bytes) : S.sign key msg ≠ [] := by
  intro hnil
  have hlength := S.length_sign key msg
  rw [hnil] at hlength
  cases hlength

/-- A scheme to run examples with: the key, and the start of the message. -/
def tagged : SignatureScheme where
  SigningKey := UInt8
  VerifyKey := UInt8
  verifyKey := id
  sign key msg := key :: (msg ++ List.replicate 63 0).take 63
  verify key msg signature := decide (signature = key :: (msg ++ List.replicate 63 0).take 63)
  length_sign key msg := by simp
  verify_sign key msg := by simp

/-- A scheme to run examples with: it tells one message from all others. -/
def marking (marked : Bytes) : SignatureScheme where
  SigningKey := Unit
  VerifyKey := Unit
  verifyKey := id
  sign _ msg := List.replicate 64 (if msg = marked then 1 else 0)
  verify _ msg signature := decide (signature = List.replicate 64 (if msg = marked then 1 else 0))
  length_sign _ _ := List.length_replicate
  verify_sign _ _ := decide_eq_true rfl

theorem binds_marking (marked : Bytes) : (marking marked).Binds () marked := by
  intro msg hverify
  have heq : List.replicate 64 (if marked = marked then (1 : UInt8) else 0)
      = List.replicate 64 (if msg = marked then 1 else 0) := of_decide_eq_true hverify
  by_contra hne
  rw [if_pos rfl, if_neg hne] at heq
  cases congrArg List.head? heq

end SignatureScheme

end TrustFlow.Library
