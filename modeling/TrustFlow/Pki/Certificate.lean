import TrustFlow.Library.DateTime
import TrustFlow.Library.Json
import TrustFlow.Library.Signature

/-!
# Certificates and the authority that verifies them

`core/identity.py`: identities, certificates, and `CertificateAuthority`, which
keeps the result of a verification for a minute under the serial number of the
certificate.

* `Certificate.getSignedData` — the text that the issuer signs.
* `verifyCertificate` — dates, choice of the key, signature; with the cache.
* `checkSignature`, `fresh` — what an authority without a cache answers.
* `noted` — the call of a history whose result the cache holds for a serial
  number, by the calls alone.
* `transparent_iff` — **the answer is the one without a cache if and only if** the
  noted certificate was then in date and genuine exactly if this one is genuine.

A call reads the clock once.

Signatures, the keys that bytes stand for and the parser of dates are parameters.
Certificates are arbitrary, so how one is issued is left out.
-/

namespace TrustFlow.Pki

open Library Option

/-! ## Certificates -/

/-- `Identity`. -/
structure Identity where
  peerId : Str
  publicKey : Bytes
  createdAt : Str
  metadata : Dict Str Str

/-- `Certificate`. -/
structure Certificate where
  identity : Identity
  issuerId : Str
  validFrom : Str
  validUntil : Str
  signature : Str
  serialNumber : Str

/-- The exceptions of this part: texts that are no dates and bytes that are no
key, and the comparison of dates with and without an offset. -/
inductive CertificateError where
  | valueError
  | typeError
  deriving DecidableEq

/-- `Identity.to_dict`. -/
def Identity.toDict (i : Identity) : Json :=
  .obj [("peer_id", .str i.peerId), ("public_key", .str (hexEncode i.publicKey)),
    ("created_at", .str i.createdAt),
    ("metadata", .obj (i.metadata.entries.map fun e => (e.1, .str e.2)))]

namespace Certificate

/-- `is_self_signed`. -/
def isSelfSigned (cert : Certificate) : Bool := decide (cert.issuerId = "self")

/-- `get_signed_data`. -/
def getSignedData (cert : Certificate) : Str :=
  dumpsSorted true (.obj [("identity", cert.identity.toDict),
    ("issuer_id", .str cert.issuerId), ("valid_from", .str cert.validFrom),
    ("valid_until", .str cert.validUntil), ("serial_number", .str cert.serialNumber)])

/-- `is_valid_time`.  The second comparison is made only if the first holds. -/
def isValidTime (dates : DateParser) (now : Instant) (cert : Certificate) :
    Except CertificateError Bool :=
  match dates.parse cert.validFrom, dates.parse cert.validUntil with
  | some validFrom, some validUntil =>
    match validFrom, validUntil with
    | .naive, _ => .error .typeError
    | .aware t, validUntil =>
      if t ≤ now.1 then
        match validUntil with
        | .naive => .error .typeError
        | .aware u => .ok (decide (now.1 ≤ u))
      else .ok false
  | _, _ => .error .valueError

/-- The outcome of the signature check under a key. -/
def verifiesUnder (S : SignatureScheme) (key : S.VerifyKey) (cert : Certificate) : Bool :=
  match hexDecode cert.signature with
  | none => false
  | some signature => S.verify key (encodeUtf8 cert.getSignedData) signature

end Certificate

/-! ## The authority -/

/-- `CertificateAuthority`, without its signing key. -/
structure CertificateAuthority where
  identity : Identity
  validationCache : Dict Str (Bool × Instant)

/-- `_cache_ttl_seconds`, in microseconds. -/
def cacheTtl : ℤ := 60000000

namespace CertificateAuthority

/-- A new authority. -/
def new (identity : Identity) : CertificateAuthority := ⟨identity, .empty⟩

/-- `_get_cached_validation`. -/
def getCachedValidation (ca : CertificateAuthority) (now : Instant) (serialNumber : Str) :
    CertificateAuthority × Option Bool :=
  match ca.validationCache.get? serialNumber with
  | none => (ca, none)
  | some (isValid, time) =>
    if now.1 - time.1 < cacheTtl then (ca, some isValid)
    else ({ ca with validationCache := ca.validationCache.erase serialNumber }, none)

/-- `_cache_validation_result`. -/
def cacheValidationResult (ca : CertificateAuthority) (now : Instant) (serialNumber : Str)
    (isValid : Bool) : CertificateAuthority :=
  { ca with validationCache := ca.validationCache.set serialNumber (isValid, now) }

section

variable {S : SignatureScheme} (keyOf : Bytes → Option S.VerifyKey) (dates : DateParser)

variable (ca : CertificateAuthority)

/-- The signature check of `verify_certificate`: `VerifyKey(public_key)` may raise,
and then nothing is cached. -/
def verifyWith (now : Instant) (cert : Certificate)
    (publicKey : Bytes) : CertificateAuthority × Except CertificateError Bool :=
  match keyOf publicKey with
  | none => (ca, .error .valueError)
  | some key =>
    let result := cert.verifiesUnder S key
    (ca.cacheValidationResult now cert.serialNumber result, .ok result)

/-- `verify_certificate`, when the cache has no answer. -/
def validate (now : Instant) (cert : Certificate) :
    CertificateAuthority × Except CertificateError Bool :=
  match cert.isValidTime dates now with
  | .error e => (ca, .error e)
  | .ok false => (ca.cacheValidationResult now cert.serialNumber false, .ok false)
  | .ok true =>
    if cert.isSelfSigned then verifyWith keyOf ca now cert cert.identity.publicKey
    else if cert.issuerId = ca.identity.peerId then
      verifyWith keyOf ca now cert ca.identity.publicKey
    else (ca.cacheValidationResult now cert.serialNumber false, .ok false)

/-- `verify_certificate`. -/
def verifyCertificate (now : Instant) (cert : Certificate) :
    CertificateAuthority × Except CertificateError Bool :=
  let (ca, cached) := ca.getCachedValidation now cert.serialNumber
  match cached with
  | some result =>
    match cert.isValidTime dates now with
    | .error e => (ca, .error e)
    | .ok false => (ca, .ok false)
    | .ok true => (ca, .ok result)
  | none => ca.validate keyOf dates now cert

/-- The authority after a history of calls. -/
def serve (history : List (Instant × Certificate)) :
    CertificateAuthority :=
  history.foldl (fun ca call => (ca.verifyCertificate keyOf dates call.1 call.2).1) ca

section

variable (identity : Identity)

/-- The answer of an authority with an empty cache. -/
def fresh (now : Instant) (cert : Certificate) :
    Except CertificateError Bool :=
  ((new identity).verifyCertificate keyOf dates now cert).2

/-- The signature check alone: under the certificate's own key, or the
authority's. -/
def checkSignature (cert : Certificate) : Except CertificateError Bool :=
  let check (publicKey : Bytes) : Except CertificateError Bool :=
    match keyOf publicKey with
    | none => .error .valueError
    | some key => .ok (cert.verifiesUnder S key)
  if cert.isSelfSigned then check cert.identity.publicKey
  else if cert.issuerId = identity.peerId then check identity.publicKey
  else .ok false

variable (call : Instant × Certificate)

/-- The call comes to a result. -/
def decides : Bool :=
  match call.2.isValidTime dates call.1 with
  | .error _ => false
  | .ok false => true
  | .ok true => (checkSignature keyOf identity call.2).toOption.isSome

/-- The result of the call is valid: the certificate is in date, and genuine. -/
def validates : Bool :=
  decide (call.2.isValidTime dates call.1 = .ok true ∧ checkSignature keyOf identity call.2 = .ok true)

variable (serialNumber : Str)

/-- The call that fills the cache for a serial number: one that comes to a result
when there is no entry, or the entry is a minute old. -/
def note (entry : Option (Instant × Certificate))
    (call : Instant × Certificate) : Option (Instant × Certificate) :=
  if call.2.serialNumber = serialNumber then
    match entry.filter fun e => decide (call.1.1 - e.1.1 < cacheTtl) with
    | some e => some e
    | none => if decides keyOf dates identity call then some call else none
  else entry

/-- The call of a history that filled the cache for a serial number. -/
def noted (history : List (Instant × Certificate)) :
    Option (Instant × Certificate) :=
  history.foldl (note keyOf dates identity serialNumber) none

end

/-! ## One call -/

/-- The entry for a serial number, while it is younger than a minute. -/
def liveEntry (now : Instant) (serialNumber : Str) : Option Bool :=
  ((ca.validationCache.get? serialNumber).filter fun e => decide (now.1 - e.2.1 < cacheTtl)).map
    Prod.fst

variable {keyOf dates} {ca : CertificateAuthority} {now : Instant} {cert : Certificate}

/-- What the authority answers when the cache has no answer. -/
theorem validate_snd :
    (ca.validate keyOf dates now cert).2 = match cert.isValidTime dates now with
        | .error e => .error e
        | .ok false => .ok false
        | .ok true => checkSignature keyOf ca.identity cert := by
  unfold validate checkSignature verifyWith
  cases cert.isValidTime dates now with
  | error e => rfl
  | ok inDate =>
    cases inDate with
    | false => rfl
    | true =>
      dsimp only
      split
      · split <;> rfl
      · split
        · split <;> rfl
        · rfl

/-- It keeps the answer, under the serial number of the certificate. -/
theorem validate_fst :
    (ca.validate keyOf dates now cert).1 = match (ca.validate keyOf dates now cert).2 with
        | .error _ => ca
        | .ok result => ca.cacheValidationResult now cert.serialNumber result := by
  unfold validate verifyWith
  cases cert.isValidTime dates now with
  | error e => rfl
  | ok inDate =>
    cases inDate with
    | false => rfl
    | true =>
      dsimp only
      split
      · split <;> rfl
      · split
        · split <;> rfl
        · rfl

theorem fresh_eq (identity : Identity) :
    fresh keyOf dates identity now cert = match cert.isValidTime dates now with
        | .error e => .error e
        | .ok false => .ok false
        | .ok true => checkSignature keyOf identity cert :=
  validate_snd

/-- The result of a call, by its two halves. -/
theorem toOption_fresh (identity : Identity) :
    (fresh keyOf dates identity now cert).toOption
      = if decides keyOf dates identity (now, cert) then
          some (validates keyOf dates identity (now, cert))
        else none := by
  rw [fresh_eq, decides, validates]
  cases cert.isValidTime dates now with
  | error e => rfl
  | ok inDate =>
    cases inDate with
    | false => rfl
    | true =>
      dsimp only
      cases checkSignature keyOf identity cert with
      | error e => rfl
      | ok genuine => cases genuine <;> rfl

/-- With a live entry, the entry is the answer for every certificate in date. -/
theorem verifyCertificate_of_live {b : Bool} (hlive : ca.liveEntry now cert.serialNumber = some b) :
    ca.verifyCertificate keyOf dates now cert = (ca, match cert.isValidTime dates now with
        | .error e => .error e
        | .ok false => .ok false
        | .ok true => .ok b) := by
  obtain ⟨⟨isValid, time⟩, hentry, rfl⟩ := map_eq_some_iff.mp hlive
  obtain ⟨hget, hyoung⟩ := filter_eq_some_iff.mp hentry
  rw [verifyCertificate, getCachedValidation, hget]
  dsimp only
  rw [if_pos (of_decide_eq_true hyoung)]
  dsimp only
  cases cert.isValidTime dates now with
  | error e => rfl
  | ok inDate => cases inDate <;> rfl

/-- Without one, an entry that is too old is dropped, and the certificate is
validated. -/
theorem verifyCertificate_of_none (hlive : ca.liveEntry now cert.serialNumber = none) :
    ∃ cache, cache.get? cert.serialNumber = none ∧
      (∀ serialNumber, cert.serialNumber ≠ serialNumber →
        cache.get? serialNumber = ca.validationCache.get? serialNumber) ∧
      ca.verifyCertificate keyOf dates now cert
        = { ca with validationCache := cache }.validate keyOf dates now cert := by
  rw [verifyCertificate, getCachedValidation]
  cases hget : ca.validationCache.get? cert.serialNumber with
  | none => exact ⟨ca.validationCache, hget, fun _ _ => rfl, rfl⟩
  | some entry =>
    have hold : ¬ now.1 - entry.2.1 < cacheTtl := by
      intro hyoung
      rw [liveEntry, hget, filter_some, if_pos (decide_eq_true hyoung)] at hlive
      cases hlive
    dsimp only
    rw [if_neg hold]
    refine ⟨ca.validationCache.erase cert.serialNumber, ?_, fun _ hne => ?_, rfl⟩
    · rw [Dict.get?_erase, if_pos rfl]
    · rw [Dict.get?_erase_of_ne _ hne]

/-! ## Histories -/

variable (keyOf dates) in
/-- The cache holds the results of the noted calls. -/
structure Follows (identity : Identity) (history : List (Instant × Certificate))
    (ca : CertificateAuthority) : Prop where
  identity_eq : ca.identity = identity
  entries : ∀ serialNumber, ca.validationCache.get? serialNumber
    = (noted keyOf dates identity serialNumber history).map fun call =>
        (validates keyOf dates identity call, call.1)

variable {identity : Identity} {history : List (Instant × Certificate)}

theorem noted_concat :
    noted keyOf dates identity serialNumber (history ++ [call])
      = note keyOf dates identity serialNumber (noted keyOf dates identity serialNumber history)
          call := by
  rw [noted, List.foldl_append]
  rfl

/-- The live entry, by the noted call. -/
theorem Follows.liveEntry_eq (h : Follows keyOf dates identity history ca) (now : Instant)
    (serialNumber : Str) :
    ca.liveEntry now serialNumber
      = ((noted keyOf dates identity serialNumber history).filter fun call =>
          decide (now.1 - call.1.1 < cacheTtl)).map (validates keyOf dates identity) := by
  rw [liveEntry, h.entries]
  cases noted keyOf dates identity serialNumber history with
  | none => rfl
  | some call =>
    rw [map_some, filter_some, filter_some]
    split <;> rfl

theorem follows_new (identity : Identity) : Follows keyOf dates identity [] (new identity) :=
  ⟨rfl, fun _ => rfl⟩

/-- **Every call keeps it so.** -/
theorem Follows.verifyCertificate (h : Follows keyOf dates identity history ca)
    (call : Instant × Certificate) :
    Follows keyOf dates identity (history ++ [call])
      (ca.verifyCertificate keyOf dates call.1 call.2).1 := by
  obtain ⟨now, cert⟩ := call
  have hlive := h.liveEntry_eq now cert.serialNumber
  cases hentry : (noted keyOf dates identity cert.serialNumber history).filter fun call =>
      decide (now.1 - call.1.1 < cacheTtl) with
  | some entry =>
    rw [hentry, map_some] at hlive
    rw [verifyCertificate_of_live hlive]
    refine ⟨h.identity_eq, fun serialNumber => ?_⟩
    rw [h.entries, noted_concat, note]
    dsimp only
    split
    · rename_i hserial
      rw [← hserial, hentry]
      rw [(filter_eq_some_iff.mp hentry).1]
    · rfl
  | none =>
    rw [hentry, map_none] at hlive
    obtain ⟨cache, hnone, hothers, hverify⟩ := verifyCertificate_of_none hlive
    have hresult : ({ ca with validationCache := cache }.validate keyOf dates now cert).2
        = fresh keyOf dates identity now cert := by
      rw [validate_snd, fresh_eq, ← h.identity_eq]
    have hoption : (fresh keyOf dates identity now cert).toOption = _ := toOption_fresh identity
    rw [hverify, validate_fst, hresult]
    -- the noted call is this one, if it came to a result
    have hnote : note keyOf dates identity cert.serialNumber
        (noted keyOf dates identity cert.serialNumber history) (now, cert)
          = if decides keyOf dates identity (now, cert) then some (now, cert) else none := by
      rw [note, if_pos rfl, hentry]
    have hother : ∀ serialNumber, cert.serialNumber ≠ serialNumber →
        note keyOf dates identity serialNumber (noted keyOf dates identity serialNumber history)
          (now, cert) = noted keyOf dates identity serialNumber history :=
      fun serialNumber hne => if_neg hne
    cases hfresh : fresh keyOf dates identity now cert with
    | error e =>
      rw [hfresh] at hoption
      refine ⟨h.identity_eq, fun serialNumber => ?_⟩
      rw [noted_concat]
      by_cases hserial : cert.serialNumber = serialNumber
      · have hundecided : decides keyOf dates identity (now, cert) = false := by
          by_contra hdecides
          rw [if_pos (Bool.eq_true_of_not_eq_false hdecides)] at hoption
          cases hoption
        rw [← hserial, hnote, hundecided]
        exact hnone
      · rw [hother serialNumber hserial, ← h.entries]
        exact hothers serialNumber hserial
    | ok b =>
      rw [hfresh] at hoption
      refine ⟨h.identity_eq, fun serialNumber => ?_⟩
      rw [noted_concat]
      show (cache.set cert.serialNumber (b, now)).get? serialNumber = _
      by_cases hserial : cert.serialNumber = serialNumber
      · rw [← hserial, hnote, Dict.get?_set, if_pos rfl]
        split at hoption
        · rename_i hdecides
          rw [if_pos hdecides, map_some, ← some_inj.mp hoption]
        · cases hoption
      · rw [hother serialNumber hserial, ← h.entries, Dict.get?_set_of_ne _ _ hserial]
        exact hothers serialNumber hserial

variable (keyOf dates) in
theorem follows_serve (identity : Identity) (history : List (Instant × Certificate)) :
    Follows keyOf dates identity history ((new identity).serve keyOf dates history) := by
  induction history using List.reverseRecOn with
  | nil => exact follows_new identity
  | append_singleton history call ih =>
    rw [serve, List.foldl_append]
    exact ih.verifyCertificate call

/-- **The cache shows in an answer, or not.**  After any history of calls, the answer
is that of an authority with an empty cache if and only if the certificate is out
of date, or has no live entry, or its signature is good exactly if the entry is
from a certificate that was in date and genuine. -/
theorem transparent_iff :
    (((new identity).serve keyOf dates history).verifyCertificate keyOf dates now cert).2
        = fresh keyOf dates identity now cert ↔
      ∀ call, noted keyOf dates identity cert.serialNumber history = some call →
        now.1 - call.1.1 < cacheTtl → cert.isValidTime dates now = .ok true →
        checkSignature keyOf identity cert = .ok (decide (call.2.isValidTime dates call.1 = .ok true ∧
          checkSignature keyOf identity call.2 = .ok true)) := by
  have hfollows := follows_serve keyOf dates identity history
  have hlive := hfollows.liveEntry_eq now cert.serialNumber
  generalize (new identity).serve keyOf dates history = ca at *
  cases hentry : (noted keyOf dates identity cert.serialNumber history).filter fun call =>
      decide (now.1 - call.1.1 < cacheTtl) with
  | none =>
    rw [hentry, map_none] at hlive
    obtain ⟨cache, -, -, hverify⟩ := verifyCertificate_of_none hlive
    rw [hverify, validate_snd, fresh_eq]
    dsimp only
    rw [hfollows.identity_eq]
    refine ⟨fun _ call hcall hyoung => ?_, fun _ => rfl⟩
    rw [hcall, filter_some, if_pos (decide_eq_true hyoung)] at hentry
    cases hentry
  | some entry =>
    obtain ⟨hnoted, hyoung⟩ := filter_eq_some_iff.mp hentry
    rw [hentry, map_some] at hlive
    rw [verifyCertificate_of_live hlive, fresh_eq]
    have hvalidates : validates keyOf dates identity entry
        = decide (entry.2.isValidTime dates entry.1 = .ok true ∧
          checkSignature keyOf identity entry.2 = .ok true) := rfl
    rw [hvalidates]
    constructor
    · intro hsame call hcall _ hdate
      rw [hdate] at hsame
      rw [hnoted, some_inj] at hcall
      rw [← hcall]
      exact hsame.symm
    · intro hgood
      have hgood := hgood entry hnoted (of_decide_eq_true hyoung)
      cases hdate : cert.isValidTime dates now with
      | error e => rfl
      | ok inDate =>
        cases inDate with
        | false => rfl
        | true => exact (hgood hdate).symm

end

/-! ## A forged certificate -/

theorem noon_lt_datetimeMax : 63902865600000000 < datetimeMax := by decide

/-- Noon. -/
def noon : Instant := ⟨63902865600000000, noon_lt_datetimeMax⟩

/-- Keys of the example scheme are single bytes. -/
def byteKey : Bytes → Option SignatureScheme.tagged.VerifyKey
  | [key] => some key
  | _ => none

/-- The authority's identity. -/
def root : Identity := ⟨"ca", [9], [], .empty⟩

/-- A certificate for the peer, valid at noon, with the given signature. -/
def certificateFor (peerId signature : Str) : Certificate :=
  ⟨⟨peerId, [7], [], .empty⟩, "ca", isoformat noon.1, isoformat noon.1, signature, "1"⟩

/-- A certificate that the authority signed for alice. -/
def genuine : Certificate :=
  certificateFor "alice" (hexEncode (SignatureScheme.tagged.sign (9 : UInt8)
    (encodeUtf8 (certificateFor "alice" []).getSignedData)))

/-- Mallory's certificate: the serial number of alice's, and no signature. -/
def forged : Certificate := certificateFor "mallory" []

/-- Right after alice's certificate was accepted, mallory's is. -/
theorem forged_accepted :
    (((new root).serve byteKey isoReader.parser [(noon, genuine)]).verifyCertificate byteKey
        isoReader.parser noon forged).2 = .ok true ∧
      fresh byteKey isoReader.parser root noon forged = .ok false := by
  decide +kernel

end CertificateAuthority

end TrustFlow.Pki
