import TrustFlow.Custody.CoCNode
import TrustFlow.Library.Runs
import TrustFlow.Pki.Certificate

/-!
# The store of identities and certificates

`IdentityStore` of `core/identity.py`: certificates by serial number, the serial numbers of each
peer, and the revoked ones.  A certificate that is added under a used serial number replaces the
old one, which stays listed for its peer.

* `addCertificate`, `revokeCertificate`, `getCertificatesForPeer`, `getValidCertificate` — the
  operations.
* `Indexed` — what the three maps have in common after any calls.
* `OwnSerial` — a call adds no certificate under a serial number of another peer.
* `lookups_right_iff` — **lookups return certificates of the peer they were asked for, in all
  states of a history, if and only if** every call of it has `OwnSerial`; revoked certificates
  are never returned as valid.

A lookup reads the clock once, and iterates the set of serial numbers in any order.
-/

namespace TrustFlow.Pki

open Library Custody

/-- `IdentityStore`. -/
structure IdentityStore where
  identities : Dict Str Identity
  certificates : Dict Str Certificate
  peerCerts : Dict Str (Finset Str)
  revoked : Finset Str

namespace IdentityStore

/-- `IdentityStore()`. -/
def new : IdentityStore := ⟨.empty, .empty, .empty, ∅⟩

/-- `add_identity`. -/
def addIdentity (store : IdentityStore) (identity : Identity) : IdentityStore :=
  { store with identities := store.identities.set identity.peerId identity }

/-- `_peer_certs.get(peer_id, set())`. -/
def serialsOf (store : IdentityStore) (peerId : Str) : Finset Str :=
  (store.peerCerts.get? peerId).getD ∅

/-- `add_certificate`. -/
def addCertificate (store : IdentityStore) (cert : Certificate) : IdentityStore :=
  let serial := cert.serialNumber
  let peerId := cert.identity.peerId
  let store := { store with
    certificates := store.certificates.set serial cert
    peerCerts := store.peerCerts.set peerId (insert serial (store.serialsOf peerId)) }
  store.addIdentity cert.identity

/-- `get_certificates_for_peer`. -/
def getCertificatesForPeer (store : IdentityStore) (listing : SetOrder) (peerId : Str) :
    List Certificate :=
  (listing.list (store.serialsOf peerId)).filterMap store.certificates.get?

/-- The loop of `get_valid_certificate`. -/
def firstValid (store : IdentityStore) (dates : DateParser) (now : Instant) :
    List Str → Except CertificateError (Option Certificate)
  | [] => .ok none
  | sn :: serials =>
    if sn ∈ store.revoked then store.firstValid dates now serials
    else
      match store.certificates.get? sn with
      | none => store.firstValid dates now serials
      | some cert =>
        match cert.isValidTime dates now with
        | .error e => .error e
        | .ok true => .ok (some cert)
        | .ok false => store.firstValid dates now serials

/-- `get_valid_certificate`. -/
def getValidCertificate (store : IdentityStore) (dates : DateParser) (now : Instant)
    (listing : SetOrder) (peerId : Str) : Except CertificateError (Option Certificate) :=
  store.firstValid dates now (listing.list (store.serialsOf peerId))

/-- `revoke_certificate`. -/
def revokeCertificate (store : IdentityStore) (serialNumber : Str) : IdentityStore × Bool :=
  if (store.certificates.get? serialNumber).isSome then
    ({ store with revoked := insert serialNumber store.revoked }, true)
  else (store, false)

end IdentityStore

/-- A call on a store.  Lookups leave it as it is. -/
inductive StoreCall where
  | addIdentity (identity : Identity)
  | addCertificate (cert : Certificate)
  | revokeCertificate (serialNumber : Str)
  | lookup (peerId : Str)

namespace IdentityStore

/-- The store after a call. -/
def step (store : IdentityStore) : StoreCall → IdentityStore
  | .addIdentity identity => store.addIdentity identity
  | .addCertificate cert => store.addCertificate cert
  | .revokeCertificate serialNumber => (store.revokeCertificate serialNumber).1
  | .lookup _ => store

variable (calls : List StoreCall)

/-- The store after calls on a new one. -/
def after : IdentityStore := calls.foldl step new

/-- The serial number was revoked, by a call that answered `True`. -/
def WasRevoked (serialNumber : Str) : Prop :=
  ∃ before, before ++ [.revokeCertificate serialNumber] <+: calls ∧
    ((after before).revokeCertificate serialNumber).2 = true

/-- Lookups return certificates of the peer that they are asked for. -/
structure NamesPeers (store : IdentityStore) : Prop where
  all : ∀ listing peerId, ∀ cert ∈ store.getCertificatesForPeer listing peerId,
    cert.identity.peerId = peerId
  valid : ∀ dates now listing peerId cert,
    store.getValidCertificate dates now listing peerId = .ok (some cert) →
      cert.identity.peerId = peerId

/-- What lookups after the calls should do. -/
structure LookupsRight (calls : List StoreCall) : Prop where
  names : (after calls).NamesPeers
  unrevoked : ∀ dates now listing peerId cert,
    (after calls).getValidCertificate dates now listing peerId = .ok (some cert) →
      ¬ WasRevoked calls cert.serialNumber

/-- The call adds no certificate under a serial number that is in use for another peer. -/
def OwnSerial (store : IdentityStore) : StoreCall → Prop
  | .addCertificate cert => ∀ other, store.certificates.get? cert.serialNumber = some other →
      other.identity.peerId = cert.identity.peerId
  | _ => True

/-! ## What the lookups read -/

section

variable {store : IdentityStore} {cert : Certificate} {peerId serialNumber : Str}

theorem mem_getCertificatesForPeer {listing : SetOrder} :
    cert ∈ store.getCertificatesForPeer listing peerId ↔
      ∃ sn ∈ store.serialsOf peerId, store.certificates.get? sn = some cert := by
  unfold getCertificatesForPeer
  simp only [List.mem_filterMap, listing.mem_list]

theorem firstValid_eq_some {dates : DateParser} {now : Instant} {serials : List Str}
    (h : store.firstValid dates now serials = .ok (some cert)) :
    ∃ sn ∈ serials, sn ∉ store.revoked ∧ store.certificates.get? sn = some cert := by
  induction serials with
  | nil => simp [firstValid] at h
  | cons sn serials ih =>
    have hrest : store.firstValid dates now serials = .ok (some cert) →
        ∃ sn' ∈ sn :: serials, sn' ∉ store.revoked ∧ store.certificates.get? sn' = some cert := by
      intro h
      obtain ⟨sn', hmem, hsn'⟩ := ih h
      exact ⟨sn', List.mem_cons_of_mem _ hmem, hsn'⟩
    unfold firstValid at h
    split at h
    · exact hrest h
    · next hunrevoked =>
      split at h
      · exact hrest h
      · next found hfound =>
        split at h
        · simp at h
        · obtain rfl := Option.some.inj (Except.ok.inj h)
          exact ⟨sn, List.mem_cons_self, hunrevoked, hfound⟩
        · exact hrest h

/-- The valid certificate of a peer is one of its certificates, and not revoked. -/
theorem getValidCertificate_eq_some {dates : DateParser} {now : Instant} {listing : SetOrder}
    (h : store.getValidCertificate dates now listing peerId = .ok (some cert)) :
    ∃ sn ∈ store.serialsOf peerId, sn ∉ store.revoked ∧ store.certificates.get? sn = some cert := by
  obtain ⟨sn, hmem, hsn⟩ := firstValid_eq_some h
  exact ⟨sn, (listing.mem_list _ _).mp hmem, hsn⟩

/-! ## The maps -/

/-- Certificates are stored under their serial numbers, and listed for their peers; whatever is
listed is stored. -/
structure Indexed (store : IdentityStore) : Prop where
  serial : ∀ sn cert, store.certificates.get? sn = some cert → cert.serialNumber = sn
  listed : ∀ sn cert, store.certificates.get? sn = some cert →
    sn ∈ store.serialsOf cert.identity.peerId
  stored : ∀ peerId, ∀ sn ∈ store.serialsOf peerId, ∃ cert, store.certificates.get? sn = some cert

theorem indexed_new : new.Indexed := ⟨by simp [new], by simp [new], by simp [new, serialsOf]⟩

section

variable (store : IdentityStore)

theorem serialsOf_addCertificate (cert : Certificate) (peerId : Str) :
    (store.addCertificate cert).serialsOf peerId
      = if cert.identity.peerId = peerId then insert cert.serialNumber (store.serialsOf peerId)
        else store.serialsOf peerId := by
  show ((store.peerCerts.set _ _).get? peerId).getD ∅ = _
  rw [Dict.get?_set]
  by_cases hpeer : cert.identity.peerId = peerId
  · simp [hpeer]
  · simp [hpeer, serialsOf]

theorem certificates_addCertificate (cert : Certificate) (sn : Str) :
    (store.addCertificate cert).certificates.get? sn
      = if cert.serialNumber = sn then some cert else store.certificates.get? sn :=
  Dict.get?_set _ _ _ _

/-- Serial numbers stay listed. -/
theorem serialsOf_subset_step (call : StoreCall) (peerId : Str) :
    store.serialsOf peerId ⊆ (store.step call).serialsOf peerId := by
  cases call with
  | addCertificate cert =>
    show _ ⊆ (store.addCertificate cert).serialsOf peerId
    rw [serialsOf_addCertificate]
    split
    · exact Finset.subset_insert _ _
    · exact Finset.Subset.refl _
  | revokeCertificate sn =>
    show _ ⊆ (store.revokeCertificate sn).1.serialsOf peerId
    unfold revokeCertificate
    split <;> exact Finset.Subset.refl _
  | addIdentity identity => exact Finset.Subset.refl _
  | lookup peerId => exact Finset.Subset.refl _

/-- Other calls than `add_certificate` change neither certificates nor lists. -/
theorem step_eq_or (call : StoreCall) :
    (∃ cert, call = .addCertificate cert) ∨
      ((store.step call).certificates = store.certificates ∧
        (store.step call).peerCerts = store.peerCerts) := by
  cases call with
  | addCertificate cert => exact .inl ⟨cert, rfl⟩
  | revokeCertificate sn =>
    refine .inr ?_
    simp only [step, revokeCertificate]
    split <;> exact ⟨rfl, rfl⟩
  | addIdentity identity => exact .inr ⟨rfl, rfl⟩
  | lookup peerId => exact .inr ⟨rfl, rfl⟩

end

/-- **Every call** keeps the certificates indexed. -/
theorem Indexed.step (h : store.Indexed) (call : StoreCall) : (store.step call).Indexed := by
  rcases store.step_eq_or call with ⟨cert, rfl⟩ | ⟨hcerts, hpeers⟩
  · show (store.addCertificate cert).Indexed
    constructor
    · intro sn found hfound
      rw [certificates_addCertificate] at hfound
      split at hfound
      · next heq => rw [← Option.some.inj hfound, heq]
      · exact h.serial sn found hfound
    · intro sn found hfound
      rw [certificates_addCertificate] at hfound
      split at hfound
      · next heq =>
        obtain rfl := Option.some.inj hfound
        simp [serialsOf_addCertificate, heq]
      · exact store.serialsOf_subset_step (.addCertificate cert) _ (h.listed sn found hfound)
    · intro peerId sn hsn
      rw [certificates_addCertificate]
      split
      · exact ⟨cert, rfl⟩
      · next hne =>
        apply h.stored peerId
        rw [serialsOf_addCertificate] at hsn
        split at hsn
        · exact (Finset.mem_insert.mp hsn).resolve_left (Ne.symm hne)
        · exact hsn
  · have hserials : (store.step call).serialsOf = store.serialsOf := by
      funext peerId
      rw [serialsOf, serialsOf, hpeers]
    constructor
    · rw [hcerts]
      exact h.serial
    · rw [hcerts, hserials]
      exact h.listed
    · rw [hcerts, hserials]
      exact h.stored

/-- What is listed for a peer is stored with its name. -/
def Owned (store : IdentityStore) : Prop :=
  ∀ peerId, ∀ sn ∈ store.serialsOf peerId, ∀ cert, store.certificates.get? sn = some cert →
    cert.identity.peerId = peerId

theorem namesPeers_iff_owned : store.NamesPeers ↔ store.Owned := by
  constructor
  · intro h peerId sn hsn cert hcert
    apply h.all SetOrder.sorted peerId cert
    exact mem_getCertificatesForPeer.mpr ⟨sn, hsn, hcert⟩
  · intro h
    constructor
    · intro listing peerId cert hcert
      obtain ⟨sn, hsn, hget⟩ := mem_getCertificatesForPeer.mp hcert
      exact h peerId sn hsn cert hget
    · intro dates now listing peerId cert hcert
      obtain ⟨sn, hsn, -, hget⟩ := getValidCertificate_eq_some hcert
      exact h peerId sn hsn cert hget

/-- **One call.**  A certificate under a serial number of another peer is listed for that peer
from then on; all other calls keep the lists right. -/
theorem owned_step_iff (hindexed : store.Indexed) (howned : store.Owned) (call : StoreCall) :
    (store.step call).Owned ↔ store.OwnSerial call := by
  rcases store.step_eq_or call with ⟨cert, rfl⟩ | ⟨hcerts, hpeers⟩
  · show (store.addCertificate cert).Owned ↔ _
    constructor
    · intro h other hother
      refine (h _ cert.serialNumber ?_ cert ?_).symm
      · apply store.serialsOf_subset_step (.addCertificate cert)
        exact hindexed.listed cert.serialNumber other hother
      · simp [certificates_addCertificate]
    · intro h peerId sn hsn found hfound
      rw [serialsOf_addCertificate] at hsn
      rw [certificates_addCertificate] at hfound
      by_cases hserial : cert.serialNumber = sn
      · rw [if_pos hserial] at hfound
        obtain rfl := Option.some.inj hfound
        by_contra hpeer
        -- the serial number was listed for the peer before, for a certificate of its own
        rw [if_neg hpeer] at hsn
        obtain ⟨other, hother⟩ := hindexed.stored peerId sn hsn
        rw [← howned peerId sn hsn other hother] at hpeer
        exact hpeer (h other (hserial ▸ hother)).symm
      · rw [if_neg hserial] at hfound
        refine howned peerId sn ?_ found hfound
        split at hsn
        · exact (Finset.mem_insert.mp hsn).resolve_left (Ne.symm hserial)
        · exact hsn
  · have hsame : (store.step call).Owned ↔ store.Owned := by
      unfold Owned serialsOf
      rw [hcerts, hpeers]
    refine iff_of_true (hsame.mpr howned) ?_
    unfold OwnSerial
    split
    · next cert =>
      intro other hother
      have hadded := congrArg (fun certs => certs.get? cert.serialNumber) hcerts
      simp only [step, certificates_addCertificate, if_pos, hother, Option.some.injEq] at hadded
      rw [hadded]
    · trivial

theorem indexed_after : (after calls).Indexed := by
  have hrun : ∀ (calls : List StoreCall) {store : IdentityStore}, store.Indexed →
      (calls.foldl IdentityStore.step store).Indexed := by
    intro calls
    induction calls with
    | nil => exact fun h => h
    | cons call calls ih => exact fun h => ih (h.step call)
  exact hrun calls indexed_new

end

/-! ## Revocation -/

theorem revoked_subset_foldl (store : IdentityStore) :
    store.revoked ⊆ (calls.foldl step store).revoked := by
  induction calls generalizing store with
  | nil => exact Finset.Subset.refl _
  | cons call calls ih =>
    refine Finset.Subset.trans ?_ (ih (store.step call))
    cases call with
    | revokeCertificate sn =>
      simp only [step, revokeCertificate]
      split
      · exact Finset.subset_insert _ _
      · exact Finset.Subset.refl _
    | _ => exact Finset.Subset.refl _

/-- A revoked serial number stays revoked. -/
theorem mem_revoked_of_wasRevoked {calls : List StoreCall} {serialNumber : Str}
    (h : WasRevoked calls serialNumber) : serialNumber ∈ (after calls).revoked := by
  obtain ⟨before, ⟨rest, rfl⟩, hanswer⟩ := h
  rw [after, List.foldl_append, List.foldl_append]
  apply revoked_subset_foldl rest
  show serialNumber ∈ ((after before).revokeCertificate serialNumber).1.revoked
  unfold revokeCertificate at hanswer ⊢
  split
  · exact Finset.mem_insert_self _ _
  · next hnone => simp [hnone] at hanswer

/-- **A revoked certificate is never returned as valid.** -/
theorem not_wasRevoked_of_valid {calls : List StoreCall} {dates : DateParser} {now : Instant}
    {listing : SetOrder} {peerId : Str} {cert : Certificate}
    (h : (after calls).getValidCertificate dates now listing peerId = .ok (some cert)) :
    ¬ WasRevoked calls cert.serialNumber := by
  obtain ⟨sn, -, hunrevoked, hget⟩ := getValidCertificate_eq_some h
  intro hrevoked
  rw [(indexed_after calls).serial sn cert hget] at hrevoked
  exact hunrevoked (mem_revoked_of_wasRevoked hrevoked)

/-- **Lookups are right in all states of a history** if and only if no certificate of it comes
under a serial number that is in use for another peer. -/
theorem lookups_right_iff :
    (∀ before, before <+: calls → LookupsRight before) ↔ Along step OwnSerial new calls := by
  have hnew : new.Owned := by
    intro peerId sn hsn
    simp [new, serialsOf] at hsn
  have hprefix : (∀ before, before <+: calls → (after before).Owned) ↔
      Along step OwnSerial new calls :=
    forall_prefix_iff_along (I := Indexed) (Q := Owned) (fun _ call h => h.step call)
      (fun _ call h howned => owned_step_iff h howned call) indexed_new hnew calls
  refine Iff.trans (forall_congr' fun before => imp_congr_right fun _ => ?_) hprefix
  constructor
  · exact fun h => namesPeers_iff_owned.mp h.names
  · exact fun h => ⟨namesPeers_iff_owned.mpr h, fun _ _ _ _ _ => not_wasRevoked_of_valid⟩

/-- A certificate with the serial number `1`. -/
def certificateOf (peerId : Str) : Certificate :=
  ⟨⟨peerId, [], [], .empty⟩, "ca", [], [], [], "1"⟩

/-- Bob's certificate, under the serial number of Alice's, is returned for Alice. -/
theorem lookup_returns_other :
    certificateOf "bob" ∈ (after [.addCertificate (certificateOf "alice"),
        .addCertificate (certificateOf "bob")]).getCertificatesForPeer .sorted "alice" ∧
      (certificateOf "bob").identity.peerId ≠ "alice" := by
  refine ⟨mem_getCertificatesForPeer.mpr ⟨"1", by decide, rfl⟩, by decide⟩

end IdentityStore

end TrustFlow.Pki
