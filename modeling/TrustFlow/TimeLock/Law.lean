import TrustFlow.Library.Runs
import TrustFlow.TimeLock.Engine

/-!
# The law of time-locks

The engine keeps a deadline in the key store and enforces it lazily: a key that is too
old goes when it is asked for, or when the clean-up meets it.  Seen from outside there
is one law.  A lock holds at a time if no `destroy` of it has returned `True` and the
time is not after its deadline: creation, plus the seconds it was given, plus those of
every extension that succeeded.

* `Op`, `Journal` — operations, one after the other, each with one clock reading, and
  the record of what they returned.
* `Holds` — the condition, read off the records.
* `Effect` — what an operation may do to one lock.
* `Tracks` — the invariant between the records and the engine, for one lock.
* `timelock_law` — decryption, status and extension obey the condition, and once it
  fails it fails for good.
-/

namespace TrustFlow.TimeLock

open Library SecretSharing List Option

/-! ## Journals -/

/-- An operation of the engine. -/
inductive Op where
  | encrypt (draw : LockDraw) (content : Str) (ttlSeconds : ℤ)
  | decrypt (encrypted : EncryptedContent)
  | destroy (lockId : Str)
  | extendTtl (lockId : Str) (additional : ℤ)
  | getStatus (lockId : Str)
  | cleanup

/-- What an operation returns; `none` is an exception of `encrypt` and `extend_ttl`. -/
inductive Result where
  | encrypted (result : Option EncryptedContent)
  | content (result : Option Str)
  | destroyed (success : Bool)
  | extended (result : Option Bool)
  | status (status : TimeLockStatus)
  | cleaned
  deriving DecidableEq

variable (aes : AesGcm)

/-- An operation, at a time. -/
def TimeLockEngine.perform (engine : TimeLockEngine) (now : Instant) : Op → TimeLockEngine × Result
  | .encrypt draw content ttlSeconds =>
    match engine.encrypt aes draw now content ttlSeconds with
    | none => (engine, .encrypted none)
    | some (engine', encrypted) => (engine', .encrypted (some encrypted))
  | .decrypt encrypted =>
    ((engine.decrypt aes now encrypted).1, .content (engine.decrypt aes now encrypted).2)
  | .destroy lockId => ((engine.destroy lockId).1, .destroyed (engine.destroy lockId).2)
  | .extendTtl lockId additional =>
    ((engine.extendTtl now lockId additional).1,
      .extended (engine.extendTtl now lockId additional).2)
  | .getStatus lockId => ((engine.getStatus now lockId).1, .status (engine.getStatus now lockId).2)
  | .cleanup => (engine.cleanup now, .cleaned)

/-- An operation that was performed, and what it returned. -/
structure Record where
  time : Instant
  op : Op
  result : Result

/-- The operations so far, and the engine after them. -/
structure Journal where
  records : List Record
  engine : TimeLockEngine

/-- A `destroy` of the lock that returned `True`. -/
def Record.destroys (lockId : Str) (record : Record) : Bool :=
  match record.op, record.result with
  | .destroy lockId', .destroyed true => decide (lockId' = lockId)
  | _, _ => false

/-- The seconds by which the lock was extended. -/
def Record.extension (lockId : Str) (record : Record) : ℤ :=
  match record.op, record.result with
  | .extendTtl lockId' additional, .extended (some true) => if lockId' = lockId then additional else 0
  | _, _ => 0

variable (records : List Record)

/-- A `destroy` of the lock has returned `True`. -/
def destroyed (lockId : Str) : Bool :=
  records.any (Record.destroys lockId)

/-- When the lock ends, in microseconds: creation, the seconds it was given, and those
of the extensions that succeeded. -/
def deadline (lockId : Str) (created : Instant) (ttlSeconds : ℤ) : ℤ :=
  created.1 + (ttlSeconds + (records.map (Record.extension lockId)).sum) * 1000000

/-- **The condition**: the lock was not destroyed, and its deadline is not over. -/
def Holds (lockId : Str) (created : Instant) (ttlSeconds : ℤ) (t : Instant) : Prop :=
  destroyed records lockId = false ∧ (t.1 : ℤ) ≤ deadline records lockId created ttlSeconds

instance (records : List Record) (lockId : Str) (created : Instant) (ttlSeconds : ℤ) (t : Instant) :
    Decidable (Holds records lockId created ttlSeconds t) :=
  inferInstanceAs (Decidable (_ ∧ _))

namespace Journal

section

variable (journal : Journal)

/-- The time of the last operation. -/
def clock : ℕ := (journal.records.getLast?.map fun record => record.time.1).getD 0

/-- An operation is performed. -/
def step (event : Instant × Op) : Journal where
  records := journal.records ++ [⟨event.1, event.2, (journal.engine.perform aes event.1 event.2).2⟩]
  engine := (journal.engine.perform aes event.1 event.2).1

/-- A series of operations. -/
def run (events : List (Instant × Op)) : Journal :=
  events.foldl (step aes) journal

/-- Time does not go back, and a lock id that is drawn is new. -/
def Admits (event : Instant × Op) : Prop :=
  journal.clock ≤ event.1.1 ∧
    match event.2 with
    | .encrypt draw _ _ => ¬ journal.engine.Known draw.lockId
    | _ => True

end

instance decidableAdmits (journal : Journal) : ∀ event, Decidable (journal.Admits event)
  | (_, .encrypt draw _ _) =>
    inferInstanceAs (Decidable (_ ∧ ¬ journal.engine.Known draw.lockId))
  | (_, .decrypt _) | (_, .destroy _) | (_, .extendTtl _ _) | (_, .getStatus _) | (_, .cleanup) =>
    inferInstanceAs (Decidable (_ ∧ True))

/-- A new engine. -/
def start : Journal := ⟨[], ⟨⟨Dict.empty⟩, Dict.empty⟩⟩

end Journal

section

variable (records : List Record) (record : Record) (lockId : Str)

theorem destroyed_append : destroyed (records ++ [record]) lockId
    = (destroyed records lockId || record.destroys lockId) := by
  rw [destroyed, any_append, any_cons, any_nil, Bool.or_false, destroyed]

theorem deadline_append (created : Instant) (ttlSeconds : ℤ) :
    deadline (records ++ [record]) lockId created ttlSeconds
      = deadline records lockId created ttlSeconds + record.extension lockId * 1000000 := by
  rw [deadline, deadline, map_append, sum_append, map_singleton, sum_singleton]
  ring

end

theorem Journal.clock_step (journal : Journal) (event : Instant × Op) :
    (journal.step aes event).clock = event.1.1 := by
  rw [clock, step, List.getLast?_append_of_ne_nil _ (cons_ne_nil _ _)]
  rfl

/-! ## What an operation does to a lock -/

/-- `t + timedelta(seconds=...)`, where it is a time. -/
theorem addSeconds_eq_some {t t' : Instant} {seconds : ℤ} :
    addSeconds t seconds = some t' ↔ (t'.1 : ℤ) = t.1 + seconds * 1000000 := by
  unfold addSeconds
  dsimp only
  constructor
  · intro h
    split at h
    · split at h
      · next hpos =>
          rw [← Option.some.inj h]
          exact Int.toNat_of_nonneg hpos
      · cases h
    · cases h
  · intro h
    have hnat : (t.1 + seconds * 1000000 : ℤ).toNat = t'.1 := by
      rw [← h, Int.toNat_natCast]
    rw [dif_pos (hnat.symm ▸ t'.2), if_pos (h ▸ Int.natCast_nonneg _)]
    exact congrArg some (Subtype.ext hnat)

namespace TimeLockEngine

/-- The key of a lock that is asked for at a time, if it is there and not too old. -/
def live? (engine : TimeLockEngine) (now : Instant) (lockId : Str) : Option (Bytes × Instant) :=
  (engine.key? lockId).filter fun entry => decide (now.1 ≤ entry.2.1)

variable {aes : AesGcm} {engine engine' : TimeLockEngine} {now : Instant} {lockId : Str}

theorem live?_eq_some {entry : Bytes × Instant} : engine.live? now lockId = some entry ↔
    engine.key? lockId = some entry ∧ now.1 ≤ entry.2.1 := by
  rw [live?, filter_eq_some_iff, decide_eq_true_eq]

/-- The metadata of a lock are still there, and not newly marked as destroyed. -/
def SameMark (engine engine' : TimeLockEngine) (lockId : Str) : Prop :=
  ∀ metadata, engine.metadataStore.get? lockId = some metadata →
    ∃ metadata', engine'.metadataStore.get? lockId = some metadata' ∧
      (metadata'.status = TimeLockStatus.name .destroyed ↔
        metadata.status = TimeLockStatus.name .destroyed)

/-- What an operation may do to a lock, next to what it is recorded as. -/
inductive Effect (now : Instant) (engine engine' : TimeLockEngine) (lockId : Str) (record : Record) :
    Prop
  | kept (hmark : SameMark engine engine' lockId) (hdestroys : record.destroys lockId = false)
      (hextension : record.extension lockId = 0) (hkey : engine'.key? lockId = engine.key? lockId)
  | lapsed (hmark : SameMark engine engine' lockId) (hdestroys : record.destroys lockId = false)
      (hextension : record.extension lockId = 0) (hkey : engine'.key? lockId = none)
      (hlate : ∀ entry, engine.key? lockId = some entry → entry.2.1 < now.1)
  | destroyed {entry : Bytes × Instant} (hold : engine.key? lockId = some entry)
      (hmark : ∀ metadata, engine.metadataStore.get? lockId = some metadata →
        ∃ metadata', engine'.metadataStore.get? lockId = some metadata' ∧
          metadata'.status = TimeLockStatus.name .destroyed)
      (hdestroys : record.destroys lockId = true) (hextension : record.extension lockId = 0)
      (hkey : engine'.key? lockId = none)
  | extended {key : Bytes} {expiry expiry' : Instant} (hmark : SameMark engine engine' lockId)
      (hdestroys : record.destroys lockId = false)
      (hkey : engine.key? lockId = some (key, expiry)) (hnow : now.1 ≤ expiry.1)
      (hexpiry : (expiry'.1 : ℤ) = expiry.1 + record.extension lockId * 1000000)
      (hkey' : engine'.key? lockId = some (key, expiry'))

theorem SameMark.refl (engine : TimeLockEngine) (lockId : Str) : SameMark engine engine lockId :=
  fun metadata hmetadata => ⟨metadata, hmetadata, .rfl⟩

theorem SameMark.of_eq (h : engine'.metadataStore.get? lockId = engine.metadataStore.get? lockId) :
    SameMark engine engine' lockId :=
  fun metadata hmetadata => ⟨metadata, h.trans hmetadata, .rfl⟩

/-- A lock that is looked at keeps its key, or had one that is too old. -/
theorem effect_of_look {record : Record} (hmark : SameMark engine engine' lockId)
    (hdestroys : record.destroys lockId = false) (hextension : record.extension lockId = 0)
    (hkey : engine'.key? lockId = engine.key? lockId ∨ engine'.key? lockId = engine.live? now lockId) :
    Effect now engine engine' lockId record := by
  rcases hkey with hkey | hkey
  · exact .kept hmark hdestroys hextension hkey
  · cases hlive : engine.live? now lockId with
    | some entry =>
      refine .kept hmark hdestroys hextension (hkey.trans ?_)
      rw [hlive, (live?_eq_some.mp hlive).1]
    | none =>
      refine .lapsed hmark hdestroys hextension (hkey.trans hlive) fun entry hentry => ?_
      by_contra hge
      have hsome := live?_eq_some.mpr ⟨hentry, Nat.le_of_not_lt hge⟩
      cases hlive.symm.trans hsome

/-! ### The operations -/

/-- `get_key` returns a key that is there and not too old. -/
theorem getKey_snd (engine : TimeLockEngine) (now : Instant) (lockId : Str) :
    (engine.keyStore.getKey now lockId).2 = (engine.live? now lockId).map Prod.fst := by
  rw [live?, key?, KeyStore.getKey]
  cases engine.keyStore.keys.get? lockId with
  | none => rfl
  | some entry =>
    obtain ⟨key, expiry⟩ := entry
    dsimp only
    by_cases hnow : now.1 > expiry.1
    · rw [if_pos hnow, filter_some_neg (by simpa using hnow)]
      rfl
    · rw [if_neg hnow, filter_some_pos (by simpa using hnow)]
      rfl

/-- What `get_key` leaves of a lock. -/
theorem key?_getKey (engine : TimeLockEngine) (now : Instant) (lockId lockId' : Str) :
    key? { engine with keyStore := (engine.keyStore.getKey now lockId).1 } lockId'
        = engine.key? lockId' ∨
      key? { engine with keyStore := (engine.keyStore.getKey now lockId).1 } lockId'
        = engine.live? now lockId' := by
  rw [key?, key?, live?, key?, KeyStore.getKey]
  cases hget : engine.keyStore.keys.get? lockId with
  | none => exact .inl rfl
  | some entry =>
    dsimp only
    by_cases hnow : now.1 > entry.2.1
    · rw [if_pos hnow]
      dsimp only
      rw [KeyStore.deleteKey, Dict.get?_erase]
      split
      · next hsame =>
          subst hsame
          rw [hget, filter_some_neg (by simpa using hnow)]
          exact .inr rfl
      · exact .inl rfl
    · rw [if_neg hnow]
      exact .inl rfl

theorem sameMark_setStatus_expired (engine : TimeLockEngine) (lockId lockId' : Str)
    (hmarked : engine.isMarkedDestroyed lockId = false) :
    SameMark engine (engine.setStatus lockId .expired) lockId' := by
  intro metadata hmetadata
  by_cases hsame : lockId = lockId'
  · subst hsame
    rw [isMarkedDestroyed, hmetadata, any_some] at hmarked
    rw [setStatus, hmetadata]
    refine ⟨_, Dict.get?_set_self _ _ _, ?_⟩
    have hne : TimeLockStatus.name .expired ≠ TimeLockStatus.name .destroyed := by decide
    exact iff_of_false hne (of_decide_eq_false hmarked)
  · rw [get?_setStatus_of_ne hsame]
    exact ⟨metadata, hmetadata, .rfl⟩

theorem effect_decrypt (encrypted : EncryptedContent) (lockId : Str) :
    Effect now engine (engine.decrypt aes now encrypted).1 lockId
      ⟨now, .decrypt encrypted, .content (engine.decrypt aes now encrypted).2⟩ := by
  have hkeys := key?_getKey engine now encrypted.metadata.lockId lockId
  unfold decrypt
  dsimp only
  generalize engine.keyStore.getKey now encrypted.metadata.lockId = found at hkeys ⊢
  obtain ⟨store, key⟩ := found
  cases key with
  | some key => exact effect_of_look (.of_eq rfl) rfl rfl hkeys
  | none =>
    dsimp only
    split
    · exact effect_of_look (.of_eq rfl) rfl rfl hkeys
    · next hmarked =>
        refine effect_of_look ?_ rfl rfl ?_
        · exact sameMark_setStatus_expired { engine with keyStore := store } _ lockId
            (Bool.eq_false_iff.mpr hmarked)
        · rw [key?_setStatus]
          exact hkeys

theorem effect_getStatus (lockId' lockId : Str) :
    Effect now engine (engine.getStatus now lockId').1 lockId
      ⟨now, .getStatus lockId', .status (engine.getStatus now lockId').2⟩ := by
  have hkeys := key?_getKey engine now lockId' lockId
  unfold getStatus
  split
  · exact effect_of_look (.refl _ _) rfl rfl (.inl rfl)
  · split
    · exact effect_of_look (.refl _ _) rfl rfl (.inl rfl)
    · generalize engine.keyStore.getKey now lockId' = found at hkeys ⊢
      obtain ⟨store, key⟩ := found
      cases key with
      | some key => exact effect_of_look (.of_eq rfl) rfl rfl hkeys
      | none => exact effect_of_look (.of_eq rfl) rfl rfl hkeys

theorem effect_cleanup (lockId : Str) :
    Effect now engine (engine.cleanup now) lockId ⟨now, .cleanup, .cleaned⟩ := by
  refine effect_of_look (.of_eq rfl) rfl rfl (.inr (Option.ext fun entry => ?_))
  rw [live?_eq_some, cleanup, key?, KeyStore.cleanupExpired, Dict.get?_filter, decide_eq_true_eq,
    Nat.not_lt, key?]

theorem effect_destroy (lockId' lockId : Str) :
    Effect now engine (engine.destroy lockId').1 lockId
      ⟨now, .destroy lockId', .destroyed (engine.destroy lockId').2⟩ := by
  unfold destroy KeyStore.destroyKey
  cases hget : engine.keyStore.keys.get? lockId' with
  | none => exact .kept (.refl _ _) rfl rfl rfl
  | some entry =>
    dsimp only
    by_cases hsame : lockId' = lockId
    · subst hsame
      refine .destroyed hget (fun metadata hmetadata => ?_) (decide_eq_true rfl) rfl ?_
      · rw [setStatus, show engine.metadataStore.get? lockId' = _ from hmetadata]
        exact ⟨_, Dict.get?_set_self _ _ _, rfl⟩
      · rw [key?_setStatus]
        exact engine.keyStore.keys.get?_erase_self lockId'
    · refine .kept (.of_eq (get?_setStatus_of_ne hsame)) (decide_eq_false hsame) rfl ?_
      rw [key?_setStatus]
      exact engine.keyStore.keys.get?_erase_of_ne hsame

variable {draw : LockDraw} {content : Str} {ttlSeconds additional : ℤ}

theorem perform_encrypt_some {encrypted : EncryptedContent}
    (h : engine.encrypt aes draw now content ttlSeconds = some (engine', encrypted)) :
    engine.perform aes now (.encrypt draw content ttlSeconds)
      = (engine', .encrypted (some encrypted)) := by
  unfold perform
  dsimp only
  rw [h]

theorem perform_encrypt_none (h : engine.encrypt aes draw now content ttlSeconds = none) :
    engine.perform aes now (.encrypt draw content ttlSeconds) = (engine, .encrypted none) := by
  unfold perform
  dsimp only
  rw [h]

theorem effect_encrypt {lockId : Str}
    (hne : draw.lockId ≠ lockId ∨ engine.encrypt aes draw now content ttlSeconds = none) :
    Effect now engine (engine.perform aes now (.encrypt draw content ttlSeconds)).1 lockId
      ⟨now, .encrypt draw content ttlSeconds,
        (engine.perform aes now (.encrypt draw content ttlSeconds)).2⟩ := by
  cases hencrypt : engine.encrypt aes draw now content ttlSeconds with
  | none =>
    rw [perform_encrypt_none hencrypt]
    exact .kept (.refl _ _) rfl rfl rfl
  | some result =>
    obtain ⟨expiry, hencrypts⟩ := encrypt_some hencrypt
    have hne : draw.lockId ≠ lockId := hne.resolve_right (by rw [hencrypt]; exact some_ne_none _)
    rw [perform_encrypt_some hencrypt]
    exact .kept (.of_eq (hencrypts.otherMetadata lockId hne)) rfl rfl
      (hencrypts.otherKeys lockId hne)

/-- `extend_ttl`, by the key that is asked for. -/
theorem extendTtl_none (h : engine.live? now lockId = none) :
    engine.extendTtl now lockId additional
      = ({ engine with keyStore := (engine.keyStore.getKey now lockId).1 }, some false) := by
  have hkey := getKey_snd engine now lockId
  rw [h, map_none] at hkey
  unfold extendTtl
  generalize engine.keyStore.getKey now lockId = found at hkey ⊢
  obtain ⟨store, key⟩ := found
  obtain rfl : key = none := hkey
  rfl

theorem extendTtl_some {key : Bytes} {expiry : Instant}
    (h : engine.live? now lockId = some (key, expiry)) :
    engine.extendTtl now lockId additional = match addSeconds expiry additional with
        | none => (engine, none)
        | some newExpiry =>
          (noteExtension { engine with keyStore := engine.keyStore.storeKey lockId key newExpiry }
            lockId newExpiry additional, some true) := by
  have hkey := getKey_snd engine now lockId
  rw [h, map_some] at hkey
  obtain ⟨hstore, -⟩ := KeyStore.getKey_some hkey
  have hexpiry : engine.keyStore.getExpiry lockId = some expiry := by
    rw [KeyStore.getExpiry, show engine.keyStore.keys.get? lockId = _ from (live?_eq_some.mp h).1]
    rfl
  unfold extendTtl
  generalize engine.keyStore.getKey now lockId = found at hkey hstore ⊢
  obtain ⟨store, key'⟩ := found
  dsimp only at hkey hstore
  subst hkey hstore
  dsimp only
  cases hadd : addSeconds expiry additional with
  | none => simp only [hexpiry, hadd]
  | some newExpiry => simp only [hexpiry, hadd]

theorem key?_noteExtension {expiry : Instant} (lockId' : Str) :
    (engine.noteExtension lockId expiry additional).key? lockId' = engine.key? lockId' := by
  unfold noteExtension
  split <;> rfl

theorem sameMark_noteExtension (engine : TimeLockEngine) (expiry : Instant) (additional : ℤ)
    (lockId lockId' : Str) :
    SameMark engine (engine.noteExtension lockId expiry additional) lockId' := by
  intro metadata hmetadata
  by_cases hsame : lockId = lockId'
  · subst hsame
    rw [noteExtension, hmetadata]
    exact ⟨_, Dict.get?_set_self _ _ _, .rfl⟩
  · unfold noteExtension
    split
    · exact ⟨metadata, hmetadata, .rfl⟩
    · exact ⟨metadata, (Dict.get?_set_of_ne _ _ hsame).trans hmetadata, .rfl⟩

theorem effect_extendTtl (lockId' : Str) (additional : ℤ) (lockId : Str) :
    Effect now engine (engine.extendTtl now lockId' additional).1 lockId
      ⟨now, .extendTtl lockId' additional, .extended (engine.extendTtl now lockId' additional).2⟩ := by
  cases hlive : engine.live? now lockId' with
  | none =>
    rw [extendTtl_none hlive]
    exact effect_of_look (.of_eq rfl) rfl rfl (key?_getKey engine now lockId' lockId)
  | some entry =>
    obtain ⟨key, expiry⟩ := entry
    rw [extendTtl_some hlive]
    cases hadd : addSeconds expiry additional with
    | none => exact .kept (.refl _ _) rfl rfl rfl
    | some newExpiry =>
      dsimp only
      have hmark := sameMark_noteExtension
        { engine with keyStore := engine.keyStore.storeKey lockId' key newExpiry } newExpiry
        additional lockId' lockId
      by_cases hsame : lockId' = lockId
      · subst hsame
        have hkey : (noteExtension
            { engine with keyStore := engine.keyStore.storeKey lockId' key newExpiry } lockId'
            newExpiry additional).key? lockId' = some (key, newExpiry) := by
          rw [key?_noteExtension]
          exact Dict.get?_set_self _ _ _
        refine .extended hmark rfl (live?_eq_some.mp hlive).1 (live?_eq_some.mp hlive).2 ?_ hkey
        rw [Record.extension]
        dsimp only
        rw [if_pos rfl]
        exact addSeconds_eq_some.mp hadd
      · refine .kept hmark rfl (if_neg hsame) ?_
        rw [key?_noteExtension]
        exact Dict.get?_set_of_ne _ _ hsame

/-- **Every operation** has one of these effects on a lock that it does not create. -/
theorem effect_perform (op : Op) (lockId : Str)
    (hne : ∀ draw content ttlSeconds, op = .encrypt draw content ttlSeconds →
      draw.lockId ≠ lockId ∨ engine.encrypt aes draw now content ttlSeconds = none) :
    Effect now engine (engine.perform aes now op).1 lockId
      ⟨now, op, (engine.perform aes now op).2⟩ := by
  cases op with
  | encrypt draw content ttlSeconds => exact effect_encrypt (hne _ _ _ rfl)
  | decrypt encrypted => exact effect_decrypt encrypted lockId
  | destroy lockId' => exact effect_destroy lockId' lockId
  | extendTtl lockId' additional => exact effect_extendTtl lockId' additional lockId
  | getStatus lockId' => exact effect_getStatus lockId' lockId
  | cleanup => exact effect_cleanup lockId

end TimeLockEngine

open TimeLockEngine

/-! ## The invariant -/

/-- The engine keeps a lock as the records say: its key, with the deadline, unless the
lock was destroyed or its deadline was over at some operation. -/
structure Tracks (journal : Journal) (created : Instant) (draw : LockDraw) (ttlSeconds : ℤ) :
    Prop where
  mark : ∃ metadata, journal.engine.metadataStore.get? draw.lockId = some metadata ∧
    (metadata.status = TimeLockStatus.name .destroyed ↔
      destroyed journal.records draw.lockId = true)
  key : ∀ entry, journal.engine.key? draw.lockId = some entry → entry.1 = draw.key ∧
    (entry.2.1 : ℤ) = deadline journal.records draw.lockId created ttlSeconds ∧
    destroyed journal.records draw.lockId = false
  gone : journal.engine.key? draw.lockId = none → destroyed journal.records draw.lockId = true ∨
    deadline journal.records draw.lockId created ttlSeconds < journal.clock

section

variable {aes : AesGcm} {journal : Journal} {created : Instant} {draw : LockDraw} {ttlSeconds : ℤ}

variable {t : Instant} {event : Instant × Op} {content lockId : Str} {encrypted : EncryptedContent}
  {events : List (Instant × Op)}

section

variable (h : Tracks journal created draw ttlSeconds)
include h

/-- The condition is what the engine looks at. -/
theorem Tracks.holds_iff (ht : journal.clock ≤ t.1) :
    Holds journal.records draw.lockId created ttlSeconds t ↔
      ∃ expiry, journal.engine.live? t draw.lockId = some (draw.key, expiry) := by
  constructor
  · rintro ⟨halive, hdeadline⟩
    cases hkey : journal.engine.key? draw.lockId with
    | none =>
      rcases h.gone hkey with hdestroyed | hlate
      · cases halive.symm.trans hdestroyed
      · omega
    | some entry =>
      obtain ⟨hsame, hexpiry, -⟩ := h.key entry hkey
      refine ⟨entry.2, live?_eq_some.mpr ⟨?_, ?_⟩⟩
      · rw [hkey, ← hsame]
      · dsimp only
        omega
  · rintro ⟨expiry, hlive⟩
    obtain ⟨hkey, hnow⟩ := live?_eq_some.mp hlive
    obtain ⟨-, hexpiry, halive⟩ := h.key _ hkey
    dsimp only at hnow hexpiry
    exact ⟨halive, by omega⟩

/-- **One operation keeps track** of a lock that it does not create. -/
theorem Tracks.step (htime : journal.clock ≤ event.1.1)
    (hne : ∀ draw' content ttlSeconds', event.2 = .encrypt draw' content ttlSeconds' →
      draw'.lockId ≠ draw.lockId) : Tracks (journal.step aes event) created draw ttlSeconds := by
  obtain ⟨metadata, hmetadata, hstatus⟩ := h.mark
  have heffect : Effect event.1 journal.engine (journal.step aes event).engine draw.lockId
      ⟨event.1, event.2, (journal.engine.perform aes event.1 event.2).2⟩ :=
    effect_perform event.2 draw.lockId fun _ _ _ hop => .inl (hne _ _ _ hop)
  have hdestroyed : destroyed (journal.step aes event).records draw.lockId = _ :=
    destroyed_append journal.records _ draw.lockId
  have hdeadline : deadline (journal.step aes event).records draw.lockId created ttlSeconds = _ :=
    deadline_append journal.records _ draw.lockId created ttlSeconds
  have hclock := journal.clock_step aes event
  cases heffect with
  | kept hmark hdestroys hextension hkey =>
    rw [hdestroys, Bool.or_false] at hdestroyed
    rw [hextension, zero_mul, add_zero] at hdeadline
    obtain ⟨metadata', hmetadata', hsame⟩ := hmark metadata hmetadata
    refine ⟨⟨metadata', hmetadata', hdestroyed ▸ hsame.trans hstatus⟩, fun entry hentry => ?_,
      fun hnone => ?_⟩
    · rw [hdestroyed, hdeadline]
      exact h.key entry (hkey ▸ hentry)
    · rw [hdestroyed, hdeadline, hclock]
      refine (h.gone (hkey ▸ hnone)).imp_right fun hlate => ?_
      omega
  | lapsed hmark hdestroys hextension hkey hlate =>
    rw [hdestroys, Bool.or_false] at hdestroyed
    rw [hextension, zero_mul, add_zero] at hdeadline
    obtain ⟨metadata', hmetadata', hsame⟩ := hmark metadata hmetadata
    refine ⟨⟨metadata', hmetadata', hdestroyed ▸ hsame.trans hstatus⟩, fun entry hentry => ?_,
      fun _ => ?_⟩
    · cases hkey.symm.trans hentry
    · rw [hdestroyed, hdeadline, hclock]
      cases hold : journal.engine.key? draw.lockId with
      | none =>
        refine (h.gone hold).imp_right fun hlate => ?_
        omega
      | some entry =>
        obtain ⟨-, hexpiry, -⟩ := h.key entry hold
        have hover := hlate entry hold
        exact .inr (by omega)
  | destroyed hold hmark hdestroys hextension hkey =>
    rw [hdestroys, Bool.or_true] at hdestroyed
    obtain ⟨metadata', hmetadata', hsame⟩ := hmark metadata hmetadata
    refine ⟨⟨metadata', hmetadata', iff_of_true hsame hdestroyed⟩, fun entry hentry => ?_,
      fun _ => .inl hdestroyed⟩
    cases hkey.symm.trans hentry
  | extended hmark hdestroys hkey hnow hexpiry hkey' =>
    rw [hdestroys, Bool.or_false] at hdestroyed
    obtain ⟨metadata', hmetadata', hsame⟩ := hmark metadata hmetadata
    obtain ⟨hdraw, hold, halive⟩ := h.key _ hkey
    refine ⟨⟨metadata', hmetadata', hdestroyed ▸ hsame.trans hstatus⟩, fun entry hentry => ?_,
      fun hnone => ?_⟩
    · obtain rfl := Option.mem_unique hkey' hentry
      rw [hdestroyed, hdeadline, ← hold, hexpiry]
      exact ⟨hdraw, rfl, halive⟩
    · cases hkey'.symm.trans hnone

theorem Tracks.known : journal.engine.Known draw.lockId := by
  obtain ⟨metadata, hmetadata, -⟩ := h.mark
  rw [Known, hmetadata, isSome_some]

end

/-- Nothing is there of a lock that was never created. -/
structure Untouched (journal : Journal) (lockId : Str) : Prop where
  key : journal.engine.key? lockId = none
  alive : destroyed journal.records lockId = false
  extension : (journal.records.map (Record.extension lockId)).sum = 0

/-- A lock that is created is tracked. -/
theorem tracks_of_encrypt {engine' : TimeLockEngine} (h : Untouched journal draw.lockId)
    (hencrypt : journal.engine.encrypt aes draw created content ttlSeconds
      = some (engine', encrypted)) :
    Tracks (journal.step aes (created, .encrypt draw content ttlSeconds)) created draw
      ttlSeconds := by
  obtain ⟨expiry, hencrypts⟩ := encrypt_some hencrypt
  have hperform := perform_encrypt_some hencrypt
  have hdestroyed : destroyed (journal.step aes (created, .encrypt draw content ttlSeconds)).records
      draw.lockId = false := by
    rw [Journal.step, destroyed_append, h.alive, hperform]
    rfl
  have hdeadline : deadline (journal.step aes (created, .encrypt draw content ttlSeconds)).records
      draw.lockId created ttlSeconds = expiry.1 := by
    rw [Journal.step, deadline_append, hperform, deadline, h.extension,
      addSeconds_eq_some.mp hencrypts.expires]
    show _ + (0 : ℤ) * 1000000 = _
    ring
  have hengine : (journal.step aes (created, .encrypt draw content ttlSeconds)).engine = engine' := by
    rw [Journal.step, hperform]
  refine ⟨?_, fun entry hentry => ?_, fun hnone => ?_⟩
  · rw [hengine, hdestroyed]
    refine ⟨_, hencrypts.metadata, ?_⟩
    rw [hencrypts.active]
    decide
  · rw [hengine, hencrypts.key] at hentry
    obtain rfl := Option.some.inj hentry
    exact ⟨rfl, hdeadline.symm, hdestroyed⟩
  · rw [hengine, hencrypts.key] at hnone
    cases hnone

/-- An operation has an effect on the lock, or creates it. -/
theorem Journal.effect_or_known (aes : AesGcm) (journal : Journal) (event : Instant × Op)
    (lockId : Str) :
    Effect event.1 journal.engine (journal.step aes event).engine lockId
        ⟨event.1, event.2, (journal.engine.perform aes event.1 event.2).2⟩ ∨
      (journal.step aes event).engine.Known lockId := by
  by_cases hne : ∀ draw content ttlSeconds, event.2 = .encrypt draw content ttlSeconds →
      draw.lockId ≠ lockId ∨ journal.engine.encrypt aes draw event.1 content ttlSeconds = none
  · exact .inl (effect_perform event.2 lockId hne)
  · right
    push Not at hne
    obtain ⟨draw, content, ttlSeconds, hop, rfl, hsome⟩ := hne
    obtain ⟨result, hencrypt⟩ := ne_none_iff_exists'.mp hsome
    obtain ⟨expiry, hencrypts⟩ := encrypt_some hencrypt
    rw [Journal.step, hop, perform_encrypt_some hencrypt, Known,
      hencrypts.metadata, isSome_some]

/-- A lock that is still unknown after an operation was not touched by it. -/
theorem Untouched.step (h : Untouched journal lockId)
    (hunknown : ¬ (journal.step aes event).engine.Known lockId) :
    Untouched (journal.step aes event) lockId := by
  have hsum : ((journal.step aes event).records.map (Record.extension lockId)).sum
      = Record.extension lockId ⟨event.1, event.2, (journal.engine.perform aes event.1 event.2).2⟩ := by
    rw [Journal.step, map_append, sum_append, h.extension, zero_add, map_singleton, sum_singleton]
  have hflag : destroyed (journal.step aes event).records lockId
      = Record.destroys lockId ⟨event.1, event.2, (journal.engine.perform aes event.1 event.2).2⟩ := by
    rw [Journal.step, destroyed_append, h.alive, Bool.false_or]
  have heffect := (journal.effect_or_known aes event lockId).resolve_right hunknown
  cases heffect with
  | kept hmark hdestroys hextension hkey =>
    exact ⟨hkey.trans h.key, hflag.trans hdestroys, hsum.trans hextension⟩
  | lapsed hmark hdestroys hextension hkey hlate =>
    exact ⟨hkey, hflag.trans hdestroys, hsum.trans hextension⟩
  | destroyed hold hmark hdestroys hextension hkey =>
    cases h.key.symm.trans hold
  | extended hmark hdestroys hkey hnow hexpiry hkey' =>
    cases h.key.symm.trans hkey

/-- What is known of all locks. -/
structure Journal.Lawful (aes : AesGcm) (journal : Journal) : Prop where
  unknown : ∀ lockId, ¬ journal.engine.Known lockId → Untouched journal lockId
  tracks : ∀ created draw content ttlSeconds encrypted,
    ⟨created, .encrypt draw content ttlSeconds, .encrypted (some encrypted)⟩ ∈ journal.records →
    Tracks journal created draw ttlSeconds ∧ encrypted.metadata.lockId = draw.lockId ∧
      openWith aes draw.key encrypted = some content

theorem Journal.lawful_start (aes : AesGcm) : Journal.start.Lawful aes where
  unknown _ _ := ⟨rfl, rfl, rfl⟩
  tracks _ _ _ _ _ h := by cases h

/-- A lock that is known stays known. -/
theorem Journal.known_step (h : journal.engine.Known lockId) (event : Instant × Op) :
    (journal.step aes event).engine.Known lockId := by
  obtain ⟨metadata, hmetadata⟩ := isSome_iff_exists.mp h
  rcases journal.effect_or_known aes event lockId with heffect | hknown
  · cases heffect with
    | kept hmark | lapsed hmark | destroyed _ hmark | extended hmark =>
      obtain ⟨metadata', hmetadata', -⟩ := hmark metadata hmetadata
      rw [Known, hmetadata', isSome_some]
  · exact hknown

/-- **One operation keeps the law.** -/
theorem Journal.Lawful.step (h : journal.Lawful aes) (hadmits : journal.Admits event) :
    (journal.step aes event).Lawful aes := by
  refine ⟨fun lockId hunknown => ?_, fun created draw content ttlSeconds encrypted hmem => ?_⟩
  · exact (h.unknown lockId fun hknown => hunknown (Journal.known_step hknown event)).step hunknown
  · rcases mem_append.mp hmem with hold | hnew
    · obtain ⟨htracks, hlockId, hopens⟩ := h.tracks created draw content ttlSeconds encrypted hold
      refine ⟨htracks.step hadmits.1 fun draw' content' ttlSeconds' hop hsame => ?_, hlockId, hopens⟩
      have hfresh := hadmits.2
      rw [hop] at hfresh
      exact hfresh (hsame ▸ htracks.known)
    · obtain ⟨now, op⟩ := event
      obtain ⟨rfl, rfl, hresult⟩ := Record.mk.inj (mem_singleton.mp hnew)
      cases hencrypt : journal.engine.encrypt aes draw created content ttlSeconds with
      | none =>
        rw [perform_encrypt_none hencrypt] at hresult
        cases hresult
      | some result =>
        rw [perform_encrypt_some hencrypt] at hresult
        obtain rfl := Option.some.inj (Result.encrypted.inj hresult)
        obtain ⟨expiry, hencrypts⟩ := encrypt_some hencrypt
        exact ⟨tracks_of_encrypt (h.unknown draw.lockId hadmits.2) hencrypt, hencrypts.lockId,
          hencrypts.opens⟩

theorem Journal.Lawful.run (h : journal.Lawful aes)
    (hevents : Along (Journal.step aes) Journal.Admits journal events) :
    (journal.run aes events).Lawful aes :=
  along_foldl (fun _ _ hlawful hadmits => hlawful.step hadmits) h hevents

/-! ## The law -/

/-- The encrypted content of one lock: as it was returned, or a copy of it, with metadata
that may have changed otherwise. -/
structure SameLock (copy encrypted : EncryptedContent) : Prop where
  ciphertext : copy.ciphertext = encrypted.ciphertext
  nonce : copy.nonce = encrypted.nonce
  lockId : copy.metadata.lockId = encrypted.metadata.lockId
  contentHash : copy.metadata.contentHash = encrypted.metadata.contentHash

theorem SameLock.openWith_eq {copy : EncryptedContent} (h : SameLock copy encrypted) (key : Bytes) :
    openWith aes key copy = openWith aes key encrypted := by
  rw [openWith, openWith, h.ciphertext, h.nonce, h.contentHash]

section

variable (h : Tracks journal created draw ttlSeconds)
include h

section

variable (ht : journal.clock ≤ t.1)
include ht

theorem Tracks.live?_eq_none
    (hover : ¬ Holds journal.records draw.lockId created ttlSeconds t) :
    journal.engine.live? t draw.lockId = none := by
  cases hlive : journal.engine.live? t draw.lockId with
  | none => rfl
  | some entry =>
    obtain ⟨hsame, -⟩ := h.key entry (live?_eq_some.mp hlive).1
    refine absurd ((h.holds_iff ht).mpr ⟨entry.2, ?_⟩) hover
    rw [hlive, ← hsame]

/-- Decryption returns the content exactly if the lock holds. -/
theorem Tracks.decrypt_eq {copy : EncryptedContent}
    (hlockId : encrypted.metadata.lockId = draw.lockId)
    (hopens : openWith aes draw.key encrypted = some content)
    (hcopy : SameLock copy encrypted) :
    (journal.engine.decrypt aes t copy).2
      = if Holds journal.records draw.lockId created ttlSeconds t then some content else none := by
  have hid : copy.metadata.lockId = draw.lockId := hcopy.lockId.trans hlockId
  split
  · next hholds =>
      obtain ⟨expiry, hlive⟩ := (h.holds_iff ht).mp hholds
      obtain ⟨hkey, hnow⟩ := live?_eq_some.mp hlive
      rw [decrypt_of_key (hid.symm ▸ hkey) hnow, hcopy.openWith_eq, hopens]
  · next hover =>
      cases hcontent : (journal.engine.decrypt aes t copy).2 with
      | none => rfl
      | some content =>
        obtain ⟨key, expiry, hkey, hnow, -⟩ := decrypt_some hcontent
        have hlive := live?_eq_some.mpr ⟨hid ▸ hkey, hnow⟩
        rw [h.live?_eq_none ht hover] at hlive
        cases hlive

/-- A lock is reported active exactly if it holds. -/
theorem Tracks.getStatus_iff :
    (journal.engine.getStatus t draw.lockId).2 = .active ↔
      Holds journal.records draw.lockId created ttlSeconds t := by
  constructor
  · intro hactive
    obtain ⟨-, key, expiry, hkey, hnow⟩ := getStatus_active hactive
    by_contra hover
    have hlive := live?_eq_some.mpr ⟨hkey, hnow⟩
    rw [h.live?_eq_none ht hover] at hlive
    cases hlive
  · intro hholds
    obtain ⟨expiry, hlive⟩ := (h.holds_iff ht).mp hholds
    obtain ⟨metadata, hmetadata, hstatus⟩ := h.mark
    have halive : ¬ metadata.status = TimeLockStatus.name .destroyed := by
      rw [hstatus, hholds.1]
      exact Bool.false_ne_true
    have hkey := getKey_snd journal.engine t draw.lockId
    rw [hlive, map_some] at hkey
    unfold getStatus
    rw [hmetadata]
    dsimp only
    rw [if_neg halive]
    generalize journal.engine.keyStore.getKey t draw.lockId = found at hkey ⊢
    obtain ⟨store, key⟩ := found
    obtain rfl : key = some draw.key := hkey
    rfl

/-- An extension succeeds exactly if the lock holds. -/
theorem Tracks.extendTtl_iff {additional : ℤ} {expiry' : Instant}
    (hrange : (expiry'.1 : ℤ)
      = deadline journal.records draw.lockId created ttlSeconds + additional * 1000000) :
    (journal.engine.extendTtl t draw.lockId additional).2 = some true ↔
      Holds journal.records draw.lockId created ttlSeconds t := by
  constructor
  · intro hextended
    by_contra hover
    rw [extendTtl_none (h.live?_eq_none ht hover)] at hextended
    cases hextended
  · intro hholds
    obtain ⟨expiry, hlive⟩ := (h.holds_iff ht).mp hholds
    obtain ⟨-, hexpiry, -⟩ := h.key _ (live?_eq_some.mp hlive).1
    dsimp only at hexpiry
    have hadd : addSeconds expiry additional = some expiry' :=
      addSeconds_eq_some.mpr (by rw [hrange, hexpiry])
    rw [extendTtl_some hlive, hadd]

end

/-- A condition that has failed is not restored by an operation. -/
theorem Tracks.not_holds_step (htime : journal.clock ≤ event.1.1)
    (hover : ¬ Holds journal.records draw.lockId created ttlSeconds event.1)
    (hne : ∀ draw' content ttlSeconds', event.2 = .encrypt draw' content ttlSeconds' →
      draw'.lockId ≠ draw.lockId) :
    ¬ Holds (journal.step aes event).records draw.lockId created ttlSeconds event.1 := by
  have htracks : Tracks (journal.step aes event) created draw ttlSeconds := h.step htime hne
  have hclock : (journal.step aes event).clock ≤ event.1.1 := le_of_eq (journal.clock_step aes event)
  have heffect : Effect event.1 journal.engine (journal.step aes event).engine draw.lockId _ :=
    effect_perform event.2 draw.lockId fun _ _ _ hop => .inl (hne _ _ _ hop)
  have hnone := h.live?_eq_none htime hover
  rw [htracks.holds_iff hclock]
  rintro ⟨expiry, hlive⟩
  obtain ⟨hlater, hnow⟩ := live?_eq_some.mp hlive
  cases heffect with
  | kept hmark hdestroys hextension hkey =>
    rw [live?_eq_some.mpr ⟨hkey ▸ hlater, hnow⟩] at hnone
    cases hnone
  | lapsed hmark hdestroys hextension hkey hlate =>
    cases hkey.symm.trans hlater
  | destroyed hold hmark hdestroys hextension hkey =>
    cases hkey.symm.trans hlater
  | extended hmark hdestroys hkey hnow' hexpiry hkey' =>
    rw [live?_eq_some.mpr ⟨hkey, hnow'⟩] at hnone
    cases hnone

end

theorem Holds.antitone {records : List Record} {t' : Instant}
    (h : Holds records lockId created ttlSeconds t') (hle : t.1 ≤ t'.1) :
    Holds records lockId created ttlSeconds t :=
  ⟨h.1, (Int.ofNat_le.mpr hle).trans h.2⟩

section

variable (hevents : Along (Journal.step aes) Journal.Admits journal events)
include hevents

theorem Journal.clock_le_of_mem : ∀ event ∈ events, journal.clock ≤ event.1.1 := by
  induction events generalizing journal with
  | nil => exact fun _ hmem => by cases hmem
  | cons first events ih =>
    intro event hmem
    rcases mem_cons.mp hmem with rfl | hmem
    · exact hevents.1.1
    · have hlater := ih hevents.2 event hmem
      rw [Journal.clock_step] at hlater
      exact hevents.1.1.trans hlater

theorem Journal.clock_le_run : journal.clock ≤ (journal.run aes events).clock := by
  induction events generalizing journal with
  | nil => exact le_rfl
  | cons event events ih =>
    calc journal.clock ≤ event.1.1 := hevents.1.1
      _ = (journal.step aes event).clock := (journal.clock_step aes event).symm
      _ ≤ (journal.run aes (event :: events)).clock := ih hevents.2

end

/-- **Once the condition fails it fails for good.** -/
theorem Journal.Lawful.not_holds_run (h : journal.Lawful aes)
    (hmem : ⟨created, .encrypt draw content ttlSeconds, .encrypted (some encrypted)⟩ ∈ journal.records)
    (hover : ¬ Holds journal.records draw.lockId created ttlSeconds t)
    (hevents : Along (Journal.step aes) Journal.Admits journal events)
    (hlate : ∀ event ∈ events, t.1 ≤ event.1.1) {t' : Instant} (hle : t.1 ≤ t'.1)
    (ht' : (journal.run aes events).clock ≤ t'.1) :
    ¬ Holds (journal.run aes events).records draw.lockId created ttlSeconds t' := by
  induction events generalizing journal t with
  | nil => exact fun hholds => hover (hholds.antitone hle)
  | cons event events ih =>
    obtain ⟨hadmits, hrest⟩ := hevents
    obtain ⟨htracks, -⟩ := h.tracks _ _ _ _ _ hmem
    have hnow := hlate event mem_cons_self
    have hstep : ¬ Holds (journal.step aes event).records draw.lockId created ttlSeconds event.1 := by
      refine htracks.not_holds_step hadmits.1 (fun hholds => hover (hholds.antitone hnow)) ?_
      intro draw' content' ttlSeconds' hop hsame
      have hfresh := hadmits.2
      rw [hop] at hfresh
      exact hfresh (hsame ▸ htracks.known)
    have hclock := journal.clock_step aes event
    refine ih (h.step hadmits) (mem_append_left _ hmem) hstep hrest (fun event' hevent => ?_) ?_ ht'
    · exact hclock ▸ Journal.clock_le_of_mem hrest event' hevent
    · exact (hclock ▸ Journal.clock_le_run hrest).trans ht'

/-- What is true of a lock at a time. -/
structure ObeysLaw (aes : AesGcm) (journal : Journal) (created : Instant) (draw : LockDraw)
    (content : Str) (ttlSeconds : ℤ) (encrypted : EncryptedContent) (t : Instant) : Prop where
  /-- Decryption returns the content if the lock holds, and nothing otherwise. -/
  decrypt : ∀ copy, SameLock copy encrypted → (journal.engine.decrypt aes t copy).2
    = if Holds journal.records draw.lockId created ttlSeconds t then some content else none
  /-- The lock is reported active if it holds, and only then. -/
  status : (journal.engine.getStatus t draw.lockId).2 = .active ↔
    Holds journal.records draw.lockId created ttlSeconds t
  /-- An extension to a deadline within range succeeds if the lock holds, and only then. -/
  extension : ∀ additional, ∀ expiry' : Instant, (expiry'.1 : ℤ)
      = deadline journal.records draw.lockId created ttlSeconds + additional * 1000000 →
    ((journal.engine.extendTtl t draw.lockId additional).2 = some true ↔
      Holds journal.records draw.lockId created ttlSeconds t)
  /-- A lock that does not hold will not hold again. -/
  forGood : ¬ Holds journal.records draw.lockId created ttlSeconds t →
    ∀ later, Along (Journal.step aes) Journal.Admits journal later →
    (∀ event ∈ later, t.1 ≤ event.1.1) → ∀ t' : Instant, t.1 ≤ t'.1 →
    (journal.run aes later).clock ≤ t'.1 →
    ¬ Holds (journal.run aes later).records draw.lockId created ttlSeconds t'

/-- **The law of time-locks.**  After any operations, at times that do not decrease, every
lock that was created obeys the law at every later time. -/
theorem timelock_law (aes : AesGcm) (events : List (Instant × Op))
    (hevents : Along (Journal.step aes) Journal.Admits Journal.start events) {created : Instant}
    {draw : LockDraw} {content : Str} {ttlSeconds : ℤ} {encrypted : EncryptedContent}
    (hmem : ⟨created, .encrypt draw content ttlSeconds, .encrypted (some encrypted)⟩ ∈
      (Journal.start.run aes events).records)
    {t : Instant} (ht : (Journal.start.run aes events).clock ≤ t.1) :
    ObeysLaw aes (Journal.start.run aes events) created draw content ttlSeconds encrypted t := by
  have hlawful := (Journal.lawful_start aes).run hevents
  obtain ⟨htracks, hlockId, hopens⟩ := hlawful.tracks _ _ _ _ _ hmem
  exact
    { decrypt := fun copy hcopy => htracks.decrypt_eq ht hlockId hopens hcopy
      status := htracks.getStatus_iff ht
      extension := fun additional expiry' hrange => htracks.extendTtl_iff ht hrange
      forGood := fun hover later hlater hlate t' hle ht' =>
        hlawful.not_holds_run hmem hover hlater hlate hle ht' }

end

/-! ### An example -/

instance neZero_thousand : NeZero 1000 := ⟨by decide⟩

/-- So many seconds after the beginning. -/
def second (n : Fin 1000) : Instant := ⟨n.1 * 1000000, by
  have hmax : datetimeMax = 315537897600000000 := by decide
  omega⟩

/-- The random values of a lock. -/
def oneDraw : LockDraw :=
  ⟨List.replicate 32 'a', List.length_replicate, fixedCoins.aesKey, fixedCoins.aesKey_length, []⟩

/-- A lock of ten seconds, extended by five and then cut by two. -/
def lockAndExtend : List (Instant × Op) :=
  [(second 0, .encrypt oneDraw "hello" 10), (second 8, .extendTtl oneDraw.lockId 5),
    (second 12, .extendTtl oneDraw.lockId (-2)), (second 12, .getStatus oneDraw.lockId)]

/-- What was encrypted. -/
def lockedHello : EncryptedContent :=
  ⟨plainAes.encrypt oneDraw.key oneDraw.nonce (encodeUtf8 "hello"), oneDraw.nonce,
    newMetadata oneDraw (second 0) (second 10) "hello" 10⟩

/-- After ten and five seconds less two the lock ends: it is open at thirteen seconds, and
not at fourteen. -/
theorem timelock_law_example :
    ((Journal.start.run plainAes lockAndExtend).engine.decrypt plainAes (second 13) lockedHello).2
        = some "hello".toList ∧
      ((Journal.start.run plainAes lockAndExtend).engine.decrypt plainAes (second 14) lockedHello).2
        = none := by
  have hevents : Along (.step plainAes) Journal.Admits .start lockAndExtend := by
    decide
  have hmem : ⟨second 0, .encrypt oneDraw "hello" 10, .encrypted (some lockedHello)⟩ ∈
      (Journal.start.run plainAes lockAndExtend).records := mem_cons_self
  have hlater : ∀ n, 12 ≤ n → n ≤ 14 →
      (Journal.start.run plainAes lockAndExtend).clock ≤ (second n).1 := by decide +kernel
  rw [(timelock_law plainAes lockAndExtend hevents hmem (hlater 13 (by decide) (by decide))).decrypt
      lockedHello ⟨rfl, rfl, rfl, rfl⟩,
    (timelock_law plainAes lockAndExtend hevents hmem (hlater 14 (by decide) (by decide))).decrypt
      lockedHello ⟨rfl, rfl, rfl, rfl⟩]
  decide

end TrustFlow.TimeLock
