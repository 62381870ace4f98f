import TrustFlow.Library.Routine
import TrustFlow.TimeLock.Law

/-!
# Destroying a lock while others use it

The operations of the engine in many threads.  Each access to the key store is one step,
as its lock makes it, and so is each access to the metadata.

* `StoreCall`, `execStore` — the steps.
* `Task`, `routine` — the operations, as routines of steps.  By itself a task does what
  the operation does (`complete_routine`).
* `Undisturbed` — no key is destroyed while an extension of its lock is about to store it
  again.
* `destroyed_for_good` — then a lock that was destroyed is not decrypted any more.
* `extension_revives` — otherwise it may be: `extend_ttl` reads the key, and stores it
  after the lock was destroyed.
-/

namespace TrustFlow.TimeLock

open Library SecretSharing List TimeLockEngine

/-! ## Steps -/

/-- A step: an operation of the key store, or an update of the metadata. -/
inductive StoreCall where
  | getKey (lockId : Str)
  | getExpiry (lockId : Str)
  | storeKey (lockId : Str) (key : Bytes) (expiry : Instant)
  | destroyKey (lockId : Str)
  | cleanupExpired
  | markExpired (lockId : Str)
  | markDestroyed (lockId : Str)
  | noteExtension (lockId : Str) (expiry : Instant) (additional : ℤ)

/-- What a step returns. -/
@[reducible] def StoreCall.Answer : StoreCall → Type
  | .getKey _ => Option Bytes
  | .getExpiry _ => Option Instant
  | .destroyKey _ => Bool
  | .storeKey _ _ _ | .cleanupExpired | .markExpired _ | .markDestroyed _ | .noteExtension _ _ _ => Unit

/-- The engine that the threads share. -/
structure Shared where
  engine : TimeLockEngine

/-- Nothing is assumed to grow. -/
instance : Preorder Shared where
  le _ _ := True
  le_refl _ := trivial
  le_trans _ _ _ _ _ := trivial
  lt _ _ := False
  lt_iff_le_not_ge _ _ := ⟨False.elim, fun h => h.2 trivial⟩

/-- The effect of a step, at a time. -/
def execStore : (call : StoreCall) → Instant → Shared → Shared × call.Answer
  | .getKey lockId, now, ⟨engine⟩ =>
    (⟨{ engine with keyStore := (engine.keyStore.getKey now lockId).1 }⟩,
      (engine.keyStore.getKey now lockId).2)
  | .getExpiry lockId, _, ⟨engine⟩ => (⟨engine⟩, engine.keyStore.getExpiry lockId)
  | .storeKey lockId key expiry, _, ⟨engine⟩ =>
    (⟨{ engine with keyStore := engine.keyStore.storeKey lockId key expiry }⟩, ())
  | .destroyKey lockId, _, ⟨engine⟩ =>
    (⟨{ engine with keyStore := (engine.keyStore.destroyKey lockId).1 }⟩,
      (engine.keyStore.destroyKey lockId).2)
  | .cleanupExpired, now, ⟨engine⟩ => (⟨engine.cleanup now⟩, ())
  | .markExpired lockId, _, ⟨engine⟩ =>
    (⟨if engine.isMarkedDestroyed lockId then engine else engine.setStatus lockId .expired⟩, ())
  | .markDestroyed lockId, _, ⟨engine⟩ => (⟨engine.setStatus lockId .destroyed⟩, ())
  | .noteExtension lockId expiry additional, _, ⟨engine⟩ =>
    (⟨engine.noteExtension lockId expiry additional⟩, ())

/-! ## Tasks -/

/-- An operation that a thread performs. -/
inductive Task where
  | decrypt (encrypted : EncryptedContent)
  | destroy (lockId : Str)
  | extendTtl (lockId : Str) (additional : ℤ)
  | cleanup

/-- An operation in progress. -/
abbrev Thread := Routine StoreCall.Answer Empty Result

/-- One step. -/
def access (call : StoreCall) : Routine StoreCall.Answer Empty call.Answer := Routine.ask call

/-- `decrypt`. -/
def decryptSteps (aes : AesGcm) (encrypted : EncryptedContent) : Thread := do
  match ← access (.getKey encrypted.metadata.lockId) with
  | none => do
      access (.markExpired encrypted.metadata.lockId)
      return .content none
  | some key => return .content (TimeLockEngine.openWith aes key encrypted)

variable (lockId : Str)

/-- `destroy`. -/
def destroySteps : Thread := do
  match ← access (.destroyKey lockId) with
  | false => return .destroyed false
  | true => do
      access (.markDestroyed lockId)
      return .destroyed true

/-- `extend_ttl`. -/
def extendSteps (additional : ℤ) : Thread := do
  match ← access (.getKey lockId) with
  | none => return .extended (some false)
  | some key => do
      match ← access (.getExpiry lockId) with
      | none => return .extended (some false)
      | some currentExpiry =>
        match addSeconds currentExpiry additional with
        | none => return .extended none
        | some newExpiry => do
            access (.storeKey lockId key newExpiry)
            access (.noteExtension lockId newExpiry additional)
            return .extended (some true)

/-- The steps of a task. -/
def routine (aes : AesGcm) : Task → Thread
  | .decrypt encrypted => decryptSteps aes encrypted
  | .destroy lockId => destroySteps lockId
  | .extendTtl lockId additional => extendSteps lockId additional
  | .cleanup => do
      access .cleanupExpired
      return .cleaned

/-- The operation of a task. -/
def Task.op : Task → Op
  | .decrypt encrypted => .decrypt encrypted
  | .destroy lockId => .destroy lockId
  | .extendTtl lockId additional => .extendTtl lockId additional
  | .cleanup => .cleanup

section

variable {envs : ℕ → Instant} {s : Shared}

theorem complete_access_bind {α : Type} (call : StoreCall)
    (f : call.Answer → Routine StoreCall.Answer Empty α) :
    (access call >>= f).complete execStore envs s
      = (f (execStore call (envs 0) s).2).complete execStore (fun i => envs (i + 1))
        (execStore call (envs 0) s).1 := rfl

end

/-- **A task by itself** is the operation. -/
theorem complete_routine (aes : AesGcm) (task : Task) (now : Instant) (s : Shared) :
    (routine aes task).complete execStore (fun _ => now) s
      = (⟨(s.engine.perform aes now task.op).1⟩, .ok (s.engine.perform aes now task.op).2) := by
  obtain ⟨engine⟩ := s
  cases task with
  | decrypt encrypted =>
    rw [Task.op, perform, decrypt, routine, decryptSteps, complete_access_bind]
    dsimp only [execStore]
    generalize engine.keyStore.getKey now encrypted.metadata.lockId = found
    obtain ⟨store, key⟩ := found
    cases key with
    | none => rfl
    | some key => rfl
  | destroy lockId =>
    rw [Task.op, perform, destroy, routine, destroySteps, complete_access_bind]
    dsimp only [execStore]
    generalize engine.keyStore.destroyKey lockId = found
    obtain ⟨store, success⟩ := found
    cases success with
    | false => rfl
    | true => rfl
  | extendTtl lockId additional =>
    rw [Task.op, perform, extendTtl, routine, extendSteps, complete_access_bind]
    dsimp only [execStore]
    generalize engine.keyStore.getKey now lockId = found
    obtain ⟨store, key⟩ := found
    cases key with
    | none => rfl
    | some key =>
      dsimp only
      rw [complete_access_bind]
      dsimp only [execStore]
      cases store.getExpiry lockId with
      | none => rfl
      | some currentExpiry =>
        dsimp only
        cases addSeconds currentExpiry additional with
        | none => rfl
        | some newExpiry => rfl
  | cleanup => rfl

/-- The threads of an engine. -/
abbrev Threads := Pool StoreCall.Answer Empty Result Task Instant Shared

/-! ## Storing and destroying -/

/-- The step stores a key of the lock. -/
def StoreCall.stores : StoreCall → Bool
  | .storeKey lockId' _ _ => decide (lockId' = lockId)
  | _ => false

/-- The step destroys the key of the lock. -/
def StoreCall.destroys : StoreCall → Bool
  | .destroyKey lockId' => decide (lockId' = lockId)
  | _ => false

/-- The next step of the thread stores a key of the lock. -/
def aboutToStore : Thread → Bool
  | .call c _ => c.stores lockId
  | .done _ => false

/-- The next step of the thread destroys the key of the lock. -/
def aboutToDestroy : Thread → Bool
  | .call c _ => c.destroys lockId
  | .done _ => false

/-- If the move destroys the key of the lock, no thread is about to store one. -/
def Undisturbed (pool : Threads) : Move Task Instant → Prop
  | .arrive _ => True
  | .resume thread _ =>
    (pool.threads[thread]?.any fun waiting => aboutToDestroy lockId waiting.2) = true →
    (pool.history.state.engine.key? lockId).isSome = true →
    (pool.threads.all fun waiting => !aboutToStore lockId waiting.2) = true

instance (lockId : Str) (pool : Threads) : ∀ move, Decidable (Undisturbed lockId pool move)
  | .arrive _ => isTrue trivial
  | .resume _ _ => inferInstanceAs (Decidable (_ → _))

/-- The key of the lock is gone. -/
def Gone (w : World Task StoreCall Instant Shared Unit) : Prop :=
  w.history.state.engine.key? lockId = none

/-- Any step may be made. -/
abbrev anyStep (_ : StoreCall) (_ : Instant) (_ : Shared) : Prop := True

section

variable {aes : AesGcm} {lockId : Str} {s : Shared} {now : Instant}

variable {c : StoreCall} {r : Thread}

/-- Only storing brings a key back. -/
theorem gone_execStore (h : s.engine.key? lockId = none) (hc : c.stores lockId = false) :
    (execStore c now s).1.engine.key? lockId = none := by
  obtain ⟨engine⟩ := s
  have hloses : ∀ engine', engine.Loses engine' → engine'.key? lockId = none := by
    intro engine' hloses
    cases hkey : engine'.key? lockId with
    | none => rfl
    | some entry =>
      rw [(hloses.kept lockId entry hkey).1] at h
      cases h
  cases c with
  | getKey lockId' => exact hloses _ (engine.loses_getKey now lockId')
  | getExpiry lockId' => exact h
  | storeKey lockId' key expiry =>
    exact (Dict.get?_set_of_ne _ _ (of_decide_eq_false hc)).trans h
  | destroyKey lockId' =>
    refine hloses _ (loses_of_keys fun lockId entry hentry => ?_)
    unfold KeyStore.destroyKey at hentry
    split at hentry
    · exact hentry
    · exact KeyStore.get?_deleteKey hentry
  | cleanupExpired => exact hloses _ (engine.loses_cleanup now)
  | markExpired lockId' =>
    rw [execStore]
    dsimp only
    split
    · exact h
    · rw [key?_setStatus]
      exact h
  | markDestroyed lockId' =>
    rw [execStore, key?_setStatus]
    exact h
  | noteExtension lockId' expiry additional =>
    rw [execStore, key?_noteExtension]
    exact h

variable {Post : History Task StoreCall Instant Shared → Except Empty Result → Prop} {thread : ℕ}
  {task : Task} {w : World Task StoreCall Instant Shared Unit}

/-- A step of a thread while the key is gone. -/
theorem upholds_gone {resume : c.Answer → Thread} (hc : c.stores lockId = false)
    (h : ∀ s now w', s.engine.key? lockId = none →
      Upholds execStore anyStep (Gone lockId) Post thread task (resume (execStore c now s).2) w') :
    Upholds execStore anyStep (Gone lockId) Post thread task (.call c resume) w := by
  intro w' _ hgone now _
  exact ⟨(), gone_execStore hgone hc, ⟨prefix_append _ _, trivial, le_rfl⟩, h _ now _ hgone⟩

variable (lockId) in
/-- The thread does not bring the key back. -/
def Inert (r : Thread) : Prop :=
  ∀ thread task (w : World Task StoreCall Instant Shared Unit),
    Upholds execStore anyStep (Gone lockId) (fun _ _ => True) thread task r w

theorem inert_done (outcome : Except Empty Result) : Inert lockId (.done outcome) :=
  fun _ _ _ _ _ => trivial

theorem Inert.call {resume : c.Answer → Thread} (hc : c.stores lockId = false)
    (h : ∀ s now, s.engine.key? lockId = none → Inert lockId (resume (execStore c now s).2)) :
    Inert lockId (.call c resume) :=
  fun _ _ _ => upholds_gone hc fun s now _ hgone => h s now hgone _ _ _

variable (lockId) in
/-- Between two steps of the thread: it does not bring the key back, unless it is about to
store it, and not after it destroyed it. -/
def Guarded : Thread → Prop
  | .done _ => True
  | .call c resume => (c.stores lockId = false → Inert lockId (.call c resume)) ∧
      (c.destroys lockId = true → ∀ answer, Inert lockId (resume answer)) ∧
      ∀ answer, Guarded (resume answer)

theorem Guarded.inert (h : Guarded lockId r) (hr : aboutToStore lockId r = false) :
    Inert lockId r := by
  cases r with
  | done outcome => exact inert_done outcome
  | call c resume => exact h.1 hr

/-- A thread that never stores the key. -/
theorem inert_of_allCalls (h : r.AllCalls fun c => c.stores lockId = false) : Inert lockId r := by
  induction r with
  | done outcome => exact inert_done outcome
  | call c resume ih => exact Inert.call h.1 fun _ _ _ => ih _ (h.2 _)

theorem guarded_of_allCalls (h : r.AllCalls fun c => c.stores lockId = false) :
    Guarded lockId r := by
  induction r with
  | done outcome => trivial
  | call c resume ih =>
    exact ⟨fun _ => inert_of_allCalls h, fun _ answer => inert_of_allCalls (h.2 answer),
      fun answer => ih answer (h.2 answer)⟩

theorem allCalls_decryptSteps (encrypted : EncryptedContent) :
    (decryptSteps aes encrypted).AllCalls fun c => c.stores lockId = false := by
  refine ⟨rfl, fun answer => ?_⟩
  cases answer with
  | none => exact ⟨rfl, fun _ => trivial⟩
  | some key => trivial

theorem allCalls_destroySteps (lockId' : Str) :
    (destroySteps lockId').AllCalls fun c => c.stores lockId = false := by
  refine ⟨rfl, fun answer => ?_⟩
  cases answer with
  | false => trivial
  | true => exact ⟨rfl, fun _ => trivial⟩

/-- An extension of another lock. -/
theorem allCalls_extendSteps {lockId' : Str} (hother : lockId' ≠ lockId) (additional : ℤ) :
    (extendSteps lockId' additional).AllCalls fun c => c.stores lockId = false := by
  refine ⟨rfl, fun answer => ?_⟩
  cases answer with
  | none => trivial
  | some key =>
    refine ⟨rfl, fun answer => ?_⟩
    cases answer with
    | none => trivial
    | some currentExpiry =>
      dsimp only [Routine.andThen]
      cases addSeconds currentExpiry additional with
      | none => trivial
      | some newExpiry => exact ⟨decide_eq_false hother, fun _ => ⟨rfl, fun _ => trivial⟩⟩

/-- The key of a lock that is gone is not found. -/
theorem getKey_gone (h : s.engine.key? lockId = none) :
    (execStore (.getKey lockId) now s).2 = none := by
  obtain ⟨engine⟩ := s
  calc (engine.keyStore.getKey now lockId).2
      = (engine.live? now lockId).map Prod.fst := engine.getKey_snd now lockId
    _ = none := by rw [live?, h]; rfl

theorem getExpiry_gone (h : s.engine.key? lockId = none) :
    (execStore (.getExpiry lockId) now s).2 = none := by
  obtain ⟨engine⟩ := s
  exact congrArg (Option.map Prod.snd) h

/-- An extension of the lock stops at both of its reads, if the key is gone. -/
theorem guarded_extendSteps (additional : ℤ) : Guarded lockId (extendSteps lockId additional) := by
  refine ⟨fun _ => Inert.call rfl fun s now hgone => ?_, (fun h => by cases h), fun answer => ?_⟩
  · rw [getKey_gone hgone]
    exact inert_done _
  cases answer with
  | none => trivial
  | some key =>
    refine ⟨fun _ => Inert.call rfl fun s now hgone => ?_, (fun h => by cases h), fun answer => ?_⟩
    · rw [getExpiry_gone hgone]
      exact inert_done _
    cases answer with
    | none => trivial
    | some currentExpiry =>
      dsimp only [Routine.andThen]
      cases addSeconds currentExpiry additional with
      | none => trivial
      | some newExpiry =>
        refine ⟨fun h => ?_, (fun h => by cases h), fun _ => ?_⟩
        · cases (decide_eq_true rfl).symm.trans h
        · exact guarded_of_allCalls ⟨rfl, fun _ => trivial⟩

theorem guarded_routine (task : Task) : Guarded lockId (routine aes task) := by
  cases task with
  | decrypt encrypted => exact guarded_of_allCalls (allCalls_decryptSteps encrypted)
  | destroy lockId' => exact guarded_of_allCalls (allCalls_destroySteps lockId')
  | extendTtl lockId' additional =>
    by_cases hsame : lockId' = lockId
    · subst hsame
      exact guarded_extendSteps additional
    · exact guarded_of_allCalls (allCalls_extendSteps hsame additional)
  | cleanup => exact guarded_of_allCalls ⟨rfl, fun _ => trivial⟩

/-- No task stores a key in its first step. -/
theorem inert_routine (task : Task) : Inert lockId (routine aes task) := by
  refine (guarded_routine task).inert ?_
  cases task with
  | decrypt _ | destroy _ | extendTtl _ _ | cleanup => rfl

/-! ## All threads -/

variable {pool : Threads}

/-- The step that was made destroyed the key. -/
def Destroys (lockId : Str) (entry : Entry Task StoreCall Instant Shared) : Prop :=
  entry.call.destroys lockId = true ∧ (entry.state.engine.key? lockId).isSome = true

/-- Once the key was destroyed it is gone, and no thread brings it back. -/
structure Safe (lockId : Str) (pool : Threads) : Prop where
  guarded : ∀ waiting ∈ pool.threads, Guarded lockId waiting.2
  gone : (∃ entry ∈ pool.history.past, Destroys lockId entry) →
    Sound execStore anyStep (Gone lockId) (fun _ _ _ _ => True) pool

theorem safe_start (s : Shared) : Safe lockId (Pool.start s) where
  guarded _ hwaiting := by cases hwaiting
  gone := fun ⟨_, hentry, _⟩ => by cases hentry

theorem admitted_anyStep (move : Move Task Instant) : pool.Admitted anyStep move := by
  cases move with
  | arrive task => trivial
  | resume thread now =>
    unfold Pool.Admitted
    dsimp only
    split <;> trivial

variable (aes) in
theorem along_anyStep (moves : List (Move Task Instant)) :
    Along (Pool.step execStore (routine aes)) (Pool.Admitted anyStep) pool moves := by
  induction moves generalizing pool with
  | nil => trivial
  | cons move moves ih => exact ⟨admitted_anyStep move, ih⟩

/-- Destroying the key removes it. -/
theorem gone_of_destroys (h : c.destroys lockId = true) :
    (execStore c now s).1.engine.key? lockId = none := by
  obtain ⟨engine⟩ := s
  cases c with
  | destroyKey lockId' =>
    obtain rfl := of_decide_eq_true h
    change (engine.keyStore.destroyKey lockId').1.keys.get? lockId' = none
    unfold KeyStore.destroyKey
    split
    case h_1 hnone => exact hnone
    case h_2 => exact (Dict.get?_erase _ _ _).trans (if_pos rfl)
  | getKey _ | getExpiry _ | storeKey _ _ _ | cleanupExpired | markExpired _ | markDestroyed _
    | noteExtension _ _ _ => cases h

/-- **One move** leaves the pool safe. -/
theorem Safe.step (h : Safe lockId pool) {move : Move Task Instant}
    (hmove : Undisturbed lockId pool move) :
    Safe lockId (pool.step execStore (routine aes) move) := by
  have hsound : (∃ entry ∈ pool.history.past, Destroys lockId entry) →
      Sound execStore anyStep (Gone lockId) (fun _ _ _ _ => True)
        (pool.step execStore (routine aes) move) := by
    intro hentry
    exact (h.gone hentry).step (fun thread task w _ => inert_routine task thread task w)
      (admitted_anyStep move)
  cases move with
  | arrive task =>
    refine ⟨fun waiting hwaiting => ?_, hsound⟩
    rcases mem_append.mp hwaiting with hwaiting | hwaiting
    · exact h.guarded waiting hwaiting
    · rw [mem_singleton.mp hwaiting]
      exact guarded_routine task
  | resume thread now =>
    rw [Pool.step] at hsound ⊢
    rw [Undisturbed] at hmove
    cases hget : pool.threads[thread]? with
    | none => exact h
    | some waiting =>
      obtain ⟨task, r⟩ := waiting
      cases r with
      | done outcome => exact h
      | call c resume =>
        rw [hget] at hsound hmove
        dsimp only at hsound ⊢
        obtain ⟨-, hafter, hresume⟩ := h.guarded _ (mem_of_getElem? hget)
        refine ⟨fun waiting hwaiting => ?_, fun hdestroyed => ?_⟩
        · rcases mem_or_eq_of_mem_set hwaiting with hwaiting | rfl
          · exact h.guarded waiting hwaiting
          · exact hresume _
        obtain ⟨entry, hentry, hdestroys⟩ := hdestroyed
        rcases mem_append.mp hentry with hentry | hentry
        · exact hsound ⟨entry, hentry, hdestroys⟩
        -- The key is destroyed now: whoever else is waiting does not store it next.
        obtain rfl := mem_singleton.mp hentry
        have hwaits := all_eq_true.mp (hmove hdestroys.1 hdestroys.2)
        refine ⟨(), gone_of_destroys hdestroys.1, fun thread' task' r' hget' => ?_⟩
        rcases mem_or_eq_of_mem_set (mem_of_getElem? hget') with hwaiting | heq
        · have hquiet : aboutToStore lockId r' = false := by
            simpa using hwaits _ hwaiting
          exact (h.guarded _ hwaiting).inert hquiet _ _ _
        · obtain ⟨rfl, rfl⟩ := Prod.mk.inj heq
          exact hafter hdestroys.1 _ _ _ _

/-- **Every run** whose moves are undisturbed leaves the pool safe. -/
theorem Safe.run (h : Safe lockId pool) {moves : List (Move Task Instant)}
    (hmoves : Along (Pool.step execStore (routine aes)) (Undisturbed lockId) pool moves) :
    Safe lockId (pool.run execStore (routine aes) moves) :=
  along_foldl (fun _ _ hsafe hmove => hsafe.step hmove) h hmoves

/-- A thread that is asked for nothing. -/
theorem upholds_nothing (r : Thread) :
    Upholds execStore anyStep (fun _ => True) (fun _ _ => True) thread task r w := by
  induction r generalizing w with
  | done outcome => exact fun _ _ => trivial
  | call c resume ih =>
    exact fun w' _ _ _ _ => ⟨(), trivial, World.le_after trivial le_rfl, ih _⟩

variable (lockId) in
/-- If `destroy` returned `True`, it destroyed the key. -/
def Destroyed (_ : ℕ) (task : Task) (h : History Task StoreCall Instant Shared)
    (outcome : Except Empty Result) : Prop :=
  task = .destroy lockId → outcome = .ok (.destroyed true) → ∃ entry ∈ h.past, Destroys lockId entry

theorem upholds_destroySteps : Upholds execStore anyStep (fun _ => True)
    (Destroyed lockId thread (.destroy lockId)) thread (.destroy lockId) (destroySteps lockId) w := by
  intro w' _ _ now _
  refine ⟨(), trivial, World.le_after trivial le_rfl, ?_⟩
  cases hkey : w'.history.state.engine.key? lockId with
  | none =>
    have hfalse : (execStore (.destroyKey lockId) now w'.history.state).2 = false := by
      change (KeyStore.destroyKey _ _).2 = _
      rw [KeyStore.destroyKey, show Dict.get? _ lockId = none from hkey]
    rw [hfalse]
    intro _ _ _ htrue
    cases htrue
  | some entry =>
    have hmem := w'.mem_past_after execStore thread (.destroy lockId) (.destroyKey lockId) now ()
    have hdestroys : Destroys lockId
        ⟨thread, .destroy lockId, .destroyKey lockId, now, w'.history.state⟩ :=
      ⟨decide_eq_true rfl, by rw [hkey]; rfl⟩
    have htrue : (execStore (.destroyKey lockId) now w'.history.state).2 = true := by
      change (KeyStore.destroyKey _ _).2 = _
      rw [KeyStore.destroyKey, show Dict.get? _ lockId = some entry from hkey]
    rw [htrue]
    intro w₁ hle₁ _ now₁ _
    refine ⟨(), trivial, World.le_after trivial le_rfl, fun w₂ hle₂ _ _ => ?_⟩
    have hle := hle₁.trans ((World.le_after trivial le_rfl).trans hle₂)
    exact ⟨_, World.past_subset hle hmem, hdestroys⟩

theorem upholds_destroyed : Upholds execStore anyStep (fun _ => True)
    (Destroyed lockId thread task) thread task (routine aes task) w := by
  by_cases htask : task = .destroy lockId
  · subst htask
    exact upholds_destroySteps
  · exact (upholds_nothing _).imp fun _ _ _ h => absurd h htask

variable (lockId) in
/-- Decryptions of the lock that start with the thread `since`, or later, fail. -/
def Refused (since thread : ℕ) (task : Task) (_ : History Task StoreCall Instant Shared)
    (outcome : Except Empty Result) : Prop :=
  since ≤ thread → ∀ encrypted, task = .decrypt encrypted →
    encrypted.metadata.lockId = lockId → outcome = .ok (.content none)

theorem upholds_refused (since : ℕ) : Upholds execStore anyStep (Gone lockId)
    (Refused lockId since thread task) thread task (routine aes task) w := by
  cases task with
  | decrypt encrypted =>
    by_cases hlock : encrypted.metadata.lockId = lockId
    · refine upholds_gone rfl fun s now w' hgone => ?_
      rw [hlock, getKey_gone hgone]
      refine upholds_gone rfl fun s' now' w'' hgone' => ?_
      exact fun _ _ _ _ _ _ => rfl
    · refine (inert_routine (.decrypt encrypted) thread _ w).imp fun _ _ _ _ _ htask hsame => ?_
      obtain rfl := Task.decrypt.inj htask
      exact absurd hsame hlock
  | destroy _ | extendTtl _ _ | cleanup =>
    exact (inert_routine _ thread _ w).imp fun _ _ _ _ _ htask => by cases htask

/-- From a state in which the key is gone, later decryptions fail. -/
theorem sound_refused (h : Sound execStore anyStep (Gone lockId) (fun _ _ _ _ => True) pool) :
    Sound execStore anyStep (Gone lockId) (Refused lockId pool.threads.length) pool := by
  obtain ⟨ghost, hgone, hthreads⟩ := h
  refine ⟨ghost, hgone, fun thread task r hget => (hthreads thread task r hget).imp ?_⟩
  intro _ _ _ hlate
  exact absurd (List.getElem?_eq_some_iff.mp hget).1 hlate.not_gt

end

/-- **Destruction is for good**, if it is undisturbed.  Once `destroy` has returned `True`,
every decryption of the lock that starts later returns nothing, in every interleaving. -/
theorem destroyed_for_good (aes : AesGcm) (lockId : Str) (s : Shared)
    (before after : List (Move Task Instant))
    (hbefore : Along (Pool.step execStore (routine aes)) (Undisturbed lockId) (Pool.start s) before)
    {thread : ℕ}
    (hdestroyed : (Pool.run execStore (routine aes) (Pool.start s) before).threads[thread]?
      = some (.destroy lockId, .done (.ok (.destroyed true)))) {thread' : ℕ}
    (hlater : (Pool.run execStore (routine aes) (Pool.start s) before).threads.length ≤ thread')
    {encrypted : EncryptedContent} (hlock : encrypted.metadata.lockId = lockId)
    {outcome : Except Empty Result}
    (hdecrypt : (Pool.run execStore (routine aes) (Pool.start s) (before ++ after)).threads[thread']?
      = some (.decrypt encrypted, .done outcome)) :
    outcome = .ok (.content none) := by
  -- What a successful `destroy` left behind needs no condition.
  have hstart : Sound execStore anyStep (fun _ : World _ _ _ _ Unit => True) (Destroyed lockId)
      (Pool.start s) := ⟨(), trivial, fun _ _ _ hget => by cases hget⟩
  have hposted := hstart.run (fun _ _ _ _ => upholds_destroyed) (along_anyStep aes before)
  have hgone := ((safe_start s).run hbefore).gone (hposted.outcome hdestroyed rfl rfl)
  have hrefused := (sound_refused hgone).run (fun _ _ _ _ => upholds_refused _)
    (along_anyStep aes after)
  rw [Pool.run, foldl_append] at hdecrypt
  exact hrefused.outcome hdecrypt hlater encrypted rfl hlock

/-! ### An extension on its way -/

/-- An engine with one lock of ten seconds. -/
def oneLock : Shared :=
  ⟨(Journal.start.run plainAes [(second 0, .encrypt oneDraw "hello" 10)]).engine⟩

/-- The threads of that engine after some moves. -/
def threadsAfter (moves : List (Move Task Instant)) : List (Task × Thread) :=
  (Pool.run execStore (routine plainAes) (Pool.start oneLock) moves).threads

/-- An extension has read the key when the lock is destroyed. -/
def destroyEarly : List (Move Task Instant) :=
  [.arrive (.extendTtl oneDraw.lockId 5), .resume 0 (second 1), .arrive (.destroy oneDraw.lockId),
    .resume 1 (second 2), .resume 1 (second 2)]

/-- An extension has read key and expiry when the lock is destroyed. -/
def destroyLate : List (Move Task Instant) :=
  [.arrive (.extendTtl oneDraw.lockId 5), .resume 0 (second 1), .resume 0 (second 1),
    .arrive (.destroy oneDraw.lockId), .resume 1 (second 2), .resume 1 (second 2)]

/-- The extension goes on, and the lock is decrypted. -/
def goOn : List (Move Task Instant) :=
  [.resume 0 (second 3), .arrive (.decrypt lockedHello), .resume 2 (second 4), .resume 2 (second 4)]

/-- The extension finds no expiry, and the lock stays destroyed. -/
theorem destroyed_early :
    (threadsAfter (destroyEarly ++ goOn))[2]?
      = some (.decrypt lockedHello, .done (.ok (.content none))) := by
  have hundisturbed : Along (Pool.step execStore (routine plainAes)) (Undisturbed oneDraw.lockId)
      (Pool.start oneLock) destroyEarly := by decide
  have hdestroyed : (threadsAfter destroyEarly)[1]?
      = some (.destroy oneDraw.lockId, .done (.ok (.destroyed true))) := rfl
  have hdecrypt : ∃ outcome, (threadsAfter (destroyEarly ++ goOn))[2]?
      = some (.decrypt lockedHello, .done outcome) := ⟨_, rfl⟩
  obtain ⟨outcome, hdecrypt⟩ := hdecrypt
  have houtcome := destroyed_for_good plainAes oneDraw.lockId oneLock destroyEarly goOn hundisturbed
    hdestroyed (le_refl 2) rfl hdecrypt
  rw [hdecrypt, houtcome]

/-- **An extension revives a lock.**  `destroy` has returned `True`, and then the extension
stores the key that it read before. -/
theorem extension_revives :
    (threadsAfter destroyLate)[1]? = some (.destroy oneDraw.lockId, .done (.ok (.destroyed true))) ∧
      (threadsAfter destroyLate).length = 2 ∧
      (threadsAfter (destroyLate ++ goOn))[2]?
        = some (.decrypt lockedHello, .done (.ok (.content (some "hello")))) :=
  ⟨rfl, rfl, rfl⟩

end TrustFlow.TimeLock
