import Mathlib.Data.List.Infix
import TrustFlow.Library.Runs

/-!
# Requests that interleave

A server works on many requests at once.  Each of them is a routine: it makes a call,
waits for the answer, goes on from there, and ends with a result or a failure.  While
it waits the others make their calls.

* `Routine` — a request in progress, by the call that it makes next.
* `Pool`, `Move` — all requests in progress.  In a move a request arrives, or one of
  them makes its next call.  A pool remembers the calls (`History`).
* `Upholds` — what a routine may rely on between two calls, and what it guarantees
  with each: the invariant holds, and the state only grows (`≤`).  A proof may carry
  an auxiliary value (`World.ghost`) along that no routine sees.
* `Sound.run` — requests that uphold the invariant one by one uphold it in every
  interleaving, and what is shown of the outcome of each is true of it there.
* `Routine.complete` — a routine that is by itself, and `Ensures`, what is true when it
  ends; `Routine.iff_admitted` is for what is true exactly if all calls were admitted.
-/

namespace TrustFlow.Library

/-- A request in progress: its outcome, or a call and how the answer is used. -/
inductive Routine {C : Type} (Answer : C → Type) (ε α : Type) : Type where
  | done (outcome : Except ε α)
  | call (c : C) (resume : Answer c → Routine Answer ε α)

namespace Routine

variable {C : Type} {Answer : C → Type} {ε α β : Type}

/-- One call. -/
def ask (c : C) : Routine Answer ε (Answer c) := .call c fun answer => .done (.ok answer)

/-- A failure. -/
def fail (e : ε) : Routine Answer ε α := .done (.error e)

/-- What is found, or a failure. -/
def found (value : Option α) (e : ε) : Routine Answer ε α :=
  match value with
  | some a => .done (.ok a)
  | none => .fail e

/-- One routine after the other; a failure ends both. -/
def andThen : Routine Answer ε α → (α → Routine Answer ε β) → Routine Answer ε β
  | .done (.ok a), f => f a
  | .done (.error e), _ => .done (.error e)
  | .call c resume, f => .call c fun answer => (resume answer).andThen f

instance : Monad (Routine Answer ε) where
  pure a := .done (.ok a)
  bind := andThen

@[simp] theorem ok_bind (a : α) (f : α → Routine Answer ε β) :
    ((.done (.ok a) : Routine Answer ε α) >>= f) = f a := rfl

end Routine

/-! ## Pools -/

/-- A call that was made: by which thread and for which request, in which
circumstances, and in which state. -/
structure Entry (ρ C E σ : Type) where
  thread : ℕ
  request : ρ
  call : C
  env : E
  state : σ

/-- The calls so far, and the state after them. -/
structure History (ρ C E σ : Type) where
  past : List (Entry ρ C E σ)
  state : σ

/-- What happens next: a request arrives, or a thread makes its next call. -/
inductive Move (ρ E : Type) where
  | arrive (request : ρ)
  | resume (thread : ℕ) (env : E)

/-- The requests in progress. -/
structure Pool {C : Type} (Answer : C → Type) (ε α ρ E σ : Type) where
  history : History ρ C E σ
  threads : List (ρ × Routine Answer ε α)

section

variable {C : Type} {Answer : C → Type} {ε α ρ E σ : Type}
variable (exec : (c : C) → E → σ → σ × Answer c) (routine : ρ → Routine Answer ε α)

/-- The history after one more call. -/
def History.after (h : History ρ C E σ) (thread : ℕ) (request : ρ) (c : C) (env : E) :
    History ρ C E σ where
  past := h.past ++ [⟨thread, request, c, env, h.state⟩]
  state := (exec c env h.state).1

namespace Pool

/-- No request yet. -/
def start (s : σ) : Pool Answer ε α ρ E σ := ⟨⟨[], s⟩, []⟩

/-- One move.  A thread that is done makes no call. -/
def step (pool : Pool Answer ε α ρ E σ) : Move ρ E → Pool Answer ε α ρ E σ
  | .arrive request => { pool with threads := pool.threads ++ [(request, routine request)] }
  | .resume thread env =>
    match pool.threads[thread]? with
    | some (request, .call c resume) =>
      { history := pool.history.after exec thread request c env
        threads := pool.threads.set thread (request, resume (exec c env pool.history.state).2) }
    | _ => pool

/-- A series of moves. -/
def run (pool : Pool Answer ε α ρ E σ) (moves : List (Move ρ E)) : Pool Answer ε α ρ E σ :=
  moves.foldl (step exec routine) pool

/-- The call of the move is admitted. -/
def Admitted (Admits : C → E → σ → Prop) (pool : Pool Answer ε α ρ E σ) : Move ρ E → Prop
  | .arrive _ => True
  | .resume thread env =>
    match pool.threads[thread]? with
    | some (_, .call c _) => Admits c env pool.history.state
    | _ => True

instance decidableAdmitted (Admits : C → E → σ → Prop) [∀ c env s, Decidable (Admits c env s)]
    (pool : Pool Answer ε α ρ E σ) : ∀ move, Decidable (pool.Admitted Admits move)
  | .arrive _ => isTrue trivial
  | .resume thread env =>
    show Decidable (match pool.threads[thread]? with
      | some (_, .call c _) => Admits c env pool.history.state
      | _ => True) from
    match pool.threads[thread]? with
    | none => isTrue trivial
    | some (_, .done _) => isTrue trivial
    | some (_, .call c _) => inferInstanceAs (Decidable (Admits c env _))

end Pool

end

/-! ## Relying and guaranteeing -/

/-- A history, with an auxiliary value of a proof. -/
structure World (ρ C E σ γ : Type) where
  history : History ρ C E σ
  ghost : γ

/-- Where a proof needs no auxiliary value. -/
instance nothingCarried : Preorder Unit where
  le _ _ := True
  le_refl _ := trivial
  le_trans _ _ _ _ _ := trivial
  lt _ _ := False
  lt_iff_le_not_ge _ _ := ⟨False.elim, fun h => h.2 trivial⟩

section

variable {C : Type} {Answer : C → Type} {ε α β ρ E σ γ : Type} [Preorder σ] [Preorder γ]

/-- A later world: more calls were made, and state and auxiliary value have grown. -/
instance : Preorder (World ρ C E σ γ) where
  le w w' := w.history.past <+: w'.history.past ∧ w.history.state ≤ w'.history.state ∧
    w.ghost ≤ w'.ghost
  le_refl w := ⟨List.prefix_refl _, le_rfl, le_rfl⟩
  le_trans _ _ _ h h' := ⟨h.1.trans h'.1, h.2.1.trans h'.2.1, h.2.2.trans h'.2.2⟩

namespace World

variable {w w' : World ρ C E σ γ}

theorem past_subset (h : w ≤ w') {e : Entry ρ C E σ} (he : e ∈ w.history.past) :
    e ∈ w'.history.past := h.1.subset he

theorem state_le (h : w ≤ w') : w.history.state ≤ w'.history.state := h.2.1

theorem ghost_le (h : w ≤ w') : w.ghost ≤ w'.ghost := h.2.2

end World

variable (exec : (c : C) → E → σ → σ × Answer c) (Admits : C → E → σ → Prop)
variable (Inv : World ρ C E σ γ → Prop)

/-- The world after one more call. -/
def World.after (w : World ρ C E σ γ) (thread : ℕ) (request : ρ) (c : C) (env : E) (ghost : γ) :
    World ρ C E σ γ :=
  ⟨w.history.after exec thread request c env, ghost⟩

variable {w : World ρ C E σ γ} {thread : ℕ} {request : ρ} {r : Routine Answer ε α}
  {pool : Pool Answer ε α ρ E σ}

variable {exec} in
theorem World.le_after {c : C} {env : E} {ghost : γ}
    (hstate : w.history.state ≤ (exec c env w.history.state).1) (hghost : w.ghost ≤ ghost) :
    w ≤ w.after exec thread request c env ghost :=
  ⟨List.prefix_append _ _, hstate, hghost⟩

omit [Preorder σ] [Preorder γ] in
theorem World.mem_past_after (w : World ρ C E σ γ) (thread : ℕ) (request : ρ) (c : C) (env : E)
    (ghost : γ) : ⟨thread, request, c, env, w.history.state⟩ ∈
      (w.after exec thread request c env ghost).history.past :=
  List.mem_append_right _ (List.mem_singleton_self _)

/-- Whatever the others do before each of its calls, the routine keeps the invariant
and lets the state grow with each, and its outcome has the property from then on. -/
def Upholds (Post : History ρ C E σ → Except ε α → Prop) (thread : ℕ) (request : ρ) :
    Routine Answer ε α → World ρ C E σ γ → Prop
  | .done outcome, w => ∀ w', w ≤ w' → Post w'.history outcome
  | .call c resume, w => ∀ w', w ≤ w' → Inv w' → ∀ env, Admits c env w'.history.state →
      ∃ ghost, Inv (w'.after exec thread request c env ghost) ∧
        w' ≤ w'.after exec thread request c env ghost ∧
        Upholds Post thread request (resume (exec c env w'.history.state).2)
          (w'.after exec thread request c env ghost)

variable {exec Admits Inv}

/-- What a routine upholds, it upholds later. -/
theorem Upholds.mono {Post : History ρ C E σ → Except ε α → Prop} {w' : World ρ C E σ γ}
    (h : Upholds exec Admits Inv Post thread request r w) (hle : w ≤ w') :
    Upholds exec Admits Inv Post thread request r w' := by
  cases r with
  | done outcome => exact fun w'' hle' => h w'' (hle.trans hle')
  | call c resume => exact fun w'' hle' => h w'' (hle.trans hle')

theorem Upholds.imp {Post Post' : History ρ C E σ → Except ε α → Prop}
    (h : Upholds exec Admits Inv Post thread request r w)
    (himp : ∀ history outcome, Post history outcome → Post' history outcome) :
    Upholds exec Admits Inv Post' thread request r w := by
  induction r generalizing w with
  | done outcome => exact fun w' hle => himp _ _ (h w' hle)
  | call c resume ih =>
    intro w' hle hinv env henv
    obtain ⟨ghost, hinv', hgrows, hrest⟩ := h w' hle hinv env henv
    exact ⟨ghost, hinv', hgrows, ih _ hrest⟩

/-- **Sequence.**  The second routine starts in any world in which the first one may
have ended. -/
theorem Upholds.bind {Mid : History ρ C E σ → Except ε α → Prop}
    {Post : History ρ C E σ → Except ε β → Prop} {f : α → Routine Answer ε β}
    (h : Upholds exec Admits Inv Mid thread request r w)
    (hok : ∀ a w', w ≤ w' → Mid w'.history (.ok a) →
      Upholds exec Admits Inv Post thread request (f a) w')
    (herror : ∀ e w', w ≤ w' → Mid w'.history (.error e) → Post w'.history (.error e)) :
    Upholds exec Admits Inv Post thread request (r >>= f) w := by
  induction r generalizing w with
  | done outcome =>
    cases outcome with
    | ok a => exact hok a w le_rfl (h w le_rfl)
    | error e => exact fun w' hle => herror e w' hle (h w' hle)
  | call c resume ih =>
    intro w' hle hinv env henv
    obtain ⟨ghost, hinv', hgrows, hrest⟩ := h w' hle hinv env henv
    have hfrom := hle.trans hgrows
    exact ⟨ghost, hinv', hgrows, ih _ hrest (fun a w'' hle' => hok a w'' (hfrom.trans hle'))
      fun e w'' hle' => herror e w'' (hfrom.trans hle')⟩

variable {routine : ρ → Routine Answer ε α}
variable {Post : ℕ → ρ → History ρ C E σ → Except ε α → Prop}

variable (exec Admits Inv Post) in
/-- The invariant holds, and every thread upholds it. -/
def Sound (pool : Pool Answer ε α ρ E σ) : Prop :=
  ∃ ghost, Inv ⟨pool.history, ghost⟩ ∧
    ∀ thread request r, pool.threads[thread]? = some (request, r) →
      Upholds exec Admits Inv (Post thread request) thread request r ⟨pool.history, ghost⟩

/-- Before the first request there is only the invariant to show. -/
theorem sound_start {s : σ} {ghost : γ} (h : Inv ⟨⟨[], s⟩, ghost⟩) :
    Sound exec Admits Inv Post (Pool.start s) :=
  ⟨ghost, h, fun _ _ _ hget => by cases hget⟩

variable (hroutine : ∀ thread request w, Inv w →
  Upholds exec Admits Inv (Post thread request) thread request (routine request) w)
include hroutine

theorem Sound.step {move : Move ρ E} (h : Sound exec Admits Inv Post pool)
    (hmove : pool.Admitted Admits move) :
    Sound exec Admits Inv Post (pool.step exec routine move) := by
  obtain ⟨ghost, hinv, hthreads⟩ := h
  cases move with
  | arrive request =>
    refine ⟨ghost, hinv, fun thread request' r hget => ?_⟩
    rw [Pool.step] at hget
    dsimp only at hget
    rw [List.getElem?_append] at hget
    split at hget
    · exact hthreads thread request' r hget
    · obtain ⟨rfl, rfl⟩ := Prod.mk.inj (List.mem_singleton.mp (List.mem_of_getElem? hget))
      exact hroutine thread request' _ hinv
  | resume thread env =>
    rw [Pool.step]
    rw [Pool.Admitted] at hmove
    cases hget : pool.threads[thread]? with
    | none => exact ⟨ghost, hinv, hthreads⟩
    | some waiting =>
      obtain ⟨request, r⟩ := waiting
      cases r with
      | done outcome => exact ⟨ghost, hinv, hthreads⟩
      | call c resume =>
        rw [hget] at hmove
        obtain ⟨ghost', hinv', hgrows, hrest⟩ :=
          hthreads thread request _ hget _ le_rfl hinv env hmove
        refine ⟨ghost', hinv', fun thread' request' r' hget' => ?_⟩
        dsimp only at hget' ⊢
        by_cases hsame : thread = thread'
        · subst hsame
          have hlength := (List.getElem?_eq_some_iff.mp hget).1
          rw [List.getElem?_set_self hlength] at hget'
          obtain ⟨rfl, rfl⟩ := Prod.mk.inj (Option.some.inj hget')
          exact hrest
        · rw [List.getElem?_set_ne hsame] at hget'
          exact (hthreads thread' request' r' hget').mono hgrows

/-- **Every interleaving is sound**, if every request is by itself. -/
theorem Sound.run {moves : List (Move ρ E)} (h : Sound exec Admits Inv Post pool)
    (hmoves : Along (Pool.step exec routine) (Pool.Admitted Admits) pool moves) :
    Sound exec Admits Inv Post (pool.run exec routine moves) :=
  along_foldl (fun _ _ => Sound.step hroutine) h hmoves

omit hroutine in
/-- What is shown of an outcome. -/
theorem Sound.outcome (h : Sound exec Admits Inv Post pool) {outcome : Except ε α}
    (hdone : pool.threads[thread]? = some (request, .done outcome)) :
    Post thread request pool.history outcome := by
  obtain ⟨ghost, -, hthreads⟩ := h
  exact hthreads thread request _ hdone _ le_rfl

end

/-! ## One request at a time -/

section

variable {C : Type} {Answer : C → Type} {ε α β E σ : Type}
variable (exec : (c : C) → E → σ → σ × Answer c) (Admits : C → E → σ → Prop)

/-- The routine from its first call to its end, with nothing in between.  Each call has
its own circumstances. -/
def Routine.complete : Routine Answer ε α → (ℕ → E) → σ → σ × Except ε α
  | .done outcome, _, s => (s, outcome)
  | .call c resume, envs, s =>
    (resume (exec c (envs 0) s).2).complete (fun i => envs (i + 1)) (exec c (envs 0) s).1

/-- **Sequence**, if all calls have the same circumstances. -/
theorem Routine.complete_bind (env : E) (r : Routine Answer ε α) (f : α → Routine Answer ε β) (s : σ) :
    (r >>= f).complete exec (fun _ => env) s =
      match r.complete exec (fun _ => env) s with
      | (s', .ok a) => (f a).complete exec (fun _ => env) s'
      | (s', .error e) => (s', .error e) := by
  induction r generalizing s with
  | done outcome =>
    cases outcome with
    | ok a => rfl
    | error e => rfl
  | call c resume ih => exact ih _ _

/-- All calls of the routine are admitted. -/
def Routine.Admitted : Routine Answer ε α → (ℕ → E) → σ → Prop
  | .done _, _, _ => True
  | .call c resume, envs, s => Admits c (envs 0) s ∧
      (resume (exec c (envs 0) s).2).Admitted (fun i => envs (i + 1)) (exec c (envs 0) s).1

instance Routine.decidableAdmitted [∀ c env s, Decidable (Admits c env s)] :
    ∀ (r : Routine Answer ε α) envs s, Decidable (r.Admitted exec Admits envs s)
  | .done _, _, _ => isTrue trivial
  | .call c resume, envs, s =>
    haveI := decidableAdmitted (resume (exec c (envs 0) s).2) (fun i => envs (i + 1))
      (exec c (envs 0) s).1
    instDecidableAnd

/-- In all circumstances that are admitted the routine ends in the postcondition. -/
def Ensures (Post : σ → Except ε α → Prop) : Routine Answer ε α → σ → Prop
  | .done outcome, s => Post s outcome
  | .call c resume, s => ∀ env, Admits c env s →
      Ensures Post (resume (exec c env s).2) (exec c env s).1

variable {exec Admits}

variable {Post : σ → Except ε α → Prop} {r : Routine Answer ε α} {s : σ} {envs : ℕ → E}
  {P : C → Prop}

theorem Ensures.mono {Post' : σ → Except ε α → Prop} (h : Ensures exec Admits Post r s)
    (himp : ∀ s' outcome, Post s' outcome → Post' s' outcome) : Ensures exec Admits Post' r s := by
  induction r generalizing s with
  | done outcome => exact himp s outcome h
  | call c resume ih => exact fun env henv => ih _ (h env henv)

/-- **Sequence.** -/
theorem Ensures.bind {Mid : σ → Except ε α → Prop} {Post : σ → Except ε β → Prop}
    {f : α → Routine Answer ε β} (h : Ensures exec Admits Mid r s)
    (hok : ∀ a s', Mid s' (.ok a) → Ensures exec Admits Post (f a) s')
    (herror : ∀ e s', Mid s' (.error e) → Post s' (.error e)) :
    Ensures exec Admits Post (r >>= f) s := by
  induction r generalizing s with
  | done outcome =>
    cases outcome with
    | ok a => exact hok a s h
    | error e => exact herror e s h
  | call c resume ih => exact fun env henv => ih _ (h env henv)

/-- **What is ensured is true** of the state and the outcome in the end. -/
theorem Ensures.complete (h : Ensures exec Admits Post r s)
    (hadmitted : r.Admitted exec Admits envs s) :
    Post (r.complete exec envs s).1 (r.complete exec envs s).2 := by
  induction r generalizing envs s with
  | done outcome => exact h
  | call c resume ih => exact ih _ (h _ hadmitted.1) hadmitted.2

/-- All calls that the routine may make have the property. -/
def Routine.AllCalls (P : C → Prop) : Routine Answer ε α → Prop
  | .done _ => True
  | .call c resume => P c ∧ ∀ answer, (resume answer).AllCalls P

theorem Routine.AllCalls.bind {f : α → Routine Answer ε β} (h : r.AllCalls P)
    (hf : ∀ a, (f a).AllCalls P) : (r >>= f).AllCalls P := by
  induction r with
  | done outcome =>
    cases outcome with
    | ok a => exact hf a
    | error e => trivial
  | call c resume ih => exact ⟨h.1, fun answer => ih answer (h.2 answer)⟩

theorem Routine.AllCalls.mono {Q : C → Prop} (h : r.AllCalls P) (himp : ∀ c, P c → Q c) :
    r.AllCalls Q := by
  induction r with
  | done outcome => trivial
  | call c resume ih => exact ⟨himp c h.1, fun answer => ih answer (h.2 answer)⟩

theorem Routine.AllCalls.admitted (h : r.AllCalls P) (hcall : ∀ c i s, P c → Admits c (envs i) s)
    (s : σ) : r.Admitted exec Admits envs s := by
  induction r generalizing envs s with
  | done outcome => trivial
  | call c resume ih =>
    exact ⟨hcall c 0 s h.1, ih _ (h.2 _) (fun c i s => hcall c (i + 1) s) _⟩

/-- What every call does to the state, the routine does. -/
theorem Routine.AllCalls.ensures {R : σ → σ → Prop} (h : r.AllCalls P) (hrefl : ∀ s, R s s)
    (htrans : ∀ s s' s'', R s s' → R s' s'' → R s s'')
    (hcall : ∀ c env s, P c → Admits c env s → R s (exec c env s).1) (s : σ) :
    Ensures exec Admits (fun s' _ => R s s') r s := by
  induction r generalizing s with
  | done outcome => exact hrefl s
  | call c resume ih =>
    intro env henv
    exact (ih _ (h.2 _) _).mono fun s' _ => htrans _ _ _ (hcall c env s h.1 henv)

variable (exec Admits) in
/-- The effect of a call, with a note whether all calls so far were admitted. -/
def noting (c : C) (env : E) (s : σ × Prop) : (σ × Prop) × Answer c :=
  (((exec c env s.1).1, s.2 ∧ Admits c env s.1), (exec c env s.1).2)

/-- In the end the note says whether all calls of the routine were admitted. -/
theorem Routine.complete_noting (r : Routine Answer ε α) (envs : ℕ → E) (s : σ) (p : Prop) :
    r.complete (noting exec Admits) envs (s, p)
      = (((r.complete exec envs s).1, p ∧ r.Admitted exec Admits envs s),
          (r.complete exec envs s).2) := by
  induction r generalizing envs s p with
  | done outcome => simp [Routine.complete, Routine.Admitted]
  | call c resume ih =>
    show (resume (exec c (envs 0) s).2).complete (noting exec Admits) (fun i => envs (i + 1))
      ((exec c (envs 0) s).1, p ∧ Admits c (envs 0) s) = _
    rw [ih, and_assoc]
    rfl

/-- **What is true exactly of the runs whose calls are all admitted.** -/
theorem Routine.iff_admitted (h : Ensures (noting exec Admits) (fun _ _ _ => True)
      (fun s' outcome => Post s'.1 outcome ↔ s'.2) r (s, True)) (envs : ℕ → E) :
    Post (r.complete exec envs s).1 (r.complete exec envs s).2 ↔ r.Admitted exec Admits envs s := by
  have hadmitted : r.Admitted (noting exec Admits) (fun _ _ _ => True) envs (s, True) := by
    clear h
    generalize ((s, True) : σ × Prop) = noted
    induction r generalizing envs noted with
    | done outcome => trivial
    | call c resume ih => exact ⟨trivial, ih _ _ _⟩
  have hend := h.complete hadmitted
  rw [Routine.complete_noting] at hend
  simpa using hend

/-- Admitted calls have the circumstances that are given. -/
theorem Routine.Admitted.of_range (h : r.Admitted exec Admits envs s) {P : E → Prop}
    (hP : ∀ i, P (envs i)) : r.Admitted exec (fun c env s => Admits c env s ∧ P env) envs s := by
  induction r generalizing envs s with
  | done outcome => trivial
  | call c resume ih => exact ⟨⟨h.1, hP 0⟩, ih _ h.2 fun i => hP (i + 1)⟩

end

end TrustFlow.Library
