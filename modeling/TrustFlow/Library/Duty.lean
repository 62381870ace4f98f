import TrustFlow.Library.Routine

/-!
# Duties of requests

A request may leave something to be done behind a call: a counter has reached its
limit, and now somebody has to announce it.  Other requests come in between, so it is
not the state that says who does it.

* `Leads` — whatever the others do, the goal is reached when the routine ends.
* `Dutiful` — the call that opens the state is made by a routine that leads to the goal
  from there.
* `Discharged` — the invariant of a pool: an open state has reached its goal, or one
  thread leads there.  `Discharged.run` keeps it in every interleaving.
* `Discharged.goal` — so an open state in which every thread is done has reached its
  goal.

The relation `Rely` is what a thread may assume of the calls of the others, and what it
has to guarantee of its own.
-/

namespace TrustFlow.Library

/-- The routine is done. -/
def Routine.ended {C : Type} {Answer : C → Type} {ε α : Type} : Routine Answer ε α → Bool
  | .done _ => true
  | .call _ _ => false

section

variable {C : Type} {Answer : C → Type} {ε α β ρ E σ : Type}
variable (exec : (c : C) → E → σ → σ × Answer c) (Admits : C → E → σ → Prop)
variable (Inv : σ → Prop) (Rely : σ → σ → Prop) (Open Goal : σ → Prop)

/-- Whatever the others do before each of its calls, the goal is reached when the
routine ends. -/
def Leads : Routine Answer ε α → σ → Prop
  | .done _, s => Goal s
  | .call c resume, s => ∀ s', Rely s s' → Inv s' → ∀ env, Admits c env s' →
      Leads (resume (exec c env s').2) (exec c env s').1

/-- Whatever the others do before each of its calls, the routine keeps the invariant
and its guarantee with each, and leads to the goal after one that opens the state. -/
def Dutiful : Routine Answer ε α → σ → Prop
  | .done _, _ => True
  | .call c resume, s => ∀ s', Rely s s' → Inv s' → ∀ env, Admits c env s' →
      (Inv (exec c env s').1 ∧ Rely s' (exec c env s').1) ∧
      (¬ Open s' → Open (exec c env s').1 →
        Leads exec Admits Inv Rely Goal (resume (exec c env s').2) (exec c env s').1) ∧
      Dutiful (resume (exec c env s').2) (exec c env s').1

/-- All threads are dutiful, and an open state has reached its goal or a thread leads
there. -/
structure Discharged (pool : Pool Answer ε α ρ E σ) : Prop where
  inv : Inv pool.history.state
  dutiful : ∀ waiting ∈ pool.threads,
    Dutiful exec Admits Inv Rely Open Goal waiting.2 pool.history.state
  duty : Open pool.history.state → Goal pool.history.state ∨
    ∃ (thread : ℕ) (waiting : ρ × Routine Answer ε α), pool.threads[thread]? = some waiting ∧
      Leads exec Admits Inv Rely Goal waiting.2 pool.history.state

variable {exec Admits Inv Rely Open Goal}

variable {r : Routine Answer ε α} {s : σ} {pool : Pool Answer ε α ρ E σ}

/-- What leads to the goal does so later. -/
theorem Leads.mono [IsPreorder σ Rely] (hgoal : ∀ s s', Rely s s' → Goal s → Goal s') {s' : σ}
    (h : Leads exec Admits Inv Rely Goal r s) (hrely : Rely s s') :
    Leads exec Admits Inv Rely Goal r s' := by
  cases r with
  | done outcome => exact hgoal s s' hrely h
  | call c resume => exact fun s'' hrely' => h s'' (trans_of Rely hrely hrely')

theorem Dutiful.mono [IsPreorder σ Rely] {s' : σ} (h : Dutiful exec Admits Inv Rely Open Goal r s)
    (hrely : Rely s s') : Dutiful exec Admits Inv Rely Open Goal r s' := by
  cases r with
  | done outcome => trivial
  | call c resume => exact fun s'' hrely' => h s'' (trans_of Rely hrely hrely')

/-- **Sequence.** -/
theorem Leads.bind {f : α → Routine Answer ε β} (h : Leads exec Admits Inv Rely Goal r s)
    (hok : ∀ a s', Goal s' → Leads exec Admits Inv Rely Goal (f a) s') :
    Leads exec Admits Inv Rely Goal (r >>= f) s := by
  induction r generalizing s with
  | done outcome =>
    cases outcome with
    | ok a => exact hok a s h
    | error e => exact h
  | call c resume ih => exact fun s' hrely hinv env henv => ih _ (h s' hrely hinv env henv)

/-- **Sequence.** -/
theorem Dutiful.bind {f : α → Routine Answer ε β} (h : Dutiful exec Admits Inv Rely Open Goal r s)
    (hleads : ∀ a s', Goal s' → Leads exec Admits Inv Rely Goal (f a) s')
    (hok : ∀ a s', Dutiful exec Admits Inv Rely Open Goal (f a) s') :
    Dutiful exec Admits Inv Rely Open Goal (r >>= f) s := by
  induction r generalizing s with
  | done outcome =>
    cases outcome with
    | ok a => exact hok a s
    | error e => trivial
  | call c resume ih =>
    intro s' hrely hinv env henv
    obtain ⟨hkeeps, hopens, hrest⟩ := h s' hrely hinv env henv
    exact ⟨hkeeps, fun hclosed hopened => (hopens hclosed hopened).bind hleads, ih _ hrest⟩

/-- Calls that keep the invariant and open nothing. -/
theorem Routine.AllCalls.dutiful {P : C → Prop} (h : r.AllCalls P)
    (hcall : ∀ c env s, P c → Inv s → Admits c env s →
      (Inv (exec c env s).1 ∧ Rely s (exec c env s).1) ∧ (Open (exec c env s).1 → Open s)) (s : σ) :
    Dutiful exec Admits Inv Rely Open Goal r s := by
  induction r generalizing s with
  | done outcome => trivial
  | call c resume ih =>
    intro s' _ hinv env henv
    obtain ⟨hkeeps, hopen⟩ := hcall c env s' h.1 hinv henv
    exact ⟨hkeeps, fun hclosed hopened => absurd (hopen hopened) hclosed, ih _ (h.2 _) _⟩

/-- Before the first request nothing is left to be done, unless it was before. -/
theorem discharged_start (hinv : Inv s) (hgoal : Open s → Goal s) :
    Discharged exec Admits Inv Rely Open Goal (Pool.start s : Pool Answer ε α ρ E σ) :=
  ⟨hinv, fun _ hwaiting => absurd hwaiting List.not_mem_nil, fun hopen => .inl (hgoal hopen)⟩

variable {routine : ρ → Routine Answer ε α}
variable [IsPreorder σ Rely] (hgoal : ∀ s s', Rely s s' → Goal s → Goal s')
variable (hroutine : ∀ request s, Inv s → Dutiful exec Admits Inv Rely Open Goal (routine request) s)
include hgoal hroutine

theorem Discharged.step {move : Move ρ E} (h : Discharged exec Admits Inv Rely Open Goal pool)
    (hmove : pool.Admitted Admits move) :
    Discharged exec Admits Inv Rely Open Goal (pool.step exec routine move) := by
  cases move with
  | arrive request =>
    refine ⟨h.inv, fun waiting hwaiting => ?_, fun hopen => (h.duty hopen).imp_right ?_⟩
    · rcases List.mem_append.mp hwaiting with hwaiting | hwaiting
      · exact h.dutiful waiting hwaiting
      · rw [List.mem_singleton.mp hwaiting]
        exact hroutine request _ h.inv
    · rintro ⟨thread, waiting, hget, hleads⟩
      have hlength := (List.getElem?_eq_some_iff.mp hget).1
      exact ⟨thread, waiting, (List.getElem?_append_left hlength).trans hget, hleads⟩
  | resume thread env =>
    rw [Pool.step]
    rw [Pool.Admitted] at hmove
    cases hget : pool.threads[thread]? with
    | none => exact h
    | some found =>
      obtain ⟨request, r⟩ := found
      cases r with
      | done outcome => exact h
      | call c resume =>
        rw [hget] at hmove
        have hlength := (List.getElem?_eq_some_iff.mp hget).1
        obtain ⟨⟨hinv, hrely⟩, hopens, hrest⟩ := h.dutiful _ (List.mem_of_getElem? hget) _
          (refl_of Rely _) h.inv env hmove
        refine ⟨hinv, fun waiting hwaiting => ?_, fun hopen => ?_⟩
        · rcases List.mem_or_eq_of_mem_set hwaiting with hwaiting | rfl
          · exact (h.dutiful waiting hwaiting).mono hrely
          · exact hrest
        by_cases hbefore : Open pool.history.state
        · refine (h.duty hbefore).imp (hgoal _ _ hrely) ?_
          rintro ⟨leader, waiting, hleader, hleads⟩
          by_cases hsame : thread = leader
          · subst hsame
            obtain rfl := Option.mem_unique hget hleader
            exact ⟨thread, _, List.getElem?_set_self hlength,
              hleads _ (refl_of Rely _) h.inv env hmove⟩
          · exact ⟨leader, waiting, (List.getElem?_set_ne hsame).trans hleader,
              hleads.mono hgoal hrely⟩
        · exact .inr ⟨thread, _, List.getElem?_set_self hlength, hopens hbefore hopen⟩

/-- **In every interleaving** somebody sees to what is left to be done. -/
theorem Discharged.run {moves : List (Move ρ E)}
    (h : Discharged exec Admits Inv Rely Open Goal pool)
    (hmoves : Along (Pool.step exec routine) (Pool.Admitted Admits) pool moves) :
    Discharged exec Admits Inv Rely Open Goal (pool.run exec routine moves) :=
  along_foldl (fun _ _ h hmove => h.step hgoal hroutine hmove) h hmoves

omit hgoal hroutine [IsPreorder σ Rely] in
/-- Once every thread is done, nothing is left to be done. -/
theorem Discharged.goal (h : Discharged exec Admits Inv Rely Open Goal pool)
    (hdone : ∀ waiting ∈ pool.threads, waiting.2.ended = true) (hopen : Open pool.history.state) :
    Goal pool.history.state := by
  rcases h.duty hopen with hgoal | ⟨thread, ⟨request, r⟩, hget, hleads⟩
  · exact hgoal
  · have hended := hdone (request, r) (List.mem_of_getElem? hget)
    cases r with
    | done outcome => exact hleads
    | call c resume => cases hended

end

end TrustFlow.Library
