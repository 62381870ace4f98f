import Mathlib.Order.Basic
import TrustFlow.Library.Dict

/-!
# Acceptances along a run, and what a dictionary of times remembers

A state machine takes events one after the other and accepts some of them.
`acceptances_le_one` bounds how many: two predicates on a state and the events
still to come are enough, one that every step keeps, and one that an acceptance
brings about and that rules out any later one.

`Along` says that every event of a run has a property in the state that it meets;
`along_foldl` carries an invariant through such a run, and `forall_prefix_iff_along` says that
it is the runs of such events in which an invariant holds throughout.

`Dict.Remembers` is for machines that note when they met a key and forget old
notes: the dictionary still has a note for the key, made at the given time or
later.
-/

namespace TrustFlow.Library

section

variable {σ ε : Type*} (step : σ → ε → σ) (accepts : σ → ε → Bool)

/-- How many events of the run are accepted. -/
def acceptances : σ → List ε → ℕ
  | _, [] => 0
  | s, e :: es => (accepts s e).toNat + acceptances (step s e) es

variable {step accepts}

/-- From a blocked state on, nothing is accepted. -/
theorem acceptances_eq_zero (blocked : σ → List ε → Prop)
    (hblocked : ∀ s e es, blocked s (e :: es) → accepts s e = false ∧ blocked (step s e) es)
    {s : σ} {es : List ε} (h : blocked s es) : acceptances step accepts s es = 0 := by
  induction es generalizing s with
  | nil => rfl
  | cons e es ih =>
    obtain ⟨hreject, hnext⟩ := hblocked s e es h
    rw [acceptances, hreject, ih hnext]
    rfl

/-- **At most one acceptance**, if an acceptance blocks all that come after. -/
theorem acceptances_le_one (admitted blocked : σ → List ε → Prop)
    (hblocked : ∀ s e es, blocked s (e :: es) → accepts s e = false ∧ blocked (step s e) es)
    (hstep : ∀ s e es, admitted s (e :: es) → admitted (step s e) es)
    (haccept : ∀ s e es, admitted s (e :: es) → accepts s e = true → blocked (step s e) es)
    {s : σ} {es : List ε} (h : admitted s es) : acceptances step accepts s es ≤ 1 := by
  induction es generalizing s with
  | nil => exact Nat.zero_le 1
  | cons e es ih =>
    rw [acceptances]
    cases hcase : accepts s e with
    | false =>
      have hrest := ih (hstep s e es h)
      simpa using hrest
    | true =>
      rw [acceptances_eq_zero blocked hblocked (haccept s e es h hcase)]
      exact Nat.le_refl 1

end

section

variable {σ ε : Type*} (step : σ → ε → σ) (P : σ → ε → Prop)

/-- Every event of the run has the property, in the state that it meets. -/
def Along : σ → List ε → Prop
  | _, [] => True
  | s, e :: es => P s e ∧ Along (step s e) es

instance decidableAlong [∀ s e, Decidable (P s e)] :
    ∀ s es, Decidable (Along step P s es)
  | _, [] => isTrue trivial
  | s, e :: es => haveI := decidableAlong (step s e) es; instDecidableAnd

variable {step P}

/-- **An invariant of the steps with the property** holds at the end of a run of
them. -/
theorem along_foldl {I : σ → Prop} (hstep : ∀ s e, I s → P s e → I (step s e)) {s : σ}
    {es : List ε} (hs : I s) (hes : Along step P s es) : I (es.foldl step s) := by
  induction es generalizing s with
  | nil => exact hs
  | cons e es ih => exact ih (hstep s e hs hes.1) hes.2

/-- A property that no step brings back holds along a run at whose end it holds. -/
theorem along_of_end {Q : σ → Prop} {R : σ → ε → Prop} (hback : ∀ s e, Q (step s e) → Q s)
    (hR : ∀ s e, P s e → Q s → R s e) {s : σ} {es : List ε} (hes : Along step P s es)
    (hend : Q (es.foldl step s)) : Q s ∧ Along step R s es := by
  induction es generalizing s with
  | nil => exact ⟨hend, trivial⟩
  | cons e es ih =>
    obtain ⟨hnext, hrest⟩ := ih hes.2 hend
    have hs := hback s e hnext
    exact ⟨hs, hR s e hes.1 hs, hrest⟩

/-- **A property that a step keeps exactly if it is a good one** holds in all states of a run
exactly if all its steps are good. -/
theorem forall_prefix_iff_along {I Q : σ → Prop} (hI : ∀ s e, I s → I (step s e))
    (hQ : ∀ s e, I s → Q s → (Q (step s e) ↔ P s e)) {s : σ} (hs : I s) (hq : Q s) (es : List ε) :
    (∀ before, before <+: es → Q (before.foldl step s)) ↔ Along step P s es := by
  induction es generalizing s with
  | nil =>
    refine iff_of_true (fun before hbefore => ?_) trivial
    rw [List.prefix_nil.mp hbefore]
    exact hq
  | cons e es ih =>
    constructor
    · intro h
      have hnext : Q (step s e) := h [e] ⟨es, rfl⟩
      refine ⟨(hQ s e hs hq).mp hnext, (ih (hI s e hs) hnext).mp fun before hbefore => ?_⟩
      exact h (e :: before) (List.cons_prefix_cons.mpr ⟨rfl, hbefore⟩)
    · rintro ⟨hstep, hrest⟩ before hbefore
      have hnext := (hQ s e hs hq).mpr hstep
      cases before with
      | nil => exact hq
      | cons e' before =>
        obtain ⟨rfl, htail⟩ := List.cons_prefix_cons.mp hbefore
        exact (ih (hI s e' hs) hnext).mpr hrest before htail

end

namespace Dict

variable {κ τ : Type*} [DecidableEq κ] [Preorder τ]

/-- There is a note for the key that was made at `since` or later. -/
def Remembers (d : Dict κ τ) (k : κ) (since : τ) : Prop :=
  ∃ time, d.get? k = some time ∧ since ≤ time

theorem remembers_set_self (d : Dict κ τ) (k : κ) (now : τ) : (d.set k now).Remembers k now := by
  refine ⟨now, ?_, le_rfl⟩
  rw [get?_set, if_pos rfl]

namespace Remembers

variable {d : Dict κ τ} {k : κ} {since : τ}

variable (h : d.Remembers k since)
include h

/-- A note made later leaves the key remembered. -/
theorem set (k' : κ) {now : τ} (hnow : since ≤ now) : (d.set k' now).Remembers k since := by
  obtain ⟨time, htime, hle⟩ := h
  by_cases hk : k' = k
  · refine ⟨now, ?_, hnow⟩
    rw [get?_set, if_pos hk]
  · refine ⟨time, ?_, hle⟩
    rw [get?_set_of_ne d now hk, htime]

/-- A clean-up that spares the notes since the given time leaves the key
remembered. -/
theorem filter {keep : κ → τ → Bool}
    (hkeep : ∀ time, d.get? k = some time → since ≤ time → keep k time = true) :
    (d.filter keep).Remembers k since := by
  obtain ⟨time, htime, hle⟩ := h
  exact ⟨time, get?_filter.mpr ⟨htime, hkeep time htime hle⟩, hle⟩

theorem erase {k' : κ} (hne : k' ≠ k) : (d.erase k').Remembers k since := by
  obtain ⟨time, htime, hle⟩ := h
  refine ⟨time, ?_, hle⟩
  rw [get?_erase_of_ne d hne, htime]

theorem isSome : (d.get? k).isSome = true := by
  obtain ⟨time, htime, -⟩ := h
  rw [htime, Option.isSome_some]

end Remembers

end Dict

end TrustFlow.Library
