import Mathlib.Logic.Basic

/-!
# Computations that may raise

Source functions that raise are computations in `Except ε`.  These rules run
them: a step that returns is substituted, a step that raises ends the block,
and a loop whose steps all return is a map.
-/

namespace TrustFlow.Library

open List

variable {ε α β : Type}

@[simp] theorem ok_bind (a : α) (f : α → Except ε β) : (Except.ok a >>= f) = f a := rfl

@[simp] theorem error_bind (e : ε) (f : α → Except ε β) : (Except.error e >>= f) = .error e := rfl

@[simp] theorem pure_eq_ok (a : α) : (pure a : Except ε α) = .ok a := rfl

@[simp] theorem throw_eq_error (e : ε) : (throw e : Except ε α) = .error e := rfl

/-- A block that returns has a first step that returns. -/
theorem bind_eq_ok {x : Except ε α} {f : α → Except ε β} {b : β} :
    (x >>= f) = .ok b ↔ ∃ a, x = .ok a ∧ f a = .ok b := by
  cases x with
  | error e => simp
  | ok a => simp

/-- A result that is passed on was returned. -/
theorem map_eq_ok {x : Except ε α} {f : α → β} {b : β} :
    x.map f = .ok b ↔ ∃ a, x = .ok a ∧ f a = b := by
  cases x with
  | error e => simp [Except.map]
  | ok a => simp [Except.map]

variable {f : α → Except ε β}

/-- A loop whose steps all return is a map. -/
theorem mapM_eq_ok {g : α → β} :
    ∀ {l : List α}, (∀ a ∈ l, f a = .ok (g a)) → l.mapM f = .ok (l.map g) := by
  intro l
  induction l with
  | nil => intro _; rfl
  | cons a l ih =>
    intro hok
    rw [mapM_cons, hok a mem_cons_self, ih fun b hb => hok b (mem_cons_of_mem _ hb)]
    rfl

/-- A loop whose steps all return collects what they return. -/
theorem exists_mapM_eq_ok {l : List α} (hok : ∀ a ∈ l, ∃ b, f a = .ok b) :
    ∃ bs, l.mapM f = .ok bs ∧ ∀ b, b ∈ bs ↔ ∃ a ∈ l, f a = .ok b := by
  induction l with
  | nil => exact ⟨[], rfl, by simp⟩
  | cons a l ih =>
    obtain ⟨b, hb⟩ := hok a mem_cons_self
    obtain ⟨bs, hbs, hmem⟩ := ih fun a ha => hok a (mem_cons_of_mem _ ha)
    refine ⟨b :: bs, ?_, fun b' => ?_⟩
    · rw [mapM_cons, hb, hbs]
      rfl
    · simp [hmem, hb, eq_comm]

/-- A loop returns if all its steps do. -/
theorem exists_mapM_iff {l : List α} :
    (∃ bs, l.mapM f = .ok bs) ↔ ∀ a ∈ l, ∃ b, f a = .ok b := by
  constructor
  · intro h
    induction l with
    | nil => simp
    | cons a l ih =>
      obtain ⟨bs, hbs⟩ := h
      rw [mapM_cons] at hbs
      obtain ⟨b, hb, hrest⟩ := bind_eq_ok.mp hbs
      obtain ⟨bs', hbs', -⟩ := bind_eq_ok.mp hrest
      exact forall_mem_cons.mpr ⟨⟨b, hb⟩, ih ⟨bs', hbs'⟩⟩
  · intro h
    obtain ⟨bs, hbs, -⟩ := exists_mapM_eq_ok h
    exact ⟨bs, hbs⟩

end TrustFlow.Library
