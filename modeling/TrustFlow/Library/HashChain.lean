import Mathlib.Data.List.Induction
import Mathlib.Data.List.Forall2

/-!
# Hash chains

A list of entries, each of which stores the hash of the entry before it and its
own hash.  The entry type and the hash are arbitrary: `prev` and `hash` read the
two stored values of an entry, `digest` recomputes the second one.

* `HashChain prev hash digest anchor l` — `l` is a chain that starts at `anchor`.
* `hashChain_append` — chains are extended at the end.
* `HashChain.unique` — **the last hash determines the chain**: two chains from one
  anchor that end in the same hash agree entry by entry, provided the digest
  determines what it hashes (the previous hash included) and never returns the
  anchor.
-/

namespace TrustFlow.Library

variable {α κ H : Type*} (prev hash digest : α → H)

/-- Every entry links to the one before it and stores its own digest. -/
def HashChain : H → List α → Prop
  | _, [] => True
  | anchor, e :: l => prev e = anchor ∧ hash e = digest e ∧ HashChain (hash e) l

/-- The stored hash of the last entry, or the anchor. -/
def lastHash (anchor : H) (l : List α) : H := (l.getLast?.map hash).getD anchor

variable (anchor : H) (l : List α) (e : α)

@[simp] theorem lastHash_nil : lastHash hash anchor [] = anchor := rfl

@[simp] theorem lastHash_concat : lastHash hash anchor (l ++ [e]) = hash e := by
  simp [lastHash]

theorem lastHash_cons (l : List α) : lastHash hash anchor (e :: l) = lastHash hash (hash e) l := by
  cases l using List.reverseRecOn with
  | nil => rfl
  | append_singleton l e' =>
    rw [lastHash_concat, ← List.cons_append, lastHash_concat]

/-- A chain is continued by a chain that starts at its last hash. -/
theorem hashChain_append (l₁ l₂ : List α) :
    HashChain prev hash digest anchor (l₁ ++ l₂) ↔
      HashChain prev hash digest anchor l₁ ∧
        HashChain prev hash digest (lastHash hash anchor l₁) l₂ := by
  induction l₁ generalizing anchor with
  | nil => simp [HashChain]
  | cons e l₁ ih =>
    rw [List.cons_append, HashChain, HashChain, ih, lastHash_cons]
    tauto

theorem hashChain_concat :
    HashChain prev hash digest anchor (l ++ [e]) ↔
      HashChain prev hash digest anchor l ∧ prev e = lastHash hash anchor l ∧
        hash e = digest e := by
  rw [hashChain_append]
  simp [HashChain]

/-- The stored hashes of a chain are digests. -/
theorem HashChain.hash_eq {prev hash digest : α → H} {anchor : H} {l : List α}
    (hl : HashChain prev hash digest anchor l) {e : α} (he : e ∈ l) : hash e = digest e := by
  induction l generalizing anchor with
  | nil => cases he
  | cons e' l ih =>
    rcases List.mem_cons.mp he with rfl | he
    · exact hl.2.1
    · exact ih hl.2.2 he

/-- **The last hash determines the chain.** -/
theorem HashChain.unique {prev hash digest : α → H} {key : α → κ} {anchor : H} {l₁ l₂ : List α}
    (hkey : ∀ e ∈ l₁, ∀ e' ∈ l₂, digest e = digest e' → key e = key e')
    (hprev : ∀ e ∈ l₁, ∀ e' ∈ l₂, key e = key e' → prev e = prev e')
    (hanchor₁ : ∀ e ∈ l₁, digest e ≠ anchor) (hanchor₂ : ∀ e ∈ l₂, digest e ≠ anchor)
    (h₁ : HashChain prev hash digest anchor l₁) (h₂ : HashChain prev hash digest anchor l₂)
    (hlast : lastHash hash anchor l₁ = lastHash hash anchor l₂) :
    List.Forall₂ (fun e e' => key e = key e' ∧ hash e = hash e') l₁ l₂ := by
  -- from the end: equal last hashes give equal last entries, hence equal
  -- previous hashes; the anchor stops both chains at once
  induction l₁ using List.reverseRecOn generalizing l₂ with
  | nil =>
    cases l₂ using List.reverseRecOn with
    | nil => exact List.Forall₂.nil
    | append_singleton l₂ e₂ =>
      have hmem : e₂ ∈ l₂ ++ [e₂] := by simp
      rw [lastHash_nil, lastHash_concat, h₂.hash_eq hmem] at hlast
      exact absurd hlast.symm (hanchor₂ e₂ hmem)
  | append_singleton l₁ e₁ ih =>
    have hmem₁ : e₁ ∈ l₁ ++ [e₁] := by simp
    cases l₂ using List.reverseRecOn with
    | nil =>
      rw [lastHash_nil, lastHash_concat, h₁.hash_eq hmem₁] at hlast
      exact absurd hlast (hanchor₁ e₁ hmem₁)
    | append_singleton l₂ e₂ =>
      have hmem₂ : e₂ ∈ l₂ ++ [e₂] := by simp
      rw [lastHash_concat, lastHash_concat] at hlast
      have hsame : key e₁ = key e₂ := by
        refine hkey e₁ hmem₁ e₂ hmem₂ ?_
        rw [← h₁.hash_eq hmem₁, ← h₂.hash_eq hmem₂, hlast]
      obtain ⟨hinit₁, hlink₁, -⟩ := (hashChain_concat prev hash digest anchor l₁ e₁).mp h₁
      obtain ⟨hinit₂, hlink₂, -⟩ := (hashChain_concat prev hash digest anchor l₂ e₂).mp h₂
      have hinit : List.Forall₂ (fun e e' => key e = key e' ∧ hash e = hash e') l₁ l₂ := by
        refine ih (fun e he e' he' => hkey e (by simp [he]) e' (by simp [he']))
          (fun e he e' he' => hprev e (by simp [he]) e' (by simp [he']))
          (fun e he => hanchor₁ e (by simp [he])) (fun e he => hanchor₂ e (by simp [he]))
          hinit₁ hinit₂ ?_
        rw [← hlink₁, ← hlink₂]
        exact hprev e₁ hmem₁ e₂ hmem₂ hsame
      exact List.rel_append hinit (List.Forall₂.cons ⟨hsame, hlast⟩ List.Forall₂.nil)

end TrustFlow.Library
