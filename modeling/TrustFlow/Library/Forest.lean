import Mathlib.Data.List.Nodup
import Mathlib.Data.List.Perm.Subperm
import Mathlib.Logic.Relation

/-!
# Walks through forests

A recursion that collects what is below a node, child by child.  Nothing keeps it from
going on for ever, or from meeting a node twice, except that the children are those of a
forest.

* `walk` — the recursion, with a bound on its depth; `none` if the bound is too small.
* `Forest` — no node has two parents, and children lie deeper than their parent, down to
  some bound.
* `Forest.walk_spec` — there the recursion ends, and meets every node below exactly once.
* `search`, `search_spec` — the same with a stack, from a root that has no parent.
-/

namespace TrustFlow.Library

open List

variable {α : Type*} (children : α → List α)

/-- The nodes below a node, each followed by those below it. -/
def walk : ℕ → α → Option (List α)
  | 0, _ => none
  | fuel + 1, a =>
    ((children a).mapM fun child => (walk fuel child).map (child :: ·)).map List.flatten

/-- The node is reached from the other one, in any number of steps down. -/
def AtOrBelow : α → α → Prop := Relation.ReflTransGen fun parent child => child ∈ children parent

/-- The node is reached from the other one, in one step down or more. -/
def Below : α → α → Prop := Relation.TransGen fun parent child => child ∈ children parent

/-- The children of a forest, among the nodes with a property. -/
structure Forest (P : α → Prop) (depth : α → ℕ) (bound : ℕ) : Prop where
  closed : ∀ a, P a → ∀ child ∈ children a, P child
  nodup : ∀ a, P a → (children a).Nodup
  oneParent : ∀ a b, P a → P b → ∀ child, child ∈ children a → child ∈ children b → a = b
  deeper : ∀ a, P a → ∀ child ∈ children a, depth child = depth a + 1
  bounded : ∀ a, P a → depth a ≤ bound

namespace Forest

variable {children} {P : α → Prop} {depth : α → ℕ} {bound : ℕ} (h : Forest children P depth bound)
  {a b c d : α}
include h

theorem atOrBelow (ha : P a) (hab : AtOrBelow children a b) : P b ∧ depth a ≤ depth b := by
  induction hab with
  | refl => exact ⟨ha, Nat.le_refl _⟩
  | tail _ hstep ih =>
    have hdeeper := h.deeper _ ih.1 _ hstep
    exact ⟨h.closed _ ih.1 _ hstep, by omega⟩

/-- A node is in the trees of no two nodes of the same depth. -/
theorem eq_of_atOrBelow (ha : P a) (hb : P b) (hdepth : depth a = depth b)
    (hac : AtOrBelow children a c) (hbc : AtOrBelow children b c) : a = b := by
  induction hac with
  | refl =>
    -- `b` is at or above `a`, at the same depth.
    cases hbc with
    | refl => rfl
    | tail hbd hstep =>
      obtain ⟨hd, hle⟩ := h.atOrBelow hb hbd
      have hdeeper := h.deeper _ hd _ hstep
      omega
  | tail had hstep ih =>
    obtain ⟨hd, hle⟩ := h.atOrBelow ha had
    have hdeeper := h.deeper _ hd _ hstep
    cases hbc with
    | refl => omega
    | tail hbd hstep' =>
      obtain ⟨hd', -⟩ := h.atOrBelow hb hbd
      obtain rfl := h.oneParent _ _ hd hd' _ hstep hstep'
      exact ih hbd

end Forest

/-- All calls of a loop succeed. -/
theorem mapM_eq_some {β : Type*} {f : α → Option β} {g : α → β} {l : List α}
    (h : ∀ a ∈ l, f a = some (g a)) : l.mapM f = some (l.map g) := by
  induction l with
  | nil => rfl
  | cons a l ih =>
    rw [mapM_cons, h a mem_cons_self, ih fun b hb => h b (mem_cons_of_mem a hb)]
    rfl

/-- **The walk through a forest** ends, within the bound, and lists the nodes below exactly
once. -/
theorem Forest.walk_spec {children} {P : α → Prop} {depth : α → ℕ} {bound : ℕ}
    (h : Forest children P depth bound) {enough : ℕ} {a : α} (ha : P a)
    (henough : bound < depth a + enough) :
    ∃ found, (∀ fuel ≥ enough, walk children fuel a = some found) ∧ found.Nodup ∧
      ∀ b, b ∈ found ↔ Below children a b := by
  induction enough generalizing a with
  | zero => exact absurd (h.bounded a ha) (by omega)
  | succ enough ih =>
    have hsub : ∀ child ∈ children a, ∃ found,
        (∀ fuel ≥ enough, walk children fuel child = some found) ∧ found.Nodup ∧
          ∀ b, b ∈ found ↔ Below children child b := by
      intro child hchild
      have hdeeper := h.deeper a ha child hchild
      exact ih (h.closed a ha child hchild) (by omega)
    choose! found hfound hnodup hmem using hsub
    have htree : ∀ child ∈ children a, ∀ b,
        b ∈ child :: found child ↔ AtOrBelow children child b := by
      intro child hchild b
      rw [mem_cons, hmem child hchild, AtOrBelow, Relation.reflTransGen_iff_eq_or_transGen]
      rfl
    refine ⟨(children a).flatMap fun child => child :: found child, fun | fuel + 1, hfuel => ?_, ?_,
      fun b => ?_⟩
    · have hstep : ∀ child ∈ children a,
          (walk children fuel child).map (child :: ·) = some (child :: found child) := by
        intro child hchild
        rw [hfound child hchild fuel (Nat.le_of_succ_le_succ hfuel), Option.map_some]
      rw [walk, mapM_eq_some hstep]
      rfl
    · refine nodup_flatMap.mpr ⟨fun child hchild => ?_, ?_⟩
      · refine nodup_cons.mpr ⟨fun hself => ?_, hnodup child hchild⟩
        obtain ⟨d, hd, hstep⟩ := Relation.TransGen.tail'_iff.mp ((hmem child hchild child).mp hself)
        obtain ⟨hPd, hle⟩ := h.atOrBelow (h.closed a ha child hchild) hd
        have hdeeper := h.deeper d hPd child hstep
        omega
      · refine (h.nodup a ha).pairwise_of_forall_ne fun c hc c' hc' hne b hb hb' => hne ?_
        refine h.eq_of_atOrBelow (h.closed a ha c hc) (h.closed a ha c' hc') ?_
          ((htree c hc b).mp hb) ((htree c' hc' b).mp hb')
        rw [h.deeper a ha c hc, h.deeper a ha c' hc']
    · rw [mem_flatMap, Below, Relation.TransGen.head'_iff]
      constructor
      · rintro ⟨child, hchild, hb⟩
        exact ⟨child, hchild, (htree child hchild b).mp hb⟩
      · rintro ⟨child, hchild, hb⟩
        exact ⟨child, hchild, (htree child hchild b).mpr hb⟩

/-! ## With a stack -/

/-- A loop that takes a node from a stack, and puts its children there unless it has met the
node before. -/
def search [DecidableEq α] : ℕ → List α → List α → List α
  | 0, _, _ => []
  | _, [], _ => []
  | fuel + 1, a :: stack, seen =>
    if a ∈ seen then search fuel stack seen
    else a :: search fuel ((children a).reverse ++ stack) (a :: seen)

/-- What lies on the stack, and what the loop has met so far: no node twice, and all children
of what it has met. -/
structure Searching (root : α) (stack seen : List α) : Prop where
  nodup : (stack ++ seen).Nodup
  start : root ∈ stack ++ seen
  reached : ∀ a ∈ stack ++ seen, AtOrBelow children root a
  closed : ∀ a ∈ seen, children a ⊆ stack ++ seen
  parent : ∀ a ∈ stack ++ seen, ∀ b, a ∈ children b → b ∈ seen

variable {children} {root a : α} {stack seen : List α}

theorem Searching.start_of_root (hroot : ∀ b, root ∉ children b) :
    Searching children root [root] [] where
  nodup := nodup_singleton root
  start := mem_singleton_self root
  reached a ha := by
    rw [append_nil, mem_singleton] at ha
    rw [ha]
    exact .refl
  closed a ha := absurd ha not_mem_nil
  parent a ha b hb := by
    rw [append_nil, mem_singleton] at ha
    exact absurd (ha ▸ hb) (hroot b)

/-- **One turn of the loop.**  The children are new: their one parent was not met before. -/
theorem Searching.step (h : Searching children root (a :: stack) seen)
    (hnodup : (children a).Nodup)
    (hone : ∀ b c child, child ∈ children b → child ∈ children c → b = c) :
    Searching children root ((children a).reverse ++ stack) (a :: seen) := by
  have hperm : ((children a).reverse ++ stack ++ a :: seen).Perm
      (children a ++ (a :: stack ++ seen)) := by
    rw [append_assoc]
    exact (reverse_perm _).append perm_middle
  have hmem : ∀ b, b ∈ (children a).reverse ++ stack ++ a :: seen ↔
      b ∈ children a ∨ b ∈ a :: stack ++ seen := fun b => hperm.mem_iff.trans mem_append
  have hfresh : a ∉ seen := fun hseen =>
    (nodup_cons.mp h.nodup).1 (mem_append_right _ hseen)
  refine ⟨hperm.nodup_iff.mpr (nodup_append'.mpr ⟨hnodup, h.nodup, ?_⟩),
    (hmem root).mpr (.inr h.start), fun b hb => ?_, fun b hb child hchild => ?_,
    fun b hb c hc => ?_⟩
  · intro child hchild hold
    exact hfresh (h.parent child hold a hchild)
  · rcases (hmem b).mp hb with hb | hb
    · exact (h.reached a mem_cons_self).tail hb
    · exact h.reached b hb
  · rcases mem_cons.mp hb with rfl | hb
    · exact (hmem child).mpr (.inl hchild)
    · exact (hmem child).mpr (.inr (h.closed b hb hchild))
  · rcases (hmem b).mp hb with hb | hb
    · rw [hone c a b hc hb]
      exact mem_cons_self
    · exact mem_cons_of_mem a (h.parent b hb c hc)

/-- At the end of the loop all nodes below the root were met. -/
theorem Searching.complete (h : Searching children root [] seen) (ha : AtOrBelow children root a) :
    a ∈ seen := by
  induction ha with
  | refl => exact h.start
  | tail _ hstep ih => exact h.closed _ ih hstep

variable [DecidableEq α] (hnodup : ∀ b, (children b).Nodup)
  (hone : ∀ b c child, child ∈ children b → child ∈ children c → b = c) {nodes : List α}
  (hnodes : ∀ b, AtOrBelow children root b → b ∈ nodes) {fuel : ℕ}
include hnodup hone hnodes

/-- The loop, from any of its turns on. -/
theorem Searching.search_spec (h : Searching children root stack seen)
    (hfuel : nodes.length < fuel + seen.length) :
    (search children fuel stack seen).Nodup ∧
      ∀ b, b ∈ search children fuel stack seen ↔ AtOrBelow children root b ∧ b ∉ seen := by
  induction fuel generalizing stack seen with
  | zero =>
    -- no node is met twice, so that there are no more turns than nodes
    have hsubset : seen ⊆ nodes := fun b hb => hnodes b (h.reached b (mem_append_right _ hb))
    have hseen : seen.Nodup := (nodup_append'.mp h.nodup).2.1
    have hlength := (List.Nodup.subperm hseen hsubset).length_le
    omega
  | succ fuel ih =>
    cases stack with
    | nil =>
      refine ⟨nodup_nil, fun b => iff_of_false not_mem_nil ?_⟩
      exact fun hb => hb.2 (h.complete hb.1)
    | cons a stack =>
      have hfresh : a ∉ seen := fun hseen =>
        (nodup_cons.mp h.nodup).1 (mem_append_right _ hseen)
      obtain ⟨hrest, hmem⟩ := ih (h.step (hnodup a) hone) (by rw [length_cons]; omega)
      rw [search, if_neg hfresh]
      refine ⟨nodup_cons.mpr ⟨fun ha => ?_, hrest⟩, fun b => ?_⟩
      · exact ((hmem a).mp ha).2 mem_cons_self
      · rw [mem_cons, hmem, mem_cons, not_or]
        constructor
        · rintro (rfl | ⟨hb, -, hnew⟩)
          · exact ⟨h.reached b mem_cons_self, hfresh⟩
          · exact ⟨hb, hnew⟩
        · rintro ⟨hb, hnew⟩
          by_cases hba : b = a
          · exact .inl hba
          · exact .inr ⟨hb, hba, hnew⟩

/-- **The search from a root** meets every node at or below it exactly once. -/
theorem search_spec (hroot : ∀ b, root ∉ children b) (hfuel : nodes.length < fuel) :
    (search children fuel [root] []).Nodup ∧
      ∀ b, b ∈ search children fuel [root] [] ↔ AtOrBelow children root b := by
  obtain ⟨hlist, hmem⟩ := (Searching.start_of_root hroot).search_spec hnodup hone hnodes hfuel
  refine ⟨hlist, fun b => (hmem b).trans ?_⟩
  exact and_iff_left not_mem_nil

end TrustFlow.Library
