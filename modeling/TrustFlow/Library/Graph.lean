import Mathlib.Data.List.Chain
import Mathlib.Data.List.Nodup

/-!
# Paths through directed graphs

A graph by the neighbours of its nodes: `next a` lists where the edges from `a` lead, in the
order in which a search takes them.

* `Path` — a list of nodes along the edges, from a source to a target.
* `Reaches` — the target is reached in so many steps; `reaches_iff` says that these are the
  paths with so many edges.
* `simplePaths` — the simple paths that go on from a trail, as a search with backtracking
  meets them.
* `mem_simplePaths`, `nodup_simplePaths` — **it meets all of them, and none twice.**
-/

namespace TrustFlow.Library

open List

variable {α : Type*}

section

variable (R : α → α → Prop)

/-- The nodes of a path from a source to a target, both included. -/
structure Path (source target : α) (nodes : List α) : Prop where
  head : nodes.head? = some source
  last : nodes.getLast? = some target
  chain : nodes.IsChain R

/-- The target is reached in so many steps. -/
inductive Reaches (source : α) : ℕ → α → Prop where
  | refl : Reaches source 0 source
  | step {k : ℕ} {a b : α} : Reaches source k a → R a b → Reaches source (k + 1) b

end

section

variable {R : α → α → Prop} {source target a b : α} {nodes : List α}

theorem Path.single (a : α) : Path R a a [a] := ⟨rfl, rfl, .singleton a⟩

/-- A path has one node more than it has edges. -/
theorem Path.exists_length (h : Path R source target nodes) : ∃ k, nodes.length = k + 1 := by
  refine Nat.exists_eq_add_one_of_ne_zero fun hzero => ?_
  rw [eq_nil_of_length_eq_zero hzero] at h
  cases h.head

/-- A path goes on along an edge. -/
theorem Path.snoc (h : Path R source a nodes) (hab : R a b) : Path R source b (nodes ++ [b]) where
  head := by
    cases nodes with
    | nil => cases h.head
    | cons c nodes => exact h.head
  last := List.getLast?_concat
  chain := by
    refine isChain_append.mpr ⟨h.chain, .singleton b, fun c hc d hd => ?_⟩
    obtain rfl := Option.mem_unique h.last hc
    obtain rfl := Option.some.inj hd
    exact hab

/-- A path is one node, or ends with an edge. -/
theorem Path.cases_snoc (h : Path R source target nodes) :
    (nodes = [source] ∧ source = target) ∨
      ∃ init a, nodes = init ++ [target] ∧ Path R source a init ∧ R a target := by
  obtain ⟨init, rfl⟩ := List.getLast?_eq_some_iff.mp h.last
  rcases eq_nil_or_concat' init with rfl | ⟨init, a, rfl⟩
  · obtain rfl := Option.some.inj h.head
    exact .inl ⟨rfl, rfl⟩
  · obtain ⟨hinit, -, hlink⟩ := isChain_append.mp h.chain
    refine .inr ⟨init ++ [a], a, rfl, ⟨?_, List.getLast?_concat, hinit⟩, ?_⟩
    · have hhead := h.head
      cases init with
      | nil => exact hhead
      | cons c init => exact hhead
    · exact hlink a List.getLast?_concat target rfl

/-- **Paths are what is reached.** -/
theorem reaches_iff {k : ℕ} :
    Reaches R source k target ↔ ∃ nodes, Path R source target nodes ∧ nodes.length = k + 1 := by
  constructor
  · intro h
    induction h with
    | refl => exact ⟨[source], .single source, rfl⟩
    | step _ hab ih =>
      obtain ⟨nodes, hpath, hlength⟩ := ih
      exact ⟨nodes ++ [_], hpath.snoc hab, by rw [length_append, hlength]; rfl⟩
  · rintro ⟨nodes, hpath, hlength⟩
    induction k generalizing target nodes with
    | zero =>
      rcases hpath.cases_snoc with ⟨-, rfl⟩ | ⟨init, a, rfl, hinit, -⟩
      · exact .refl
      · rw [length_append, length_singleton] at hlength
        obtain rfl := eq_nil_of_length_eq_zero (by omega : init.length = 0)
        cases hinit.head
    | succ k ih =>
      rcases hpath.cases_snoc with ⟨rfl, -⟩ | ⟨init, a, rfl, hinit, hedge⟩
      · rw [length_singleton] at hlength
        omega
      · rw [length_append, length_singleton] at hlength
        exact (ih init hinit (by omega)).step hedge

end

/-! ## All simple paths -/

section

variable [DecidableEq α] (next : α → List α) (target : α)

/-- The simple paths to the target that go on from a trail, with fewer further steps than
the budget. -/
def simplePaths : ℕ → List α → α → List (List α)
  | 0, _, _ => []
  | budget + 1, trail, current =>
    if current = target then [trail]
    else ((next current).filter fun nxt => decide (nxt ∉ trail)).flatMap fun nxt =>
      simplePaths budget (trail ++ [nxt]) nxt

variable {next target} {budget : ℕ} {trail nodes : List α} {current : α}

theorem prefix_of_mem_simplePaths (h : nodes ∈ simplePaths next target budget trail current) :
    trail <+: nodes := by
  induction budget generalizing trail current with
  | zero => cases h
  | succ budget ih =>
    rw [simplePaths] at h
    split at h
    · exact (mem_singleton.mp h).symm ▸ prefix_rfl
    · obtain ⟨nxt, -, hnodes⟩ := mem_flatMap.mp h
      exact (prefix_append trail [nxt]).trans (ih hnodes)

/-- No path is met twice: two branches differ in the node where they part. -/
theorem nodup_simplePaths (hnext : ∀ a, (next a).Nodup) :
    (simplePaths next target budget trail current).Nodup := by
  induction budget generalizing trail current with
  | zero => exact nodup_nil
  | succ budget ih =>
    rw [simplePaths]
    split
    · exact nodup_singleton trail
    · refine nodup_flatMap.mpr ⟨fun nxt _ => ih, ?_⟩
      refine ((hnext current).filter _).pairwise_of_forall_ne fun a _ b _ hne p hpa hpb => hne ?_
      obtain ⟨r, rfl⟩ := prefix_of_mem_simplePaths hpa
      obtain ⟨r', hr'⟩ := prefix_of_mem_simplePaths hpb
      rw [append_assoc, append_assoc, append_cancel_left_eq] at hr'
      exact (List.cons.inj hr').1.symm

/-- **The paths that are met** are the simple ones within the budget. -/
theorem mem_simplePaths (htrail : trail.Nodup) (hlast : trail.getLast? = some current) :
    nodes ∈ simplePaths next target budget trail current ↔
      ∃ rest, nodes = trail ++ rest ∧ rest.length < budget ∧
        Path (fun a b => b ∈ next a) current target (current :: rest) ∧ nodes.Nodup := by
  induction budget generalizing trail current with
  | zero => exact iff_of_false not_mem_nil fun ⟨_, _, hlength, _⟩ => Nat.not_lt_zero _ hlength
  | succ budget ih =>
    have hcurrent : current ∈ trail := mem_of_getLast? hlast
    rw [simplePaths]
    by_cases htarget : current = target
    · -- a path that went on would meet its last node twice
      rw [if_pos htarget, mem_singleton]
      constructor
      · rintro rfl
        exact ⟨[], (append_nil _).symm, Nat.succ_pos _, htarget ▸ .single current, htrail⟩
      · rintro ⟨rest, rfl, -, hpath, hnodup⟩
        cases rest with
        | nil => exact append_nil trail
        | cons a rest =>
          have hmem : target ∈ a :: rest := by
            refine mem_of_getLast? (?_ : (a :: rest).getLast? = some target)
            rw [← hpath.last, List.getLast?_cons_cons]
          exact absurd (htarget ▸ hmem) ((nodup_append'.mp hnodup).2.2 hcurrent)
    · rw [if_neg htarget, mem_flatMap]
      have hstep : ∀ {nxt}, nxt ∉ trail → (trail ++ [nxt]).Nodup := fun hnew =>
        nodup_append'.mpr ⟨htrail, nodup_singleton _, disjoint_singleton.mpr hnew⟩
      constructor
      · rintro ⟨nxt, hnxt, hnodes⟩
        obtain ⟨hedge, hnew⟩ := mem_filter.mp hnxt
        have hnew := of_decide_eq_true hnew
        obtain ⟨rest, rfl, hlength, hpath, hnodup⟩ :=
          (ih (hstep hnew) List.getLast?_concat).mp hnodes
        refine ⟨nxt :: rest, by rw [append_assoc]; rfl, ?_, ⟨rfl, ?_, ?_⟩, hnodup⟩
        · rw [length_cons]
          omega
        · rw [List.getLast?_cons_cons, hpath.last]
        · exact isChain_cons_cons.mpr ⟨hedge, hpath.chain⟩
      · rintro ⟨rest, rfl, hlength, hpath, hnodup⟩
        cases rest with
        | nil => exact absurd (Option.some.inj hpath.last) htarget
        | cons nxt rest =>
          obtain ⟨hedge, hchain⟩ := isChain_cons_cons.mp hpath.chain
          have hnew : nxt ∉ trail := fun hmem =>
            (nodup_append'.mp hnodup).2.2 hmem mem_cons_self
          refine ⟨nxt, mem_filter.mpr ⟨hedge, decide_eq_true hnew⟩, ?_⟩
          have hassoc : trail ++ nxt :: rest = trail ++ [nxt] ++ rest := by
            rw [append_assoc]
            rfl
          refine (ih (hstep hnew) List.getLast?_concat).mpr
            ⟨rest, hassoc, ?_, ⟨rfl, ?_, hchain⟩, hnodup⟩
          · rw [length_cons] at hlength
            omega
          · rw [← hpath.last, List.getLast?_cons_cons]

end

end TrustFlow.Library
