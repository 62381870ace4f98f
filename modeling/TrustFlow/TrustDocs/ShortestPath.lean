import TrustFlow.TrustDocs.GraphPaths

/-!
# The shortest path

The breadth-first search of `find_paths_in_edges`, with its bound on the depth and its exit as
soon as the target is met.

* `Follows` — one node lists the other as its neighbour.
* `Tree` — the nodes visited so far: each but the source has a parent, and its depth is its
  distance.
* `Layered` — what holds while the neighbours of a node are visited: the queue has one layer and
  the begin of the next, and nothing within the layer was missed.
* `Layered.visitNeighbours`, `Layered.bfs` — the inner loop and the outer one.
* `Tree.walkBack` — the way back along the parents.
* `shortest_path_correct` — **a path is found if and only if there is one within the bound, and
  no path is shorter.**
-/

namespace TrustFlow.TrustDocs

open Library List Option BfsState

/-- The node lists the other one as a neighbour. -/
def Follows (next : Str → List Str) (a b : Str) : Prop := b ∈ next a

section

variable (next : Str → List Str) (source target : Str) (maxDepth : ℕ)

/-- The visited nodes.  Depths are distances from the source. -/
structure Tree (s : BfsState) : Prop where
  root : s.depth.get? source = some 0
  rootless : s.parents.get? source = none
  visited : ∀ v, v ∈ s.visited ↔ ∃ k, s.depth.get? v = some k
  parent : ∀ v ∈ s.visited, v ≠ source → ∃ u k, s.parents.get? v = some u ∧
    Follows next u v ∧ s.depth.get? u = some k ∧ s.depth.get? v = some (k + 1)
  unvisited : ∀ v, v ∉ s.visited → s.parents.get? v = none
  minimal : ∀ v k j, s.depth.get? v = some k → Reaches (Follows next) source j v → k ≤ j
  bounded : ∀ v k, s.depth.get? v = some k → k ≤ maxDepth

/-- The state while the neighbours `rest` of the current node are still to be visited, at
the given depth. -/
structure Layered (s : BfsState) (level : ℕ) (current : Str) (rest : List Str) : Prop where
  tree : Tree next source maxDepth s
  queue : ∃ here there, s.queue = here ++ there ∧ (∀ v ∈ here, s.depth.get? v = some level) ∧
    ∀ v ∈ there, s.depth.get? v = some (level + 1)
  closed : ∀ v k, s.depth.get? v = some k → k < maxDepth → ∀ w, Follows next v w →
    w ∈ s.visited ∨ v ∈ s.queue ∨ (v = current ∧ w ∈ rest)
  within : ∀ v j, Reaches (Follows next) source j v → j ≤ level → v ∈ s.visited
  target : target ∉ s.visited

/-- The state in which the search ends. -/
structure Searched (s : BfsState) : Prop where
  tree : Tree next source maxDepth s
  found : target ∉ s.visited → ∀ j ≤ maxDepth, ¬ Reaches (Follows next) source j target

end

section

variable {next : Str → List Str} {source target current nxt : Str} {maxDepth level : ℕ}
  {s : BfsState} {rest : List Str}

section

variable (h : Tree next source maxDepth s)
include h

theorem Tree.setQueue (queue : List Str) :
    Tree next source maxDepth { s with queue := queue } :=
  ⟨h.root, h.rootless, h.visited, h.parent, h.unvisited, h.minimal, h.bounded⟩

theorem Tree.mem_visited {v : Str} {k : ℕ}
    (hv : s.depth.get? v = some k) : v ∈ s.visited :=
  (h.visited v).mpr ⟨k, hv⟩

/-- **A new node** one step further than its parent, which no shorter way reaches. -/
theorem Tree.discover (hcurrent : s.depth.get? current = some level)
    (hlevel : level < maxDepth) (hnew : nxt ∉ s.visited) (hedge : Follows next current nxt)
    (hfar : ∀ j, Reaches (Follows next) source j nxt → level < j) :
    Tree next source maxDepth (s.discover current level nxt) := by
  have hne : ∀ {v k}, s.depth.get? v = some k → nxt ≠ v := by
    rintro v k hv rfl
    exact hnew (h.mem_visited hv)
  have hdepth : ∀ v, (s.discover current level nxt).depth.get? v
      = if nxt = v then some (level + 1) else s.depth.get? v := fun v => Dict.get?_set _ _ _ _
  have hold : ∀ {v k}, s.depth.get? v = some k →
      (s.discover current level nxt).depth.get? v = some k := fun {v k} hv => by
    rw [hdepth, if_neg (hne hv), hv]
  have hcases : ∀ {v k}, (s.discover current level nxt).depth.get? v = some k →
      (nxt = v ∧ k = level + 1) ∨ s.depth.get? v = some k := fun {v k} hv => by
    rw [hdepth] at hv
    split at hv
    · next heq => exact .inl ⟨heq, (Option.some.inj hv).symm⟩
    · exact .inr hv
  refine ⟨hold h.root, ?_, fun v => ?_, fun v hv hsource => ?_, fun v hv => ?_, ?_, ?_⟩
  · exact (Dict.get?_set_of_ne _ _ (hne h.root)).trans h.rootless
  · rw [BfsState.discover, Finset.mem_insert, h.visited]
    constructor
    · rintro (rfl | ⟨k, hk⟩)
      · exact ⟨level + 1, by rw [Dict.get?_set_self]⟩
      · exact ⟨k, hold hk⟩
    · rintro ⟨k, hk⟩
      exact (hcases hk).imp (fun h => h.1.symm) fun h => ⟨k, h⟩
  · rcases Finset.mem_insert.mp hv with rfl | hv
    · exact ⟨current, level, Dict.get?_set_self _ _ _, hedge, hold hcurrent, by
        rw [hdepth, if_pos rfl]⟩
    · obtain ⟨u, k, hu, hfollows, hk, hk'⟩ := h.parent v hv hsource
      exact ⟨u, k, (Dict.get?_set_of_ne _ _ (hne hk')).trans hu, hfollows, hold hk, hold hk'⟩
  · rw [BfsState.discover, Finset.mem_insert, not_or] at hv
    exact (Dict.get?_set_of_ne _ _ (Ne.symm hv.1)).trans (h.unvisited v hv.2)
  · intro v k j hv hreaches
    rcases hcases hv with ⟨rfl, rfl⟩ | hv
    · exact hfar j hreaches
    · exact h.minimal v k j hv hreaches
  · intro v k hv
    rcases hcases hv with ⟨rfl, rfl⟩ | hv
    · exact hlevel
    · exact h.bounded v k hv

end

/-! ## The inner loop -/

namespace Layered

/-- Neighbours that were visited, or are too deep, need no visit. -/
theorem imp (h : Layered next source target maxDepth s level current rest) {rest' : List Str}
    (hrest : ∀ w ∈ rest, w ∈ rest' ∨ w ∈ s.visited ∨ ∀ k, s.depth.get? current = some k →
      maxDepth ≤ k) : Layered next source target maxDepth s level current rest' where
  tree := h.tree
  queue := h.queue
  within := h.within
  target := h.target
  closed v k hv hk w hw := by
    rcases h.closed v k hv hk w hw with hvisited | hqueue | ⟨rfl, hmem⟩
    · exact .inl hvisited
    · exact .inr (.inl hqueue)
    · rcases hrest w hmem with hmem | hvisited | hdeep
      · exact .inr (.inr ⟨rfl, hmem⟩)
      · exact .inl hvisited
      · exact absurd (hdeep k hv) (Nat.not_le.mpr hk)

/-- **A neighbour is put into the queue**, at the end of the next layer. -/
theorem discover (h : Layered next source target maxDepth s level current (nxt :: rest))
    (hcurrent : s.depth.get? current = some level) (hlevel : level < maxDepth)
    (hnew : nxt ∉ s.visited) (hedge : Follows next current nxt) (htarget : nxt ≠ target) :
    Layered next source target maxDepth
      { s.discover current level nxt with queue := s.queue ++ [nxt] } level current rest := by
  have hfar : ∀ j, Reaches (Follows next) source j nxt → level < j := fun j hreaches =>
    Nat.not_le.mp fun hle => hnew (h.within nxt j hreaches hle)
  have hold : ∀ {v k}, s.depth.get? v = some k →
      (s.discover current level nxt).depth.get? v = some k := by
    intro v k hv
    refine (Dict.get?_set_of_ne _ _ ?_).trans hv
    rintro rfl
    exact hnew (h.tree.mem_visited hv)
  refine ⟨(h.tree.discover hcurrent hlevel hnew hedge hfar).setQueue _, ?_, ?_, ?_, ?_⟩
  · obtain ⟨here, there, hqueue, hhere, hthere⟩ := h.queue
    refine ⟨here, there ++ [nxt], by rw [← append_assoc, ← hqueue], fun v hv => hold (hhere v hv),
      fun v hv => ?_⟩
    rcases mem_append.mp hv with hv | hv
    · exact hold (hthere v hv)
    · rw [mem_singleton.mp hv]
      exact Dict.get?_set_self _ _ _
  · intro v k hv hk w hw
    by_cases hnxt : nxt = v
    · exact .inr (.inl (mem_append_right _ (hnxt ▸ mem_singleton_self nxt)))
    · have hv : s.depth.get? v = some k := (Dict.get?_set_of_ne _ _ hnxt).symm.trans hv
      rcases h.closed v k hv hk w hw with hvisited | hqueue | ⟨rfl, hmem⟩
      · exact .inl (Finset.mem_insert_of_mem hvisited)
      · exact .inr (.inl (mem_append_left _ hqueue))
      · rcases mem_cons.mp hmem with rfl | hmem
        · exact .inl (Finset.mem_insert_self _ _)
        · exact .inr (.inr ⟨rfl, hmem⟩)
  · exact fun v j hreaches hj => Finset.mem_insert_of_mem (h.within v j hreaches hj)
  · exact fun hmem => (Finset.mem_insert.mp hmem).elim (fun heq => htarget heq.symm) h.target

/-- **The inner loop** visits the neighbours, or meets the target and empties the queue. -/
theorem visitNeighbours (h : Layered next source target maxDepth s level current rest)
    (hcurrent : s.depth.get? current = some level) (hlevel : level < maxDepth)
    (hrest : ∀ w ∈ rest, Follows next current w) :
    Layered next source target maxDepth (TrustDocs.visitNeighbours target current level rest s) level
        current [] ∨
      (Searched next source target maxDepth (TrustDocs.visitNeighbours target current level rest s) ∧
        (TrustDocs.visitNeighbours target current level rest s).queue = []) := by
  induction rest generalizing s with
  | nil => exact .inl h
  | cons nxt rest ih =>
    have hrest' : ∀ w ∈ rest, Follows next current w :=
      fun w hw => hrest w (mem_cons_of_mem _ hw)
    rw [TrustDocs.visitNeighbours]
    by_cases hmem : nxt ∈ s.visited
    · rw [if_pos hmem]
      refine ih (h.imp fun w hw => ?_) hcurrent hrest'
      rcases mem_cons.mp hw with rfl | hw
      · exact .inr (.inl hmem)
      · exact .inl hw
    · have hedge := hrest nxt mem_cons_self
      rw [if_neg hmem]
      dsimp only
      by_cases htarget : nxt = target
      · rw [if_pos htarget]
        have hfar : ∀ j, Reaches (Follows next) source j nxt → level < j := fun j hreaches =>
          Nat.not_le.mp fun hle => hmem (h.within nxt j hreaches hle)
        refine .inr ⟨⟨(h.tree.discover hcurrent hlevel hmem hedge hfar).setQueue _, ?_⟩, rfl⟩
        exact fun hvisited => absurd (htarget ▸ Finset.mem_insert_self nxt s.visited) hvisited
      · rw [if_neg htarget]
        refine ih (h.discover hcurrent hlevel hmem hedge htarget) ?_ hrest'
        refine (Dict.get?_set_of_ne _ _ ?_).trans hcurrent
        rintro rfl
        exact hmem (h.tree.mem_visited hcurrent)

/-! ## The outer loop -/

section

variable (h : Layered next source target maxDepth s level current [])
include h

/-- The next node of the queue.  When the layer is used up, all that is one step further was
visited: its nodes follow nodes of the layer. -/
theorem pop {first : Str}
    {queue : List Str} (hqueue : s.queue = first :: queue) :
    ∃ level', s.depth.get? first = some level' ∧
      Layered next source target maxDepth { s with queue := queue } level' first (next first) := by
  have hclosed : ∀ v k, s.depth.get? v = some k → k < maxDepth → ∀ w, Follows next v w →
      w ∈ s.visited ∨ v ∈ queue ∨ (v = first ∧ w ∈ next first) := by
    intro v k hv hk w hw
    rcases h.closed v k hv hk w hw with hvisited | hmem | ⟨-, hmem⟩
    · exact .inl hvisited
    · rw [hqueue] at hmem
      rcases mem_cons.mp hmem with rfl | hmem
      · exact .inr (.inr ⟨rfl, hw⟩)
      · exact .inr (.inl hmem)
    · cases hmem
  obtain ⟨here, there, hparts, hhere, hthere⟩ := h.queue
  rw [hqueue] at hparts
  cases here with
  | cons a here =>
    obtain ⟨rfl, rfl⟩ := List.cons.inj hparts
    refine ⟨level, hhere first mem_cons_self, h.tree.setQueue _, ?_, hclosed, h.within, h.target⟩
    exact ⟨here, there, rfl, fun v hv => hhere v (mem_cons_of_mem _ hv), hthere⟩
  | nil =>
    rw [nil_append] at hparts
    subst hparts
    have hfirst := hthere first mem_cons_self
    refine ⟨level + 1, hfirst, h.tree.setQueue _, ?_, hclosed, ?_, h.target⟩
    · exact ⟨queue, [], (append_nil queue).symm,
        fun v hv => hthere v (mem_cons_of_mem _ hv), fun v hv => absurd hv not_mem_nil⟩
    · intro v j hreaches hj
      rcases Nat.lt_or_ge level j with hlt | hle
      · obtain rfl : j = level + 1 := by omega
        cases hreaches with
        | step hu huv =>
          rename_i u
          obtain ⟨k, hk⟩ := (h.tree.visited u).mp (h.within u level hu le_rfl)
          have hkle := h.tree.minimal u k level hk hu
          have hbound := h.tree.bounded first (level + 1) hfirst
          rcases h.closed u k hk (by omega) v huv with hvisited | hmem | ⟨-, hmem⟩
          · exact hvisited
          · rw [hqueue] at hmem
            have hdeep := Option.mem_unique hk (hthere u hmem)
            omega
          · cases hmem
      · exact h.within v j hreaches hle

/-- When the queue is empty, all within the bound was visited. -/
theorem searched
    (hqueue : s.queue = []) : Searched next source target maxDepth s where
  tree := h.tree
  found _ j hj hreaches := by
    have hvisited : ∀ v j, Reaches (Follows next) source j v → j ≤ maxDepth → v ∈ s.visited := by
      intro v j hreaches
      induction hreaches with
      | refl => exact fun _ => h.tree.mem_visited h.tree.root
      | step hu huv ih =>
        intro hj
        obtain ⟨k, hk⟩ := (h.tree.visited _).mp (ih (by omega))
        have hkle := h.tree.minimal _ k _ hk hu
        rcases h.closed _ k hk (by omega) _ huv with hvisited | hmem | ⟨-, hmem⟩
        · exact hvisited
        · rw [hqueue] at hmem
          cases hmem
        · cases hmem
    exact h.target (hvisited target j hreaches hj)

end

end Layered

/-- The source alone. -/
theorem layered_start (hne : source ≠ target) :
    Layered next source target maxDepth (.start source) 0 source [] := by
  have hdepth : ∀ v k, (start source).depth.get? v = some k → v = source ∧ k = 0 := by
    intro v k hv
    rw [start, Dict.get?_set] at hv
    split at hv
    · next heq => exact ⟨heq.symm, (Option.some.inj hv).symm⟩
    · cases hv
  have hroot : (start source).depth.get? source = some 0 := Dict.get?_set_self _ _ _
  refine ⟨⟨hroot, rfl, fun v => ?_, fun v hv hsource => ?_, fun v _ => rfl, fun v k j hv _ => ?_,
    fun v k hv => ?_⟩, ?_, fun v k hv _ w _ => ?_, fun v j hreaches hj => ?_, ?_⟩
  · rw [start, Finset.mem_singleton]
    exact ⟨fun h => ⟨0, h ▸ hroot⟩, fun ⟨k, hk⟩ => (hdepth v k hk).1⟩
  · exact absurd (Finset.mem_singleton.mp hv) hsource
  · rw [(hdepth v k hv).2]
    exact Nat.zero_le j
  · rw [(hdepth v k hv).2]
    exact Nat.zero_le maxDepth
  · refine ⟨[source], [], rfl, fun v hv => ?_, fun v hv => absurd hv not_mem_nil⟩
    rw [mem_singleton.mp hv]
    exact hroot
  · rw [(hdepth v k hv).1]
    exact .inr (.inl (mem_singleton_self source))
  · obtain rfl := Nat.le_zero.mp hj
    cases hreaches
    exact Finset.mem_singleton_self source
  · exact fun hmem => hne (Finset.mem_singleton.mp hmem).symm

/-- The turns that may still come: nodes of the queue, and nodes that were not visited. -/
def BfsState.turns (all : Finset Str) (s : BfsState) : ℕ := (all \ s.visited).card + s.queue.length

theorem turns_visitNeighbours {all : Finset Str} (hrest : ∀ w ∈ rest, w ∈ all) :
    (visitNeighbours target current level rest s).turns all ≤ s.turns all := by
  induction rest generalizing s with
  | nil => exact Nat.le_refl _
  | cons nxt rest ih =>
    rw [visitNeighbours]
    by_cases hmem : nxt ∈ s.visited
    · rw [if_pos hmem]
      exact ih fun w hw => hrest w (mem_cons_of_mem _ hw)
    · have hnxt : nxt ∈ all \ s.visited :=
        Finset.mem_sdiff.mpr ⟨hrest nxt mem_cons_self, hmem⟩
      have hcard : (all \ insert nxt s.visited).card + 1 = (all \ s.visited).card := by
        rw [Finset.sdiff_insert, Finset.card_erase_add_one hnxt]
      rw [if_neg hmem]
      dsimp only
      split
      · simp only [turns, discover, length_nil]
        omega
      · refine (ih fun w hw => hrest w (mem_cons_of_mem _ hw)).trans (le_of_eq ?_)
        simp only [turns, discover, length_append, length_singleton]
        omega

/-- **The outer loop** ends, with a tree that has the target if it is within the bound. -/
theorem Layered.bfs {all : Finset Str} (hall : ∀ a, ∀ w ∈ next a, w ∈ all) {turns : ℕ}
    (h : Layered next source target maxDepth s level current []) (hturns : s.turns all ≤ turns) :
    ∃ s', (∀ fuel > turns, TrustDocs.bfs next target maxDepth fuel s = some s') ∧
      Searched next source target maxDepth s' := by
  induction turns generalizing s level current with
  | zero =>
    rw [turns] at hturns
    have hqueue := eq_nil_of_length_eq_zero (by omega : s.queue.length = 0)
    refine ⟨s, fun | fuel + 1, _ => ?_, h.searched hqueue⟩
    rw [TrustDocs.bfs, hqueue]
  | succ turns ih =>
    cases hqueue : s.queue with
    | nil =>
      refine ⟨s, fun | fuel + 1, _ => ?_, h.searched hqueue⟩
      rw [TrustDocs.bfs, hqueue]
    | cons first queue =>
      obtain ⟨level', hfirst, hpop⟩ := h.pop hqueue
      have hless : ({ s with queue := queue } : BfsState).turns all ≤ turns := by
        rw [BfsState.turns, hqueue, length_cons] at hturns
        rw [BfsState.turns]
        dsimp only
        omega
      have hstep : ∀ fuel, TrustDocs.bfs next target maxDepth (fuel + 1) s
          = if maxDepth ≤ level' then
              TrustDocs.bfs next target maxDepth fuel { s with queue := queue }
            else TrustDocs.bfs next target maxDepth fuel (TrustDocs.visitNeighbours target first
              level' (next first) { s with queue := queue }) := by
        intro fuel
        rw [TrustDocs.bfs, hqueue]
        dsimp only
        rw [hfirst, getD_some]
      by_cases hdeep : maxDepth ≤ level'
      · obtain ⟨s', hrun, hsearched⟩ := ih (hpop.imp fun w _ => .inr (.inr fun k hk =>
          Option.mem_unique hfirst hk ▸ hdeep)) hless
        refine ⟨s', fun | fuel + 1, hfuel => ?_, hsearched⟩
        rw [hstep, if_pos hdeep]
        exact hrun fuel (by omega)
      · have hvisit : (TrustDocs.visitNeighbours target first level' (next first)
            { s with queue := queue }).turns all ≤ turns :=
          (turns_visitNeighbours (hall first)).trans hless
        rcases hpop.visitNeighbours hfirst (Nat.not_le.mp hdeep) fun w hw => hw with
          hlayered | ⟨hsearched, hnil⟩
        · obtain ⟨s', hrun, hsearched⟩ := ih hlayered hvisit
          refine ⟨s', fun | fuel + 1, hfuel => ?_, hsearched⟩
          rw [hstep, if_neg hdeep]
          exact hrun fuel (by omega)
        · -- the target was met: the loop finds its queue empty
          refine ⟨_, fun | fuel + 2, _ => ?_, hsearched⟩
          rw [hstep, if_neg hdeep, TrustDocs.bfs, hnil]

/-! ## The way back -/

/-- **The parents lead back to the source**, along a path whose length is the depth.  The
depths fall on the way, so that no node is met twice. -/
theorem Tree.walkBack (h : Tree next source maxDepth s) {v : Str} {k : ℕ}
    (hv : s.depth.get? v = some k) :
    ∃ nodes, Path (Follows next) source v nodes ∧ nodes.length = k + 1 ∧ nodes.Nodup ∧
      (∀ w ∈ nodes, ∃ j ≤ k, s.depth.get? w = some j) ∧
      ∀ fuel > k, ∀ back, TrustDocs.walkBack s.parents fuel v back
        = some (back ++ nodes.reverse.tail) := by
  induction k generalizing v with
  | zero =>
    have hsource : v = source := by
      by_contra hne
      obtain ⟨u, j, -, -, -, hj⟩ := h.parent v (h.mem_visited hv) hne
      cases hv.symm.trans hj
    subst hsource
    refine ⟨[v], .single v, rfl, nodup_singleton v, fun w hw => ?_, fun | fuel + 1, _, back => ?_⟩
    · exact ⟨0, le_rfl, (mem_singleton.mp hw) ▸ hv⟩
    · rw [TrustDocs.walkBack, h.rootless]
      exact congrArg some (append_nil back).symm
  | succ k ih =>
    have hne : v ≠ source := by
      rintro rfl
      cases hv.symm.trans h.root
    obtain ⟨u, j, hparent, hfollows, hu, hj⟩ := h.parent v (h.mem_visited hv) hne
    obtain rfl : j = k := Nat.succ.inj (Option.mem_unique hj hv)
    obtain ⟨nodes, hpath, hlength, hnodup, hdepths, hback⟩ := ih hu
    refine ⟨nodes ++ [v], hpath.snoc hfollows, by rw [length_append, hlength]; rfl, ?_, ?_,
      fun | fuel + 1, hfuel, back => ?_⟩
    · refine nodup_append'.mpr ⟨hnodup, nodup_singleton v, ?_⟩
      refine disjoint_singleton.mpr fun hmem => ?_
      obtain ⟨i, hi, hdepth⟩ := hdepths v hmem
      have heq := Option.mem_unique hdepth hv
      omega
    · intro w hw
      rcases mem_append.mp hw with hw | hw
      · obtain ⟨i, hi, hdepth⟩ := hdepths w hw
        exact ⟨i, by omega, hdepth⟩
      · exact ⟨j + 1, le_rfl, (mem_singleton.mp hw) ▸ hv⟩
    · rw [TrustDocs.walkBack, hparent]
      dsimp only
      obtain ⟨init, rfl⟩ := List.getLast?_eq_some_iff.mp hpath.last
      rw [hback fuel (by omega), append_assoc]
      simp

end

/-! ## The answer -/

section

variable {edges : List GraphEdge} (order : NeighbourOrder edges) {source target : Str}

/-- What the answer with the shortest path has to be. -/
structure Shortest (edges : List GraphEdge) (source target : Str) (maxDepth : ℕ)
    (answer : PathsAnswer) : Prop where
  found : answer.paths ≠ [] ↔
    ∃ nodes, DirectedPath edges source target nodes ∧ nodes.length ≤ maxDepth + 1
  single : answer.paths.length ≤ 1
  path : ∀ path ∈ answer.paths, DirectedPath edges source target path.nodes
  simple : ∀ path ∈ answer.paths, path.nodes.Nodup
  short : ∀ path ∈ answer.paths, ∀ nodes, DirectedPath edges source target nodes →
    path.nodes.length ≤ nodes.length
  edges : ∀ path ∈ answer.paths, path.edges = path.nodes.zip path.nodes.tail

theorem NeighbourOrder.follows_eq_linked : Follows order.next = Linked edges :=
  order.next_eq_linked

/-- Where the search can lead, apart from its start. -/
theorem NeighbourOrder.mem_toNodes (a : Str) :
    ∀ w ∈ order.next a, w ∈ (edges.filterMap GraphEdge.toNode).toFinset := by
  intro w hw
  obtain ⟨edge, hedge, -, hto, -⟩ := order.mem_next_iff.mp hw
  exact mem_toFinset.mpr (mem_filterMap.mpr ⟨edge, hedge, hto⟩)

theorem turns_start (edges : List GraphEdge) (source : Str) :
    (BfsState.start source).turns (edges.filterMap GraphEdge.toNode).toFinset
      ≤ edges.length + 1 := by
  have hcard : ((edges.filterMap GraphEdge.toNode).toFinset \ {source}).card ≤ edges.length :=
    (Finset.card_le_card Finset.sdiff_subset).trans
      ((toFinset_card_le _).trans (length_filterMap_le _ _))
  exact Nat.add_le_add_right hcard 1

/-- The answer of this mode. -/
def shortestAnswer (source target : Str) (paths : List FoundPath) : PathsAnswer :=
  ⟨"shortest", source, target, paths, paths.length, false⟩

theorem findPathsInEdges_shortest (hne : source ≠ target) (maxPaths maxDepth : ℤ) {fuel : ℕ}
    {paths : List FoundPath}
    (hpaths : shortestPaths order.next source target (clamp 64 maxDepth) fuel = some paths) :
    findPathsInEdges order fuel source target "shortest" maxPaths maxDepth
      = .ok (shortestAnswer source target paths) := by
  rw [findPathsInEdges, if_neg (by simp), if_neg hne, if_pos rfl, hpaths]
  rfl

/-- **The shortest path**: the search ends, it finds a path if and only if there is one within
the bound, and the path it finds is simple and as short as any. -/
theorem shortest_path_correct (hne : source ≠ target) (maxPaths maxDepth : ℤ) :
    ∃ answer, (∀ fuel ≥ edges.length + 66, findPathsInEdges order fuel source target
        "shortest" maxPaths maxDepth = .ok answer) ∧
      Shortest edges source target (clamp 64 maxDepth) answer := by
  have hbound : clamp 64 maxDepth ≤ 64 := clamp_le (by decide) maxDepth
  have hstart : Layered order.next source target (clamp 64 maxDepth) (.start source) 0 source [] :=
    layered_start hne
  obtain ⟨s, hrun, htree, hfound⟩ := hstart.bfs order.mem_toNodes (turns_start edges source)
  rw [order.follows_eq_linked] at hfound
  by_cases hvisited : target ∈ s.visited
  · obtain ⟨k, hk⟩ := (htree.visited target).mp hvisited
    obtain ⟨u, -, hparent, -⟩ := htree.parent target hvisited hne.symm
    obtain ⟨nodes, hpath, hlength, hnodup, -, hback⟩ := htree.walkBack hk
    have hkbound := htree.bounded target k hk
    have hnodes : ([target] ++ nodes.reverse.tail).reverse = nodes := by
      obtain ⟨init, rfl⟩ := List.getLast?_eq_some_iff.mp hpath.last
      simp
    rw [order.follows_eq_linked] at hpath
    refine ⟨shortestAnswer source target [foundPath nodes], fun fuel hfuel => ?_, ?_⟩
    · refine findPathsInEdges_shortest order hne maxPaths maxDepth ?_
      rw [shortestPaths, hrun fuel (by omega)]
      simp only [bind_eq_bind, bind_some, hparent, isNone_some, hback fuel (by omega), hnodes]
      rfl
    · have honly : ∀ {P : FoundPath → Prop}, P (foundPath nodes) →
          ∀ path ∈ (shortestAnswer source target [foundPath nodes]).paths, P path :=
        fun hP path hmem => (mem_singleton.mp hmem) ▸ hP
      refine ⟨iff_of_true (cons_ne_nil _ _) ⟨nodes, hpath, by omega⟩, le_rfl, honly hpath,
        honly hnodup, honly fun other hother => ?_, honly (edgePath_eq_zip nodes)⟩
      obtain ⟨j, hj⟩ := hother.exists_length
      have hle := htree.minimal target k j hk (by
        rw [order.follows_eq_linked]
        exact reaches_iff.mpr ⟨other, hother, hj⟩)
      show nodes.length ≤ other.length
      omega
  · have hnone := htree.unvisited target hvisited
    refine ⟨shortestAnswer source target [], fun fuel hfuel => ?_, ?_⟩
    · refine findPathsInEdges_shortest order hne maxPaths maxDepth ?_
      rw [shortestPaths, hrun fuel (by omega)]
      simp only [bind_eq_bind, bind_some, hnone, isNone_none]
      rfl
    · have hempty : ∀ {P : FoundPath → Prop}, ∀ path ∈ (shortestAnswer source target []).paths,
          P path := fun path hmem => absurd hmem not_mem_nil
      refine ⟨iff_of_false (fun h => h rfl) ?_, Nat.zero_le 1, hempty, hempty, hempty, hempty⟩
      rintro ⟨nodes, hpath, hlength⟩
      obtain ⟨j, hj⟩ := hpath.exists_length
      exact hfound hvisited j (by omega) (reaches_iff.mpr ⟨nodes, hpath, hj⟩)

theorem shortest_path_correct_diamond :
    "A" ≠ "D".toList ∧ ∃ answer, (∀ fuel ≥ diamond.length + 66,
        findPathsInEdges (insertionOrder diamond) fuel "A" "D" "shortest" 25 16
          = .ok answer) ∧
      Shortest diamond "A" "D" (clamp 64 16) answer :=
  ⟨by decide, shortest_path_correct (insertionOrder diamond) (by decide) 25 16⟩

end

end TrustFlow.TrustDocs
