import Mathlib.Data.Finset.Dedup
import Mathlib.Data.Set.Card
import TrustFlow.Library.Dict
import TrustFlow.Library.Graph
import TrustFlow.Library.Text

/-!
# Paths between nodes of the provenance graph

`TrustFlowService.find_paths_in_edges` of `trustdocs/trustflow_service.py`: the shortest path
between two nodes, by a breadth-first search with a bound on the depth, or all simple paths, by
a depth-first search that stops when it has found enough of them.

* `adjacency`, `NeighbourOrder` — the sets of neighbours, and any order in which they are iterated.
* `bfs`, `dfs`, `findPathsInEdges` — the function.
* `dfs_spec` — what the depth-first search adds to the paths, all its changes undone.
* `all_paths_correct` — **it finds simple paths, and all of them unless it says truncated.**
* `truncated_exact_iff` — **truncated is right unless the number of paths is the limit itself.**

The loops have fuel; the results say that `edges.length + 66` is always enough.
-/

namespace TrustFlow.TrustDocs

open Library List

/-- An edge as the graph has it: either end may be missing. -/
structure GraphEdge where
  fromNode : Option Str
  toNode : Option Str
  deriving DecidableEq

/-- The edge leads from one node to the other, and neither is empty. -/
def GraphEdge.Joins (edge : GraphEdge) (a b : Str) : Prop :=
  edge.fromNode = some a ∧ edge.toNode = some b ∧ a ≠ [] ∧ b ≠ []

variable (edges : List GraphEdge)

/-- Some edge leads from one node to the other. -/
def Linked (a b : Str) : Prop := ∃ edge ∈ edges, edge.Joins a b

/-- One turn of the loop that collects the neighbours. -/
def addEdge (neighbours : Dict Str (Finset Str)) (edge : GraphEdge) : Dict Str (Finset Str) :=
  match edge.fromNode, edge.toNode with
  | some a, some b =>
    if a = [] ∨ b = [] then neighbours
    else neighbours.set a (insert b ((neighbours.get? a).getD ∅))
  | _, _ => neighbours

/-- `adjacency`. -/
def adjacency : Dict Str (Finset Str) := edges.foldl addEdge .empty

/-- An order in which the sets of neighbours are iterated. -/
structure NeighbourOrder (edges : List GraphEdge) where
  next : Str → List Str
  nodup : ∀ a, (next a).Nodup
  mem_next : ∀ a b, b ∈ next a ↔ b ∈ ((adjacency edges).get? a).getD ∅

/-- A path of the answer. -/
structure FoundPath where
  nodes : List Str
  edges : List (Str × Str)
  deriving DecidableEq

/-- The answer. -/
structure PathsAnswer where
  mode : Str
  source : Str
  target : Str
  paths : List FoundPath
  pathCount : ℕ
  truncated : Bool
  deriving DecidableEq

/-- The `ValueError` of the function; `unfinished` is a model that ran out of fuel. -/
inductive PathsError where
  | valueError (message : Str)
  | unfinished
  deriving DecidableEq

variable (nodes : List Str)

/-- `[{"from": node_path[i], "to": node_path[i + 1]} for i in range(len(node_path) - 1)]`. -/
def edgePath : List (Str × Str) :=
  (List.finRange (nodes.length - 1)).map fun i =>
    (nodes.get ⟨i.1, by omega⟩, nodes.get ⟨i.1 + 1, by omega⟩)

/-- `{"nodes": node_path, "edges": edge_path}`. -/
def foundPath : FoundPath := ⟨nodes, edgePath nodes⟩

/-- `max(1, min(n, limit))`. -/
def clamp (limit : ℕ) (n : ℤ) : ℕ := (max 1 (min n limit)).toNat

/-! ## The shortest path -/

/-- The variables of the breadth-first search. -/
structure BfsState where
  queue : List Str
  parents : Dict Str Str
  visited : Finset Str
  depth : Dict Str ℕ

/-- A neighbour that was not visited before. -/
def BfsState.discover (s : BfsState) (current : Str) (currentDepth : ℕ) (nxt : Str) : BfsState :=
  { s with
    visited := insert nxt s.visited
    parents := s.parents.set nxt current
    depth := s.depth.set nxt (currentDepth + 1) }

/-- `for nxt in adjacency.get(current, set())`. -/
def visitNeighbours (target current : Str) (currentDepth : ℕ) : List Str → BfsState → BfsState
  | [], s => s
  | nxt :: rest, s =>
    if nxt ∈ s.visited then visitNeighbours target current currentDepth rest s
    else
      let s := s.discover current currentDepth nxt
      if nxt = target then { s with queue := [] }
      else visitNeighbours target current currentDepth rest { s with queue := s.queue ++ [nxt] }

/-- `while queue`. -/
def bfs (next : Str → List Str) (target : Str) (maxDepth : ℕ) : ℕ → BfsState → Option BfsState
  | 0, _ => none
  | fuel + 1, s =>
    match s.queue with
    | [] => some s
    | current :: queue =>
      let s := { s with queue := queue }
      let currentDepth := (s.depth.get? current).getD 0
      if maxDepth ≤ currentDepth then bfs next target maxDepth fuel s
      else bfs next target maxDepth fuel
        (visitNeighbours target current currentDepth (next current) s)

/-- The variables at the start. -/
def BfsState.start (source : Str) : BfsState :=
  ⟨[source], .empty, {source}, Dict.empty.set source 0⟩

/-- `while cursor in parents`. -/
def walkBack (parents : Dict Str Str) : ℕ → Str → List Str → Option (List Str)
  | 0, _, _ => none
  | fuel + 1, cursor, nodePath =>
    match parents.get? cursor with
    | none => some nodePath
    | some parent => walkBack parents fuel parent (nodePath ++ [parent])

/-- The branch for `mode == "shortest"`, as the paths of the answer. -/
def shortestPaths (next : Str → List Str) (source target : Str) (maxDepth fuel : ℕ) :
    Option (List FoundPath) := do
  let s ← bfs next target maxDepth fuel (.start source)
  if (s.parents.get? target).isNone then return []
  let nodePath ← walkBack s.parents fuel target [target]
  return [foundPath nodePath.reverse]

/-! ## All paths -/

/-- The variables of the depth-first search. -/
structure DfsState where
  trail : List Str
  seen : Finset Str
  collectedPaths : List (List Str)
  truncated : Bool

/-- `seen.add(nxt); trail.append(nxt)`. -/
def DfsState.enter (s : DfsState) (nxt : Str) : DfsState :=
  { s with seen := insert nxt s.seen, trail := s.trail ++ [nxt] }

/-- `trail.pop(); seen.remove(nxt)`; `none` is an `IndexError` or a `KeyError`. -/
def DfsState.leave (s : DfsState) (nxt : Str) : Option DfsState :=
  if s.trail ≠ [] ∧ nxt ∈ s.seen then
    some { s with trail := s.trail.dropLast, seen := s.seen.erase nxt }
  else none

/-- `for nxt in adjacency.get(current, set())`. -/
def dfsNeighbours (call : Str → DfsState → Option DfsState) : List Str → DfsState → Option DfsState
  | [], s => some s
  | nxt :: rest, s =>
    if nxt ∈ s.seen then dfsNeighbours call rest s
    else do
      let s ← call nxt (s.enter nxt)
      let s ← s.leave nxt
      if s.truncated then return s
      dfsNeighbours call rest s

/-- `dfs`; `none` also stands for a recursion deeper than the fuel. -/
def dfs (next : Str → List Str) (target : Str) (maxPaths maxDepth : ℕ) :
    ℕ → Str → DfsState → Option DfsState
  | 0, _, _ => none
  | fuel + 1, current, s =>
    if s.truncated then some s
    else if maxDepth < s.trail.length - 1 then some s
    else if current = target then
      let s := { s with collectedPaths := s.collectedPaths ++ [s.trail] }
      some (if maxPaths ≤ s.collectedPaths.length then { s with truncated := true } else s)
    else dfsNeighbours (dfs next target maxPaths maxDepth fuel) (next current) s

/-- The variables at the start. -/
def DfsState.start (source : Str) : DfsState := ⟨[source], {source}, [], false⟩

/-! ## The function -/

/-- `find_paths_in_edges`. -/
def findPathsInEdges {edges : List GraphEdge} (order : NeighbourOrder edges) (fuel : ℕ)
    (source target mode : Str) (maxPaths maxDepth : ℤ) : Except PathsError PathsAnswer :=
  if mode ≠ "shortest" ∧ mode ≠ "all" then
    .error (.valueError "mode must be 'shortest' or 'all'")
  else
    let maxPaths := clamp 200 maxPaths
    let maxDepth := clamp 64 maxDepth
    if source = target then .ok ⟨mode, source, target, [⟨[source], []⟩], 1, false⟩
    else if mode = "shortest" then
      match shortestPaths order.next source target maxDepth fuel with
      | none => .error .unfinished
      | some paths => .ok ⟨mode, source, target, paths, paths.length, false⟩
    else
      match dfs order.next target maxPaths maxDepth fuel source (.start source) with
      | none => .error .unfinished
      | some s =>
        let paths := s.collectedPaths.map foundPath
        .ok ⟨mode, source, target, paths, paths.length, s.truncated⟩

/-! ## Edges and neighbours -/

theorem mem_addEdge (neighbours : Dict Str (Finset Str)) (edge : GraphEdge) (a b : Str) :
    b ∈ ((addEdge neighbours edge).get? a).getD ∅ ↔
      b ∈ (neighbours.get? a).getD ∅ ∨ edge.Joins a b := by
  rw [addEdge, GraphEdge.Joins]
  cases edge.fromNode with
  | none => simp
  | some c =>
    cases edge.toNode with
    | none => simp
    | some d =>
      dsimp only
      split
      · next hempty =>
        refine (or_iff_left ?_).symm
        rintro ⟨ha, hb, hna, hnb⟩
        obtain rfl := Option.some.inj ha
        obtain rfl := Option.some.inj hb
        exact hempty.elim hna hnb
      · next hfull =>
        rw [not_or] at hfull
        rw [Dict.get?_set]
        by_cases hca : c = a
        · subst hca
          rw [if_pos rfl, Option.getD_some, Finset.mem_insert]
          simp only [true_and, Option.some.injEq]
          constructor
          · rintro (rfl | h)
            · exact .inr ⟨rfl, hfull⟩
            · exact .inl h
          · rintro (h | ⟨rfl, -⟩)
            · exact .inr h
            · exact .inl rfl
        · rw [if_neg hca]
          exact (or_iff_left fun h => hca (Option.some.inj h.1)).symm

/-- The neighbours are where the edges lead. -/
theorem mem_adjacency {edges : List GraphEdge} {a b : Str} :
    b ∈ ((adjacency edges).get? a).getD ∅ ↔ Linked edges a b := by
  have hfold : ∀ neighbours : Dict Str (Finset Str),
      b ∈ ((edges.foldl addEdge neighbours).get? a).getD ∅ ↔
        b ∈ (neighbours.get? a).getD ∅ ∨ Linked edges a b := by
    induction edges with
    | nil => simp [Linked]
    | cons edge edges ih =>
      intro neighbours
      rw [foldl_cons, ih, mem_addEdge, or_assoc]
      simp [Linked]
  rw [adjacency, hfold]
  simp

/-- The neighbours in the order of the edges. -/
def insertionOrder : NeighbourOrder edges where
  next a := ((edges.filterMap GraphEdge.toNode).filter fun b =>
    decide (b ∈ ((adjacency edges).get? a).getD ∅)).dedup
  nodup a := List.nodup_dedup _
  mem_next a b := by
    rw [List.mem_dedup, List.mem_filter, decide_eq_true_iff]
    refine and_iff_right_of_imp fun h => ?_
    obtain ⟨edge, hedge, -, hto, -⟩ := mem_adjacency.mp h
    exact List.mem_filterMap.mpr ⟨edge, hedge, hto⟩

theorem NeighbourOrder.mem_next_iff {edges : List GraphEdge} (order : NeighbourOrder edges)
    {a b : Str} : b ∈ order.next a ↔ Linked edges a b :=
  (order.mem_next a b).trans mem_adjacency

theorem length_edgePath : (edgePath nodes).length = nodes.length - 1 := by
  rw [edgePath, length_map, length_finRange]

/-- The edges of a path are its consecutive pairs. -/
theorem edgePath_eq_zip : edgePath nodes = nodes.zip nodes.tail := by
  refine ext_getElem ?_ fun i hi hi' => ?_
  · rw [length_edgePath, length_zip, length_tail]
    omega
  · simp [edgePath]

theorem one_le_clamp (limit : ℕ) (n : ℤ) : 1 ≤ clamp limit n := by
  rw [clamp]
  omega

theorem clamp_le {limit : ℕ} (hlimit : 1 ≤ limit) (n : ℤ) : clamp limit n ≤ limit := by
  rw [clamp]
  omega

/-- A path through the edges. -/
def DirectedPath (source target : Str) (nodes : List Str) : Prop :=
  Path (Linked edges) source target nodes

/-! ## The depth-first search -/

/-- The variables after more paths were met: as many of them are collected as fit. -/
def DfsState.collect (s : DfsState) (maxPaths : ℕ) (paths : List (List Str)) : DfsState :=
  { s with
    collectedPaths := (s.collectedPaths ++ paths).take maxPaths
    truncated := decide (maxPaths ≤ (s.collectedPaths ++ paths).length) }

section

variable {next : Str → List Str} {target current nxt : Str} {maxPaths maxDepth budget fuel : ℕ}
  {s : DfsState} {paths more : List (List Str)}

/-- Not truncated, and there is room for a path. -/
structure DfsState.Open (s : DfsState) (maxPaths : ℕ) : Prop where
  truncated : s.truncated = false
  room : s.collectedPaths.length < maxPaths

theorem DfsState.Open.collect_nil (h : s.Open maxPaths) : s.collect maxPaths [] = s := by
  rw [collect, append_nil, take_of_length_le h.room.le,
    decide_eq_false (Nat.not_le.mpr h.room), ← h.truncated]

theorem DfsState.collect_append_of_le (h : maxPaths ≤ (s.collectedPaths ++ paths).length) :
    s.collect maxPaths (paths ++ more) = s.collect maxPaths paths := by
  have hlength : maxPaths ≤ (s.collectedPaths ++ (paths ++ more)).length := by
    rw [← append_assoc, length_append]
    omega
  rw [collect, collect, decide_eq_true h, decide_eq_true hlength, ← append_assoc,
    take_append_of_le_length h]

theorem DfsState.collect_append_of_lt (h : (s.collectedPaths ++ paths).length < maxPaths) :
    s.collect maxPaths (paths ++ more) = (s.collect maxPaths paths).collect maxPaths more := by
  have hcollected : (s.collect maxPaths paths).collectedPaths = s.collectedPaths ++ paths :=
    take_of_length_le h.le
  rw [collect, collect, hcollected, append_assoc]
  rfl

theorem DfsState.open_collect (h : (s.collectedPaths ++ paths).length < maxPaths) :
    (s.collect maxPaths paths).Open maxPaths where
  truncated := decide_eq_false (Nat.not_le.mpr h)
  room := by
    rw [collect, take_of_length_le h.le]
    exact h

theorem DfsState.leave_collect_enter (hnew : nxt ∉ s.seen) :
    ((s.enter nxt).collect maxPaths paths).leave nxt = some (s.collect maxPaths paths) := by
  have htrail : s.trail ++ [nxt] ≠ [] := by simp
  rw [leave, if_pos ⟨htrail, Finset.mem_insert_self nxt s.seen⟩]
  simp only [collect, enter, dropLast_concat, Finset.erase_insert hnew]
  rfl

/-- **The loop over the neighbours**, if the recursive call does what it should. -/
theorem dfsNeighbours_spec {call : Str → DfsState → Option DfsState}
    {unseen : Str → Bool} (hunseen : ∀ a, unseen a = true ↔ a ∉ s.seen) (hopen : s.Open maxPaths)
    {found : Str → List (List Str)}
    (hcall : ∀ (nxt : Str) (s' : DfsState), s'.trail = s.trail → s'.seen = s.seen →
      s'.Open maxPaths → nxt ∉ s.seen →
        call nxt (s'.enter nxt) = some ((s'.enter nxt).collect maxPaths (found nxt)))
    (l : List Str) :
    dfsNeighbours call l s = some (s.collect maxPaths ((l.filter unseen).flatMap found)) := by
  induction l generalizing s with
  | nil =>
    rw [dfsNeighbours, filter_nil, flatMap_nil, hopen.collect_nil]
  | cons nxt l ih =>
    rw [dfsNeighbours]
    by_cases hmem : nxt ∈ s.seen
    · rw [if_pos hmem, ih hunseen hopen hcall, filter_cons_of_neg fun h => (hunseen nxt).mp h hmem]
    · rw [if_neg hmem, hcall nxt s rfl rfl hopen hmem,
        filter_cons_of_pos ((hunseen nxt).mpr hmem), flatMap_cons]
      simp only [Option.bind_eq_bind, Option.bind_some, DfsState.leave_collect_enter hmem]
      by_cases hfull : maxPaths ≤ (s.collectedPaths ++ found nxt).length
      · have htruncated : (s.collect maxPaths (found nxt)).truncated = true := decide_eq_true hfull
        rw [DfsState.collect_append_of_le hfull, if_pos htruncated]
        rfl
      · -- the next turn starts where this one did, with more paths collected
        have hopen' := DfsState.open_collect (Nat.not_le.mp hfull)
        rw [DfsState.collect_append_of_lt (Nat.not_le.mp hfull), if_neg (by simp [hopen'.truncated])]
        exact ih hunseen hopen' hcall

/-- **What the search adds** from a node on: the simple paths that it meets, up to the limit.
Trail and seen nodes are as before. -/
theorem dfs_spec (hseen : ∀ a, a ∈ s.seen ↔ a ∈ s.trail) (hopen : s.Open maxPaths)
    (hbudget : s.trail.length + budget = maxDepth + 2) (hfuel : budget < fuel) :
    dfs next target maxPaths maxDepth fuel current s
      = some (s.collect maxPaths (simplePaths next target budget s.trail current)) := by
  induction fuel generalizing budget current s with
  | zero => exact absurd hfuel (Nat.not_lt_zero budget)
  | succ fuel ih =>
    rw [dfs, if_neg (by simp [hopen.truncated])]
    cases budget with
    | zero => rw [if_pos (by omega), simplePaths, hopen.collect_nil]
    | succ budget =>
      rw [if_neg (by omega), simplePaths]
      by_cases htarget : current = target
      · rw [if_pos htarget, if_pos htarget]
        have hroom := hopen.room
        have hlength : (s.collectedPaths ++ [s.trail]).length ≤ maxPaths := by
          rw [length_append, length_singleton]
          omega
        rw [DfsState.collect, take_of_length_le hlength]
        dsimp only
        split
        · next hfull => rw [decide_eq_true hfull]
        · next hfull => rw [decide_eq_false hfull, ← hopen.truncated]
      · rw [if_neg htarget, if_neg htarget]
        refine dfsNeighbours_spec (fun a => by simp [hseen]) hopen
          (fun nxt s' htrail hseen' hopen' hnew => ?_) _
        have hseen'' : ∀ a, a ∈ (s'.enter nxt).seen ↔ a ∈ (s'.enter nxt).trail := by
          intro a
          rw [DfsState.enter, Finset.mem_insert, hseen', hseen, htrail, mem_append,
            mem_singleton, or_comm]
        have hbudget' : (s'.enter nxt).trail.length + budget = maxDepth + 2 := by
          rw [DfsState.enter, htrail, length_append, length_singleton]
          omega
        rw [ih hseen'' ⟨hopen'.truncated, hopen'.room⟩ hbudget' (by omega), ← htrail]
        rfl

end

/-! ## All simple paths -/

/-- A simple path with no more edges than the bound. -/
structure ShortPath (edges : List GraphEdge) (source target : Str) (maxDepth : ℕ)
    (nodes : List Str) : Prop where
  path : DirectedPath edges source target nodes
  simple : nodes.Nodup
  short : nodes.length ≤ maxDepth + 1

section

variable {edges : List GraphEdge} (order : NeighbourOrder edges) {source target : Str}

theorem NeighbourOrder.next_eq_linked : (fun a b => b ∈ order.next a) = Linked edges := by
  funext a b
  exact propext order.mem_next_iff

/-- All simple paths within the bound, in the order in which the search meets them. -/
def NeighbourOrder.allPaths (source target : Str) (maxDepth : ℕ) : List (List Str) :=
  simplePaths order.next target (maxDepth + 1) [source] source

theorem NeighbourOrder.nodup_allPaths (maxDepth : ℕ) :
    (order.allPaths source target maxDepth).Nodup :=
  nodup_simplePaths order.nodup

theorem NeighbourOrder.mem_allPaths {maxDepth : ℕ} {nodes : List Str} :
    nodes ∈ order.allPaths source target maxDepth ↔
      ShortPath edges source target maxDepth nodes := by
  have hlast : [source].getLast? = some source := rfl
  rw [allPaths, mem_simplePaths (nodup_singleton source) hlast, order.next_eq_linked]
  constructor
  · rintro ⟨rest, rfl, hlength, hpath, hnodup⟩
    exact ⟨hpath, hnodup, by rw [length_append, length_singleton]; omega⟩
  · rintro ⟨hpath, hnodup, hlength⟩
    cases nodes with
    | nil => cases hpath.head
    | cons a rest =>
      obtain rfl := Option.some.inj hpath.head
      exact ⟨rest, rfl, by rw [length_cons] at hlength; omega, hpath, hnodup⟩

/-- There are as many simple paths as the search meets. -/
theorem NeighbourOrder.encard_shortPath (maxDepth : ℕ) :
    {nodes | ShortPath edges source target maxDepth nodes}.encard
      = (order.allPaths source target maxDepth).length := by
  have hset : {nodes | ShortPath edges source target maxDepth nodes}
      = ((order.allPaths source target maxDepth).toFinset : Set (List Str)) := by
    ext nodes
    rw [coe_toFinset]
    exact order.mem_allPaths.symm
  rw [hset, Set.encard_coe_eq_coe_finsetCard,
    toFinset_card_of_nodup (order.nodup_allPaths maxDepth)]

/-- The answer with all paths. -/
def NeighbourOrder.allAnswer (source target : Str) (maxPaths maxDepth : ℕ) : PathsAnswer :=
  let paths := ((order.allPaths source target maxDepth).take maxPaths).map foundPath
  ⟨"all", source, target, paths, paths.length,
    decide (maxPaths ≤ (order.allPaths source target maxDepth).length)⟩

theorem findPathsInEdges_all (hne : source ≠ target) (maxPaths maxDepth : ℤ) {fuel : ℕ}
    (hfuel : edges.length + 66 ≤ fuel) :
    findPathsInEdges order fuel source target "all" maxPaths maxDepth
      = .ok (order.allAnswer source target (clamp 200 maxPaths) (clamp 64 maxDepth)) := by
  have hdepth : clamp 64 maxDepth ≤ 64 := clamp_le (by decide) maxDepth
  have hopen : (DfsState.start source).Open (clamp 200 maxPaths) := ⟨rfl, one_le_clamp 200 maxPaths⟩
  have hseen : ∀ a, a ∈ (DfsState.start source).seen ↔ a ∈ (DfsState.start source).trail :=
    fun a => Finset.mem_singleton.trans mem_singleton.symm
  have hbudget : (DfsState.start source).trail.length + (clamp 64 maxDepth + 1)
      = clamp 64 maxDepth + 2 := by
    rw [DfsState.start, length_singleton]
    omega
  rw [findPathsInEdges, if_neg (by simp), if_neg hne, if_neg (by decide)]
  dsimp only
  rw [dfs_spec hseen hopen hbudget (by omega)]
  rfl

/-- **All paths**: the search ends with simple paths within the bounds, none of them twice, and
unless it says truncated these are all of them. -/
theorem all_paths_correct (hne : source ≠ target) (maxPaths maxDepth : ℤ) :
    ∃ answer, (∀ fuel ≥ edges.length + 66,
        findPathsInEdges order fuel source target "all" maxPaths maxDepth = .ok answer) ∧
      (answer.paths.map FoundPath.nodes).Nodup ∧
      (∀ path ∈ answer.paths,
        ShortPath edges source target (clamp 64 maxDepth) path.nodes ∧
          path.edges = path.nodes.zip path.nodes.tail) ∧
      answer.paths.length ≤ clamp 200 maxPaths ∧
      answer.pathCount = answer.paths.length ∧
      (answer.truncated = false → ∀ nodes, nodes ∈ answer.paths.map FoundPath.nodes ↔
        ShortPath edges source target (clamp 64 maxDepth) nodes) := by
  have hnodes : ∀ found : List (List Str), (found.map foundPath).map FoundPath.nodes = found :=
    fun found => by rw [map_map]; exact map_id found
  refine ⟨order.allAnswer source target (clamp 200 maxPaths) (clamp 64 maxDepth),
    fun fuel hfuel => findPathsInEdges_all order hne maxPaths maxDepth hfuel, ?_, ?_, ?_, rfl, ?_⟩
  · rw [NeighbourOrder.allAnswer, hnodes]
    exact (order.nodup_allPaths _).sublist (take_sublist _ _)
  · intro path hpath
    obtain ⟨nodes, hmem, rfl⟩ := mem_map.mp hpath
    exact ⟨order.mem_allPaths.mp (mem_of_mem_take hmem), edgePath_eq_zip nodes⟩
  · rw [NeighbourOrder.allAnswer, length_map]
    exact length_take_le _ _
  · intro htruncated nodes
    have hfits := Nat.not_le.mp (of_decide_eq_false htruncated)
    rw [NeighbourOrder.allAnswer, hnodes, take_of_length_le hfits.le, order.mem_allPaths]

/-- Two ways from `A` to `D`, and an edge that leads nowhere. -/
def diamond : List GraphEdge :=
  [⟨some "A", some "B"⟩, ⟨some "B", some "D"⟩,
    ⟨some "A", some "C"⟩, ⟨some "C", some "D"⟩,
    ⟨some "D", some []⟩]

theorem all_paths_correct_diamond :
    "A" ≠ "D".toList ∧ ∃ answer, (∀ fuel ≥ diamond.length + 66,
        findPathsInEdges (insertionOrder diamond) fuel "A" "D" "all" 25 16
          = .ok answer) ∧
      (answer.paths.map FoundPath.nodes).Nodup ∧
      (∀ path ∈ answer.paths, ShortPath diamond "A" "D" (clamp 64 16) path.nodes ∧
        path.edges = path.nodes.zip path.nodes.tail) ∧
      answer.paths.length ≤ clamp 200 25 ∧ answer.pathCount = answer.paths.length ∧
      (answer.truncated = false → ∀ nodes, nodes ∈ answer.paths.map FoundPath.nodes ↔
        ShortPath diamond "A" "D" (clamp 64 16) nodes) :=
  ⟨by decide, all_paths_correct (insertionOrder diamond) (by decide) 25 16⟩

/-- **Truncated is exact** except where there are exactly as many paths as the limit allows. -/
theorem truncated_exact_iff (hne : source ≠ target) (maxPaths maxDepth : ℤ) :
    ∃ answer, (∀ fuel ≥ edges.length + 66,
        findPathsInEdges order fuel source target "all" maxPaths maxDepth = .ok answer) ∧
      ((answer.truncated = true ↔ (clamp 200 maxPaths : ℕ∞)
          < {nodes | ShortPath edges source target (clamp 64 maxDepth) nodes}.encard) ↔
        {nodes | ShortPath edges source target (clamp 64 maxDepth) nodes}.encard
          ≠ clamp 200 maxPaths) := by
  refine ⟨order.allAnswer source target (clamp 200 maxPaths) (clamp 64 maxDepth),
    fun fuel hfuel => findPathsInEdges_all order hne maxPaths maxDepth hfuel, ?_⟩
  rw [order.encard_shortPath, NeighbourOrder.allAnswer, decide_eq_true_iff, Nat.cast_lt, Ne,
    Nat.cast_inj]
  omega

/-- The two ways of `diamond`. -/
theorem allPaths_diamond : (insertionOrder diamond).allPaths "A" "D" (clamp 64 16)
    = [["A".toList, "B", "D"], ["A", "C", "D"]] := by
  decide

/-- With a limit of 25 the answer says truncated exactly if there are more ways: there are
two. -/
theorem truncated_exact_diamond :
    ∃ answer, (∀ fuel ≥ diamond.length + 66,
        findPathsInEdges (insertionOrder diamond) fuel "A" "D" "all" 25 16
          = .ok answer) ∧
      (answer.truncated = true ↔ (clamp 200 25 : ℕ∞)
        < {nodes | ShortPath diamond "A" "D" (clamp 64 16) nodes}.encard) := by
  obtain ⟨answer, hanswer, hexact⟩ :=
    truncated_exact_iff (insertionOrder diamond) (by decide : "A".toList ≠ "D".toList) 25 16
  refine ⟨answer, hanswer, hexact.mpr ?_⟩
  rw [(insertionOrder diamond).encard_shortPath, allPaths_diamond]
  decide

/-- Both ways of `diamond` are found with a limit of two, and still the answer says truncated. -/
theorem complete_answer_truncated :
    ∃ answer, (∀ fuel ≥ diamond.length + 66,
        findPathsInEdges (insertionOrder diamond) fuel "A" "D" "all" 2 16
          = .ok answer) ∧
      answer.paths.map FoundPath.nodes
        = [["A".toList, "B", "D"], ["A", "C", "D"]] ∧
      answer.truncated = true ∧
      ¬ (clamp 200 2 : ℕ∞)
        < {nodes | ShortPath diamond "A" "D" (clamp 64 16) nodes}.encard := by
  refine ⟨(insertionOrder diamond).allAnswer "A" "D" (clamp 200 2) (clamp 64 16),
    fun fuel hfuel => findPathsInEdges_all _ (by decide) 2 16 hfuel, ?_, ?_, ?_⟩
  · rw [NeighbourOrder.allAnswer, allPaths_diamond]
    rfl
  · rw [NeighbourOrder.allAnswer, allPaths_diamond]
    rfl
  · rw [(insertionOrder diamond).encard_shortPath, allPaths_diamond]
    exact lt_irrefl _

end

end TrustFlow.TrustDocs
