import Mathlib.Data.List.Sort

/-!
# Tables with a primary key

Rows of a database table, no two with the same key, and the queries on them.

* `insert?`, `replace`, `delete`, `get?`, `update`, `updateAll` — by the key.
* `findOne`, `findMany` — the rows with a property: one of them, or the first ones
  by an `ORDER BY` column, up to a limit.

The order in which a database returns rows is fixed by nothing but the `ORDER BY`
clause.  It is an argument (`Plan`): any rearrangement of the rows that match.

`mem_findMany` and `notMem_findMany_last` say when a row is found whatever the plan:
exactly if the rows that match and come no later fit into the limit.
-/

namespace TrustFlow.Library

open List

theorem some_mk_inj {α β : Type*} {a a' : α} {b b' : β} (h : some (a, b) = some (a', b')) :
    a = a' ∧ b = b' := Prod.mk.inj (Option.some.inj h)

theorem exists_of_map_eq {α β γ : Type*} {f : α → γ} {g : β → γ} {l : List α} {l' : List β}
    (h : l.map f = l'.map g) {a : α} (ha : a ∈ l) : ∃ b ∈ l', g b = f a :=
  mem_map.mp (h ▸ mem_map_of_mem ha)

/-- A table, by the key of its rows. -/
structure Table {κ ρ : Type} (key : ρ → κ) where
  rows : List ρ
  nodup : (rows.map key).Nodup

/-- The order in which matching rows are returned. -/
structure Plan (ρ : Type) where
  order : List ρ → List ρ
  perm : ∀ rows, (order rows).Perm rows

/-- Rows in the order in which they were inserted. -/
def Plan.stored (ρ : Type) : Plan ρ := ⟨id, List.Perm.refl⟩

namespace Table

variable {κ ρ : Type} {key : ρ → κ}

/-- No rows. -/
def empty : Table key := ⟨[], List.nodup_nil⟩

/-! ## Queries -/

/-- `SELECT ... WHERE ... LIMIT 1`. -/
def findOne (t : Table key) (plan : Plan ρ) (p : ρ → Bool) : Option ρ :=
  (plan.order (t.rows.filter p)).head?

/-- `SELECT ... WHERE ... ORDER BY ... LIMIT`. -/
def findMany (t : Table key) (plan : Plan ρ) (column : ρ → ℕ) (limit : ℕ) (p : ρ → Bool) : List ρ :=
  ((plan.order (t.rows.filter p)).insertionSort fun a b => column a ≤ column b).take limit

section

variable {t : Table key} {plan : Plan ρ} {p : ρ → Bool} {row : ρ}

theorem eq_of_key_eq {a b : ρ} (ha : a ∈ t.rows) (hb : b ∈ t.rows) (h : key a = key b) : a = b :=
  inj_on_of_nodup_map t.nodup ha hb h

theorem findOne_eq_none_iff : t.findOne plan p = none ↔ ∀ row ∈ t.rows, p row = false := by
  rw [findOne, List.head?_eq_none_iff]
  constructor
  · intro h row hrow
    by_contra hp
    have hmem : row ∈ plan.order (t.rows.filter p) :=
      (plan.perm _).mem_iff.mpr (mem_filter.mpr ⟨hrow, by simpa using hp⟩)
    rw [h] at hmem
    cases hmem
  · intro h
    have hnil : t.rows.filter p = [] := filter_eq_nil_iff.mpr fun row hrow => by
      rw [h row hrow]
      exact Bool.false_ne_true
    exact List.Perm.eq_nil (hnil ▸ plan.perm (t.rows.filter p))

theorem findOne_spec (h : t.findOne plan p = some row) : row ∈ t.rows ∧ p row = true :=
  mem_filter.mp ((plan.perm _).mem_iff.mp (mem_of_head? h))

variable {column : ρ → ℕ} {limit : ℕ}

theorem mem_of_mem_findMany (h : row ∈ t.findMany plan column limit p) :
    row ∈ t.rows ∧ p row = true := by
  have hsorted := mem_of_mem_take h
  rw [mem_insertionSort] at hsorted
  exact mem_filter.mp ((plan.perm _).mem_iff.mp hsorted)

theorem nodup_rows (t : Table key) : t.rows.Nodup := List.Nodup.of_map _ t.nodup

theorem nodup_findMany : (t.findMany plan column limit p).Nodup := by
  have hrows : (plan.order (t.rows.filter p)).Nodup :=
    (plan.perm _).nodup_iff.mpr (t.nodup_rows.filter p)
  have hsorted := (perm_insertionSort (fun a b : ρ => column a ≤ column b) _).nodup_iff.mpr hrows
  exact hsorted.sublist (take_sublist _ _)

theorem length_findMany_le : (t.findMany plan column limit p).length ≤ limit :=
  length_take_le _ _

/-- Either the limit was reached, or every row with the property was found. -/
theorem findMany_full :
    (t.findMany plan column limit p).length = limit ∨
      ∀ row ∈ t.rows, p row = true → row ∈ t.findMany plan column limit p := by
  rw [findMany]
  rcases Nat.le_total limit ((plan.order (t.rows.filter p)).insertionSort
    fun a b => column a ≤ column b).length with hle | hle
  · exact Or.inl (length_take_of_le hle)
  · refine Or.inr fun row hrow hp => ?_
    rw [take_of_length_le hle, mem_insertionSort]
    exact (plan.perm _).mem_iff.mpr (mem_filter.mpr ⟨hrow, hp⟩)

/-- Within the limit every row with the property is found. -/
theorem findMany_perm (h : (t.rows.filter p).length ≤ limit) :
    (t.findMany plan column limit p).Perm (t.rows.filter p) := by
  have hsorted := perm_insertionSort (fun a b : ρ => column a ≤ column b)
    (plan.order (t.rows.filter p))
  have hperm := hsorted.trans (plan.perm _)
  rw [findMany, take_of_length_le (hperm.length_eq.trans_le h)]
  exact hperm

instance (column : ρ → ℕ) : Std.Total fun a b => column a ≤ column b :=
  ⟨fun a b => Nat.le_total (column a) (column b)⟩

instance (column : ρ → ℕ) : IsTrans ρ fun a b => column a ≤ column b :=
  ⟨fun _ _ _ => Nat.le_trans⟩

/-- The rows that match and come no later than a row. -/
def notLater (t : Table key) (column : ρ → ℕ) (p : ρ → Bool) (row : ρ) : List ρ :=
  (t.rows.filter p).filter fun other => decide (column other ≤ column row)

/-- **A row is found**, if the rows that come no later fit into the limit. -/
theorem mem_findMany (hrow : row ∈ t.rows) (hp : p row = true)
    (hlimit : (t.notLater column p row).length ≤ limit) : row ∈ t.findMany plan column limit p := by
  have hmem : row ∈ (plan.order (t.rows.filter p)).insertionSort fun a b => column a ≤ column b := by
    rw [mem_insertionSort]
    exact (plan.perm _).mem_iff.mpr (mem_filter.mpr ⟨hrow, hp⟩)
  have hsorted := pairwise_insertionSort (fun a b : ρ => column a ≤ column b)
    (plan.order (t.rows.filter p))
  have hperm := (perm_insertionSort (fun a b : ρ => column a ≤ column b)
    (plan.order (t.rows.filter p))).trans (plan.perm _)
  rw [findMany]
  generalize (plan.order (t.rows.filter p)).insertionSort (fun a b => column a ≤ column b) = sorted
    at *
  obtain ⟨before, after, rfl⟩ := append_of_mem hmem
  -- everything up to the row comes no later
  have hbefore : ∀ other ∈ before ++ [row], decide (column other ≤ column row) = true := by
    intro other hother
    rcases mem_append.mp hother with hother | hother
    · exact decide_eq_true ((pairwise_append.mp hsorted).2.2 other hother row mem_cons_self)
    · rw [mem_singleton.mp hother]
      exact decide_eq_true (Nat.le_refl _)
  have hcount : (before ++ [row]).length ≤ (t.notLater column p row).length := by
    have hcut : before ++ row :: after = (before ++ [row]) ++ after := by
      rw [append_assoc]
      rfl
    rw [notLater, ← (hperm.filter _).length_eq, hcut, filter_append, filter_eq_self.mpr hbefore]
    exact (sublist_append_left _ _).length_le
  have hfits : before.length + 1 ≤ limit := by
    rw [length_append] at hcount
    exact hcount.trans hlimit
  rw [take_append, mem_append]
  right
  obtain ⟨n, hn⟩ : ∃ n, limit - before.length = n + 1 := ⟨limit - before.length - 1, by omega⟩
  rw [hn]
  exact mem_cons_self

/-- The plan that returns a row after all others. -/
def planWithLast [DecidableEq ρ] (row : ρ) : Plan ρ where
  order rows := rows.filter (fun other => decide (other ≠ row)) ++
    rows.filter (fun other => !decide (other ≠ row))
  perm rows := List.filter_append_perm _ rows

/-- What stands before an element of a list without repetitions. -/
theorem mem_of_pair_sublist {a b : ρ} {before after : List ρ} (hbefore : b ∉ before)
    (hafter : b ∉ after) (h : [a, b].Sublist (before ++ b :: after)) : a ∈ before := by
  obtain ⟨l, r, hpair, hl, hr⟩ := sublist_append_iff.mp h
  match l, hpair with
  | [], hpair =>
    rw [nil_append] at hpair
    subst hpair
    cases hr with
    | cons _ hr => exact absurd (hr.subset (mem_cons_of_mem _ mem_cons_self)) hafter
    | cons_cons _ hr => exact absurd (hr.subset mem_cons_self) hafter
  | c :: l, hpair =>
    rw [cons_append, List.cons.injEq] at hpair
    rw [hpair.1]
    exact hl.subset mem_cons_self

/-- **A row may be missed**, if the rows that come no later do not fit. -/
theorem notMem_findMany_last [DecidableEq ρ] (hlimit : limit < (t.notLater column p row).length) :
    row ∉ t.findMany (planWithLast row) column limit p := by
  intro hmem
  have hperm := (perm_insertionSort (fun a b : ρ => column a ≤ column b)
    ((planWithLast row).order (t.rows.filter p))).trans ((planWithLast row).perm _)
  have hrow : row ∈ t.rows.filter p := mem_filter.mpr (mem_of_mem_findMany hmem)
  -- the sort is stable: whatever comes no later comes before the row
  have hstable : ∀ other ∈ t.rows.filter p, other ≠ row → column other ≤ column row →
      [other, row].Sublist (((planWithLast row).order (t.rows.filter p)).insertionSort
        fun a b => column a ≤ column b) := by
    intro other hother hne hle
    refine pair_sublist_insertionSort hle ?_
    have hfirst : other ∈ (t.rows.filter p).filter fun other => decide (other ≠ row) :=
      mem_filter.mpr ⟨hother, decide_eq_true hne⟩
    have hlast : row ∈ (t.rows.filter p).filter fun other => !decide (other ≠ row) :=
      mem_filter.mpr ⟨hrow, by simp⟩
    exact (singleton_sublist.mpr hfirst).append (singleton_sublist.mpr hlast)
  rw [findMany] at hmem
  generalize ((planWithLast row).order (t.rows.filter p)).insertionSort
    (fun a b => column a ≤ column b) = sorted at *
  obtain ⟨before, after, rfl⟩ := append_of_mem (mem_of_mem_take hmem)
  have hnodup : (before ++ row :: after).Nodup :=
    hperm.nodup_iff.mpr (t.nodup_rows.filter p)
  obtain ⟨-, hafter, hdisjoint⟩ := nodup_append.mp hnodup
  have hbefore : row ∉ before := fun h => hdisjoint row h row mem_cons_self rfl
  have hposition : before.length < limit := by
    rw [take_append, mem_append] at hmem
    have hrest := hmem.resolve_left fun h => hbefore (mem_of_mem_take h)
    by_contra hge
    rw [Nat.sub_eq_zero_of_le (Nat.le_of_not_lt hge)] at hrest
    cases hrest
  have hsubset : t.notLater column p row ⊆ row :: before := by
    intro other hother
    obtain ⟨hother, hle⟩ := mem_filter.mp hother
    by_cases hne : other = row
    · exact hne ▸ mem_cons_self
    · exact mem_cons_of_mem _ (mem_of_pair_sublist hbefore (nodup_cons.mp hafter).1
        (hstable other hother hne (of_decide_eq_true hle)))
  have hlength := (subperm_of_subset ((t.nodup_rows.filter p).filter _) hsubset).length_le
  rw [length_cons] at hlength
  have hcount : (t.notLater column p row).length ≤ before.length + 1 := hlength
  omega

end

/-! ## By the key -/

variable [DecidableEq κ]

/-- `INSERT`; `none` is a violated key. -/
def insert? (t : Table key) (row : ρ) : Option (Table key) :=
  if h : key row ∈ t.rows.map key then none
  else some
    { rows := t.rows ++ [row]
      nodup := by
        rw [List.map_append, List.map_singleton]
        exact List.Nodup.append t.nodup (List.nodup_singleton _) (List.disjoint_singleton.mpr h) }

/-- `SELECT` by the key. -/
def get? (t : Table key) (k : κ) : Option ρ := t.rows.find? fun row => decide (key row = k)

/-- `DELETE` by the key. -/
def delete (t : Table key) (k : κ) : Table key where
  rows := t.rows.filter fun row => decide (key row ≠ k)
  nodup := t.nodup.sublist (List.filter_sublist.map key)

/-- `INSERT OR REPLACE`. -/
def replace (t : Table key) (row : ρ) : Table key where
  rows := (t.delete (key row)).rows ++ [row]
  nodup := by
    rw [List.map_append, List.map_singleton]
    refine List.Nodup.append (t.delete (key row)).nodup (List.nodup_singleton _)
      (List.disjoint_singleton.mpr fun hmem => ?_)
    obtain ⟨old, hold, hkey⟩ := List.mem_map.mp hmem
    exact of_decide_eq_true (List.mem_filter.mp hold).2 hkey

/-- The row with the key is changed. -/
def change (key : ρ → κ) (k : κ) (f : ρ → ρ) (row : ρ) : ρ := if key row = k then f row else row

/-- `UPDATE` by the key. -/
def update (t : Table key) (f : ρ → ρ) (hf : ∀ row, key (f row) = key row) (k : κ) : Table key where
  rows := t.rows.map (change key k f)
  nodup := by
    have hkeys : (t.rows.map (change key k f)).map key = t.rows.map key := by
      rw [List.map_map]
      refine List.map_congr_left fun row _ => ?_
      rw [Function.comp_apply, change]
      split
      · exact hf row
      · rfl
    rw [hkeys]
    exact t.nodup

/-- One `UPDATE` after the other. -/
def updateAll (t : Table key) (f : ρ → ρ) (hf : ∀ row, key (f row) = key row) (ks : List κ) :
    Table key :=
  ks.foldl (fun t k => t.update f hf k) t

section

variable {t : Table key} {row : ρ}

variable {t' : Table key} {new : ρ} {k : κ} {f : ρ → ρ}

section

variable (h : t.insert? new = some t')
include h

theorem rows_of_insert? : t'.rows = t.rows ++ [new] := by
  unfold insert? at h
  split at h
  · cases h
  · rw [← Option.some.inj h]

theorem mem_of_insert? :
    row ∈ t'.rows ↔ row ∈ t.rows ∨ row = new := by
  rw [rows_of_insert? h, mem_append, mem_singleton]

theorem notMem_of_insert? : key new ∉ t.rows.map key := by
  intro hmem
  unfold insert? at h
  rw [dif_pos hmem] at h
  cases h

end

theorem insert?_of_notMem (h : key new ∉ t.rows.map key) : ∃ t', t.insert? new = some t' :=
  ⟨_, dif_neg h⟩

theorem mem_keys_of_insert? (h : t.insert? new = some t') :
    k ∈ t'.rows.map key ↔ k ∈ t.rows.map key ∨ k = key new := by
  rw [rows_of_insert? h, map_append, mem_append, map_singleton, mem_singleton]

/-- What is found by a key, in a list where no two have the same. -/
theorem find?_key_iff {rows : List ρ} (hnodup : (rows.map key).Nodup) :
    rows.find? (fun row => decide (key row = k)) = some row ↔ row ∈ rows ∧ key row = k := by
  constructor
  · intro h
    have hkey := List.find?_some h
    exact ⟨mem_of_find?_eq_some h, of_decide_eq_true hkey⟩
  · rintro ⟨hmem, rfl⟩
    cases hget : rows.find? fun other => decide (key other = key row) with
    | none => simpa using List.find?_eq_none.mp hget row hmem
    | some other =>
      have hfound := List.find?_some hget
      rw [inj_on_of_nodup_map hnodup (mem_of_find?_eq_some hget) hmem (of_decide_eq_true hfound)]

theorem get?_eq_some_iff : t.get? k = some row ↔ row ∈ t.rows ∧ key row = k := find?_key_iff t.nodup

theorem notMem_of_get?_eq_none (h : t.get? k = none) : k ∉ t.rows.map key := by
  intro hmem
  obtain ⟨row, hrow, rfl⟩ := mem_map.mp hmem
  rw [get?_eq_some_iff.mpr ⟨hrow, rfl⟩] at h
  cases h

theorem get?_of_insert? (h : t.insert? new = some t') (k : κ) :
    t'.get? k = if key new = k then some new else t.get? k := by
  split
  case isTrue hkey => exact get?_eq_some_iff.mpr ⟨(mem_of_insert? h).mpr (.inr rfl), hkey⟩
  case isFalse hkey =>
      rw [get?, rows_of_insert? h, List.find?_append,
        List.find?_cons_of_neg (by simpa using hkey), List.find?_nil, Option.or_none]
      rfl

theorem insert?_of_get? (h : t.get? (key new) = some row) : t.insert? new = none := by
  obtain ⟨hmem, hkey⟩ := get?_eq_some_iff.mp h
  exact dif_pos (hkey ▸ mem_map_of_mem hmem)

theorem get?_delete (t : Table key) (k k' : κ) :
    (t.delete k).get? k' = if k = k' then none else t.get? k' := by
  ext row
  rw [get?_eq_some_iff, delete, mem_filter]
  by_cases hk : k = k'
  · subst hk
    simp
  · rw [if_neg hk, get?_eq_some_iff]
    constructor
    · exact fun h => ⟨h.1.1, h.2⟩
    · exact fun h => ⟨⟨h.1, decide_eq_true fun heq => hk (heq.symm.trans h.2)⟩, h.2⟩

theorem get?_replace (t : Table key) (new : ρ) (k : κ) :
    (t.replace new).get? k = if key new = k then some new else t.get? k := by
  split
  case isTrue hkey =>
      exact get?_eq_some_iff.mpr ⟨mem_append_right _ (mem_singleton_self new), hkey⟩
  case isFalse hkey =>
      have hdelete := t.get?_delete (key new) k
      rw [if_neg hkey] at hdelete
      rw [← hdelete, get?, replace, List.find?_append,
        List.find?_cons_of_neg (by simpa using hkey), List.find?_nil, Option.or_none]
      rfl

theorem mem_update (hf : ∀ row, key (f row) = key row) :
    row ∈ (t.update f hf k).rows ↔ ∃ old ∈ t.rows, (if key old = k then f old else old) = row :=
  mem_map

theorem apply_change {β : Type*} {g : ρ → β} (hg : ∀ row, g (f row) = g row) :
    g ∘ change key k f = g := by
  funext row
  rw [Function.comp_apply, change]
  split
  · exact hg row
  · rfl

theorem get?_update (hf : ∀ row, key (f row) = key row) (k k' : κ) :
    (t.update f hf k).get? k' = (t.get? k').map (change key k f) := by
  rw [get?, get?, update, List.find?_map]
  congr 2
  funext row
  rw [Function.comp_apply, ← Function.comp_apply (f := key), apply_change hf]

variable {hf : ∀ row, key (f row) = key row}

/-- Columns that an update leaves alone. -/
theorem map_rows_update {β : Type*} {g : ρ → β} (hg : ∀ row, g (f row) = g row) :
    (t.update f hf k).rows.map g = t.rows.map g := by
  rw [update, map_map, apply_change hg]

/-- The rows after a series of the same update. -/
theorem rows_updateAll (hidem : ∀ row, f (f row) = f row) (ks : List κ) :
    (t.updateAll f hf ks).rows = t.rows.map fun row => if key row ∈ ks then f row else row := by
  induction ks generalizing t with
  | nil => simp [updateAll]
  | cons k ks ih =>
    have hrest := ih (t := t.update f hf k)
    rw [updateAll] at hrest
    rw [updateAll, foldl_cons, hrest, update, map_map]
    refine map_congr_left fun row _ => ?_
    rw [Function.comp_apply, change]
    by_cases hk : key row = k
    · have hmem : key row ∈ k :: ks := hk ▸ mem_cons_self
      rw [if_pos hk, hf, hidem, if_pos hmem, ite_self]
    · rw [if_neg hk]
      simp only [mem_cons, hk, false_or]

/-- A row after a series of the same update. -/
theorem mem_updateAll (hidem : ∀ row, f (f row) = f row) {ks : List κ} :
    row ∈ (t.updateAll f hf ks).rows ↔
      ∃ old ∈ t.rows, (if key old ∈ ks then f old else old) = row := by
  rw [rows_updateAll hidem, mem_map]

end

end Table

end TrustFlow.Library
