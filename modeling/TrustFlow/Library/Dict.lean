import Mathlib.Data.List.Nodup

/-!
# Insertion-ordered dictionaries

A Python `dict`: association lists without repeated keys, in the order in which
the keys were first inserted.  Assigning to a present key keeps its position.

The operations come twice: `Assoc.*` on bare association lists, for syntax
trees that cannot carry a proof in each node, and `Dict` with the invariant as
a field.  Two dictionaries are compared through `get?`; `mem_entries` says that
this loses nothing.
-/

namespace TrustFlow.Library

open List

/-! ## Association lists -/

namespace Assoc

variable {κ α : Type*} [DecidableEq κ]

/-- The value of a key. -/
def get? (k : κ) : List (κ × α) → Option α
  | [] => none
  | entry :: l => if entry.1 = k then some entry.2 else get? k l

/-- `d[k] = v`. -/
def set (k : κ) (v : α) : List (κ × α) → List (κ × α)
  | [] => [(k, v)]
  | entry :: l => if entry.1 = k then (k, v) :: l else entry :: set k v l

theorem get?_set (k k' : κ) (v : α) (l : List (κ × α)) :
    get? k' (set k v l) = if k = k' then some v else get? k' l := by
  induction l with
  | nil => rfl
  | cons entry l ih =>
    by_cases hk : entry.1 = k
    · by_cases hk' : k = k'
      · simp [set, get?, hk, hk']
      · simp [set, get?, hk, hk']
    · by_cases hk' : entry.1 = k'
      · have hne : k ≠ k' := fun h => hk (hk'.trans h.symm)
        simp [set, get?, hk', hk'.symm ▸ hk, hne]
      · simp [set, get?, hk, hk', ih]

theorem keys_set (k : κ) (v : α) (l : List (κ × α)) :
    (set k v l).map Prod.fst
      = if k ∈ l.map Prod.fst then l.map Prod.fst else l.map Prod.fst ++ [k] := by
  induction l with
  | nil => simp [set]
  | cons entry l ih =>
    by_cases hk : entry.1 = k
    · simp [set, hk]
    · have hk' : ¬ k = entry.1 := fun h => hk h.symm
      rw [set, if_neg hk, map_cons, ih, map_cons]
      by_cases hmem : k ∈ l.map Prod.fst
      · rw [if_pos hmem, if_pos (mem_cons_of_mem _ hmem)]
      · rw [if_neg hmem, if_neg (by simpa [hk'] using hmem), cons_append]

variable {k : κ} {v : α} {l : List (κ × α)}

theorem nodup_set (hl : (l.map Prod.fst).Nodup) : ((set k v l).map Prod.fst).Nodup := by
  rw [keys_set]
  by_cases hmem : k ∈ l.map Prod.fst
  · rwa [if_pos hmem]
  · rw [if_neg hmem]
    exact nodup_append.mpr ⟨hl, nodup_singleton k, by
      rintro a ha b hb rfl
      exact hmem (mem_singleton.mp hb ▸ ha)⟩

theorem mem_set {entry : κ × α} (h : entry ∈ set k v l) : entry = (k, v) ∨ entry ∈ l := by
  induction l with
  | nil => exact .inl (mem_singleton.mp h)
  | cons first l ih =>
    rw [set] at h
    split at h
    · rcases mem_cons.mp h with h | h
      · exact .inl h
      · exact .inr (mem_cons_of_mem _ h)
    · rcases mem_cons.mp h with rfl | h
      · exact .inr mem_cons_self
      · exact (ih h).imp_right (mem_cons_of_mem _)

/-- A new key goes to the end. -/
theorem set_of_notMem (hk : k ∉ l.map Prod.fst) : set k v l = l ++ [(k, v)] := by
  induction l with
  | nil => rfl
  | cons entry l ih =>
    have hne : entry.1 ≠ k := fun h => hk (h ▸ mem_cons_self)
    rw [set, if_neg hne, ih fun h => hk (mem_cons_of_mem _ h), cons_append]

theorem get?_eq_none : get? k l = none ↔ k ∉ l.map Prod.fst := by
  induction l with
  | nil => simp [get?]
  | cons entry l ih =>
    by_cases hk : entry.1 = k
    · simp [get?, hk]
    · have hk' : k ≠ entry.1 := fun h => hk h.symm
      simp only [get?, hk, if_false, map_cons, mem_cons, hk', false_or, ih]

theorem mem_of_get? (h : get? k l = some v) : (k, v) ∈ l := by
  induction l with
  | nil => cases h
  | cons entry l ih =>
    by_cases hk : entry.1 = k
    · rw [get?, if_pos hk, Option.some_inj] at h
      rw [← hk, ← h]
      exact mem_cons_self
    · rw [get?, if_neg hk] at h
      exact mem_cons_of_mem _ (ih h)

theorem get?_of_mem (hl : (l.map Prod.fst).Nodup) (h : (k, v) ∈ l) : get? k l = some v := by
  induction l with
  | nil => cases h
  | cons entry l ih =>
    rw [map_cons, nodup_cons] at hl
    rcases mem_cons.mp h with rfl | h
    · simp [get?]
    · have hne : entry.1 ≠ k := fun hk =>
        hl.1 (hk ▸ mem_map.mpr ⟨(k, v), h, rfl⟩)
      rw [get?, if_neg hne]
      exact ih hl.2 h

theorem get?_filter_ne (k k' : κ) (l : List (κ × α)) :
    get? k' (l.filter fun entry => decide (entry.1 ≠ k)) = if k = k' then none else get? k' l := by
  induction l with
  | nil => simp [get?]
  | cons entry l ih =>
    by_cases hk : entry.1 = k
    · rw [filter_cons_of_neg (by simpa using hk), ih, get?]
      by_cases hk' : k = k'
      · rw [if_pos hk', if_pos hk']
      · rw [if_neg hk', if_neg hk', if_neg fun h => hk' (hk.symm.trans h)]
    · rw [filter_cons_of_pos (by simpa using hk), get?, get?, ih]
      by_cases hk' : entry.1 = k'
      · rw [if_pos hk', if_pos hk', if_neg fun h => hk (hk'.trans h.symm)]
      · rw [if_neg hk', if_neg hk']

/-- A list with other values under the same keys. -/
theorem get?_map {β : Type*} (f : κ → α → β) (k : κ) (l : List (κ × α)) :
    get? k (l.map fun entry => (entry.1, f entry.1 entry.2)) = (get? k l).map (f k) := by
  induction l with
  | nil => rfl
  | cons entry l ih =>
    rw [map_cons, get?, get?, ih]
    by_cases hk : entry.1 = k
    · rw [if_pos hk, if_pos hk, Option.map_some, hk]
    · rw [if_neg hk, if_neg hk]

/-- Assigning the value that is there changes nothing. -/
theorem set_eq_self (h : get? k l = some v) : set k v l = l := by
  induction l with
  | nil => cases h
  | cons entry l ih =>
    by_cases hk : entry.1 = k
    · rw [get?, if_pos hk] at h
      rw [set, if_pos hk, ← Option.some.inj h, ← hk]
    · rw [get?, if_neg hk] at h
      rw [set, if_neg hk, ih h]

theorem mem_keys_of_get? (h : get? k l = some v) : k ∈ l.map Prod.fst :=
  mem_map_of_mem (mem_of_get? h)

theorem exists_get?_of_mem (h : k ∈ l.map Prod.fst) : ∃ v, get? k l = some v :=
  Option.ne_none_iff_exists'.mp fun hnone => get?_eq_none.mp hnone h

/-- Lists with the same keys and the same values are the same. -/
theorem ext_keys {l' : List (κ × α)} (hkeys : l.map Prod.fst = l'.map Prod.fst)
    (hnodup : (l.map Prod.fst).Nodup) (hget : ∀ k, get? k l = get? k l') : l = l' := by
  induction l generalizing l' with
  | nil => exact (map_eq_nil_iff.mp hkeys.symm).symm
  | cons entry l ih =>
    obtain ⟨k, v⟩ := entry
    obtain ⟨entry', rest, rfl, hk, hrest⟩ := map_eq_cons_iff.mp hkeys.symm
    obtain ⟨k', v'⟩ := entry'
    obtain rfl : k' = k := hk
    rw [map_cons, nodup_cons] at hnodup
    have hhead := hget k'
    rw [get?, get?, if_pos rfl, if_pos rfl] at hhead
    obtain rfl : v = v' := Option.some.inj hhead
    refine congrArg (List.cons _) (ih hrest.symm hnodup.2 fun k => ?_)
    by_cases hk : k' = k
    · subst hk
      rw [get?_eq_none.mpr hnodup.1, get?_eq_none.mpr (hrest ▸ hnodup.1)]
    · have hsame := hget k
      rwa [get?, get?, if_neg hk, if_neg hk] at hsame

end Assoc

/-! ## Dictionaries -/

/-- A dictionary, as its items in insertion order. -/
structure Dict (κ α : Type*) where
  entries : List (κ × α)
  nodup : (entries.map Prod.fst).Nodup

namespace Dict

variable {κ α : Type*}

instance [DecidableEq κ] [DecidableEq α] : DecidableEq (Dict κ α) := fun d e =>
  decidable_of_iff (d.entries = e.entries) ⟨fun h => by cases d; cases e; cases h; rfl,
    congrArg entries⟩

/-- `{}`. -/
def empty : Dict κ α := ⟨[], List.nodup_nil⟩

instance : Inhabited (Dict κ α) := ⟨empty⟩

/-- `d.keys()`. -/
def keys (d : Dict κ α) : List κ := d.entries.map Prod.fst

/-- `d.values()`. -/
def values (d : Dict κ α) : List α := d.entries.map Prod.snd

variable [DecidableEq κ]

/-- `d.get(k)`. -/
def get? (d : Dict κ α) (k : κ) : Option α := Assoc.get? k d.entries

/-- `d[k] = v`. -/
def set (d : Dict κ α) (k : κ) (v : α) : Dict κ α :=
  ⟨Assoc.set k v d.entries, Assoc.nodup_set d.nodup⟩

/-- `d.pop(k, None)`. -/
def erase (d : Dict κ α) (k : κ) : Dict κ α :=
  ⟨d.entries.filter fun entry => decide (entry.1 ≠ k),
    d.nodup.sublist (List.filter_sublist.map Prod.fst)⟩

/-- `{k: v for k, v in d.items() if p(k, v)}`. -/
def filter (d : Dict κ α) (p : κ → α → Bool) : Dict κ α :=
  ⟨d.entries.filter fun entry => p entry.1 entry.2,
    d.nodup.sublist (List.filter_sublist.map Prod.fst)⟩

@[simp] theorem get?_empty (k : κ) : (empty : Dict κ α).get? k = none := rfl

theorem get?_set (d : Dict κ α) (k k' : κ) (v : α) :
    (d.set k v).get? k' = if k = k' then some v else d.get? k' :=
  Assoc.get?_set k k' v d.entries

@[simp] theorem get?_set_self (d : Dict κ α) (k : κ) (v : α) : (d.set k v).get? k = some v := by
  rw [get?_set, if_pos rfl]

variable {k : κ} {d : Dict κ α} {v : α}

theorem get?_set_of_ne (d : Dict κ α) {k' : κ} (v : α) (h : k ≠ k') :
    (d.set k v).get? k' = d.get? k' := by
  rw [get?_set, if_neg h]

theorem get?_erase (d : Dict κ α) (k k' : κ) :
    (d.erase k).get? k' = if k = k' then none else d.get? k' :=
  Assoc.get?_filter_ne k k' d.entries

@[simp] theorem get?_erase_self (d : Dict κ α) (k : κ) : (d.erase k).get? k = none := by
  rw [get?_erase, if_pos rfl]

theorem get?_erase_of_ne (d : Dict κ α) {k' : κ} (h : k ≠ k') :
    (d.erase k).get? k' = d.get? k' := by
  rw [get?_erase, if_neg h]

/-- The items are the keys with their values. -/
theorem mem_entries : (k, v) ∈ d.entries ↔ d.get? k = some v :=
  ⟨Assoc.get?_of_mem d.nodup, Assoc.mem_of_get?⟩

theorem get?_filter {p : κ → α → Bool} :
    (d.filter p).get? k = some v ↔ d.get? k = some v ∧ p k v = true := by
  rw [← mem_entries, ← mem_entries, filter, mem_filter]

theorem mem_values : v ∈ d.values ↔ ∃ k, d.get? k = some v := by
  constructor
  · intro hv
    obtain ⟨entry, hentry, rfl⟩ := mem_map.mp hv
    exact ⟨entry.1, mem_entries.mp hentry⟩
  · rintro ⟨k, hk⟩
    exact mem_map.mpr ⟨(k, v), mem_entries.mpr hk, rfl⟩

theorem mem_keys : k ∈ d.keys ↔ (d.get? k).isSome := by
  rw [← not_iff_not, Bool.not_eq_true, Option.isSome_eq_false_iff, Option.isNone_iff_eq_none]
  exact Assoc.get?_eq_none.symm

/-! ### Sizes -/

theorem length_keys_set_of_mem (v : α) (hk : k ∈ d.keys) :
    (d.set k v).keys.length = d.keys.length := by
  unfold keys set at *
  rw [Assoc.keys_set, if_pos hk]

theorem length_keys_set_le (d : Dict κ α) (k : κ) (v : α) :
    (d.set k v).keys.length ≤ d.keys.length + 1 := by
  unfold keys set
  rw [Assoc.keys_set]
  split
  · exact Nat.le_succ _
  · simp

theorem keys_erase (d : Dict κ α) (k : κ) : (d.erase k).keys = d.keys.filter fun a => decide (a ≠ k) := by
  unfold keys erase
  rw [filter_map]
  rfl

theorem length_keys_erase_le (d : Dict κ α) (k : κ) : (d.erase k).keys.length ≤ d.keys.length := by
  rw [keys_erase]
  exact length_filter_le _ _

theorem length_keys_erase_lt (hk : k ∈ d.keys) : (d.erase k).keys.length < d.keys.length := by
  rw [keys_erase]
  exact length_filter_lt_length_iff_exists.mpr ⟨k, hk, by simp⟩

end Dict

end TrustFlow.Library
