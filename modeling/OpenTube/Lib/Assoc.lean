import Mathlib.Data.List.Basic

/-!
# Association lists that grow at the end

A table whose new entries are appended and whose searches start at the front is a
list of pairs read with `List.lookup`. A key that is already there hides an entry
appended later, so an append acts on the lookup of its key only if the key is new;
an entry is changed in place at its first occurrence.
-/

namespace Assoc

variable {α β : Type*} [DecidableEq α]

/-- Change the first value of `k`. -/
def adjust (k : α) (f : β → β) : List (α × β) → List (α × β)
  | [] => []
  | (k', v) :: l => if k = k' then (k', f v) :: l else (k', v) :: adjust k f l

/-- The values change, not the keys. -/
@[simp] theorem map_fst_adjust (k : α) (f : β → β) (l : List (α × β)) :
    (adjust k f l).map Prod.fst = l.map Prod.fst := by
  induction l with
  | nil => rfl
  | cons e l ih =>
      rw [adjust]
      split_ifs
      · rfl
      · rw [List.map_cons, List.map_cons, ih]

variable [BEq α] [LawfulBEq α]

theorem lookup_cons_eq (k a : α) (v : β) (l : List (α × β)) :
    ((a, v) :: l).lookup k = if k = a then some v else l.lookup k := by
  by_cases h : k = a
  · simp [h]
  · have hne : (k == a) = false := by simpa using h
    simp only [List.lookup_cons, hne, if_neg h]

theorem lookup_adjust (k k' : α) (f : β → β) (l : List (α × β)) :
    (adjust k f l).lookup k' = if k' = k then (l.lookup k').map f else l.lookup k' := by
  induction l with
  | nil => simp [adjust]
  | cons e l ih =>
      obtain ⟨a, v⟩ := e
      rw [adjust]
      by_cases hk : k = a
      · subst hk
        rw [if_pos rfl, lookup_cons_eq, lookup_cons_eq]
        split_ifs <;> rfl
      · rw [if_neg hk, lookup_cons_eq, lookup_cons_eq, ih]
        by_cases hk' : k' = a
        · subst hk'
          simp [Ne.symm hk]
        · simp [hk']

/-- An appended entry is found if its key is new. -/
theorem lookup_concat {k : α} (k' : α) (v : β) {l : List (α × β)} (h : l.lookup k = none) :
    (l ++ [(k, v)]).lookup k' = if k' = k then some v else l.lookup k' := by
  rw [List.lookup_append, lookup_cons_eq]
  by_cases hk : k' = k
  · subst hk
    simp [h]
  · simp [hk]

/-- With distinct keys, what is found under a key is the pair with that key. -/
theorem lookup_eq_some_iff_mem {k : α} {v : β} {l : List (α × β)} (h : (l.map Prod.fst).Nodup) :
    l.lookup k = some v ↔ (k, v) ∈ l := by
  induction l with
  | nil => simp
  | cons e l ih =>
      obtain ⟨a, w⟩ := e
      rw [List.map_cons, List.nodup_cons] at h
      rw [lookup_cons_eq, List.mem_cons, Prod.mk.injEq]
      by_cases hk : k = a
      · subst hk
        have hnot : (k, v) ∉ l := fun hmem => h.1 (List.mem_map.2 ⟨_, hmem, rfl⟩)
        simp [hnot, eq_comm]
      · simp [hk, ih h.2]

/-- A key that no pair has is not found. -/
theorem lookup_eq_none_of_notMem {k : α} {l : List (α × β)} (h : k ∉ l.map Prod.fst) :
    l.lookup k = none := by
  induction l with
  | nil => rfl
  | cons e l ih =>
      rw [List.map_cons, List.mem_cons, not_or] at h
      rw [lookup_cons_eq, if_neg h.1, ih h.2]

/-- With distinct keys the order of the pairs does not matter. -/
theorem lookup_perm {l l' : List (α × β)} (h : l.Perm l') (hl : (l.map Prod.fst).Nodup) (k : α) :
    l.lookup k = l'.lookup k := by
  have hl' : (l'.map Prod.fst).Nodup := (h.map Prod.fst).nodup_iff.1 hl
  ext v
  rw [lookup_eq_some_iff_mem hl, lookup_eq_some_iff_mem hl', h.mem_iff]

/-- Pairs that are dropped by their keys. -/
theorem lookup_filter_key (p : α → Bool) (k : α) (l : List (α × β)) :
    (l.filter fun e => p e.1).lookup k = if p k then l.lookup k else none := by
  induction l with
  | nil => simp
  | cons e l ih =>
      obtain ⟨a, v⟩ := e
      by_cases ha : p a
      · rw [List.filter_cons_of_pos (p := fun e : α × β => p e.1) ha, lookup_cons_eq,
          lookup_cons_eq, ih]
        by_cases hk : k = a
        · rw [if_pos hk, if_pos hk, hk, if_pos ha]
        · rw [if_neg hk, if_neg hk]
      · rw [List.filter_cons_of_neg (p := fun e : α × β => p e.1) ha, lookup_cons_eq, ih]
        by_cases hk : k = a
        · rw [hk, if_neg ha, if_neg ha]
        · rw [if_neg hk]

end Assoc
