import Mathlib.Data.List.Basic
import Mathlib.Data.List.Perm.Basic

/-!
# Replacing one entry of a list

What the entries of a list hold, collected with `filterMap`, changes only at the
entry that is replaced. The statements are up to permutation, since the order of
the collection does not matter where they are used. `put` replaces an entry by its
key rather than by its position.
-/

namespace Slots

open List

variable {α β : Type*}

/-- The collection is what the entry `i` holds and a rest that does not depend on
that entry. -/
theorem exists_filterMap_set_perm {l : List α} {i : Nat} {x : α} (h : l[i]? = some x)
    (f : α → Option β) :
    ∃ rest, l.filterMap f ~ (f x).toList ++ rest ∧
      ∀ y, (l.set i y).filterMap f ~ (f y).toList ++ rest := by
  have hi : i < l.length := (List.getElem?_eq_some_iff.1 h).1
  have hsplit : ∀ y, l.set i y = l.take i ++ y :: l.drop (i + 1) := fun y => by
    rw [set_eq_take_append_cons_drop, if_pos hi]
  have hself : l = l.take i ++ x :: l.drop (i + 1) := by
    conv => lhs; rw [← set_getElem_self hi, hsplit]
    rw [(List.getElem?_eq_some_iff.1 h).2]
  have hcollect : ∀ y, (l.take i ++ y :: l.drop (i + 1)).filterMap f ~
      (f y).toList ++ ((l.take i).filterMap f ++ (l.drop (i + 1)).filterMap f) := by
    intro y
    have hone : (y :: l.drop (i + 1)).filterMap f =
        (f y).toList ++ (l.drop (i + 1)).filterMap f := by
      cases hy : f y <;> simp [hy]
    rw [filterMap_append, hone]
    exact perm_append_comm_assoc _ _ _
  refine ⟨(l.take i).filterMap f ++ (l.drop (i + 1)).filterMap f, ?_, fun y => ?_⟩
  · conv => lhs; rw [hself]
    exact hcollect x
  · rw [hsplit y]
    exact hcollect y

/-- A property of every entry survives the replacement of one by an entry that
has it. -/
theorem forall_mem_set {l : List α} {p : α → Prop} (h : ∀ x ∈ l, p x) {i : Nat} {y : α}
    (hy : p y) : ∀ x ∈ l.set i y, p x := by
  intro x hx
  rcases mem_or_eq_of_mem_set hx with hx | rfl
  · exact h x hx
  · exact hy

section Keyed

variable {κ : Type*} [DecidableEq κ] {key : α → κ}

/-- Replace the entries that have the key of `y` by `y`. -/
def put (key : α → κ) (y : α) (l : List α) : List α :=
  l.map fun x => if key x = key y then y else x

/-- The keys stay as they are. -/
@[simp] theorem map_key_put (y : α) (l : List α) : (put key y l).map key = l.map key := by
  rw [put, map_map]
  refine map_congr_left fun x _ => ?_
  by_cases h : key x = key y <;> simp [h]

/-- An entry is the new one or an old one with another key. -/
theorem eq_or_mem_of_mem_put {y z : α} {l : List α} (h : z ∈ put key y l) :
    z = y ∨ (z ∈ l ∧ key z ≠ key y) := by
  obtain ⟨x, hx, rfl⟩ := mem_map.1 h
  by_cases hkey : key x = key y
  · exact .inl (if_pos hkey)
  · exact .inr (by simp [hkey, hx])

/-- Entries with another key stay. -/
theorem mem_put_of_ne {y z : α} {l : List α} (hz : z ∈ l) (hne : key z ≠ key y) :
    z ∈ put key y l :=
  mem_map.2 ⟨z, hz, if_neg hne⟩

/-- The new entry takes the place of one that has its key. -/
theorem mem_put_self {x y : α} {l : List α} (hx : x ∈ l) (hkey : key x = key y) :
    y ∈ put key y l :=
  mem_map.2 ⟨x, hx, if_pos hkey⟩

end Keyed

end Slots
