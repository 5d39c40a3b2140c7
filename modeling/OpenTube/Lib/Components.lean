import Mathlib.Data.List.Basic

/-!
# Components of a separated list

Splitting a list at a separator gives its components. `mem_splitOn_iff` reads
membership of a component as a decomposition of the list itself: a component
stands between two separators, where the list is thought of as preceded by one
and followed by one. The decomposition is the form in which components survive
the removal of other elements.
-/

namespace Separated

open List

variable {α : Type*} [DecidableEq α]

/-- What may follow a component: nothing, or the next separator. -/
def EndsComponent (s : α) (t : List α) : Prop :=
  t = [] ∨ t.head? = some s

theorem splitOn_append_of_endsComponent {s : α} {c t : List α} (hc : s ∉ c)
    (ht : EndsComponent s t) : c ∈ (c ++ t).splitOn s := by
  rcases ht with rfl | ht
  · simp [splitOn_eq_singleton hc]
  · obtain ⟨t', rfl⟩ : ∃ t', t = s :: t' := by
      cases t with
      | nil => simp at ht
      | cons x t' => exact ⟨t', by simpa using ht⟩
    rw [splitOn_append_cons_self_of_not_mem hc]
    exact mem_cons_self

theorem exists_append_of_mem_splitOn {s : α} {c : List α} :
    ∀ (n : ℕ) (l : List α), l.length ≤ n → c ∈ l.splitOn s →
      s ∉ c ∧ ∃ a t, s :: l = a ++ s :: (c ++ t) ∧ EndsComponent s t := by
  intro n
  induction n with
  | zero =>
      intro l hl hc
      obtain rfl : l = [] := by simpa using hl
      obtain rfl : c = [] := by simpa using hc
      exact ⟨by simp, [], [], rfl, .inl rfl⟩
  | succ n ih =>
      intro l hl hc
      by_cases hs : s ∈ l
      · obtain ⟨x, y, rfl, hx⟩ := eq_append_cons_of_mem hs
        rw [splitOn_append_cons_self_of_not_mem hx, mem_cons] at hc
        rcases hc with rfl | hc
        · exact ⟨hx, [], s :: y, by simp, .inr rfl⟩
        · have hy : y.length ≤ n := by
            simp only [length_append, length_cons] at hl
            omega
          obtain ⟨hsc, a, t, hat, ht⟩ := ih y hy hc
          exact ⟨hsc, s :: x ++ a, t, by simp [hat], ht⟩
      · rw [splitOn_eq_singleton hs, mem_singleton] at hc
        subst hc
        exact ⟨hs, [], [], by simp, .inl rfl⟩

/-- A list is a component exactly when it is free of the separator and stands
between two separators, the list being preceded and followed by one. -/
theorem mem_splitOn_iff {s : α} {c l : List α} :
    c ∈ l.splitOn s ↔
      s ∉ c ∧ ∃ a t, s :: l = a ++ s :: (c ++ t) ∧ EndsComponent s t := by
  constructor
  · exact exists_append_of_mem_splitOn l.length l (Nat.le_refl _)
  · rintro ⟨hc, a, t, hat, ht⟩
    cases a with
    | nil =>
        obtain rfl : l = c ++ t := by simpa using hat
        exact splitOn_append_of_endsComponent hc ht
    | cons x a =>
        obtain ⟨rfl, rfl⟩ : s = x ∧ l = a ++ s :: (c ++ t) := by simpa using hat
        rw [splitOn_append_cons_self]
        exact mem_append_right _ (splitOn_append_of_endsComponent hc ht)

/-- Lists that are each followed by a separator are its components, and the last
one is empty, exactly when the separator is in none of them. -/
theorem splitOn_flatMap_concat_iff {s : α} {ls : List (List α)} :
    (ls.flatMap fun l => l ++ [s]).splitOn s = ls ++ [[]] ↔ ∀ l ∈ ls, s ∉ l := by
  constructor
  · intro h l hl
    exact (mem_splitOn_iff.1 (h ▸ mem_append_left _ hl)).1
  · intro h
    induction ls with
    | nil => simp
    | cons l ls ih =>
        rw [flatMap_cons, append_assoc, singleton_append,
          splitOn_append_cons_self_of_not_mem (h l (by simp)),
          ih fun l' hl' => h l' (by simp [hl']), cons_append]

end Separated
