import Mathlib.Data.List.Perm.Basic
import Mathlib.Data.List.TakeDrop

/-!
# Arrays that do not keep their order

An entry is removed by moving the last entry into its place. A loop over such an
array that removes entries as it goes either visits the same place again, and then
filters the array, or goes on to the next place, and then passes over the entries
that were moved. Both loops run over the places from `i` on; the number of places
left, `n`, falls in every turn.
-/

namespace Unordered

open List

variable {α σ : Type*}

/-- The last entry takes the place of the entry `i`. -/
def removeAt (l : List α) (i : Nat) : List α :=
  match l.getLast? with
  | none => []
  | some x => (l.set i x).dropLast

theorem removeAt_concat (l : List α) (x : α) (i : Nat) :
    removeAt (l ++ [x]) i = if i < l.length then l.set i x else l := by
  simp only [removeAt, getLast?_append, getLast?_singleton, Option.some_or]
  split_ifs with h
  · rw [set_append_left _ _ h, dropLast_concat]
  · rw [set_append_right _ _ (Nat.le_of_not_lt h)]
    cases i - l.length <;> simp

theorem length_removeAt (l : List α) (i : Nat) : (removeAt l i).length = l.length - 1 := by
  rcases l.eq_nil_or_concat with rfl | ⟨l, x, rfl⟩
  · rfl
  · rw [concat_eq_append, removeAt_concat]
    split_ifs <;> simp

/-- The places before the removed one stay. -/
theorem take_removeAt (l : List α) {i : Nat} (h : i < l.length) :
    (removeAt l i).take i = l.take i := by
  rcases l.eq_nil_or_concat with rfl | ⟨l, x, rfl⟩
  · rfl
  · rw [concat_eq_append] at h ⊢
    have hle : i ≤ l.length := by simpa [Nat.lt_succ_iff] using h
    rw [removeAt_concat, take_append_of_le_length hle]
    split_ifs
    · rw [take_set_of_le (Nat.le_refl i)]
    · rfl

/-- From the removed place on, the entries behind it are there in another order. -/
theorem drop_removeAt_perm (l : List α) {i : Nat} (h : i < l.length) :
    (removeAt l i).drop i ~ l.drop (i + 1) := by
  rcases l.eq_nil_or_concat with rfl | ⟨l, x, rfl⟩
  · exact absurd h (Nat.not_lt_zero i)
  · rw [concat_eq_append] at h ⊢
    rw [removeAt_concat]
    split_ifs with hi
    · have hset : (l.set i x).drop i = x :: l.drop (i + 1) := by
        rw [set_eq_take_append_cons_drop, if_pos hi, drop_left' (length_take_of_le (Nat.le_of_lt hi))]
      rw [hset, drop_append_of_le_length hi]
      exact (perm_append_singleton x _).symm
    · have hlast : i = l.length := by
        rw [length_append, length_singleton] at h
        omega
      rw [hlast, drop_length, drop_of_length_le (by simp)]

/-- Removing an entry leaves the others. -/
theorem perm_cons_removeAt {l : List α} {i : Nat} {x : α} (h : l[i]? = some x) :
    l ~ x :: removeAt l i := by
  obtain ⟨hi, rfl⟩ := List.getElem?_eq_some_iff.1 h
  calc l = l.take i ++ l[i] :: l.drop (i + 1) := by
        rw [← drop_eq_getElem_cons hi, take_append_drop]
    _ ~ l[i] :: (l.take i ++ l.drop (i + 1)) := perm_middle
    _ ~ l[i] :: ((removeAt l i).take i ++ (removeAt l i).drop i) := by
        rw [take_removeAt l hi]
        exact ((drop_removeAt_perm l hi).symm.append_left _).cons _
    _ = l[i] :: removeAt l i := by rw [take_append_drop]

/-! ## Visiting a place again -/

/-- Visit `n` entries from the place `i` on. An entry that is not kept is removed and
its place visited again; with an entry that is kept, `f` changes the state. -/
def sweep (keep : α → Bool) (f : σ → α → σ) : Nat → Nat → List α → σ → List α × σ
  | 0, _, l, s => (l, s)
  | n + 1, i, l, s =>
      match l[i]? with
      | none => (l, s)
      | some x =>
          if keep x then sweep keep f n (i + 1) l (f s x)
          else sweep keep f n i (removeAt l i) s

/-- The places before the first one that is visited stay; behind them are the entries
that are kept, in the order in which the state saw them. -/
theorem sweep_spec (keep : α → Bool) (f : σ → α → σ) {n i : Nat} {l : List α} {s : σ}
    (h : n + i = l.length) :
    ∃ rest, rest ~ (l.drop i).filter keep ∧
      sweep keep f n i l s = (l.take i ++ rest, rest.foldl f s) := by
  induction n generalizing i l s with
  | zero =>
      have hi : l.length ≤ i := by omega
      refine ⟨[], ?_, ?_⟩
      · rw [drop_of_length_le hi]
        rfl
      · rw [take_of_length_le hi, append_nil]
        rfl
  | succ n ih =>
      have hi : i < l.length := by omega
      rw [sweep, getElem?_eq_getElem hi, drop_eq_getElem_cons hi]
      dsimp only
      split_ifs with hx
      · obtain ⟨rest, hrest, heq⟩ := ih (i := i + 1) (l := l) (s := f s l[i]) (by omega)
        refine ⟨l[i] :: rest, ?_, ?_⟩
        · rw [filter_cons_of_pos hx]
          exact hrest.cons _
        · rw [heq, take_succ_eq_append_getElem hi, append_assoc]
          rfl
      · obtain ⟨rest, hrest, heq⟩ := ih (i := i) (l := removeAt l i) (s := s)
          (by rw [length_removeAt]; omega)
        refine ⟨rest, ?_, ?_⟩
        · rw [filter_cons_of_neg hx]
          exact hrest.trans ((drop_removeAt_perm l hi).filter keep)
        · rw [heq, take_removeAt l hi]

/-! ## Going on to the next place -/

/-- Visit `n` places from `i` on. A visit replaces the entry or removes it; the result
has the entries that were visited with what became of them. -/
def pass (act : σ → α → σ × Option α) :
    Nat → Nat → List α → σ → List (α × Option α) × List α × σ
  | 0, _, l, s => ([], l, s)
  | n + 1, i, l, s =>
      match l[i]? with
      | none => ([], l, s)
      | some x =>
          let e := act s x
          let r := pass act n (i + 1) (match e.2 with | some y => l.set i y | none => removeAt l i)
            e.1
          ((x, e.2) :: r.1, r.2)

variable {act : σ → α → σ × Option α}

end Unordered
