import Mathlib.Data.List.Basic

/-!
# Positions in a vector of ranges

A vector of ranges denotes the concatenation of its entries. `splitPoint n`
finds the entry in which the first `n` elements end and how far into that entry
they reach; `advance` leaves the part of the vector from there on. The two
together drop `n` elements from what the vector denotes.
-/

namespace Vectored

open List

variable {α : Type*}

/-- The entry in which the first `n` elements end, and how many of its elements
belong to them. -/
def splitPoint : Nat → List (List α) → Option (Nat × Nat)
  | _, [] => none
  | n, b :: vec =>
      if n ≤ b.length then some (0, n)
      else (splitPoint (n - b.length) vec).map fun p => (p.1 + 1, p.2)

/-- The vector from the position `d` of the entry `t` on. -/
def advance (vec : List (List α)) (t d : Nat) : List (List α) :=
  (vec.drop t).modify 0 fun b => b.drop d

/-- The entries up to the one in which the first `n` elements end have less than
`w` elements. -/
def EndsBelow (w n : Nat) (vec : List (List α)) : Prop :=
  ∀ p ∈ splitPoint n vec, (vec.take (p.1 + 1)).flatten.length < w

instance (w n : Nat) (vec : List (List α)) : Decidable (EndsBelow w n vec) :=
  inferInstanceAs (Decidable (∀ p ∈ splitPoint n vec, _))

/-- A vector with at least `n` elements is split, and the rest of it denotes what
follows the first `n` elements. -/
theorem splitPoint_spec {vec : List (List α)} (hne : vec ≠ []) {n : Nat}
    (hn : n ≤ vec.flatten.length) :
    ∃ t d, splitPoint n vec = some (t, d) ∧ t < vec.length ∧
      (advance vec t d).flatten = vec.flatten.drop n := by
  induction vec generalizing n with
  | nil => exact absurd rfl hne
  | cons b vec ih =>
      by_cases hb : n ≤ b.length
      · refine ⟨0, n, by simp [splitPoint, hb], by simp, ?_⟩
        simp [advance, drop_append_of_le_length hb]
      · have hvec : n - b.length ≤ vec.flatten.length := by
          rw [flatten_cons, length_append] at hn
          omega
        have hne' : vec ≠ [] := by
          rintro rfl
          simp at hvec
          omega
        obtain ⟨t, d, hsplit, ht, hflat⟩ := ih hne' hvec
        refine ⟨t + 1, d, by simp [splitPoint, hb, hsplit], by simpa using ht, ?_⟩
        rw [flatten_cons, drop_append, drop_eq_nil_of_le (by omega), nil_append, ← hflat]
        rfl

/-- Behind its first entry a vector stays below a bound that is lower by the
length of that entry. -/
theorem EndsBelow.tail {w n : Nat} {b : List α} {vec : List (List α)}
    (h : EndsBelow w n (b :: vec)) (hb : b.length < n) :
    EndsBelow (w - b.length) (n - b.length) vec := by
  rintro ⟨t, d⟩ hsplit
  have hsplit' : splitPoint (n - b.length) vec = some (t, d) := hsplit
  have hcons : ((b :: vec).take (t + 1 + 1)).flatten.length < w :=
    h (t + 1, d) (by simp [splitPoint, hsplit', Nat.not_le_of_lt hb])
  change (vec.take (t + 1)).flatten.length < w - b.length
  rw [take_succ_cons, flatten_cons, length_append] at hcons
  omega

/-- The first entry is itself below the bound. -/
theorem EndsBelow.head {w n : Nat} {b : List α} {vec : List (List α)}
    (h : EndsBelow w n (b :: vec)) (hn : n ≤ (b :: vec).flatten.length) : b.length < w := by
  obtain ⟨t, d, hsplit, -⟩ := splitPoint_spec (cons_ne_nil b vec) hn
  have hlt := h (t, d) hsplit
  rw [take_succ_cons, flatten_cons, length_append] at hlt
  omega

end Vectored
