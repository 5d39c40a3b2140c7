import Mathlib.Data.Finset.Basic
import Mathlib.Data.Finset.Dedup

/-!
# Live blocks

The heap of a program as the set of the addresses of its live blocks. An allocation
adds the address that the allocator answers with, which is not one of a live block; an
address that was freed may come again. Freeing is a partial function, so a block that
is freed twice, or after it was moved, has no value.
-/

namespace Heap

variable {α : Type*} [DecidableEq α]

/-- Free the block at `a`. -/
def release (live : Finset α) (a : α) : Option (Finset α) :=
  if a ∈ live then some (live.erase a) else none

/-- Free some blocks, one after the other. -/
def releaseAll (live : Finset α) : List α → Option (Finset α)
  | [] => some live
  | a :: l => (release live a).bind fun live => releaseAll live l

variable {live live' : Finset α} {a : α} {l : List α}

theorem release_of_mem (h : a ∈ live) : release live a = some (live.erase a) := if_pos h

theorem release_eq_some_iff : release live a = some live' ↔ a ∈ live ∧ live' = live.erase a := by
  rw [release]
  split
  · rename_i h
    simp [h, eq_comm]
  · rename_i h
    simp [h]

/-- Blocks can be freed exactly if each of them is live and occurs once. -/
theorem releaseAll_eq_some_iff :
    releaseAll live l = some live' ↔
      l.Nodup ∧ (∀ a ∈ l, a ∈ live) ∧ live' = live \ l.toFinset := by
  induction l generalizing live with
  | nil => simp [releaseAll, eq_comm]
  | cons a l ih =>
      have hrest : live.erase a \ l.toFinset = live \ (a :: l).toFinset := by
        ext x
        simp only [Finset.mem_sdiff, Finset.mem_erase, List.toFinset_cons, Finset.mem_insert,
          not_or]
        constructor
        · rintro ⟨⟨hne, hlive⟩, hl⟩
          exact ⟨hlive, hne, hl⟩
        · rintro ⟨hlive, hne, hl⟩
          exact ⟨⟨hne, hlive⟩, hl⟩
      rw [releaseAll, Option.bind_eq_some_iff]
      constructor
      · rintro ⟨live₁, hfirst, hl⟩
        obtain ⟨ha, rfl⟩ := release_eq_some_iff.1 hfirst
        obtain ⟨hnodup, hmem, rfl⟩ := ih.1 hl
        refine ⟨List.nodup_cons.2 ⟨fun hal => ?_, hnodup⟩, ?_, hrest⟩
        · exact absurd rfl (Finset.mem_erase.1 (hmem a hal)).1
        · intro x hx
          rcases List.mem_cons.1 hx with rfl | hx
          · exact ha
          · exact Finset.mem_of_mem_erase (hmem x hx)
      · rintro ⟨hnodup, hmem, rfl⟩
        obtain ⟨hal, hnodup⟩ := List.nodup_cons.1 hnodup
        refine ⟨live.erase a, release_of_mem (hmem a List.mem_cons_self), ih.2 ⟨hnodup, ?_, ?_⟩⟩
        · intro x hx
          exact Finset.mem_erase.2 ⟨ne_of_mem_of_not_mem hx hal,
            hmem x (List.mem_cons_of_mem a hx)⟩
        · exact hrest.symm

end Heap
