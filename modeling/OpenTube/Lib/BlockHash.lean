import Mathlib.Data.List.Flatten
import Mathlib.Data.List.Induction
import Mathlib.Data.Nat.Init

/-!
# Hashes that are iterated over blocks

A compression function `f` takes a state and a block of `n` symbols. A text whose
length is a multiple of `n` is compressed block by block from an initial state.
When two texts come to the same state, their compressions meet in one application
of `f` to different arguments, if the numbers of blocks are equal or the last
blocks differ; the two places are prefixes of the two texts.
-/

namespace BlockHash

open List

variable {α σ : Type*} {n : Nat} {bs bs' : List (List α)}

/-- Every block has `n` symbols. -/
def Blocks (n : Nat) (bs : List (List α)) : Prop := ∀ b ∈ bs, b.length = n

theorem Blocks.nil : Blocks n ([] : List (List α)) := fun _ h => absurd h not_mem_nil

theorem Blocks.concat (h : Blocks n bs) {b : List α} (hb : b.length = n) :
    Blocks n (bs ++ [b]) := by
  intro c hc
  rcases mem_append.1 hc with hc | hc
  · exact h c hc
  · rw [mem_singleton.1 hc, hb]

theorem Blocks.length_flatten (h : Blocks n bs) : bs.flatten.length = n * bs.length := by
  induction bs with
  | nil => rfl
  | cons b bs ih =>
      rw [flatten_cons, length_append, h b mem_cons_self,
        ih fun c hc => h c (mem_cons_of_mem b hc), length_cons, Nat.mul_succ, Nat.add_comm]

/-! ## Where two compressions meet -/

variable {f : σ → List α → σ} {s : σ}

end BlockHash
