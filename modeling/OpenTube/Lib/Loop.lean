import Mathlib.Logic.Relation

/-!
# Loops

A loop is given by one round: it is undefined, or has a result, or goes on with
another state. `run` takes a number of rounds; `Ends` says that some number of
rounds is enough. A loop is executed piece by piece with `Reaches`.
-/

namespace Loop

variable {S R : Type*}

/-- What a round comes to. -/
inductive Next (S R : Type*)
  | goto (s : S)
  | done (r : R)
deriving DecidableEq

/-- At most `n` rounds. -/
def run (step : S → Option (Next S R)) : Nat → S → Option R
  | 0, _ => none
  | n + 1, s =>
      match step s with
      | none => none
      | some (.done r) => some r
      | some (.goto t) => run step n t

/-- The loop ends with the result `r`. -/
def Ends (step : S → Option (Next S R)) (s : S) (r : R) : Prop := ∃ n, run step n s = some r

/-- The loop comes from `s` to `t`. -/
def Reaches (step : S → Option (Next S R)) : S → S → Prop :=
  Relation.ReflTransGen fun s t => step s = some (.goto t)

variable {step : S → Option (Next S R)} {s t u : S} {r : R}

theorem Reaches.refl : Reaches step s s := Relation.ReflTransGen.refl

theorem Reaches.trans (h : Reaches step s t) (h' : Reaches step t u) : Reaches step s u :=
  Relation.ReflTransGen.trans h h'

theorem Reaches.single (h : step s = some (.goto t)) : Reaches step s t :=
  Relation.ReflTransGen.single h

theorem Reaches.head (h : step s = some (.goto t)) (h' : Reaches step t u) : Reaches step s u :=
  Relation.ReflTransGen.head h h'

theorem ends_of_done (h : step s = some (.done r)) : Ends step s r :=
  ⟨1, by simp [run, h]⟩

/-- The result of a loop is the one it has from where it comes to. -/
theorem Reaches.ends (h : Reaches step s t) (ht : Ends step t r) : Ends step s r := by
  induction h using Relation.ReflTransGen.head_induction_on with
  | refl => exact ht
  | head hstep _ ih =>
      obtain ⟨n, hn⟩ := ih
      exact ⟨n + 1, by simpa [run, hstep] using hn⟩

/-- Where a loop comes to, it still has its result. -/
theorem Ends.of_reaches (hs : Ends step s r) (h : Reaches step s t) : Ends step t r := by
  induction h with
  | refl => exact hs
  | tail _ hstep ih =>
      obtain ⟨n, hn⟩ := ih
      cases n with
      | zero => simp [run] at hn
      | succ n => exact ⟨n, by simpa [run, hstep] using hn⟩

/-- More rounds than needed change nothing. -/
theorem run_add {n : Nat} (h : run step n s = some r) (m : Nat) : run step (n + m) s = some r := by
  induction n generalizing s with
  | zero => simp [run] at h
  | succ n ih =>
      rw [Nat.succ_add, run]
      rw [run] at h
      cases hstep : step s with
      | none => simp [hstep] at h
      | some e =>
          cases e with
          | done r' => simpa [hstep] using h
          | goto t =>
              rw [hstep] at h
              exact ih h

/-- A loop has one result. -/
theorem Ends.unique {r' : R} (h : Ends step s r) (h' : Ends step s r') : r = r' := by
  obtain ⟨n, hn⟩ := h
  obtain ⟨m, hm⟩ := h'
  have hleft := run_add hn m
  have hright := run_add hm n
  rw [Nat.add_comm] at hright
  exact Option.some.inj (hleft.symm.trans hright)

end Loop
