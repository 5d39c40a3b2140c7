import Mathlib.Data.Option.Basic

/-!
# Runs of a partial step function

`run step s ls` feeds the labels `ls` one after another to the partial step
function `step`, starting at the state `s`; it is `none` as soon as one label is
not enabled. `Meets step ok s ls` says that every step of the run is taken from
a state in which `ok` allows it, so that a property which only survives the
allowed steps can still be carried along a whole run. The state carried by the
run is explicit in both recursions, and the invariant rule is the one induction
every safety statement uses.
-/

namespace Machine

variable {S L : Type*}

/-- Run the labels one after another; `none` when one of them is not enabled. -/
def run (step : S → L → Option S) : S → List L → Option S
  | s, [] => some s
  | s, l :: ls => (step s l).bind fun t => run step t ls

/-- Every step along the run from `s` is taken where `ok` allows it. -/
def Meets (step : S → L → Option S) (ok : S → L → Prop) : S → List L → Prop
  | _, [] => True
  | s, l :: ls => ok s l ∧ ∀ t, step s l = some t → Meets step ok t ls

/-- Whether a run meets a decidable condition can be computed. -/
instance Meets.decidable (step : S → L → Option S) (ok : S → L → Prop)
    [∀ s l, Decidable (ok s l)] : ∀ (s : S) (ls : List L), Decidable (Meets step ok s ls)
  | _, [] => inferInstanceAs (Decidable True)
  | s, l :: ls =>
      have : Decidable (∀ t, step s l = some t → Meets step ok t ls) :=
        match h : step s l with
        | none => .isTrue fun _ ht => by simp at ht
        | some t =>
            match Meets.decidable step ok t ls with
            | .isTrue ht => .isTrue fun u hu => by
                obtain rfl := Option.some.inj hu
                exact ht
            | .isFalse ht => .isFalse fun hall => ht (hall t rfl)
      inferInstanceAs (Decidable (_ ∧ _))

@[simp] theorem run_nil (step : S → L → Option S) (s : S) :
    run step s [] = some s := rfl

theorem run_cons (step : S → L → Option S) (s : S) (l : L) (ls : List L) :
    run step s (l :: ls) = (step s l).bind fun t => run step t ls := rfl

/-- A run that takes a first step continues from the state that step leads to. -/
theorem run_cons_eq_some_iff (step : S → L → Option S) (s u : S) (l : L)
    (ls : List L) :
    run step s (l :: ls) = some u ↔
      ∃ t, step s l = some t ∧ run step t ls = some u := by
  rw [run_cons, Option.bind_eq_some_iff]

/-- A run of two lists of labels is one after the other. -/
theorem run_append (step : S → L → Option S) (s : S) (ls ls' : List L) :
    run step s (ls ++ ls') = (run step s ls).bind fun t => run step t ls' := by
  induction ls generalizing s with
  | nil => simp [run]
  | cons l ls ih =>
      rw [List.cons_append, run_cons, run_cons]
      cases step s l with
      | none => rfl
      | some t => exact ih t

/-- One more step at the end of a run. -/
theorem run_concat (step : S → L → Option S) (s : S) (ls : List L) (l : L) :
    run step s (ls ++ [l]) = (run step s ls).bind fun t => step t l := by
  rw [run_append]
  congr 1
  funext t
  rw [run_cons]
  cases step t l with
  | none => rfl
  | some u => rfl

/-- What the initial state satisfies and every allowed step preserves holds
wherever an allowed run leads. -/
theorem run_invariant {step : S → L → Option S} {ok : S → L → Prop}
    {inv : S → Prop}
    (hstep : ∀ s l t, inv s → ok s l → step s l = some t → inv t) :
    ∀ (ls : List L) (s u : S), inv s → Meets step ok s ls →
      run step s ls = some u → inv u
  | [], s, u, hs, _, hrun => by
      obtain rfl : s = u := by simpa using hrun
      exact hs
  | l :: ls, s, u, hs, hok, hrun => by
      obtain ⟨t, ht, hu⟩ := (run_cons_eq_some_iff step s u l ls).1 hrun
      exact run_invariant hstep ls t u (hstep s l t hs hok.1 ht) (hok.2 t ht) hu

/-- What every step preserves holds wherever a run leads. -/
theorem run_preserves {step : S → L → Option S} {inv : S → Prop}
    (hstep : ∀ s l t, inv s → step s l = some t → inv t) :
    ∀ (ls : List L) (s u : S), inv s → run step s ls = some u → inv u
  | [], s, u, hs, hrun => by
      obtain rfl : s = u := by simpa using hrun
      exact hs
  | l :: ls, s, u, hs, hrun => by
      obtain ⟨t, ht, hu⟩ := (run_cons_eq_some_iff step s u l ls).1 hrun
      exact run_preserves hstep ls t u (hstep s l t hs ht) hu

/-- A property of the steps that every allowed step has from a state with an
invariant is a property of every step of an allowed run. -/
theorem Meets.of_invariant {step : S → L → Option S} {ok good : S → L → Prop} {inv : S → Prop}
    (hstep : ∀ s l t, inv s → ok s l → step s l = some t → inv t)
    (hgood : ∀ s l, inv s → ok s l → good s l) :
    ∀ (ls : List L) (s : S), inv s → Meets step ok s ls → Meets step good s ls
  | [], _, _, _ => trivial
  | l :: ls, s, hs, hok =>
      ⟨hgood s l hs hok.1, fun t ht =>
        Meets.of_invariant hstep hgood ls t (hstep s l t hs hok.1 ht) (hok.2 t ht)⟩

/-- A property of every step is one of the steps of every run. -/
theorem Meets.of_forall {step : S → L → Option S} {ok : S → L → Prop} (h : ∀ s l, ok s l) :
    ∀ (ls : List L) (s : S), Meets step ok s ls
  | [], _ => trivial
  | l :: ls, s => ⟨h s l, fun t _ => Meets.of_forall h ls t⟩

/-- The last step of a run, from the state the run up to there leads to. -/
theorem Meets.last {step : S → L → Option S} {ok : S → L → Prop} {l : L} {t : S} :
    ∀ {ls : List L} {s : S}, Meets step ok s (ls ++ [l]) → run step s ls = some t → ok t l
  | [], s, h, hrun => by
      obtain rfl : s = t := by simpa using hrun
      exact h.1
  | l' :: ls, s, h, hrun => by
      obtain ⟨u, hu, hrest⟩ := (run_cons_eq_some_iff step s t l' ls).1 hrun
      exact Meets.last (h.2 u hu) hrest

end Machine
