import Mathlib.Data.List.Basic

/-!
# Scanning a list from its front

A pointer that is moved forward over a text is the rest of the text from that
pointer on. Each scan returns what it passed over together with that rest, and
`none` when it would have to look past the end. A scan that succeeds inside a
text gives the same answer when the text is continued: that is the `_append`
form of each lemma.
-/

namespace Scan

variable {α : Type*}

/-- Move forward to the first element satisfying `p`. -/
def scanTo (p : α → Bool) : List α → Option (List α × List α)
  | [] => none
  | c :: m =>
      if p c then some ([], c :: m)
      else (scanTo p m).map fun r => (c :: r.1, r.2)

theorem scanTo_eq_some_iff (p : α → Bool) (m a r : List α) :
    scanTo p m = some (a, r) ↔
      m = a ++ r ∧ (∀ x ∈ a, p x = false) ∧ ∃ c t, r = c :: t ∧ p c = true := by
  induction m generalizing a with
  | nil =>
      simp only [scanTo, reduceCtorEq, false_iff, not_and]
      rintro hnil - ⟨c, t, rfl, -⟩
      simp at hnil
  | cons c m ih =>
      by_cases hc : p c = true
      · simp only [scanTo, hc, if_true, Option.some.injEq, Prod.mk.injEq]
        constructor
        · rintro ⟨rfl, rfl⟩
          exact ⟨rfl, by simp, c, m, rfl, hc⟩
        · rintro ⟨h, ha, -⟩
          cases a with
          | nil => exact ⟨rfl, h⟩
          | cons x a =>
              obtain ⟨rfl, -⟩ := List.cons_eq_cons.1 h
              simp [hc] at ha
      · rw [scanTo, if_neg hc, Option.map_eq_some_iff]
        constructor
        · rintro ⟨⟨a', r'⟩, hs, h⟩
          obtain ⟨rfl, rfl⟩ := Prod.mk.inj h
          obtain ⟨rfl, ha, hr⟩ := (ih a').1 hs
          exact ⟨rfl, by simpa [hc] using ha, hr⟩
        · rintro ⟨h, ha, hr⟩
          cases a with
          | nil =>
              obtain ⟨x, t, rfl, hx⟩ := hr
              obtain ⟨rfl, -⟩ := List.cons_eq_cons.1 h
              exact absurd hx hc
          | cons x a =>
              obtain ⟨rfl, rfl⟩ := List.cons_eq_cons.1 h
              exact ⟨(a, r), (ih a).2 ⟨rfl, fun y hy => ha y (by simp [hy]), hr⟩, rfl⟩

/-- A scan misses exactly when nothing in the text satisfies `p`. -/
theorem scanTo_eq_none_iff (p : α → Bool) (m : List α) :
    scanTo p m = none ↔ ∀ x ∈ m, p x = false := by
  induction m with
  | nil => simp [scanTo]
  | cons c m ih =>
      by_cases hc : p c = true
      · simp [scanTo, hc]
      · simp [scanTo, hc, ih]

theorem scanTo_append {p : α → Bool} {m a r : List α} (x : List α)
    (h : scanTo p m = some (a, r)) : scanTo p (m ++ x) = some (a, r ++ x) := by
  obtain ⟨rfl, ha, c, t, rfl, hc⟩ := (scanTo_eq_some_iff p m a r).1 h
  exact (scanTo_eq_some_iff p _ a _).2 ⟨by simp, ha, c, t ++ x, rfl, hc⟩

/-- A text is cut where `p` fails for the first time. -/
theorem exists_span (p : α → Bool) (m : List α) :
    ∃ a b, m = a ++ b ∧ m.takeWhile p = a ∧ m.dropWhile p = b ∧ (∀ x ∈ a, p x = true) ∧
      ∀ x ∈ b.head?, p x = false := by
  induction m with
  | nil => exact ⟨[], [], rfl, rfl, rfl, by simp, by simp⟩
  | cons c m ih =>
      by_cases hc : p c = true
      · obtain ⟨a, b, rfl, htake, hdrop, ha, hb⟩ := ih
        refine ⟨c :: a, b, rfl, by rw [List.takeWhile_cons_of_pos hc, htake],
          by rw [List.dropWhile_cons_of_pos hc, hdrop], by simpa [hc] using ha, hb⟩
      · exact ⟨[], c :: m, rfl, List.takeWhile_cons_of_neg hc, List.dropWhile_cons_of_neg hc,
          by simp, by simpa using hc⟩

variable [DecidableEq α]

/-- Move forward to the first `c`. -/
theorem scanTo_beq {c : α} {a : List α} (h : c ∉ a) (t : List α) :
    scanTo (fun x => x == c) (a ++ c :: t) = some (a, c :: t) := by
  refine (scanTo_eq_some_iff _ _ _ _).2 ⟨rfl, fun x hx => ?_, c, t, rfl, by simp⟩
  have hne : x ≠ c := fun heq => h (heq ▸ hx)
  simpa using hne

/-- A text is cut at the first `c` in one way. -/
theorem append_cons_inj {c : α} {a b t u : List α} (ha : c ∉ a) (hb : c ∉ b)
    (h : a ++ c :: t = b ++ c :: u) : a = b ∧ t = u := by
  have hscan := scanTo_beq ha t
  rw [h, scanTo_beq hb u] at hscan
  simp only [Option.some.injEq, Prod.mk.injEq, List.cons.injEq, true_and] at hscan
  exact ⟨hscan.1.symm, hscan.2.symm⟩

/-- Move forward to the first place where `pat` begins. -/
def scanToPat (pat : List α) : List α → Option (List α × List α)
  | [] => none
  | c :: m =>
      if pat <+: c :: m then some ([], c :: m)
      else (scanToPat pat m).map fun r => (c :: r.1, r.2)

/-- The scan stops where `pat` begins, and `pat` begins nowhere before. -/
theorem scanToPat_eq_some_iff (pat m a r : List α) :
    scanToPat pat m = some (a, r) ↔
      m = a ++ r ∧ r ≠ [] ∧ pat <+: r ∧
        ∀ a₁ a₂, a = a₁ ++ a₂ → a₂ ≠ [] → ¬ pat <+: a₂ ++ r := by
  induction m generalizing a with
  | nil =>
      simp only [scanToPat, reduceCtorEq, false_iff, not_and]
      rintro hnil hr -
      simp [hr] at hnil
  | cons c m ih =>
      by_cases hc : pat <+: c :: m
      · simp only [scanToPat, hc, if_true, Option.some.injEq, Prod.mk.injEq]
        constructor
        · rintro ⟨rfl, rfl⟩
          exact ⟨rfl, by simp, hc, by simp⟩
        · rintro ⟨h, -, -, ha⟩
          cases a with
          | nil => exact ⟨rfl, h⟩
          | cons x a => exact absurd (h ▸ hc) (ha [] (x :: a) rfl (by simp))
      · rw [scanToPat, if_neg hc, Option.map_eq_some_iff]
        constructor
        · rintro ⟨⟨a', r'⟩, hs, h⟩
          obtain ⟨rfl, rfl⟩ := Prod.mk.inj h
          obtain ⟨rfl, hr, hpat, ha⟩ := (ih a').1 hs
          refine ⟨rfl, hr, hpat, fun a₁ a₂ heq hne => ?_⟩
          cases a₁ with
          | nil =>
              obtain rfl : c :: a' = a₂ := heq
              exact hc
          | cons y a₁ => exact ha a₁ a₂ (List.cons_eq_cons.1 heq).2 hne
        · rintro ⟨h, hr, hpat, ha⟩
          cases a with
          | nil => exact absurd (h ▸ hpat) hc
          | cons x a =>
              obtain ⟨rfl, rfl⟩ := List.cons_eq_cons.1 h
              refine ⟨(a, r), (ih a).2 ⟨rfl, hr, hpat, fun a₁ a₂ heq hne => ?_⟩, rfl⟩
              exact ha (c :: a₁) a₂ (by rw [heq, List.cons_append]) hne

theorem scanToPat_append {pat m a r : List α} (x : List α)
    (h : scanToPat pat m = some (a, r)) : scanToPat pat (m ++ x) = some (a, r ++ x) := by
  obtain ⟨rfl, hr, hpat, ha⟩ := (scanToPat_eq_some_iff pat m a r).1 h
  refine (scanToPat_eq_some_iff pat _ a _).2
    ⟨by simp, by simp [hr], hpat.trans (List.prefix_append r x), fun a₁ a₂ heq hne hpre => ?_⟩
  -- `pat` is no longer than `r`, so a match in the continued text lies in the old one
  refine ha a₁ a₂ heq hne (List.prefix_of_prefix_length_le hpre ?_ ?_)
  · exact ⟨x, by simp⟩
  · have := hpat.length_le
    simp only [List.length_append]
    omega

/-- The scan misses exactly when `pat` occurs nowhere. -/
theorem scanToPat_eq_none_iff {pat : List α} (hpat : pat ≠ []) (m : List α) :
    scanToPat pat m = none ↔ ¬ pat <:+: m := by
  induction m with
  | nil => simp [scanToPat, hpat]
  | cons c m ih =>
      rw [scanToPat, List.infix_cons_iff]
      by_cases hc : pat <+: c :: m
      · simp [hc]
      · simp [hc, ih]

/-! ## A text that ends with the first occurrence of a pattern -/

/-- The pattern occurs at the end of the text and nowhere before. -/
def FirstAtEnd (pat m : List α) : Prop :=
  ∃ h, scanToPat pat m = some (h, pat)

theorem FirstAtEnd.suffix {pat m : List α} (h : FirstAtEnd pat m) : pat <:+ m := by
  obtain ⟨a, ha⟩ := h
  exact ⟨a, ((scanToPat_eq_some_iff pat m a pat).1 ha).1.symm⟩

/-- Before its end is reached, the pattern does not occur. -/
theorem FirstAtEnd.not_infix {pat a c : List α} (h : FirstAtEnd pat (a ++ c)) (hc : c ≠ []) :
    ¬ pat <:+: a := by
  rintro ⟨s, t, rfl⟩
  obtain ⟨u, hu⟩ := h
  obtain ⟨heq, -, -, hfirst⟩ := (scanToPat_eq_some_iff _ _ _ _).1 hu
  have hlen := congrArg List.length heq
  have hpos : 0 < c.length := List.length_pos_iff.2 hc
  simp only [List.length_append] at hlen
  have hs : s <+: s ++ pat ++ t ++ c := ⟨pat ++ t ++ c, by simp⟩
  obtain ⟨v, rfl⟩ := List.prefix_of_prefix_length_le hs ⟨pat, heq.symm⟩ (by omega)
  refine hfirst s v rfl (by rintro rfl; simp at hlen; omega) ⟨t ++ c, ?_⟩
  simpa using heq

/-- A final piece that holds the whole pattern ends with its first occurrence. -/
theorem FirstAtEnd.of_append {pat a c : List α} (h : FirstAtEnd pat (a ++ c))
    (hc : pat.length ≤ c.length) : FirstAtEnd pat c := by
  obtain ⟨u, hu⟩ := h
  obtain ⟨heq, hne, -, hfirst⟩ := (scanToPat_eq_some_iff _ _ _ _).1 hu
  have hpat : pat <:+ a ++ c := ⟨u, heq.symm⟩
  obtain ⟨v, rfl⟩ := List.suffix_of_suffix_length_le hpat ⟨a, rfl⟩ hc
  refine ⟨v, (scanToPat_eq_some_iff _ _ _ _).2
    ⟨rfl, hne, List.prefix_refl _, fun a₁ a₂ hv hne₂ => ?_⟩⟩
  refine hfirst (a ++ a₁) a₂ ?_ hne₂
  have hu' : u = a ++ v := by simpa [← List.append_assoc] using heq.symm
  rw [hu', hv, List.append_assoc]

/-- Compare the text with `pat` element by element, stopping at the first
difference: `none` when the text ends before that. -/
def matchAt : List α → List α → Option (Option (List α))
  | [], m => some (some m)
  | _ :: _, [] => none
  | c :: pat, x :: m => if x = c then matchAt pat m else some none

theorem matchAt_eq_some_some_iff (pat m r : List α) :
    matchAt pat m = some (some r) ↔ m = pat ++ r := by
  induction pat generalizing m with
  | nil => simp [matchAt]
  | cons c pat ih =>
      cases m with
      | nil => simp [matchAt]
      | cons x m =>
          by_cases hx : x = c
          · simp [matchAt, hx, ih]
          · simp [matchAt, hx]

/-- The comparison runs past the end of a text that is cut off within the
pattern. -/
theorem matchAt_eq_none_iff (pat m : List α) : matchAt pat m = none ↔ m <+: pat ∧ m ≠ pat := by
  induction pat generalizing m with
  | nil => simp [matchAt]
  | cons c pat ih =>
      cases m with
      | nil => simp [matchAt]
      | cons x m =>
          by_cases hx : x = c
          · simp [matchAt, hx, ih]
          · simp [matchAt, hx]

/-- The comparison ends in a difference if neither text continues the other. -/
theorem matchAt_eq_some_none_iff (pat m : List α) :
    matchAt pat m = some none ↔ ¬ m <+: pat ∧ ¬ pat <+: m := by
  induction pat generalizing m with
  | nil => simp [matchAt]
  | cons c pat ih =>
      cases m with
      | nil => simp [matchAt]
      | cons x m =>
          by_cases hx : x = c
          · simp [matchAt, hx, ih]
          · simp [matchAt, hx, Ne.symm hx]

/-- An element that is not in the pattern ends the comparison. -/
theorem matchAt_ne_none {pat m : List α} {c : α} (hm : c ∈ m) (hpat : c ∉ pat) :
    matchAt pat m ≠ none := by
  induction pat generalizing m with
  | nil => simp [matchAt]
  | cons d pat ih =>
      cases m with
      | nil => simp at hm
      | cons x m =>
          by_cases hx : x = d
          · simp only [matchAt, hx, if_true]
            refine ih ?_ fun h => hpat (List.mem_cons_of_mem _ h)
            rcases List.mem_cons.1 hm with rfl | hm
            · exact absurd (hx ▸ List.mem_cons_self) hpat
            · exact hm
          · simp [matchAt, hx]

theorem matchAt_append {pat m : List α} {o : Option (List α)} (x : List α)
    (h : matchAt pat m = some o) :
    matchAt pat (m ++ x) = some (o.map fun r => r ++ x) := by
  induction pat generalizing m with
  | nil =>
      obtain rfl := Option.some.inj h
      rfl
  | cons c pat ih =>
      cases m with
      | nil => simp [matchAt] at h
      | cons y m =>
          by_cases hy : y = c
          · simp only [matchAt, hy, if_true] at h
            simpa [matchAt, hy] using ih h
          · simp only [matchAt, hy, if_false, Option.some.injEq] at h
            subst h
            simp [matchAt, hy]

omit [DecidableEq α] in
/-- A suffix that does not contain `c` lies behind the last `c`. -/
theorem suffix_of_suffix_append_cons {l a t : List α} {c : α} (h : l <:+ a ++ c :: t)
    (hc : c ∉ l) : l <:+ t := by
  by_cases hlen : l.length ≤ t.length
  · exact List.suffix_of_suffix_length_le h ⟨a ++ [c], by simp⟩ hlen
  · have hct : c :: t <:+ l :=
      List.suffix_of_suffix_length_le ⟨a, rfl⟩ h (by simp only [List.length_cons]; omega)
    exact absurd (hct.subset List.mem_cons_self) hc

end Scan
