import Mathlib.Data.Finset.Card
import Mathlib.Data.Finset.Lattice.Fold
import Mathlib.Data.Set.Finite.Basic
import OpenTube.Lib.Loop
import OpenTube.Template.Cache

/-!
# The expansion of includes

The text that is left to be searched is made of the rests of the files that are being
expanded: a file begins with its inclusion, and is expanded as long as nothing behind
it has been passed over. No command of the source knows of it. Among finitely many
files the expansion comes to an end if and only if no file is included while it is
being expanded.
-/

namespace OpenTube

open Loop Scan

/-! ## The files that are being expanded -/

/-- A file that is being expanded: its name and what is left of its text. -/
structure Segment where
  name : List UInt8
  text : List UInt8
deriving DecidableEq, Repr

/-- The text that is left. -/
def flat (l : List Segment) : List UInt8 := l.flatMap Segment.text

/-- Pass over `n` bytes. The file with the last of them is still being expanded, even if
nothing of it is left. -/
def consume : Nat → List Segment → List Segment
  | _, [] => []
  | n, g :: l =>
      if n ≤ g.text.length then { g with text := g.text.drop n } :: l
      else consume (n - g.text.length) l

/-- The place behind a command. -/
def IncludeCommand.stop (i : IncludeCommand) : Nat := i.front.length + i.width

/-- One replacement. -/
def expandStep (files : TplFiles) (l : List Segment) : Option (Next (List Segment) Unit) :=
  match includeCommand (flat l) with
  | none => some (.done ())
  | some i =>
      match files i.name with
      | none => some (.done ())
      | some f => some (.goto (⟨i.name, f.content⟩ :: consume i.stop l))

/-- The loop of `gather_into_single_file` comes to an end for a file. -/
def GatherEnds (files : TplFiles) (f : TplFile) : Prop :=
  ∃ n, gather files n f.content.length [] f.content ≠ .outOfSteps

/-- No file is included while it is being expanded. -/
def NeverReentered (files : TplFiles) (file : List UInt8) (f : TplFile) : Prop :=
  ∀ l, Reaches (expandStep files) [⟨file, f.content⟩] l →
    ∀ i ∈ includeCommand (flat l), i.name ∉ (consume i.stop l).map Segment.name

theorem flat_cons (g : Segment) (l : List Segment) : flat (g :: l) = g.text ++ flat l :=
  List.flatMap_cons

theorem flat_append (l l' : List Segment) : flat (l ++ l') = flat l ++ flat l' :=
  List.flatMap_append

theorem flat_consume (n : Nat) (l : List Segment) : flat (consume n l) = (flat l).drop n := by
  induction l generalizing n with
  | nil => rw [consume, flat, List.flatMap_nil, List.drop_nil]
  | cons g l ih =>
      rw [consume, flat_cons]
      split_ifs with hle
      · rw [flat_cons, List.drop_append_of_le_length hle]
      · have hnil : g.text.drop n = [] := List.drop_eq_nil_of_le (by omega)
        rw [ih, List.drop_append, hnil, List.nil_append]

/-! ## Commands -/

/-- Whether the name of a command is quoted, as the width of the quote. -/
def quoteWidth (m : List UInt8) : Nat := if m.head? = some quote then 1 else 0

/-- A command behind `a` with the name `x` and `rest` behind its brace. -/
def IncludeCommand.of (a : List UInt8) (q : Nat) (x rest : List UInt8) : IncludeCommand :=
  if x.getLast? = some quote then ⟨a, x.dropLast, cmdInclude.length + q + x.length + 1, rest⟩
  else
    ⟨a, if x = [] ∧ q = 1 then [quote] else x,
      cmdInclude.length + q + x.length + 1 + (rest.length - (behindBrace rest).length),
      behindBrace rest⟩

theorem includeCommand_eq_some_iff {s : List UInt8} {i : IncludeCommand} :
    includeCommand s = some i ↔ ∃ a m x rest, strstr cmdInclude s = some (a, cmdInclude ++ m) ∧
      scanTo (· = rightBrace) (m.drop (quoteWidth m)) = some (x, rightBrace :: rest) ∧
      i = .of a (quoteWidth m) x rest := by
  constructor
  · intro h
    obtain ⟨⟨a, r⟩, hstr, hi⟩ := Option.bind_eq_some_iff.1 h
    obtain ⟨⟨x, r'⟩, hscan, rfl⟩ := Option.map_eq_some_iff.1 hi
    obtain ⟨rfl, m, rfl⟩ := strstr_eq_some hstr
    rw [List.drop_left] at hscan
    obtain ⟨-, -, c, rest, rfl, hc⟩ := (scanTo_eq_some_iff _ _ _ _).1 hscan
    obtain rfl : c = rightBrace := by simpa using hc
    refine ⟨a, m, x, rest, hstr, hscan, ?_⟩
    simp only [List.drop_left, List.drop_one, List.tail_cons]
    rfl
  · rintro ⟨a, m, x, rest, hstr, hscan, rfl⟩
    rw [quoteWidth] at hscan
    simp only [includeCommand, hstr, Option.bind_some, List.drop_left, hscan, Option.map_some,
      List.drop_one, List.tail_cons]
    rfl

theorem behindBrace_suffix (s : List UInt8) : behindBrace s <:+ s := by
  unfold behindBrace
  split_ifs
  · exact List.drop_suffix _ _
  · exact List.suffix_refl _

/-- What is behind a command is what is left when it has been passed over. -/
theorem drop_stop {s : List UInt8} {i : IncludeCommand} (h : includeCommand s = some i) :
    s.drop i.stop = i.behind := by
  have hlength := includeCommand_length h
  obtain ⟨a, m, x, rest, hstr, hscan, rfl⟩ := includeCommand_eq_some_iff.1 h
  obtain ⟨rfl, -⟩ := strstr_eq_some hstr
  obtain ⟨hm, -⟩ := (scanTo_eq_some_iff _ _ _ _).1 hscan
  have hsuffix : (IncludeCommand.of a (quoteWidth m) x rest).behind <:+
      a ++ (cmdInclude ++ m) := by
    have hrest : rest <:+ m :=
      (List.suffix_cons _ _).trans ((List.suffix_append x _).trans (hm ▸ List.drop_suffix _ m))
    have hbehind : (IncludeCommand.of a (quoteWidth m) x rest).behind <:+ rest := by
      unfold IncludeCommand.of
      by_cases hquote : x.getLast? = some quote
      · rw [if_pos hquote]
      · rw [if_neg hquote]
        exact behindBrace_suffix rest
    exact hbehind.trans (hrest.trans ((List.suffix_append _ m).trans (List.suffix_append a _)))
  rw [List.suffix_iff_eq_drop] at hsuffix
  rw [hsuffix, IncludeCommand.stop]
  congr 1
  omega

/-- A word that is found in the first part of a text is found whatever follows. -/
theorem strstr_left {pat a m w : List UInt8} (hpat : pat ≠ []) (hnul : nul ∉ a ++ (pat ++ m))
    (h : strstr pat (a ++ (pat ++ m) ++ w) = some (a, pat ++ m ++ w)) (w' : List UInt8) :
    strstr pat (a ++ (pat ++ m) ++ w') = some (a, pat ++ m ++ w') := by
  have htake : ∀ v, (a ++ (pat ++ m) ++ v).takeWhile (· ≠ nul) =
      a ++ (pat ++ m) ++ v.takeWhile (· ≠ nul) := by
    intro v
    refine List.takeWhile_append_of_pos fun c hc => ?_
    have hne : c ≠ nul := fun heq => hnul (heq ▸ hc)
    simpa using hne
  obtain ⟨⟨a', r⟩, hscan, heq⟩ := Option.map_eq_some_iff.1 h
  obtain ⟨ha, -⟩ := Prod.mk.inj heq
  obtain rfl : a' = a := ha
  rw [htake] at hscan
  obtain ⟨hsplit, -, -, hfirst⟩ := (scanToPat_eq_some_iff _ _ a' r).1 hscan
  obtain rfl : pat ++ m ++ w.takeWhile (· ≠ nul) = r := by
    simpa only [List.append_assoc, List.append_cancel_left_eq] using hsplit
  have hfound : scanToPat pat (a' ++ (pat ++ m)) = some (a', pat ++ m) := by
    refine (scanToPat_eq_some_iff _ _ _ _).2 ⟨rfl, by simp [hpat], List.prefix_append _ _, ?_⟩
    intro a₁ a₂ ha hne hpre
    refine hfirst a₁ a₂ ha hne (hpre.trans ⟨w.takeWhile (· ≠ nul), ?_⟩)
    simp only [List.append_assoc]
  rw [strstr, htake, scanToPat_append _ hfound, Option.map_some]
  simp

/-- Two ways to cut a text. -/
theorem exists_middle {y w b m : List UInt8} (h : y ++ w = b ++ m) (hle : b.length ≤ y.length) :
    ∃ c, y = b ++ c ∧ m = c ++ w := by
  have hy : y <+: b ++ m := ⟨w, h⟩
  obtain ⟨c, rfl⟩ := List.prefix_of_prefix_length_le (List.prefix_append b m) hy hle
  rw [List.append_assoc, List.append_cancel_left_eq] at h
  exact ⟨c, rfl, h.symm⟩

theorem quoteWidth_append {m : List UInt8} (hne : m ≠ []) (w : List UInt8) :
    quoteWidth (m ++ w) = quoteWidth m := by
  rw [quoteWidth, quoteWidth, List.head?_append_of_ne_nil m hne]

theorem behind_of (a : List UInt8) (q : Nat) (x rest : List UInt8) :
    (IncludeCommand.of a q x rest).behind =
      if x.getLast? = some quote then rest else behindBrace rest := by
  unfold IncludeCommand.of
  split_ifs <;> rfl

theorem behindBrace_append {s : List UInt8} (hne : s ≠ []) (w : List UInt8) :
    behindBrace (s ++ w) = behindBrace s ++ w := by
  cases s with
  | nil => exact absurd rfl hne
  | cons c s =>
      unfold behindBrace
      rw [List.cons_append, List.head?_cons, List.head?_cons]
      split_ifs <;> rfl

/-- A command that lies in the first part of a text is found whatever follows. It takes
one byte of that at most. -/
theorem includeCommand_append {y w : List UInt8} {i : IncludeCommand} (hnul : nul ∉ y)
    (h : includeCommand (y ++ w) = some i) (hstop : i.stop ≤ y.length) (w' : List UInt8) :
    ∃ i' w'', includeCommand (y ++ w') = some i' ∧ i'.name = i.name ∧ w'' <:+ w' ∧
      i'.behind = y.drop i.stop ++ w'' := by
  have hdrop := drop_stop h
  obtain ⟨a, m, x, rest, hstr, hscan, rfl⟩ := includeCommand_eq_some_iff.1 h
  obtain ⟨hsplit, -⟩ := strstr_eq_some hstr
  obtain ⟨hm, hx, -⟩ := (scanTo_eq_some_iff _ _ _ _).1 hscan
  have hwidth : a.length + (cmdInclude.length + quoteWidth m + x.length + 1) ≤
      (IncludeCommand.of a (quoteWidth m) x rest).stop := by
    unfold IncludeCommand.stop IncludeCommand.of
    by_cases hquote : x.getLast? = some quote
    · rw [if_pos hquote]
    · rw [if_neg hquote]
      simp only
      omega
  -- the command lies in `y`
  rw [← List.append_assoc] at hsplit
  obtain ⟨m₀, rfl, rfl⟩ := exists_middle hsplit (by
    simp only [List.length_append]
    omega)
  have hroom : quoteWidth (m₀ ++ w) + x.length + 1 ≤ m₀.length := by
    simp only [List.length_append] at hstop
    omega
  have hne : m₀ ≠ [] := by
    rintro rfl
    simp at hroom
  rw [quoteWidth_append hne] at *
  have hlen : (x ++ [rightBrace]).length ≤ (m₀.drop (quoteWidth m₀)).length := by
    simp only [List.length_append, List.length_singleton, List.length_drop]
    omega
  rw [List.drop_append_of_le_length (by omega), List.append_cons] at hm
  obtain ⟨rest₀, hm₀, rfl⟩ := exists_middle hm hlen
  rw [List.append_assoc a cmdInclude m₀] at hnul hdrop hstop hstr ⊢
  have hfound : includeCommand (a ++ (cmdInclude ++ m₀) ++ w') =
      some (.of a (quoteWidth m₀) x (rest₀ ++ w')) := by
    refine includeCommand_eq_some_iff.2 ⟨a, m₀ ++ w', x, rest₀ ++ w', ?_, ?_, ?_⟩
    · rw [← List.append_assoc cmdInclude]
      exact strstr_left (by decide) hnul (by simpa using hstr) w'
    · rw [quoteWidth_append hne, List.drop_append_of_le_length (by omega), hm₀]
      refine (scanTo_eq_some_iff _ _ _ _).2 ⟨by simp, hx, rightBrace, rest₀ ++ w', rfl, by simp⟩
    · rw [quoteWidth_append hne]
  rw [List.drop_append_of_le_length hstop] at hdrop
  refine ⟨_, if x.getLast? = some quote ∨ rest₀ ≠ [] then w' else behindBrace w', hfound,
    ?_, ?_, ?_⟩
  · unfold IncludeCommand.of
    by_cases hquote : x.getLast? = some quote
    · rw [if_pos hquote, if_pos hquote]
    · rw [if_neg hquote, if_neg hquote]
  · split_ifs
    · exact List.suffix_refl _
    · exact behindBrace_suffix w'
  · rw [behind_of] at hdrop ⊢
    by_cases hquote : x.getLast? = some quote
    · rw [if_pos hquote, List.append_cancel_right_eq] at hdrop
      rw [if_pos hquote, if_pos (.inl hquote), hdrop]
    · rw [if_neg hquote] at hdrop ⊢
      by_cases hnil : rest₀ = []
      · -- the command ends with `y`
        subst hnil
        simp only [List.nil_append] at hdrop ⊢
        have hlength := congrArg List.length hdrop
        have hle := length_behindBrace_le w
        rw [List.length_append] at hlength
        have hend : (a ++ (cmdInclude ++ m₀)).drop
            (IncludeCommand.of a (quoteWidth m₀) x w).stop = [] :=
          List.length_eq_zero_iff.1 (by omega)
        rw [hend, if_neg (by simp [hquote]), List.nil_append]
      · rw [behindBrace_append hnil, List.append_cancel_right_eq] at hdrop
        rw [behindBrace_append hnil, if_pos (.inr hnil), hdrop]

/-! ## The loop -/

/-- The expansion of a text ends within `n` rounds. -/
def Finishes (files : TplFiles) : Nat → List UInt8 → Prop
  | 0, _ => False
  | n + 1, s => ∀ i ∈ includeCommand s, ∀ f ∈ files i.name, Finishes files n (f.content ++ i.behind)

section Loops

variable {files : TplFiles}

theorem gather_ne_outOfSteps {n len : Nat} {front s : List UInt8} :
    gather files n len front s ≠ .outOfSteps ↔ Finishes files n s := by
  induction n generalizing len front s with
  | zero => simp [gather, Finishes]
  | succ n ih =>
      rw [gather, Finishes]
      cases hi : includeCommand s with
      | none => simp
      | some i =>
          cases hf : files i.name with
          | none => simp [hf]
          | some f => simpa [hf] using ih

/-- A replacement, seen on the text. -/
theorem flat_expand {l : List Segment} {i : IncludeCommand} (hi : includeCommand (flat l) = some i)
    (f : TplFile) :
    flat (⟨i.name, f.content⟩ :: consume i.stop l) = f.content ++ i.behind := by
  rw [flat_cons, flat_consume, drop_stop hi]

theorem run_expandStep {n : Nat} {l : List Segment} :
    Loop.run (expandStep files) n l = some () ↔ Finishes files n (flat l) := by
  induction n generalizing l with
  | zero => simp [Loop.run, Finishes]
  | succ n ih =>
      rw [Loop.run, Finishes, expandStep]
      cases hi : includeCommand (flat l) with
      | none => simp
      | some i =>
          cases hf : files i.name with
          | none => simp [hf]
          | some f =>
              simp only [Option.mem_def, Option.some.injEq, forall_eq', hf, ih, flat_expand hi]

theorem gatherEnds_iff_ends (file : List UInt8) {f : TplFile} :
    GatherEnds files f ↔ Loop.Ends (expandStep files) [⟨file, f.content⟩] () := by
  have hflat : flat [⟨file, f.content⟩] = f.content := by simp [flat]
  simp only [GatherEnds, Loop.Ends, gather_ne_outOfSteps, run_expandStep, hflat]

/-- What a replacement does. -/
theorem expandStep_eq_goto {l l' : List Segment} (h : expandStep files l = some (.goto l')) :
    ∃ i f, includeCommand (flat l) = some i ∧ files i.name = some f ∧
      l' = ⟨i.name, f.content⟩ :: consume i.stop l := by
  unfold expandStep at h
  cases hi : includeCommand (flat l) with
  | none => simp [hi] at h
  | some i =>
      cases hf : files i.name with
      | none => simp [hi, hf] at h
      | some f =>
          simp only [hi, hf, Option.some.injEq, Next.goto.injEq] at h
          exact ⟨i, f, rfl, hf, h.symm⟩

end Loops

/-! ## A file that is included again -/

section Again

variable {files : TplFiles}

/-- The expansion of `y` comes to `z` in `k` rounds, whatever follows. Some of what
follows may be passed over. -/
def LeadsIn (files : TplFiles) (k : Nat) (y z : List UInt8) : Prop :=
  ∀ n w, nul ∉ w → Finishes files n (y ++ w) →
    ∃ m w', m + k ≤ n ∧ nul ∉ w' ∧ Finishes files m (z ++ w')

/-- The files that are being expanded: the text that is left of each, with what was
included in it, has come from the file. -/
structure Opened (files : TplFiles) (l : List Segment) : Prop where
  noNul : nul ∉ flat l
  leads : ∀ above g below, l = above ++ g :: below → ∃ f k, files g.name = some f ∧
    (above ≠ [] → 0 < k) ∧ LeadsIn files k f.content (flat (above ++ [g]))

theorem leadsIn_zero (y : List UInt8) : LeadsIn files 0 y y :=
  fun n w hw h => ⟨n, w, Nat.le_refl n, hw, h⟩

/-- One more replacement. -/
theorem LeadsIn.step {k : Nat} {x y w : List UInt8} (h : LeadsIn files k x y) (hnul : nul ∉ y)
    {i : IncludeCommand} (hi : includeCommand (y ++ w) = some i) (hstop : i.stop ≤ y.length)
    {f : TplFile} (hf : files i.name = some f) :
    LeadsIn files (k + 1) x (f.content ++ y.drop i.stop) := by
  intro n v hv hfin
  obtain ⟨m, v', hle, hv', hfin'⟩ := h n v hv hfin
  obtain ⟨i', v'', hi', hname, hsuffix, hbehind⟩ := includeCommand_append hnul hi hstop v'
  cases m with
  | zero => exact hfin'.elim
  | succ m =>
      have hnext := hfin' i' hi' f (by rw [hname]; exact hf)
      rw [hbehind, ← List.append_assoc] at hnext
      exact ⟨m, v'', by omega, fun hmem => hv' (hsuffix.subset hmem), hnext⟩

/-- A file that is still being expanded after `n` bytes were so before. -/
theorem consume_split {n : Nat} {l above below : List Segment} {g : Segment}
    (h : consume n l = above ++ g :: below) :
    ∃ above' g', l = above' ++ g' :: below ∧ g'.name = g.name ∧
      above ++ [g] = consume n (above' ++ [g']) ∧ n ≤ (flat (above' ++ [g'])).length := by
  induction l generalizing n above with
  | nil => simp [consume] at h
  | cons s l ih =>
      rw [consume] at h
      split_ifs at h with hle
      · cases above with
        | nil =>
            obtain ⟨rfl, rfl⟩ := List.cons_eq_cons.1 h
            exact ⟨[], s, rfl, rfl, by simp [consume, hle], by simpa [flat] using hle⟩
        | cons x above =>
            obtain ⟨rfl, rfl⟩ := List.cons_eq_cons.1 h
            refine ⟨s :: above, g, rfl, rfl, by simp [consume, hle], ?_⟩
            rw [List.cons_append, flat_cons, List.length_append]
            omega
      · obtain ⟨above', g', rfl, hname, hsplit, hlen⟩ := ih h
        refine ⟨s :: above', g', rfl, hname, by simp [consume, hle, hsplit], ?_⟩
        rw [List.cons_append, flat_cons, List.length_append]
        omega

theorem opened_start {file : List UInt8} {f : TplFile} (hf : files file = some f) :
    Opened files [⟨file, f.content⟩] where
  noNul := by simpa [flat] using f.noNul
  leads above g below h := by
    cases above with
    | nil =>
        obtain ⟨rfl, -⟩ := List.cons_eq_cons.1 h
        exact ⟨f, 0, hf, by simp, by simpa [flat] using leadsIn_zero f.content⟩
    | cons x above => simp at h

theorem Opened.step {l l' : List Segment} (h : Opened files l)
    (hstep : expandStep files l = some (.goto l')) : Opened files l' := by
  obtain ⟨i, f, hi, hf, rfl⟩ := expandStep_eq_goto hstep
  constructor
  · rw [flat_cons, flat_consume, List.mem_append, not_or]
    exact ⟨f.noNul, fun hmem => h.noNul (List.mem_of_mem_drop hmem)⟩
  · intro above g below hsplit
    cases above with
    | nil =>
        obtain ⟨rfl, -⟩ := List.cons_eq_cons.1 hsplit
        exact ⟨f, 0, hf, by simp, by simpa [flat] using leadsIn_zero f.content⟩
    | cons x above =>
        obtain ⟨rfl, hrest⟩ := List.cons_eq_cons.1 hsplit
        obtain ⟨above', g', rfl, hname, heq, hlen⟩ := consume_split hrest
        obtain ⟨f', k, hf', -, hleads⟩ := h.leads above' g' below rfl
        have hl : flat (above' ++ g' :: below) = flat (above' ++ [g']) ++ flat below := by
          rw [← flat_append, List.append_assoc, List.singleton_append]
        have hnul : nul ∉ flat (above' ++ [g']) := fun hmem =>
          h.noNul (hl ▸ List.mem_append_left _ hmem)
        rw [hl] at hi
        refine ⟨f', k + 1, hname ▸ hf', fun _ => Nat.succ_pos k, ?_⟩
        rw [List.cons_append, flat_cons, heq, flat_consume]
        exact hleads.step hnul hi hlen hf

theorem Opened.of_reaches {l l' : List Segment} (h : Opened files l)
    (hl : Reaches (expandStep files) l l') : Opened files l' := by
  induction hl with
  | refl => exact h
  | tail _ hstep ih => exact ih.step hstep

/-- A text that leads to itself is never expanded. -/
theorem not_finishes {k : Nat} (hk : 0 < k) {y z : List UInt8} (hnul : nul ∉ z)
    (h : LeadsIn files k y (y ++ z)) (n : Nat) {w : List UInt8} (hw : nul ∉ w) :
    ¬ Finishes files n (y ++ w) := by
  induction n using Nat.strong_induction_on generalizing w with
  | _ n ih =>
    intro hfin
    obtain ⟨m, w', hle, hw', hfin'⟩ := h n w hw hfin
    rw [List.append_assoc] at hfin'
    refine ih m (by omega) ?_ hfin'
    rw [List.mem_append, not_or]
    exact ⟨hnul, hw'⟩

/-- If the expansion ends, no file is included while it is being expanded. -/
theorem neverReentered_of_gatherEnds {file : List UInt8} {f : TplFile}
    (hf : files file = some f) (hends : GatherEnds files f) : NeverReentered files file f := by
  intro l hl i hi hmem
  obtain ⟨g, hg, hname⟩ := List.mem_map.1 hmem
  obtain ⟨above, below, hsplit⟩ := List.append_of_mem hg
  have hopened := (opened_start hf).of_reaches hl
  -- the file has a segment, so it exists
  obtain ⟨above', g', rfl, hname', -⟩ := consume_split hsplit
  obtain ⟨f', -, hf', -⟩ := hopened.leads above' g' below rfl
  rw [hname', hname] at hf'
  have hi' : includeCommand (flat (above' ++ g' :: below)) = some i := hi
  have hstep : expandStep files (above' ++ g' :: below) =
      some (.goto (⟨i.name, f'.content⟩ :: consume i.stop (above' ++ g' :: below))) := by
    simp only [expandStep, hi', hf']
  have hnext := hopened.step hstep
  have hfin := ((gatherEnds_iff_ends file).1 hends).of_reaches (hl.tail hstep)
  obtain ⟨n, hn⟩ := hfin
  rw [run_expandStep] at hn
  rw [hsplit, ← List.cons_append] at hnext hn
  obtain ⟨f'', k, hf'', hpos, hleads⟩ := hnext.leads _ g below rfl
  obtain rfl : f' = f'' := Option.some.inj (hf'.symm.trans (hname ▸ hf''))
  have hflat : flat (⟨i.name, f'.content⟩ :: above ++ g :: below) =
      f'.content ++ (flat (above ++ [g]) ++ flat below) := by
    simp [flat]
  have hnul := hnext.noNul
  rw [hflat, List.mem_append, List.mem_append, not_or, not_or] at hnul
  rw [List.cons_append, flat_cons] at hleads
  rw [hflat] at hn
  refine not_finishes (hpos (by simp)) hnul.2.1 hleads n ?_ hn
  rw [List.mem_append, not_or]
  exact hnul.2

end Again

/-! ## The weight of the text that is left -/

section Weight

variable (names : Finset (List UInt8)) (len : Nat)

/-- How many files can still be included one inside the other. -/
def budget (l : List Segment) : Nat := (names \ (l.map Segment.name).toFinset).card

/-- Every byte weighs more than a file that is included there. -/
def weight : List Segment → Nat
  | [] => 0
  | g :: l => g.text.length * (len + 1) ^ budget names (g :: l) + weight l

/-- What is passed over has a byte of the file that is left. -/
theorem weight_consume {n : Nat} {l : List Segment} (hpos : 0 < n) (hle : n ≤ (flat l).length) :
    weight names len (consume n l) + (len + 1) ^ budget names (consume n l) ≤
      weight names len l := by
  induction l generalizing n with
  | nil =>
      rw [flat, List.flatMap_nil, List.length_nil] at hle
      omega
  | cons g l ih =>
      rw [flat_cons, List.length_append] at hle
      rw [consume]
      split_ifs with hshort
      · have hbudget : budget names ({ g with text := g.text.drop n } :: l) =
            budget names (g :: l) := by simp [budget]
        have hbyte : (g.text.length - n + 1) * (len + 1) ^ budget names (g :: l) ≤
            g.text.length * (len + 1) ^ budget names (g :: l) :=
          Nat.mul_le_mul_right _ (by omega)
        rw [Nat.add_mul, Nat.one_mul] at hbyte
        simp only [weight, hbudget, List.length_drop]
        omega
      · have hrest := ih (show 0 < n - g.text.length by omega) (by omega)
        simp only [weight]
        omega

variable {names len}

/-- A file that is included where it is not being expanded. -/
theorem weight_include {g : Segment} {l : List Segment} (hname : g.name ∈ names)
    (hnew : g.name ∉ l.map Segment.name) (hlen : g.text.length ≤ len) :
    weight names len (g :: l) < weight names len l + (len + 1) ^ budget names l := by
  have hbudget : budget names l = budget names (g :: l) + 1 := by
    have hmem : g.name ∈ names \ (l.map Segment.name).toFinset :=
      Finset.mem_sdiff.2 ⟨hname, by simpa using hnew⟩
    have herase : names \ ((g :: l).map Segment.name).toFinset =
        (names \ (l.map Segment.name).toFinset).erase g.name := by
      rw [List.map_cons, List.toFinset_cons, Finset.sdiff_insert]
    rw [budget, budget, herase, Finset.card_erase_add_one hmem]
  have hbytes : g.text.length * (len + 1) ^ budget names (g :: l) ≤
      len * (len + 1) ^ budget names (g :: l) := Nat.mul_le_mul_right _ hlen
  have hpos : 0 < (len + 1) ^ budget names (g :: l) := Nat.pow_pos (Nat.succ_pos len)
  have hpow : (len + 1) ^ budget names l = len * (len + 1) ^ budget names (g :: l) +
      (len + 1) ^ budget names (g :: l) := by
    rw [hbudget, Nat.pow_succ, Nat.mul_comm, Nat.add_mul, Nat.one_mul]
  rw [weight]
  omega

end Weight

/-- The place behind a command is in the text, and not at its beginning. -/
theorem stop_bounds {s : List UInt8} {i : IncludeCommand} (h : includeCommand s = some i) :
    0 < i.stop ∧ i.stop ≤ s.length := by
  have hlength := includeCommand_length h
  obtain ⟨a, m, x, rest, -, -, rfl⟩ := includeCommand_eq_some_iff.1 h
  have hword : 0 < cmdInclude.length := by decide +kernel
  unfold IncludeCommand.stop IncludeCommand.of at *
  by_cases hquote : x.getLast? = some quote
  · simp only [hquote, if_true] at hlength ⊢
    omega
  · simp only [hquote, if_false] at hlength ⊢
    omega

/-- If no file is included while it is being expanded, the expansion ends. -/
theorem gatherEnds_of_neverReentered {files : TplFiles} (hfinite : {g | files g ≠ none}.Finite)
    {file : List UInt8} {f : TplFile} (h : NeverReentered files file f) : GatherEnds files f := by
  rw [gatherEnds_iff_ends file]
  have hnames : ∀ g f, files g = some f → g ∈ hfinite.toFinset := by
    intro g f hf
    simp [hf]
  obtain ⟨len, hlen⟩ : ∃ len, ∀ g f, files g = some f → f.content.length ≤ len := by
    refine ⟨hfinite.toFinset.sup fun g => ((files g).map fun f => f.content.length).getD 0, ?_⟩
    intro g f hf
    have hle := Finset.le_sup (f := fun g => ((files g).map fun f => f.content.length).getD 0)
      (hnames g f hf)
    simpa [hf] using hle
  have hends : ∀ w l, weight hfinite.toFinset len l = w →
      Reaches (expandStep files) [⟨file, f.content⟩] l → Loop.Ends (expandStep files) l () := by
    intro w
    induction w using Nat.strong_induction_on with
    | _ w ih =>
      intro l hw hl
      cases hi : includeCommand (flat l) with
      | none => exact ends_of_done (by simp [expandStep, hi])
      | some i =>
          cases hf : files i.name with
          | none => exact ends_of_done (by simp [expandStep, hi, hf])
          | some f' =>
              have hstep : expandStep files l =
                  some (.goto (⟨i.name, f'.content⟩ :: consume i.stop l)) := by
                simp only [expandStep, hi, hf]
              obtain ⟨hpos, hle⟩ := stop_bounds hi
              have hconsume := weight_consume hfinite.toFinset len hpos hle
              have hinclude := weight_include (g := ⟨i.name, f'.content⟩) (hnames _ _ hf)
                (h l hl i hi) (hlen _ _ hf)
              exact (Reaches.single hstep).ends (ih _ (by omega) _ rfl (hl.tail hstep))
  exact hends _ _ rfl Reaches.refl

/-- Among finitely many files the expansion of includes comes to an end if and only if
no file is included while it is being expanded. -/
theorem gatherEnds_iff {files : TplFiles} (hfinite : {g | files g ≠ none}.Finite)
    {file : List UInt8} {f : TplFile} (hf : files file = some f) :
    GatherEnds files f ↔ NeverReentered files file f :=
  ⟨neverReentered_of_gatherEnds hf, gatherEnds_of_neverReentered hfinite⟩

theorem samplePages_finite : {g | samplePages g ≠ none}.Finite := by
  refine Set.Finite.subset (Set.toFinite {ascii "page", ascii "part"}) ?_
  intro g hg
  by_contra hne
  simp only [Set.mem_insert_iff, Set.mem_singleton_iff, not_or] at hne
  exact hg (by simp [samplePages, hne])

/-- A page that includes a part. -/
theorem neverReentered_page :
    NeverReentered samplePages (ascii "page")
      ⟨ascii "a\x7binclude part\x7dc", 1, by decide +kernel⟩ :=
  (gatherEnds_iff samplePages_finite (by decide +kernel)).1 ⟨2, by decide +kernel⟩

/-- A file that includes itself. -/
def selfIncluding : TplFile := ⟨ascii "\x7binclude self\x7d", 1, by decide +kernel⟩

/-- The expansion of a file that includes itself does not come to an end. -/
theorem not_gatherEnds_selfIncluding :
    ¬ GatherEnds (fun g => if g = ascii "self" then some selfIncluding else none)
      selfIncluding := by
  rintro ⟨n, hn⟩
  rw [gather_ne_outOfSteps] at hn
  have hcommand : includeCommand selfIncluding.content =
      some ⟨[], ascii "self", selfIncluding.content.length, []⟩ := by decide +kernel
  induction n with
  | zero => exact hn
  | succ n ih =>
      have hnext := hn _ hcommand selfIncluding rfl
      rw [List.append_nil] at hnext
      exact ih hnext

end OpenTube
