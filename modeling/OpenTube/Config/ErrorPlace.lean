import Mathlib.Data.List.Chain
import OpenTube.Config.Numbers

/-!
# The file and the line of an error

`config_get_line_by_ptr` counts the newlines before a place in the text as it is when
the error is found. By then the byte behind each name that was read is a `NUL`, so a
newline directly behind a name is not counted any more: the line that is reported is
too small by the number of these names.

`FailsAt` follows the parser to the place where it fails. Besides the error it gives
the place of the offending text, the place up to which the lines are counted, and the
number of newlines that were lost. A command that names a file which cannot be opened,
or which includes itself, has put the name of that file and an empty text into its
node before it fails, so neither the file nor the line is that of the command.
-/

namespace OpenTube

/-! ## Counting in a text with `NUL` bytes -/

/-- No two adjacent `NUL` bytes. -/
abbrev NulsApart : List UInt8 → Prop := List.IsChain fun c d => ¬(c = nul ∧ d = nul)

theorem newlines_eq_count {l : List UInt8} (h : NulsApart l) : newlines l = l.count lf := by
  induction l with
  | nil => rfl
  | cons c m ih =>
      have hfirst : ¬(c = nul ∧ m.head? = some nul) := by
        rintro ⟨rfl, hm⟩
        obtain ⟨m, rfl⟩ := List.head?_eq_some_iff.1 hm
        exact (List.isChain_cons_cons.1 h).1 ⟨rfl, rfl⟩
      rw [newlines, if_neg hfirst, ih h.tail, List.count_cons]
      simp only [beq_iff_eq, Nat.add_comm]

theorem nulsApart_of_notMem {l : List UInt8} (h : nul ∉ l) : NulsApart l := by
  induction l with
  | nil => exact .nil
  | cons c m ih =>
      have hm : nul ∉ m := fun hmem => h (List.mem_cons_of_mem c hmem)
      refine List.isChain_cons.2 ⟨fun d _ hboth => ?_, ih hm⟩
      exact h (hboth.1 ▸ List.mem_cons_self)

theorem NulsApart.append {l m : List UInt8} (hl : NulsApart l) (hm : NulsApart m)
    (hhead : m.head? ≠ some nul) : NulsApart (l ++ m) := by
  refine List.isChain_append.2 ⟨hl, hm, fun c _ d hd hboth => hhead ?_⟩
  rw [← hboth.2]
  exact hd

/-- The place `q` is behind the place `p` in the same text, and `j` newlines between
them have been overwritten. -/
def Place.Passed (j : Nat) (p q : Place) : Prop :=
  ∃ m m', p.2 = m ++ q.2 ∧ q.1 = p.1 ++ m' ∧ Overwritten m m' ∧ nul ∉ m ∧
    NulsApart m' ∧ m'.head? ≠ some nul ∧ m.count lf = m'.count lf + j

/-- The parser has come to a place of a text, and `k` newlines before it have been
overwritten. -/
structure PlaceReached (text : List UInt8) (k : Nat) (p : Place) : Prop where
  rest : p.2 = text.drop p.1.length
  le : p.1.length ≤ text.length
  count : (text.take p.1.length).count lf = p.1.count lf + k
  apart : NulsApart p.1
  noNul : nul ∉ text.take p.1.length

namespace Place

variable {p q r : Place} {i j : Nat}

theorem passed_of_eq {m : List UInt8} (hrest : p.2 = m ++ q.2) (hfront : q.1 = p.1 ++ m)
    (hm : nul ∉ m) : p.Passed 0 q := by
  refine ⟨m, m, hrest, hfront, overwritten_refl m, hm, nulsApart_of_notMem hm, ?_, rfl⟩
  exact fun hhead => hm (List.mem_of_head? hhead)

theorem Passed.refl (p : Place) : p.Passed 0 p :=
  passed_of_eq (List.nil_append p.2).symm (List.append_nil p.1).symm List.not_mem_nil

theorem Passed.trans (hpq : p.Passed i q) (hqr : q.Passed j r) : p.Passed (i + j) r := by
  obtain ⟨m, m', hrest, hfront, hover, hnul, hapart, hhead, hcount⟩ := hpq
  obtain ⟨x, x', hrest', hfront', hover', hnul', hapart', hhead', hcount'⟩ := hqr
  refine ⟨m ++ x, m' ++ x', by rw [hrest, hrest', List.append_assoc],
    by rw [hfront', hfront, List.append_assoc], List.rel_append hover hover', ?_,
    hapart.append hapart' hhead', ?_, ?_⟩
  · rw [List.mem_append]
    exact fun hmem => hmem.elim hnul hnul'
  · cases m' with
    | nil => exact hhead'
    | cons c m' => exact hhead
  · rw [List.count_append, List.count_append, hcount, hcount']
    omega

end Place

theorem PlaceReached.passed {text : List UInt8} {k j : Nat} {p q : Place}
    (h : PlaceReached text k p) (hpq : p.Passed j q) : PlaceReached text (k + j) q := by
  obtain ⟨m, m', hrest, hfront, hover, hnul, hapart, hhead, hcount⟩ := hpq
  have hlen : q.1.length = p.1.length + m.length := by
    rw [hfront, List.length_append, hover.length_eq]
  have hdrop : text.drop p.1.length = m ++ q.2 := by rw [← h.rest, hrest]
  have htake : text.take q.1.length = text.take p.1.length ++ m := by
    rw [hlen, List.take_add, hdrop, List.take_left]
  refine ⟨?_, ?_, ?_, ?_, ?_⟩
  · rw [hlen, ← List.drop_drop, hdrop, List.drop_left]
  · have hle := congrArg List.length hdrop
    rw [List.length_drop, List.length_append] at hle
    have := h.le
    omega
  · rw [htake, List.count_append, h.count, hfront, List.count_append, hcount]
    omega
  · rw [hfront]
    exact h.apart.append hapart hhead
  · rw [htake, List.mem_append]
    exact fun hmem => hmem.elim h.noNul hnul

/-- The line that is reported for a place. -/
theorem PlaceReached.line {text : List UInt8} {k : Nat} {p : Place} (h : PlaceReached text k p) :
    configLine p.1 + k = 1 + (text.take p.1.length).count lf := by
  rw [configLine, newlines_eq_count h.apart, h.count]
  omega

/-! ## The pieces of a setting -/

theorem nul_notMem_jump (mode : JumpMode) (s : List UInt8) : nul ∉ (jumpToNonspace mode s).1 := by
  induction s generalizing mode with
  | nil => cases mode <;> exact List.not_mem_nil
  | cons c m ih =>
      by_cases hc : c = nul
      · simp only [jumpToNonspace, if_pos hc]
        exact List.not_mem_nil
      · have hkeep : ∀ mode, nul ∉ c :: (jumpToNonspace mode m).1 := fun mode hmem =>
          (List.mem_cons.1 hmem).elim (fun heq => hc heq.symm) (ih mode)
        simp only [jumpToNonspace, if_neg hc]
        cases mode with
        | blank =>
            simp only
            split_ifs
            · exact hkeep .line
            · exact hkeep .block
            · exact hkeep .blank
            · exact List.not_mem_nil
        | line => exact hkeep _
        | block => exact hkeep _
        | close => exact hkeep .blank

theorem nulsApart_cut {t x : List UInt8} (h : nul ∉ t ++ x) : NulsApart (t ++ cut x) := by
  simp only [List.mem_append, not_or] at h
  cases x with
  | nil => exact (nulsApart_of_notMem h.1).append .nil (by simp [cut])
  | cons c m =>
      have hm : nul ∉ m := fun hmem => h.2 (List.mem_cons_of_mem c hmem)
      refine List.isChain_append.2 ⟨nulsApart_of_notMem h.1, ?_, fun d hd _ _ hboth => ?_⟩
      · refine List.isChain_cons.2 ⟨fun d hd hboth => hm ?_, nulsApart_of_notMem hm⟩
        rw [← hboth.2]
        exact List.mem_of_mem_head? hd
      · apply h.1
        rw [← hboth.1]
        exact List.mem_of_mem_getLast? hd

theorem count_cut (x : List UInt8) :
    x.count lf = (cut x).count lf + if x.head? = some lf then 1 else 0 := by
  cases x with
  | nil => rfl
  | cons c m =>
      have hnul : (nul : UInt8) ≠ lf := by decide
      simp only [cut, List.count_cons, beq_iff_eq, List.head?_cons, Option.some.injEq, if_neg hnul,
        Nat.add_zero]

/-- A newline directly behind a name is lost. -/
def newlineBehind (text : List UInt8) (name : Span) : Nat :=
  if text[name.pos + name.len]? = some lf then 1 else 0

namespace Place

variable {p q : Place} {file : List UInt8} {names : List Span} {line : Nat} {name : Span}

theorem passed_jump (p : Place) : p.Passed 0 p.jump :=
  passed_of_eq (jumpToNonspace_append .blank p.2).symm rfl (nul_notMem_jump .blank p.2)

theorem passed_pass {n : Nat} (h : nul ∉ p.2.take n) : p.Passed 0 (p.pass n) :=
  passed_of_eq (List.take_append_drop n p.2).symm rfl h

theorem passed_pass_one {c : UInt8} (h : p.2.head? = some c) (hc : c ≠ nul) :
    p.Passed 0 (p.pass 1) := by
  obtain ⟨m, hm⟩ := List.head?_eq_some_iff.1 h
  refine passed_pass ?_
  rw [hm, List.take_succ_cons, List.take_zero, List.mem_singleton]
  exact hc.symm

theorem passed_semicolon (p : Place) : p.Passed 0 p.semicolon := by
  unfold semicolon
  split
  · rename_i h
    exact passed_pass_one h (by decide)
  · exact .refl p

theorem passed_enter (p : Place) : p.Passed 0 p.enter := by
  unfold enter
  split
  · exact .refl p
  · exact p.passed_jump

/-- A string with its two quotes. -/
theorem passed_string {t rest : List UInt8} (hrest : p.2 = quote :: (t ++ quote :: rest))
    (ht : ∀ c ∈ t, c ≠ nul ∧ c ≠ quote) :
    p.Passed 0 (p.1 ++ [quote] ++ t ++ [nul], rest) := by
  have hnul : nul ∉ quote :: t := fun hmem =>
    (List.mem_cons.1 hmem).elim (by decide) fun hmem => (ht nul hmem).1 rfl
  refine ⟨quote :: t ++ [quote], quote :: t ++ [nul], by rw [hrest]; simp, by simp,
    List.rel_append (overwritten_refl _) (.cons (.inr rfl) .nil), ?_, ?_, ?_, ?_⟩
  · rw [List.mem_append, List.mem_singleton]
    exact fun hmem => hmem.elim hnul (by decide)
  · refine List.isChain_append.2 ⟨nulsApart_of_notMem hnul, List.isChain_singleton nul,
      fun c hc d _ hboth => hnul ?_⟩
    rw [← hboth.1]
    exact List.mem_of_mem_getLast? hc
  · exact fun hhead => absurd (Option.some.inj hhead) (by decide)
  · rw [List.count_append, List.count_append]
    rfl

theorem passed_parseInt (p : Place) : p.Passed 0 p.parseInt.2 := by
  obtain ⟨a, ha, hint⟩ := parseInt_eq p
  rw [hint]
  refine passed_of_eq (m := a) ?_ rfl fun hmem => absurd (ha.bytes nul hmem) (by decide)
  obtain ⟨t, ht⟩ := ha.isPrefix
  rw [← ht, List.drop_left]

theorem passed_parseScalar {v : ConfigValue} (h : p.parseScalar file = .ok (v, q)) :
    p.Passed 0 q := by
  unfold parseScalar at h
  split at h
  · exact absurd h (by simp)
  · rename_i c m hp
    split_ifs at h with hquote _ hfalse htrue
    · split at h
      · rename_i s r hstring
        obtain ⟨t, rest, hrest, ht, -, rfl⟩ := parseString_eq_ok_iff.1 hstring
        simp only [Except.ok.injEq, Prod.mk.injEq] at h
        rw [← h.2, pass, hp, hquote]
        refine passed_string ?_ ht
        rw [hp, hquote, ← hrest, pass, hp]
        rfl
      · exact absurd h (by simp)
    · rw [Except.ok.injEq] at h
      have hq : p.parseInt.2 = q := congrArg Prod.snd h
      rw [← hq]
      exact p.passed_parseInt
    · simp only [Except.ok.injEq, Prod.mk.injEq] at h
      rw [← h.2]
      exact passed_pass (nul_notMem_of_beginsWith (by decide +kernel) hfalse)
    · simp only [Except.ok.injEq, Prod.mk.injEq] at h
      rw [← h.2]
      exact passed_pass (nul_notMem_of_beginsWith (by decide +kernel) htrue)

theorem passed_parseCommand {chain : List (List UInt8)}
    (h : p.parseCommand chain = .ok (file, q)) : p.Passed 0 q := by
  obtain ⟨hword, -, rest, hrest, hbytes, rfl⟩ := parseCommand_eq_ok h
  have hpass : p.Passed 0 (p.pass 7) :=
    passed_pass (nul_notMem_of_beginsWith (by decide +kernel) hword)
  have hstring := passed_string hrest hbytes
  exact (hpass.trans (passed_jump _)).trans
    (hstring.trans ((passed_jump _).trans (passed_semicolon _)))

end Place

/-- A name up to its value. -/
theorem PlaceReached.parseName {text : List UInt8} {k line : Nat} {p q : Place} {name : Span}
    {file : List UInt8} {names : List Span} (h : PlaceReached text k p)
    (hname : p.parseName file names = .ok (line, name, q)) :
    PlaceReached text (k + newlineBehind text name) q := by
  obtain ⟨t, w, sep, m, hrest, hne, htake, hjump, hsep, -, rfl, -, rfl⟩ :=
    Place.parseName_eq_ok hname
  have hbehind : text[p.1.length + t.length]? = (w ++ [sep]).head? := by
    have hdrop : text.drop (p.1.length + t.length) = w ++ sep :: m := by
      rw [← List.drop_drop, ← h.rest, hrest, List.drop_left]
    rw [← List.head?_drop, hdrop]
    cases w <;> rfl
  have hbytes : ∀ c ∈ t, c ≠ nul := by
    rintro c hc rfl
    rw [htake] at hc
    exact absurd (List.mem_takeWhile_imp hc) (by decide)
  have hwnul : nul ∉ w := by
    have := nul_notMem_jump .blank (w ++ sep :: m)
    rwa [hjump] at this
  have hsepnul : sep ≠ nul := by rcases hsep with rfl | rfl <;> decide
  have hnul : nul ∉ t ++ (w ++ [sep]) := by
    simp only [List.mem_append, List.mem_singleton]
    rintro (hmem | hmem | hmem)
    · exact hbytes nul hmem rfl
    · exact hwnul hmem
    · exact hsepnul hmem.symm
  have hpassed : p.Passed (newlineBehind text ⟨p.1.length, t.length⟩)
      (p.1 ++ t ++ cut (w ++ [sep]), m) := by
    refine ⟨t ++ (w ++ [sep]), t ++ cut (w ++ [sep]), by rw [hrest]; simp, by simp,
      List.rel_append (overwritten_refl t) (overwritten_cut _), hnul, ?_, ?_, ?_⟩
    · exact nulsApart_cut hnul
    · obtain ⟨c, t', rfl⟩ := List.exists_cons_of_ne_nil hne
      exact fun hhead => hbytes c List.mem_cons_self (Option.some.inj hhead)
    · rw [List.count_append, count_cut (w ++ [sep]), List.count_append, newlineBehind, hbehind]
      omega
  exact (h.passed hpassed).passed (Place.passed_jump _)

/-- The newlines lost by the settings of a text, without those of the files it
includes. -/
def ConfigSettings.newlinesLost (text : List UInt8) : ConfigSettings → Nat
  | nil => 0
  | cons none _ _ _ next => next.newlinesLost text
  | cons (some name) _ _ childs next =>
      newlineBehind text name + childs.newlinesLost text + next.newlinesLost text

variable {files : ConfigFiles} {root : Bool} {chain : List (List UInt8)} {names : List Span}
  {p q t : Place} {settings : ConfigSettings} {text : List UInt8} {k : Nat}

/-- What a pass adds to the newlines that are lost. -/
def ConfigItem.newlinesLost (text : List UInt8) : ConfigItem → Nat
  | group _ name _ _ => newlineBehind text name
  | scalar _ name _ _ => newlineBehind text name
  | _ => 0

theorem PlaceReached.behind (h : PlaceReached text k p)
    (hq : (configItem root chain names p).behind = some q) :
    PlaceReached text (k + (configItem root chain names p).newlinesLost text) q := by
  have hfound := found_configItem root chain names p
  have henter : PlaceReached text k p.enter := h.passed p.passed_enter
  cases hitem : configItem root chain names p <;> rw [hitem] at hq hfound
  case finish r =>
    obtain rfl := Option.some.inj hq
    rcases hfound with ⟨-, rfl⟩ | ⟨hbrace, -, rfl⟩
    · exact henter
    · have hpass := Place.passed_pass_one hbrace (by decide)
      exact henter.passed (hpass.trans (Place.passed_semicolon _))
  case error e => exact absurd hq (by simp [ConfigItem.behind])
  case command file r =>
    obtain rfl := Option.some.inj hq
    have hpass := Place.passed_pass_one hfound.1 (by decide)
    exact henter.passed (hpass.trans (Place.passed_parseCommand hfound.2))
  case group line name value inner =>
    obtain rfl := Option.some.inj hq
    obtain ⟨q, hname, hbrace, -, rfl⟩ := hfound
    exact (henter.parseName hname).passed (Place.passed_pass_one hbrace (by decide))
  case scalar line name value r =>
    obtain rfl := Option.some.inj hq
    obtain ⟨q, hname, -, t, hscalar, rfl⟩ := hfound
    exact (henter.parseName hname).passed ((Place.passed_parseScalar hscalar).trans
      (t.passed_jump.trans (Place.passed_semicolon _)))

theorem PlaceReached.parses (h : PlaceReached text k p)
    (hparses : Parses files root chain names p settings t) :
    PlaceReached text (k + settings.newlinesLost text) t := by
  induction hparses generalizing text k with
  | finish hitem =>
      have hbehind := h.behind (by rw [hitem]; rfl)
      rw [hitem] at hbehind
      exact hbehind
  | command hitem _ _ _ _ ihnext =>
      have hbehind := h.behind (by rw [hitem]; rfl)
      rw [hitem] at hbehind
      exact ihnext hbehind
  | @group _ _ _ _ _ _ _ _ _ r _ _ hitem _ _ ihchilds ihnext =>
      have hinner := h.behind (by rw [hitem]; rfl)
      rw [hitem] at hinner
      have hbehind := (ihchilds hinner).passed (r.passed_jump.trans (Place.passed_semicolon _))
      rw [ConfigSettings.newlinesLost, ← Nat.add_assoc, ← Nat.add_assoc]
      exact ihnext hbehind
  | scalar hitem _ ihnext =>
      have hbehind := h.behind (by rw [hitem]; rfl)
      rw [hitem] at hbehind
      rw [ConfigSettings.newlinesLost, ConfigSettings.newlinesLost, Nat.add_zero, ← Nat.add_assoc]
      exact ihnext hbehind

/-! ## The errors of a pass -/

namespace Place

variable {e : ConfigError} {file : List UInt8} {p : Place} {names : List Span}
  {chain : List (List UInt8)}

/-- The place behind a name, where its separator has to be. -/
def behindName (p : Place) : Place :=
  (p.pass (p.2.takeWhile configValidNameSymbol).length).jump

/-- The place of the value of a setting. -/
def valuePlace (p : Place) : Place := (p.behindName.pass 1).jump

/-- The end of the text. -/
def finish (p : Place) : Place := p.pass (p.2.takeWhile fun c => c ≠ nul).length

/-- A string is not closed only if the text ends in it. -/
theorem parseString_eq_error (h : p.parseString file = .error e) :
    e = ⟨.noClosingQuote, file, configLine p.finish.1⟩ := by
  obtain ⟨s, m, hspan, htake, -, hs, hm⟩ :=
    Scan.exists_span (fun c => c ≠ nul && c ≠ quote) p.2
  have hrest : p.2.drop s.length = m := by rw [hspan, List.drop_left]
  simp only [parseString, htake, hrest] at h
  split_ifs at h with hquote
  rw [Except.error.injEq] at h
  have hnul : ∀ c ∈ s, decide (c ≠ nul) = true := fun c hc => by
    have hboth := hs c hc
    rw [Bool.and_eq_true] at hboth
    exact hboth.1
  have hfinish : p.2.takeWhile (fun c => c ≠ nul) = s := by
    rw [hspan, List.takeWhile_append_of_pos hnul]
    cases m with
    | nil => exact List.append_nil s
    | cons c m =>
        have hc : c ≠ quote := fun heq => hquote (congrArg some heq)
        have hstop : decide (c ≠ nul) = false := by simpa [hc] using hm c rfl
        rw [List.takeWhile_cons_of_neg (by rw [hstop]; exact Bool.false_ne_true), List.append_nil]
  rw [← h, finish, pass, hfinish, hspan, List.take_left]

theorem parseScalar_eq_error (h : p.parseScalar file = .error e) :
    e = ⟨.unknownType, file, configLine p.1⟩ ∨
      p.2.head? = some quote ∧ e = ⟨.noClosingQuote, file, configLine (p.pass 1).finish.1⟩ := by
  unfold parseScalar at h
  split at h
  · exact .inl (Except.error.inj h).symm
  · rename_i c m hp
    split_ifs at h with hquote
    · split at h
      · exact absurd h (by simp)
      · rename_i e' hstring
        obtain rfl := Except.error.inj h
        exact .inr ⟨by rw [hp, hquote]; rfl, parseString_eq_error hstring⟩
    · exact .inl (Except.error.inj h).symm

theorem parseName_eq_error (h : p.parseName file names = .error e) :
    (e.text = .noName ∨ e.text = .duplicateName) ∧ e.file = file ∧
        e.line = configLine (p.pass (p.2.takeWhile configValidNameSymbol).length).1 ∨
      e = ⟨.noSeparator, file, configLine p.behindName.1⟩ := by
  simp only [parseName] at h
  split_ifs at h
  · obtain rfl := Except.error.inj h
    exact .inl ⟨.inl rfl, rfl, rfl⟩
  · obtain rfl := Except.error.inj h
    exact .inl ⟨.inr rfl, rfl, rfl⟩
  · exact .inr (Except.error.inj h).symm

theorem parseCommand_eq_error (h : p.parseCommand chain = .error e) :
    e = ⟨.unknownCommand, chain.headD [], configLine p.1⟩ ∨
      (beginsWith (ascii "include") p.2 = true ∧
        (e = ⟨.noIncludeString, chain.headD [], configLine (p.pass 7).jump.1⟩ ∨
          (p.pass 7).jump.2.head? = some quote ∧
            e = ⟨.noClosingQuote, chain.headD [], configLine ((p.pass 7).jump.pass 1).finish.1⟩)) ∨
      e.text = .includeLoop ∧ e.line = none := by
  simp only [parseCommand] at h
  split_ifs at h with hword hquote
  · exact .inl (Except.error.inj h).symm
  · rw [Bool.not_eq_false] at hword
    split at h
    · rename_i e' hstring
      obtain rfl := Except.error.inj h
      exact .inr (.inl ⟨hword, .inr ⟨hquote, parseString_eq_error hstring⟩⟩)
    · split_ifs at h
      obtain rfl := Except.error.inj h
      exact .inr (.inr ⟨rfl, rfl⟩)
  · rw [Bool.not_eq_false] at hword
    exact .inr (.inl ⟨hword, .inl (Except.error.inj h).symm⟩)

end Place

/-- The end of a text. -/
def textEnd (text : List UInt8) : Nat := (text.takeWhile fun c => c ≠ nul).length

theorem PlaceReached.finish (h : PlaceReached text k p) :
    PlaceReached text k p.finish ∧ p.finish.1.length = textEnd text := by
  obtain ⟨s, m, hspan, htake, -, hs, -⟩ := Scan.exists_span (fun c => c ≠ nul) p.2
  have hfinish : p.finish = (p.1 ++ s, m) := by
    rw [Place.finish, htake, Place.pass, hspan, List.take_left, List.drop_left]
  have hnul : nul ∉ p.2.take s.length := by
    rw [hspan, List.take_left]
    exact fun hmem => absurd (hs nul hmem) (by simp)
  refine ⟨?_, ?_⟩
  · rw [Place.finish, htake]
    exact h.passed (Place.passed_pass hnul)
  · have hfront : ∀ c ∈ text.take p.1.length, decide (c ≠ nul) = true := by
      intro c hc
      rw [decide_eq_true_eq]
      exact fun heq => h.noNul (heq ▸ hc)
    have htext := List.take_append_drop p.1.length text
    rw [← h.rest] at htext
    rw [hfinish, textEnd, ← htext, List.takeWhile_append_of_pos hfront, htake, List.length_append,
      List.length_append, List.length_take, Nat.min_eq_left h.le]

/-- The place up to which the lines are counted. -/
def Place.reported (text : List UInt8) (p : Place) : ConfigErrorText → Nat
  | .noName | .duplicateName => p.1.length + (p.2.takeWhile configValidNameSymbol).length
  | .noSeparator => p.behindName.1.length
  | .unknownType => p.valuePlace.1.length
  | .unknownCommand => p.1.length + 1
  | .noIncludeString => ((p.pass 1).pass 7).jump.1.length
  | .noClosingQuote => textEnd text
  | _ => p.1.length

/-- The newline that is lost behind the name of the setting that is refused: the name
is cut when the value is looked at. -/
def Place.lostBehindName (text : List UInt8) (p : Place) : ConfigErrorText → Nat
  | .unknownType => newlineBehind text ⟨p.1.length, (p.2.takeWhile configValidNameSymbol).length⟩
  | .noClosingQuote =>
      if p.2.head? = some atSign then 0
      else newlineBehind text ⟨p.1.length, (p.2.takeWhile configValidNameSymbol).length⟩
  | _ => 0

theorem Place.length_valuePlace {file : List UInt8} {line : Nat} {name : Span}
    (h : p.parseName file names = .ok (line, name, q)) :
    p.valuePlace.1.length = q.1.length ∧
      name = ⟨p.1.length, (p.2.takeWhile configValidNameSymbol).length⟩ := by
  obtain ⟨t, w, sep, m, hrest, -, htake, hjump, -, -, rfl, -, rfl⟩ := Place.parseName_eq_ok h
  refine ⟨?_, by rw [← htake]⟩
  have hcut : (cut (w ++ [sep])).length = w.length + 1 := by
    rw [← (overwritten_cut (w ++ [sep])).length_eq, List.length_append]
    rfl
  have hpass : p.pass t.length = (p.1 ++ t, w ++ sep :: m) := by
    rw [Place.pass, hrest, List.take_left, List.drop_left]
  have hbehind : p.behindName = (p.1 ++ t ++ w, sep :: m) := by
    rw [Place.behindName, ← htake, hpass, Place.jump]
    simp only [hjump]
  rw [Place.valuePlace, hbehind]
  simp only [Place.jump, Place.pass, List.take_succ_cons, List.take_zero, List.drop_succ_cons,
    List.drop_zero, List.length_append, hcut, List.length_cons, List.length_nil]
  omega

/-- The file and the line of an error that is found in a pass. -/
theorem PlaceReached.error {e : ConfigError} (h : PlaceReached text k p)
    (hitem : configItem root chain names p = .error e) (hloop : e.text ≠ .includeLoop) :
    e.file = chain.headD [] ∧ ∃ line, e.line = some line ∧
      line + (k + p.enter.lostBehindName text e.text) =
        1 + (text.take (p.enter.reported text e.text)).count lf := by
  have hfound := found_configItem root chain names p
  have henter : PlaceReached text k p.enter := h.passed p.passed_enter
  rw [hitem] at hfound
  generalize p.enter = p at hfound henter ⊢
  rcases hfound with ⟨hat, hcommand⟩ | ⟨-, hname⟩ | ⟨hat, line, name, q, hname, -, hscalar⟩
  · have hone := henter.passed (Place.passed_pass_one hat (by decide))
    have hlen : (p.pass 1).1.length = p.1.length + 1 := by
      obtain ⟨m, hm⟩ := List.head?_eq_some_iff.1 hat
      simp [Place.pass, hm]
    rcases Place.parseCommand_eq_error hcommand with rfl | ⟨hword, hcases⟩ | ⟨htext, -⟩
    · refine ⟨rfl, _, rfl, ?_⟩
      rw [Place.reported, ← hlen]
      exact hone.line
    · have hseven : (p.pass 1).Passed 0 ((p.pass 1).pass 7) :=
        Place.passed_pass (nul_notMem_of_beginsWith (by decide +kernel) hword)
      have hjump := (hone.passed hseven).passed (Place.passed_jump _)
      rcases hcases with rfl | ⟨hquote, rfl⟩
      · exact ⟨rfl, _, rfl, hjump.line⟩
      · have hfinish := (hjump.passed (Place.passed_pass_one hquote (by decide))).finish
        refine ⟨rfl, _, rfl, ?_⟩
        rw [Place.reported, ← hfinish.2, Place.lostBehindName, if_pos hat]
        exact hfinish.1.line
    · exact absurd htext hloop
  · have htake := List.prefix_iff_eq_take.1 (List.takeWhile_prefix (l := p.2) configValidNameSymbol)
    have hbytes : nul ∉ p.2.take (p.2.takeWhile configValidNameSymbol).length := by
      rw [← htake]
      exact fun hmem => absurd (List.mem_takeWhile_imp hmem) (by decide)
    have hpass := henter.passed (Place.passed_pass hbytes)
    have hlen : (p.pass (p.2.takeWhile configValidNameSymbol).length).1.length =
        p.1.length + (p.2.takeWhile configValidNameSymbol).length := by
      rw [Place.pass, List.length_append, ← htake]
    rcases Place.parseName_eq_error hname with ⟨htext, hfile, hline⟩ | rfl
    · refine ⟨hfile, _, hline, ?_⟩
      have hreport := hpass.line
      rw [hlen] at hreport
      rcases htext with htext | htext <;> rw [htext] <;> exact hreport
    · exact ⟨rfl, _, rfl, (hpass.passed (Place.passed_jump _)).line⟩
  · obtain ⟨hvalue, rfl⟩ := Place.length_valuePlace hname
    have hreached := henter.parseName hname
    rcases Place.parseScalar_eq_error hscalar with rfl | ⟨hquote, rfl⟩
    · refine ⟨rfl, _, rfl, ?_⟩
      rw [Place.reported, hvalue]
      exact hreached.line
    · have hfinish := (hreached.passed (Place.passed_pass_one hquote (by decide))).finish
      refine ⟨rfl, _, rfl, ?_⟩
      rw [Place.reported, ← hfinish.2, Place.lostBehindName, if_neg hat]
      exact hfinish.1.line

end OpenTube
