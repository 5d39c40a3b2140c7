import OpenTube.Config.Parser
import OpenTube.Lib.Scan

/-!
# The passes of the configuration parser

One pass of the loop of `config_parse_childs` reads one command or one setting, or
finds the end. `configItem` is a pass without the recursion, and `Parses` is the
recursion as a relation: a run that succeeds is a derivation, whatever number of
steps it takes.

All that a pass does to the text is to move forward in it and to overwrite bytes it
has passed.
-/

namespace OpenTube

/-! ## Moving forward -/

/-- A text in which some bytes are overwritten with a `NUL`. -/
abbrev Overwritten : List UInt8 → List UInt8 → Prop :=
  List.Forall₂ fun c d => d = c ∨ d = nul

theorem overwritten_refl (m : List UInt8) : Overwritten m m :=
  List.forall₂_same.2 fun _ _ => .inl rfl

theorem overwritten_cut (m : List UInt8) : Overwritten m (cut m) := by
  cases m with
  | nil => exact .nil
  | cons c m => exact .cons (.inr rfl) (overwritten_refl m)

/-- The place `q` is behind the place `p`: what lies before `p` is as it was, and some
of the bytes between the places may have been overwritten. -/
def Place.Advances (p q : Place) : Prop :=
  ∃ m m', p.2 = m ++ q.2 ∧ q.1 = p.1 ++ m' ∧ Overwritten m m'

namespace Place

theorem Advances.refl (p : Place) : p.Advances p :=
  ⟨[], [], rfl, (List.append_nil p.1).symm, .nil⟩

theorem Advances.trans {p q r : Place} (hpq : p.Advances q) (hqr : q.Advances r) :
    p.Advances r := by
  obtain ⟨m, m', hrest, hfront, hover⟩ := hpq
  obtain ⟨x, x', hrest', hfront', hover'⟩ := hqr
  exact ⟨m ++ x, m' ++ x', by rw [hrest, hrest', List.append_assoc],
    by rw [hfront', hfront, List.append_assoc], List.rel_append hover hover'⟩

theorem Advances.suffix {p q : Place} (h : p.Advances q) : q.2 <:+ p.2 := by
  obtain ⟨m, -, hrest, -⟩ := h
  exact ⟨m, hrest.symm⟩

theorem Advances.front {p q : Place} (h : p.Advances q) : p.1 <+: q.1 := by
  obtain ⟨-, m', -, hfront, -⟩ := h
  exact ⟨m', hfront.symm⟩

theorem Advances.length {p q : Place} (h : p.Advances q) :
    q.1.length + q.2.length = p.1.length + p.2.length := by
  obtain ⟨m, m', hrest, hfront, hover⟩ := h
  have hlen := hover.length_eq
  rw [hrest, hfront, List.length_append, List.length_append]
  omega

/-- Bytes are passed over without a change. -/
theorem advances_of_eq {p q : Place} {m : List UInt8} (hrest : p.2 = m ++ q.2)
    (hfront : q.1 = p.1 ++ m) : p.Advances q :=
  ⟨m, m, hrest, hfront, overwritten_refl m⟩

end Place

theorem jumpToNonspace_append (mode : JumpMode) (s : List UInt8) :
    (jumpToNonspace mode s).1 ++ (jumpToNonspace mode s).2 = s := by
  induction s generalizing mode with
  | nil => cases mode <;> rfl
  | cons c m ih =>
      unfold jumpToNonspace
      cases mode <;> simp only <;> split_ifs <;> simp [ih]

theorem nul_notMem_of_beginsWith {word s : List UInt8} (hword : nul ∉ word)
    (h : beginsWith word s = true) : nul ∉ s.take word.length := by
  intro hmem
  have hlower : toLower nul ∈ (s.take word.length).map toLower := List.mem_map_of_mem hmem
  rw [beginsWith, decide_eq_true_eq] at h
  rw [h] at hlower
  exact hword hlower

namespace Place

theorem advances_jump (p : Place) : p.Advances p.jump :=
  advances_of_eq (jumpToNonspace_append .blank p.2).symm rfl

theorem advances_pass (p : Place) (n : Nat) : p.Advances (p.pass n) :=
  advances_of_eq (List.take_append_drop n p.2).symm rfl

theorem advances_semicolon (p : Place) : p.Advances p.semicolon := by
  unfold semicolon
  split
  · exact p.advances_pass 1
  · exact .refl p

/-- The string and the place behind its closing quote. -/
theorem parseString_eq_ok_iff {file : List UInt8} {p q : Place} {s : Span} :
    p.parseString file = .ok (s, q) ↔
      ∃ t rest, p.2 = t ++ quote :: rest ∧ (∀ c ∈ t, c ≠ nul ∧ c ≠ quote) ∧
        s = ⟨p.1.length, t.length⟩ ∧ q = (p.1 ++ t ++ [nul], rest) := by
  obtain ⟨t, m, hspan, htake, -, ht, -⟩ :=
    Scan.exists_span (fun c => c ≠ nul && c ≠ quote) p.2
  have hbytes : ∀ c ∈ t, c ≠ nul ∧ c ≠ quote := fun c hc => by simpa using ht c hc
  have hrest : p.2.drop t.length = m := by rw [hspan, List.drop_left]
  have hbehind : p.2.drop (t.length + 1) = m.tail := by
    rw [← List.drop_drop, hrest, List.drop_one]
  simp only [parseString, htake, hrest, hbehind]
  constructor
  · intro h
    split at h
    · rename_i hquote
      obtain ⟨rest, rfl⟩ := List.head?_eq_some_iff.1 hquote
      simp only [Except.ok.injEq, Prod.mk.injEq] at h
      exact ⟨t, rest, hspan, hbytes, h.1.symm, h.2.symm⟩
    · exact absurd h (by simp)
  · rintro ⟨t', rest, hsplit, hbytes', rfl, rfl⟩
    have hstop : (t' ++ quote :: rest).takeWhile (fun c => c ≠ nul && c ≠ quote) = t' := by
      rw [List.takeWhile_append_of_pos fun c hc => by simpa using hbytes' c hc,
        List.takeWhile_cons_of_neg (by simp), List.append_nil]
    rw [hsplit] at htake hspan
    obtain rfl := hstop.symm.trans htake
    obtain rfl := List.append_cancel_left hspan
    simp

theorem advances_parseString {file : List UInt8} {p q : Place} {s : Span}
    (h : p.parseString file = .ok (s, q)) : p.Advances q := by
  obtain ⟨t, rest, hrest, -, -, rfl⟩ := parseString_eq_ok_iff.1 h
  exact ⟨t ++ [quote], t ++ [nul], by rw [hrest]; simp, by simp,
    List.rel_append (overwritten_refl t) (.cons (.inr rfl) .nil)⟩

theorem advances_parseInt (p : Place) : p.Advances p.parseInt.2 := by
  simp only [parseInt]
  split
  · exact p.advances_pass _
  · exact p.advances_pass _

theorem advances_parseScalar {file : List UInt8} {p q : Place} {v : ConfigValue}
    (h : p.parseScalar file = .ok (v, q)) : p.Advances q := by
  unfold parseScalar at h
  split at h
  · exact absurd h (by simp)
  · split_ifs at h
    · split at h
      · rename_i s r hstring
        simp only [Except.ok.injEq, Prod.mk.injEq] at h
        rw [← h.2]
        exact (p.advances_pass 1).trans (advances_parseString hstring)
      · exact absurd h (by simp)
    · rw [Except.ok.injEq] at h
      have hq : p.parseInt.2 = q := congrArg Prod.snd h
      rw [← hq]
      exact p.advances_parseInt
    · simp only [Except.ok.injEq, Prod.mk.injEq] at h
      rw [← h.2]
      exact p.advances_pass 5
    · simp only [Except.ok.injEq, Prod.mk.injEq] at h
      rw [← h.2]
      exact p.advances_pass 4

/-- The name of a setting up to its value. The byte behind the name is overwritten when
the separator has been found. -/
theorem parseName_eq_ok {file : List UInt8} {names : List Span} {p q : Place} {line : Nat}
    {name : Span} (h : p.parseName file names = .ok (line, name, q)) :
    ∃ t w sep m, p.2 = t ++ (w ++ sep :: m) ∧ t ≠ [] ∧ t = p.2.takeWhile configValidNameSymbol ∧
      jumpToNonspace .blank (w ++ sep :: m) = (w, sep :: m) ∧ (sep = colon ∨ sep = equals) ∧
      line = configLine p.1 ∧ name = ⟨p.1.length, t.length⟩ ∧
      (∀ s ∈ names, (p.1.drop s.pos).take s.len ≠ t) ∧
      q = Place.jump (p.1 ++ t ++ cut (w ++ [sep]), m) := by
  obtain ⟨t, b, hspan, htake, -⟩ := Scan.exists_span configValidNameSymbol p.2
  have hpass : p.pass t.length = (p.1 ++ t, b) := by
    rw [pass, hspan, List.take_left, List.drop_left]
  have hsplit := jumpToNonspace_append .blank b
  have hjump : Place.jump (p.1 ++ t, b) =
      (p.1 ++ t ++ (jumpToNonspace .blank b).1, (jumpToNonspace .blank b).2) := rfl
  simp only [parseName, htake, hpass, hjump] at h
  split_ifs at h with hne hany hsep
  obtain ⟨sep, m, hrest, hsep⟩ : ∃ sep m, (jumpToNonspace .blank b).2 = sep :: m ∧
      (sep = colon ∨ sep = equals) := by
    rcases hsep with hsep | hsep <;> obtain ⟨m, hm⟩ := List.head?_eq_some_iff.1 hsep
    · exact ⟨colon, m, hm, .inl rfl⟩
    · exact ⟨equals, m, hm, .inr rfl⟩
  rw [hrest] at hsplit h
  have hcut : (p.1 ++ t ++ (jumpToNonspace .blank b).1 ++ [sep]).drop (p.1 ++ t).length =
      (jumpToNonspace .blank b).1 ++ [sep] := by
    rw [List.append_assoc (p.1 ++ t), List.drop_left]
  simp only [pass, List.take_succ_cons, List.take_zero, List.drop_succ_cons, List.drop_zero, hcut,
    Except.ok.injEq, Prod.mk.injEq] at h
  refine ⟨t, _, sep, m, by rw [hsplit, ← hspan], hne, htake.symm, ?_, hsep, h.1.symm, h.2.1.symm,
    by simpa using hany, h.2.2.symm⟩
  rw [hsplit, ← hrest]

theorem advances_parseName {file : List UInt8} {names : List Span} {p q : Place} {line : Nat}
    {name : Span} (h : p.parseName file names = .ok (line, name, q)) : p.Advances q := by
  obtain ⟨t, w, sep, m, hrest, -, -, -, -, -, -, -, rfl⟩ := parseName_eq_ok h
  refine Advances.trans ?_ (advances_jump _)
  exact ⟨t ++ (w ++ [sep]), t ++ cut (w ++ [sep]), by rw [hrest]; simp, by simp,
    List.rel_append (overwritten_refl t) (overwritten_cut _)⟩

/-- A command names a file that is not on the chain. -/
theorem parseCommand_eq_ok {chain : List (List UInt8)} {p q : Place} {name : List UInt8}
    (h : p.parseCommand chain = .ok (name, q)) :
    beginsWith (ascii "include") p.2 = true ∧ name ∉ chain ∧ ∃ rest,
      (p.pass 7).jump.2 = quote :: (name ++ quote :: rest) ∧ (∀ c ∈ name, c ≠ nul ∧ c ≠ quote) ∧
      q = (Place.jump ((p.pass 7).jump.1 ++ [quote] ++ name ++ [nul], rest)).semicolon := by
  simp only [parseCommand] at h
  split_ifs at h with hword hquote
  obtain ⟨m, hm⟩ := List.head?_eq_some_iff.1 hquote
  split at h
  · exact absurd h (by simp)
  · rename_i s r hstring
    obtain ⟨t, rest, hrest, hbytes, rfl, rfl⟩ := parseString_eq_ok_iff.1 hstring
    have hread : ((((p.pass 7).jump.pass 1).1 ++ t ++ [nul]).drop
        ((p.pass 7).jump.pass 1).1.length).take t.length = t := by
      rw [List.append_assoc, List.drop_left, List.take_left]
    simp only [hread] at h
    split_ifs at h with hmem
    simp only [Except.ok.injEq, Prod.mk.injEq] at h
    obtain ⟨rfl, rfl⟩ := h
    have htail : m = t ++ quote :: rest := by
      rw [← hrest, pass, hm]
      rfl
    have hfront : ((p.pass 7).jump.pass 1).1 = (p.pass 7).jump.1 ++ [quote] := by
      rw [pass, hm]
      rfl
    refine ⟨by simpa using hword, hmem, rest, by rw [hm, htail], hbytes, by rw [hfront]⟩

theorem advances_parseCommand {chain : List (List UInt8)} {p q : Place} {name : List UInt8}
    (h : p.parseCommand chain = .ok (name, q)) : p.Advances q := by
  obtain ⟨-, -, rest, hrest, -, rfl⟩ := parseCommand_eq_ok h
  refine Advances.trans (advances_pass p 7) (Advances.trans (advances_jump _) ?_)
  refine Advances.trans ?_ (Advances.trans (advances_jump _) (advances_semicolon _))
  exact ⟨quote :: (name ++ [quote]), quote :: (name ++ [nul]), by rw [hrest]; simp, by simp,
    .cons (.inl rfl) (List.rel_append (overwritten_refl name) (.cons (.inr rfl) .nil))⟩

end Place

/-! ## One pass -/

/-- What a pass finds: the end, an error, a command with the file it names, or a
setting. The value of a group is the one it has while its settings are read. -/
inductive ConfigItem
  | finish (p : Place)
  | error (e : ConfigError)
  | command (file : List UInt8) (behind : Place)
  | group (line : Nat) (name : Span) (value : ConfigValue) (inner : Place)
  | scalar (line : Nat) (name : Span) (value : ConfigValue) (behind : Place)
deriving DecidableEq, Repr

/-- The place at which a pass looks: the loop is not entered at the end of the text. -/
def Place.enter (p : Place) : Place := if p.2.head? = some nul then p else p.jump

/-- A pass that finds a setting, from the place of its name on. -/
def Place.parseSetting (file : List UInt8) (names : List Span) (p : Place) : ConfigItem :=
  match p.parseName file names with
  | .error e => .error e
  | .ok (line, name, q) =>
      if q.2.head? = some leftBrace then
        .group line name (if (q.pass 1).2.head? = some nul then .string ⟨0, 0⟩ else .group)
          (q.pass 1)
      else
        match q.parseScalar file with
        | .error e => .error e
        | .ok (value, r) => .scalar line name value r.jump.semicolon

/-- A pass of the loop of `config_parse_childs`. -/
def configItem (root : Bool) (chain : List (List UInt8)) (names : List Span) (p : Place) :
    ConfigItem :=
  let p := p.enter
  match p.2 with
  | [] => .finish p
  | c :: _ =>
      if c = nul then .finish p
      else if c = rightBrace ∧ root = false then .finish (p.pass 1).semicolon
      else if c = atSign then
        match (p.pass 1).parseCommand chain with
        | .error e => .error e
        | .ok (file, q) => .command file q
      else p.parseSetting (chain.headD []) names

/-- The text of a file that is included. -/
def loadIncluded (files : ConfigFiles) (file : List UInt8) : Except ConfigError (List UInt8) :=
  match files file with
  | none => .error ⟨.notOpened, file, none⟩
  | some content =>
      match quickValidate file content with
      | some e => .error e
      | none => .ok content

/-- The run of `config_parse_childs` that succeeds: the settings and the place behind
them. -/
inductive Parses (files : ConfigFiles) : Bool → List (List UInt8) → List Span → Place →
    ConfigSettings → Place → Prop
  | finish {root chain names p q} (hitem : configItem root chain names p = .finish q) :
      Parses files root chain names p .nil q
  | command {root chain names p file q content childs r next t}
      (hitem : configItem root chain names p = .command file q)
      (hload : loadIncluded files file = .ok content)
      (hchilds : Parses files false (file :: chain) [] ([], content ++ [nul, nul]) childs r)
      (hnext : Parses files root chain names q next t) :
      Parses files root chain names p (.cons none 0 (.included file (r.1 ++ r.2)) childs next) t
  | group {root chain names p line name value inner childs r next t}
      (hitem : configItem root chain names p = .group line name value inner)
      (hchilds : Parses files false chain [] inner childs r)
      (hnext : Parses files root chain (names ++ [name]) r.jump.semicolon next t) :
      Parses files root chain names p (.cons (some name) line value childs next) t
  | scalar {root chain names p line name value r next t}
      (hitem : configItem root chain names p = .scalar line name value r)
      (hnext : Parses files root chain (names ++ [name]) r next t) :
      Parses files root chain names p (.cons (some name) line value .nil next) t

variable {files : ConfigFiles} {n : Nat} {root : Bool} {chain : List (List UInt8)}
  {names : List Span} {p q t : Place} {settings : ConfigSettings} {e : ConfigError}

/-- The recursion, pass by pass. -/
theorem parseChilds_succ (files : ConfigFiles) (n : Nat) (root : Bool)
    (chain : List (List UInt8)) (names : List Span) (p : Place) :
    parseChilds files (n + 1) root chain names p =
      match configItem root chain names p with
      | .finish q => .ok (.nil, q)
      | .error e => .error e
      | .command file q =>
          (ConfigResult.lift (loadIncluded files file)).andThen fun content =>
            (parseChilds files n false (file :: chain) [] ([], content ++ [nul, nul])).andThen
              fun (childs, r) => (parseChilds files n root chain names q).andThen
                fun (next, t) => .ok (.cons none 0 (.included file (r.1 ++ r.2)) childs next, t)
      | .group line name value inner =>
          (parseChilds files n false chain [] inner).andThen fun (childs, r) =>
            (parseChilds files n root chain (names ++ [name]) r.jump.semicolon).andThen
              fun (next, t) => .ok (.cons (some name) line value childs next, t)
      | .scalar line name value r =>
          (parseChilds files n root chain (names ++ [name]) r).andThen
            fun (next, t) => .ok (.cons (some name) line value .nil next, t) := by
  rw [parseChilds, configItem, Place.enter]
  obtain ⟨front, rest⟩ := (if p.2.head? = some nul then p else p.jump)
  cases rest with
  | nil => rfl
  | cons c m =>
      simp only
      split_ifs
      · rfl
      · rfl
      · cases Place.parseCommand chain (Place.pass (front, c :: m) 1) with
        | error e => rfl
        | ok a =>
            obtain ⟨file, q⟩ := a
            simp only [ConfigResult.lift, ConfigResult.andThen_ok, loadIncluded]
            cases files file with
            | none => rfl
            | some content =>
                simp only
                cases quickValidate file content <;> rfl
      · rw [Place.parseSetting]
        cases Place.parseName (chain.headD []) names (front, c :: m) with
        | error e => rfl
        | ok a =>
            obtain ⟨line, name, q⟩ := a
            simp only [ConfigResult.lift, ConfigResult.andThen_ok]
            by_cases hgroup : q.2.head? = some leftBrace
            · simp only [if_pos hgroup]
            · simp only [if_neg hgroup]
              cases q.parseScalar (chain.headD []) <;> rfl

/-! ## What a pass does to the place -/

/-- What is known of the item that is found at a place. -/
def ConfigItem.Found (root : Bool) (chain : List (List UInt8)) (names : List Span) (p : Place) :
    ConfigItem → Prop
  | finish q => (p.2 = [] ∨ p.2.head? = some nul) ∧ q = p ∨
      p.2.head? = some rightBrace ∧ root = false ∧ q = (p.pass 1).semicolon
  | error e => p.2.head? = some atSign ∧ (p.pass 1).parseCommand chain = .error e ∨
      p.2.head? ≠ some atSign ∧ p.parseName (chain.headD []) names = .error e ∨
      p.2.head? ≠ some atSign ∧ ∃ line name q,
        p.parseName (chain.headD []) names = .ok (line, name, q) ∧
        q.2.head? ≠ some leftBrace ∧ q.parseScalar (chain.headD []) = .error e
  | command file q => p.2.head? = some atSign ∧ (p.pass 1).parseCommand chain = .ok (file, q)
  | group line name value inner => ∃ q, p.parseName (chain.headD []) names = .ok (line, name, q) ∧
      q.2.head? = some leftBrace ∧
      value = (if (q.pass 1).2.head? = some nul then .string ⟨0, 0⟩ else .group) ∧
      inner = q.pass 1
  | scalar line name value r => ∃ q, p.parseName (chain.headD []) names = .ok (line, name, q) ∧
      q.2.head? ≠ some leftBrace ∧ ∃ t, q.parseScalar (chain.headD []) = .ok (value, t) ∧
        r = t.jump.semicolon

theorem found_configItem (root : Bool) (chain : List (List UInt8)) (names : List Span) (p : Place) :
    (configItem root chain names p).Found root chain names p.enter := by
  rw [configItem]
  obtain ⟨front, rest⟩ := p.enter
  cases rest with
  | nil => exact .inl ⟨.inl rfl, rfl⟩
  | cons c m =>
      simp only
      split_ifs with hnul hbrace hat
      · exact .inl ⟨.inr (congrArg some hnul), rfl⟩
      · exact .inr ⟨congrArg some hbrace.1, hbrace.2, rfl⟩
      · cases hcommand : Place.parseCommand chain (Place.pass (front, c :: m) 1) with
        | error e => exact .inl ⟨congrArg some hat, hcommand⟩
        | ok a => exact ⟨congrArg some hat, hcommand⟩
      · have hnot : (c :: m).head? ≠ some atSign := fun heq => hat (Option.some.inj heq)
        rw [Place.parseSetting]
        cases hname : Place.parseName (chain.headD []) names (front, c :: m) with
        | error e => exact .inr (.inl ⟨hnot, hname⟩)
        | ok a =>
            obtain ⟨line, name, q⟩ := a
            by_cases hgroup : q.2.head? = some leftBrace
            · simp only [if_pos hgroup]
              exact ⟨q, hname, hgroup, rfl, rfl⟩
            · simp only [if_neg hgroup]
              cases hscalar : q.parseScalar (chain.headD []) with
              | error e => exact .inr (.inr ⟨hnot, line, name, q, hname, hgroup, hscalar⟩)
              | ok a => exact ⟨q, hname, hgroup, a.2, hscalar, rfl⟩

theorem Place.advances_enter (p : Place) : p.Advances p.enter := by
  unfold Place.enter
  split
  · exact .refl p
  · exact p.advances_jump

/-- The place at which the text goes on behind an item. -/
def ConfigItem.behind : ConfigItem → Option Place
  | finish q => some q
  | error _ => none
  | command _ q => some q
  | group _ _ _ inner => some inner
  | scalar _ _ _ r => some r

theorem Place.length_pass_one {p : Place} {c : UInt8} (h : p.2.head? = some c) :
    (p.pass 1).2.length < p.2.length := by
  obtain ⟨m, hm⟩ := List.head?_eq_some_iff.1 h
  simp [Place.pass, hm]

theorem Place.length_parseName {file : List UInt8} {line : Nat} {name : Span}
    (h : p.parseName file names = .ok (line, name, q)) : q.2.length < p.2.length := by
  obtain ⟨t, w, sep, m, hrest, -, -, -, -, -, -, -, rfl⟩ := Place.parseName_eq_ok h
  have hle := (Place.advances_jump (p.1 ++ t ++ cut (w ++ [sep]), m)).suffix.length_le
  rw [hrest]
  simp only [List.length_append, List.length_cons]
  have hm : (Place.jump (p.1 ++ t ++ cut (w ++ [sep]), m)).2.length ≤ m.length := hle
  omega

theorem Place.Advances.length_le (h : p.Advances q) : q.2.length ≤ p.2.length :=
  h.suffix.length_le

/-- A pass moves forward. -/
theorem advances_configItem (h : (configItem root chain names p).behind = some q) :
    p.Advances q := by
  have hfound := found_configItem root chain names p
  refine (p.advances_enter).trans ?_
  cases hitem : configItem root chain names p <;> rw [hitem] at h hfound
  case finish r =>
    obtain rfl := Option.some.inj h
    rcases hfound with ⟨-, rfl⟩ | ⟨-, -, rfl⟩
    · exact .refl _
    · exact (Place.advances_pass _ 1).trans (Place.advances_semicolon _)
  case error e => exact absurd h (by simp [ConfigItem.behind])
  case command file r =>
    obtain rfl := Option.some.inj h
    exact (Place.advances_pass _ 1).trans (Place.advances_parseCommand hfound.2)
  case group line name value inner =>
    obtain rfl := Option.some.inj h
    obtain ⟨q, hname, -, -, rfl⟩ := hfound
    exact (Place.advances_parseName hname).trans (Place.advances_pass q 1)
  case scalar line name value r =>
    obtain rfl := Option.some.inj h
    obtain ⟨q, hname, -, t, hscalar, rfl⟩ := hfound
    exact (Place.advances_parseName hname).trans ((Place.advances_parseScalar hscalar).trans
      (t.advances_jump.trans (Place.advances_semicolon _)))

/-- A pass that does not find the end has read something. -/
theorem length_configItem (h : (configItem root chain names p).behind = some q)
    (hmore : ∀ r, configItem root chain names p ≠ .finish r) : q.2.length < p.2.length := by
  have hfound := found_configItem root chain names p
  have henter := p.advances_enter.length_le
  cases hitem : configItem root chain names p <;> rw [hitem] at h hfound
  case finish r => exact absurd hitem (hmore r)
  case error e => exact absurd h (by simp [ConfigItem.behind])
  case command file r =>
    obtain rfl := Option.some.inj h
    have hone := Place.length_pass_one hfound.1
    have hle := (Place.advances_parseCommand hfound.2).length_le
    omega
  case group line name value inner =>
    obtain rfl := Option.some.inj h
    obtain ⟨q, hname, -, -, rfl⟩ := hfound
    have hlt := Place.length_parseName hname
    have hle := (Place.advances_pass q 1).length_le
    omega
  case scalar line name value r =>
    obtain rfl := Option.some.inj h
    obtain ⟨q, hname, -, t, hscalar, rfl⟩ := hfound
    have hlt := Place.length_parseName hname
    have hle := (Place.advances_parseScalar hscalar).length_le
    have hjump := (t.advances_jump.trans (Place.advances_semicolon _)).length_le
    omega

/-! ## Runs -/

theorem ConfigResult.andThen_eq_ok {α β : Type} {r : ConfigResult α} {f : α → ConfigResult β}
    {b : β} : r.andThen f = .ok b ↔ ∃ a, r = .ok a ∧ f a = .ok b := by
  cases r <;> simp [ConfigResult.andThen]

theorem ConfigResult.lift_eq_ok {α : Type} {r : Except ConfigError α} {a : α} :
    ConfigResult.lift r = .ok a ↔ r = .ok a := by
  cases r <;> simp [ConfigResult.lift]

theorem parses_of_parseChilds (h : parseChilds files n root chain names p = .ok (settings, t)) :
    Parses files root chain names p settings t := by
  induction n generalizing root chain names p settings t with
  | zero => exact absurd h (by simp [parseChilds])
  | succ n ih =>
      rw [parseChilds_succ] at h
      cases hitem : configItem root chain names p <;> rw [hitem] at h
      case finish q =>
        obtain ⟨rfl, rfl⟩ := Prod.mk.inj (ConfigResult.ok.inj h)
        exact .finish hitem
      case error e => exact absurd h (by simp)
      case command file q =>
        obtain ⟨content, hload, h⟩ := ConfigResult.andThen_eq_ok.1 h
        obtain ⟨⟨childs, r⟩, hchilds, h⟩ := ConfigResult.andThen_eq_ok.1 h
        obtain ⟨⟨next, u⟩, hnext, h⟩ := ConfigResult.andThen_eq_ok.1 h
        obtain ⟨rfl, rfl⟩ := Prod.mk.inj (ConfigResult.ok.inj h)
        exact .command hitem (ConfigResult.lift_eq_ok.1 hload) (ih hchilds) (ih hnext)
      case group line name value inner =>
        obtain ⟨⟨childs, r⟩, hchilds, h⟩ := ConfigResult.andThen_eq_ok.1 h
        obtain ⟨⟨next, u⟩, hnext, h⟩ := ConfigResult.andThen_eq_ok.1 h
        obtain ⟨rfl, rfl⟩ := Prod.mk.inj (ConfigResult.ok.inj h)
        exact .group hitem (ih hchilds) (ih hnext)
      case scalar line name value r =>
        obtain ⟨⟨next, u⟩, hnext, h⟩ := ConfigResult.andThen_eq_ok.1 h
        obtain ⟨rfl, rfl⟩ := Prod.mk.inj (ConfigResult.ok.inj h)
        exact .scalar hitem (ih hnext)

theorem Parses.advances (h : Parses files root chain names p settings t) : p.Advances t := by
  induction h with
  | finish hitem => exact advances_configItem (by rw [hitem]; rfl)
  | command hitem _ _ _ _ ihnext =>
      exact (advances_configItem (by rw [hitem]; rfl)).trans ihnext
  | @group _ _ _ _ _ _ _ _ _ r _ _ hitem _ _ ihchilds ihnext =>
      exact (advances_configItem (by rw [hitem]; rfl)).trans
        (ihchilds.trans ((r.advances_jump.trans (Place.advances_semicolon _)).trans ihnext))
  | scalar hitem _ ihnext => exact (advances_configItem (by rw [hitem]; rfl)).trans ihnext

end OpenTube
