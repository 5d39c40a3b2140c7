import OpenTube.Template.Include

/-!
# What the includes of a template stand for

A template whose include commands all have a name and name a file is a sequence of plain
texts and commands, and each command stands for such a sequence again. Its expansion puts
the expansion of the file in the place of the command and keeps every other byte.

`gather_into_single_file` does so, unless it takes too much for a command: a brace behind
the brace of a command without quotes is passed over with it, and the search that goes on
at the begin of an included text finds a command that begins in this text and ends behind
it.
-/

namespace OpenTube

open Scan

/-! ## Templates with includes -/

/-- An include command, with or without quotes. -/
def commandText (quoted : Bool) (name : List UInt8) : List UInt8 :=
  cmdInclude ++ (if quoted then quote :: (name ++ [quote, rightBrace]) else name ++ [rightBrace])

/-- A name in an include command. -/
def IncludeName (name : List UInt8) : Prop := name ≠ [] ∧ rightBrace ∉ name ∧ quote ∉ name

/-- A text in which every include command names a file as it is demanded. -/
inductive IncludeForm (named : List UInt8 → Prop) : List UInt8 → Prop
  | last {t} (ht : ¬cmdInclude <:+: t) : IncludeForm named t
  | command {a quoted name b} (ha : ¬cmdInclude <:+: a) (hname : IncludeName name)
      (hnamed : named name) (hb : IncludeForm named b) :
      IncludeForm named (a ++ (commandText quoted name ++ b))

/-- Every include command of every file has a name, and names a file. No file includes
itself, over any number of files. -/
def IncludesFormed (files : TplFiles) : Prop :=
  ∃ below : List UInt8 → List UInt8 → Prop, WellFounded below ∧ ∀ file f, files file = some f →
    IncludeForm (fun name => below name file ∧ (files name).isSome = true) f.content

/-- A template with what its commands stand for. -/
inductive TplSource
  | last (plain : List UInt8)
  | command (plain : List UInt8) (quoted : Bool) (name : List UInt8) (content rest : TplSource)
deriving DecidableEq, Repr

namespace TplSource

/-- The text as it stands in the file. -/
def text : TplSource → List UInt8
  | last plain => plain
  | command plain quoted name _ rest => plain ++ (commandText quoted name ++ rest.text)

/-- The text with the included files in the place of the commands. -/
def expand : TplSource → List UInt8
  | last plain => plain
  | command plain _ _ content rest => plain ++ (content.expand ++ rest.expand)

/-- The commands stand for the files. -/
def Of (files : TplFiles) : TplSource → Prop
  | last plain => ¬cmdInclude <:+: plain
  | command plain _ name content rest => ¬cmdInclude <:+: plain ∧ IncludeName name ∧
      (∃ f, files name = some f ∧ f.content = content.text) ∧ content.Of files ∧ rest.Of files

end TplSource

/-- No command begins in the text `t`, with `behind` behind it. -/
def NoneBegins (t behind : List UInt8) : Prop :=
  ∀ v ∈ t.tails, v ≠ [] → ¬cmdInclude <+: v ++ behind

instance (t behind : List UInt8) : Decidable (NoneBegins t behind) :=
  inferInstanceAs (Decidable (∀ v ∈ t.tails, v ≠ [] → ¬cmdInclude <+: v ++ behind))

/-- No brace follows on a command without quotes, and no command begins in an included
file and ends behind it. -/
def TplSource.Unbroken : TplSource → List UInt8 → Prop
  | .last plain, behind => NoneBegins plain behind
  | .command _ quoted _ content rest, behind =>
      (quoted = true ∨ (rest.text ++ behind).head? ≠ some rightBrace) ∧
        content.Unbroken (rest.text ++ behind) ∧ rest.Unbroken behind

/-- `gather_into_single_file` returns a text, and `content->len` is its length. -/
def Gathers (files : TplFiles) (f : TplFile) (text : List UInt8) : Prop :=
  ∃ n, gather files n f.content.length [] f.content = .ok text text.length

/-- No text ends with the begin of a command. -/
def NoPartial (t : List UInt8) : Prop := ∀ p, p <+: cmdInclude → p ≠ [] → ¬p <:+ t

/-! ## Files that are formed -/

/-- Files that are formed have an expansion. -/
theorem exists_source {files : TplFiles} (hformed : IncludesFormed files) {file : List UInt8}
    {f : TplFile} (hf : files file = some f) :
    ∃ t : TplSource, t.Of files ∧ t.text = f.content := by
  obtain ⟨below, hwell, hall⟩ := hformed
  induction file using hwell.induction generalizing f with
  | h file ih =>
      have htext : ∀ s, IncludeForm
          (fun name => below name file ∧ (files name).isSome = true) s →
          ∃ t : TplSource, t.Of files ∧ t.text = s := by
        intro s hs
        induction hs with
        | last ht => exact ⟨.last _, ht, rfl⟩
        | @command a quoted name b ha hname hnamed _ ihb =>
            obtain ⟨rest, hrest, rfl⟩ := ihb
            obtain ⟨g, hg⟩ := Option.isSome_iff_exists.1 hnamed.2
            obtain ⟨content, hcontent, hgtext⟩ := ih name hnamed.1 hg
            exact ⟨.command a quoted name content rest,
              ⟨ha, hname, ⟨g, hg, hgtext.symm⟩, hcontent, hrest⟩, rfl⟩
      exact htext f.content (hall file f hf)

/-! ## The search -/

/-- Nothing is found in a text in which no command begins. -/
theorem scanToPat_skip {pat t r : List UInt8}
    (h : ∀ v ∈ t.tails, v ≠ [] → ¬pat <+: v ++ r) :
    scanToPat pat (t ++ r) = (scanToPat pat r).map fun e => (t ++ e.1, e.2) := by
  induction t with
  | nil =>
      have hid : (fun e : List UInt8 × List UInt8 => ([] ++ e.1, e.2)) = id := rfl
      rw [hid, Option.map_id]
      rfl
  | cons c t ih =>
      rw [List.tails_cons, List.forall_mem_cons] at h
      have hnot : ¬pat <+: c :: (t ++ r) := h.1 (List.cons_ne_nil c t)
      rw [List.cons_append, scanToPat, if_neg hnot, ih h.2, Option.map_map]
      rfl

theorem strstr_skip {t r : List UInt8} (hnul : nul ∉ t) (h : NoneBegins t r) :
    strstr cmdInclude (t ++ r) = (strstr cmdInclude r).map fun e => (t ++ e.1, e.2) := by
  have htake : (t ++ r).takeWhile (· ≠ nul) = t ++ r.takeWhile (· ≠ nul) := by
    refine List.takeWhile_append_of_pos fun c hc => ?_
    have hne : c ≠ nul := fun heq => hnul (heq ▸ hc)
    simpa using hne
  have hskip := @scanToPat_skip cmdInclude t (r.takeWhile (· ≠ nul)) fun v hv hne hpre =>
    h v hv hne (hpre.trans ((List.prefix_append_right_inj v).2 (r.takeWhile_prefix _)))
  rw [strstr, strstr, htake, hskip, Option.map_map, Option.map_map]
  congr 1
  funext e
  simp [List.drop_append]

theorem includeCommand_skip {t r : List UInt8} (hnul : nul ∉ t) (h : NoneBegins t r) :
    includeCommand (t ++ r) =
      (includeCommand r).map fun i => { i with front := t ++ i.front } := by
  rw [includeCommand, includeCommand, strstr_skip hnul h, Option.bind_map, Option.map_bind]
  congr 1
  funext e
  simp only [Function.comp, Option.map_map]
  congr 1
  funext x
  by_cases hlast : x.1.getLast? = some quote
  · simp only [Function.comp, hlast, if_true]
  · simp only [Function.comp, hlast, if_false]

/-- A text in which no command begins is passed over. -/
theorem gather_skip {files : TplFiles} {t r : List UInt8} (hnul : nul ∉ t) (h : NoneBegins t r)
    (n len : Nat) (front : List UInt8) :
    gather files n len front (t ++ r) = gather files n len (front ++ t) r := by
  cases n with
  | zero => rfl
  | succ n =>
      rw [gather, gather, includeCommand_skip hnul h]
      cases includeCommand r with
      | none => simp
      | some i => simp

/-- A command begins with the only brace in its first word. -/
theorem not_prefix_of_brace {v m : List UInt8} (hv : v ≠ []) (hword : ¬cmdInclude <:+: v) :
    ¬cmdInclude <+: v ++ leftBrace :: m := by
  intro hpre
  rcases Nat.lt_or_ge v.length cmdInclude.length with hlt | hge
  · have hshort : v ++ [leftBrace] <+: cmdInclude := by
      refine List.prefix_of_prefix_length_le ⟨m, by simp⟩ hpre ?_
      rw [List.length_append]
      exact hlt
    obtain ⟨c, v, rfl⟩ := List.exists_cons_of_ne_nil hv
    have hmem : leftBrace ∈ cmdInclude.tail := by
      obtain ⟨w, hw⟩ := hshort
      rw [← hw]
      simp
    exact absurd hmem (by decide)
  · exact hword (List.prefix_of_prefix_length_le hpre (List.prefix_append v _) hge).isInfix

theorem not_infix_of_suffix {v t : List UInt8} (hv : v <:+ t) (ht : ¬cmdInclude <:+: t) :
    ¬cmdInclude <:+: v := fun h => ht (h.trans hv.isInfix)

theorem noneBegins_command {a : List UInt8} (ha : ¬cmdInclude <:+: a) (quoted : Bool)
    (name r : List UInt8) : NoneBegins a (commandText quoted name ++ r) := by
  intro v hv hne
  have hsuffix := (List.mem_tails _ _).1 hv
  have hcommand : commandText quoted name ++ r =
      leftBrace :: (cmdInclude.tail ++
        ((if quoted then quote :: (name ++ [quote, rightBrace]) else name ++ [rightBrace]) ++
          r)) := by
    rw [commandText, List.append_assoc]
    rfl
  rw [hcommand]
  exact not_prefix_of_brace hne (not_infix_of_suffix hsuffix ha)

theorem noneBegins_of_noPartial {t : List UInt8} (ht : ¬cmdInclude <:+: t) (hends : NoPartial t)
    (r : List UInt8) : NoneBegins t r := by
  intro v hv hne hpre
  have hsuffix := (List.mem_tails _ _).1 hv
  rcases Nat.lt_or_ge v.length cmdInclude.length with hlt | hge
  · exact hends v (List.prefix_of_prefix_length_le (List.prefix_append v r) hpre hlt.le) hne
      hsuffix
  · exact not_infix_of_suffix hsuffix ht
      (List.prefix_of_prefix_length_le hpre (List.prefix_append v r) hge).isInfix

/-- A command at the begin of the text: the name, and what is left behind it. -/
theorem includeCommand_commandText {name : List UInt8} (hname : IncludeName name) (quoted : Bool)
    (r : List UInt8) :
    ∃ width, includeCommand (commandText quoted name ++ r) =
      some ⟨[], name, width, if quoted then r else behindBrace r⟩ := by
  obtain ⟨hne, hbrace, hquote⟩ := hname
  obtain ⟨m, hm⟩ : ∃ m, commandText quoted name ++ r = cmdInclude ++ m := ⟨_, List.append_assoc ..⟩
  have hstr : strstr cmdInclude (cmdInclude ++ m) = some ([], cmdInclude ++ m) := by
    have htake : (cmdInclude ++ m).takeWhile (· ≠ nul) = cmdInclude ++ m.takeWhile (· ≠ nul) :=
      List.takeWhile_append_of_pos (by decide +kernel)
    have hscan : scanToPat cmdInclude (cmdInclude ++ m.takeWhile (· ≠ nul)) =
        some ([], cmdInclude ++ m.takeWhile (· ≠ nul)) := by
      refine (scanToPat_eq_some_iff _ _ _ _).2 ⟨rfl, ?_, List.prefix_append _ _, ?_⟩
      · exact List.append_ne_nil_of_left_ne_nil (by decide) _
      · intro a₁ a₂ ha hne₂
        exact absurd (List.append_eq_nil_iff.1 ha.symm).2 hne₂
    rw [strstr, htake, hscan]
    rfl
  cases quoted with
  | true =>
      have hquoted : m = quote :: (name ++ [quote] ++ rightBrace :: r) := by
        have htext : cmdInclude ++ (quote :: (name ++ [quote] ++ rightBrace :: r)) =
            cmdInclude ++ m := by
          rw [← hm, commandText, if_pos rfl]
          simp
        exact (List.append_cancel_left htext).symm
      have hwidth : quoteWidth m = 1 := by rw [hquoted]; rfl
      have hlast : (name ++ [quote]).getLast? = some quote := List.getLast?_concat
      have hscan : scanTo (· = rightBrace) (m.drop (quoteWidth m)) =
          some (name ++ [quote], rightBrace :: r) := by
        rw [hwidth, hquoted]
        refine (scanTo_eq_some_iff _ _ _ _).2 ⟨rfl, ?_, rightBrace, r, rfl, by simp⟩
        intro c hc
        have hcb : c ≠ rightBrace := by
          rintro rfl
          rcases List.mem_append.1 hc with hmem | hmem
          · exact hbrace hmem
          · exact absurd (List.mem_singleton.1 hmem) (by decide)
        simpa using hcb
      have hfound := includeCommand_eq_some_iff.2 ⟨[], m, _, r, hstr, hscan, rfl⟩
      rw [IncludeCommand.of, if_pos hlast, List.dropLast_concat] at hfound
      rw [hm, if_pos rfl]
      exact ⟨_, hfound⟩
  | false =>
      have hplain : m = name ++ rightBrace :: r := by
        have htext : cmdInclude ++ (name ++ rightBrace :: r) = cmdInclude ++ m := by
          rw [← hm, commandText]
          simp
        exact (List.append_cancel_left htext).symm
      have hhead : m.head? ≠ some quote := by
        obtain ⟨c, name, rfl⟩ := List.exists_cons_of_ne_nil hne
        rw [hplain]
        rintro heq
        rw [← Option.some.inj heq] at hquote
        exact hquote List.mem_cons_self
      have hwidth : quoteWidth m = 0 := if_neg hhead
      have hlast : ¬name.getLast? = some quote := fun heq => hquote (List.mem_of_getLast? heq)
      have hscan : scanTo (· = rightBrace) (m.drop (quoteWidth m)) =
          some (name, rightBrace :: r) := by
        rw [hwidth, hplain]
        refine (scanTo_eq_some_iff _ _ _ _).2 ⟨rfl, ?_, rightBrace, r, rfl, by simp⟩
        intro c hc
        have hcb : c ≠ rightBrace := fun heq => hbrace (heq ▸ hc)
        simpa using hcb
      have hfound := includeCommand_eq_some_iff.2 ⟨[], m, _, r, hstr, hscan, rfl⟩
      rw [IncludeCommand.of, if_neg hlast, if_neg (fun h => hne h.1)] at hfound
      rw [hm, if_neg Bool.false_ne_true]
      exact ⟨_, hfound⟩

/-- One replacement, where a command begins behind a plain text. -/
theorem gather_command {files : TplFiles} {a name r : List UInt8} {f : TplFile} (hnul : nul ∉ a)
    (ha : ¬cmdInclude <:+: a) (hname : IncludeName name) (hf : files name = some f) (quoted : Bool)
    (n len : Nat) (front : List UInt8) :
    ∃ len', gather files (n + 1) len front (a ++ (commandText quoted name ++ r)) =
      gather files n len' (front ++ a) (f.content ++ if quoted then r else behindBrace r) := by
  obtain ⟨width, hcommand⟩ := includeCommand_commandText hname quoted r
  refine ⟨len + f.content.length - width, ?_⟩
  rw [gather_skip hnul (noneBegins_command ha quoted name r), gather, hcommand]
  simp only [hf, List.append_nil]

/-! ## Templates that are not broken -/

section Sources

variable {files : TplFiles} {t : TplSource} {behind : List UInt8}

theorem behindBrace_of_head {s : List UInt8} (h : s.head? ≠ some rightBrace) :
    behindBrace s = s := if_neg h

/-- The loop comes behind a template with its expansion, whatever is behind it. -/
theorem gather_unbroken (hof : t.Of files) (hnul : nul ∉ t.text) (h : t.Unbroken behind) :
    ∃ k, ∀ n len front, ∃ len', gather files (n + k) len front (t.text ++ behind) =
      gather files n len' (front ++ t.expand) behind := by
  induction t generalizing behind with
  | last plain => exact ⟨0, fun n len front => ⟨len, gather_skip hnul h n len front⟩⟩
  | command plain quoted name content rest ihcontent ihrest =>
      obtain ⟨hplain, hname, ⟨f, hf, hftext⟩, hcontent, hrest⟩ := hof
      obtain ⟨hbrace, hin, hbehind⟩ := h
      rw [TplSource.text, List.mem_append, List.mem_append, not_or, not_or] at hnul
      obtain ⟨k₁, hk₁⟩ := ihcontent hcontent (hftext ▸ f.noNul) hin
      obtain ⟨k₂, hk₂⟩ := ihrest hrest hnul.2.2 hbehind
      have hleft : (if quoted then rest.text ++ behind else behindBrace (rest.text ++ behind)) =
          rest.text ++ behind := by
        split_ifs with hquoted
        · rfl
        · exact behindBrace_of_head (hbrace.resolve_left hquoted)
      refine ⟨k₂ + k₁ + 1, fun n len front => ?_⟩
      obtain ⟨len₁, h₁⟩ := gather_command (r := rest.text ++ behind) hnul.1 hplain hname hf quoted
        (n + k₂ + k₁) len front
      obtain ⟨len₂, h₂⟩ := hk₁ (n + k₂) len₁ (front ++ plain)
      obtain ⟨len₃, h₃⟩ := hk₂ n len₂ (front ++ plain ++ content.expand)
      refine ⟨len₃, ?_⟩
      have htext : (TplSource.command plain quoted name content rest).text ++ behind =
          plain ++ (commandText quoted name ++ (rest.text ++ behind)) := by
        simp [TplSource.text]
      have hexpand : front ++ (TplSource.command plain quoted name content rest).expand =
          front ++ plain ++ content.expand ++ rest.expand := by
        simp [TplSource.expand]
      have hsteps : n + (k₂ + k₁ + 1) = n + k₂ + k₁ + 1 := by omega
      rw [htext, hsteps, h₁, hleft, hftext, h₂, h₃, hexpand]

/-- At the end of the text. -/
theorem gather_nil (files : TplFiles) (n len : Nat) (front : List UInt8) :
    gather files (n + 1) len front [] = .ok front len := by
  have hnone : includeCommand [] = none := rfl
  rw [gather, hnone, List.append_nil]

theorem gathers_of_unbroken {f : TplFile} (hof : t.Of files) (htext : t.text = f.content)
    (h : t.Unbroken []) : Gathers files f t.expand := by
  obtain ⟨k, hk⟩ := gather_unbroken hof (htext ▸ f.noNul) h
  obtain ⟨len, hlen⟩ := hk 1 f.content.length []
  rw [List.append_nil, htext, gather_nil, List.nil_append] at hlen
  have hlength := gather_len hlen (by simp)
  refine ⟨1 + k, ?_⟩
  rw [hlen, hlength]

/-! ## Braces that are passed over -/

/-- A text begins with a number of closing braces. -/
def Braces (d : Nat) (s : List UInt8) : Prop := List.replicate d rightBrace <+: s

theorem Braces.of_append {d : Nat} {s r : List UInt8} (h : Braces d (s ++ r)) :
    Braces (d - s.length) r := by
  obtain ⟨x, hx⟩ := h
  refine ⟨x.drop (s.length - d), ?_⟩
  have hdrop := congrArg (List.drop s.length) hx
  rw [List.drop_left, List.drop_append, List.drop_replicate, List.length_replicate] at hdrop
  exact hdrop

theorem Braces.add {d e : Nat} {s : List UInt8} (hd : Braces d s) (he : Braces e (s.drop d)) :
    Braces (d + e) s := by
  obtain ⟨x, rfl⟩ := hd
  have hdrop : (List.replicate d rightBrace ++ x).drop d = x := by
    simp
  rw [hdrop] at he
  obtain ⟨y, rfl⟩ := he
  refine ⟨y, ?_⟩
  rw [List.replicate_add, List.append_assoc]

/-- The braces end before a command. -/
theorem Braces.le_length {d : Nat} {a name r : List UInt8} {quoted : Bool}
    (h : Braces d (a ++ (commandText quoted name ++ r))) : d ≤ a.length := by
  by_contra hlt
  have hbraces := h.of_append
  obtain ⟨n, hn⟩ : ∃ n, d - a.length = n + 1 := ⟨d - a.length - 1, by omega⟩
  obtain ⟨x, hx⟩ := hbraces
  rw [hn] at hx
  have hhead := congrArg List.head? hx
  have hcommand : (commandText quoted name ++ r).head? = some leftBrace := rfl
  rw [hcommand] at hhead
  exact absurd (Option.some.inj hhead) (by decide)

/-- The brace behind a command without quotes is passed over with it. -/
theorem exists_swallowed (quoted : Bool) (r : List UInt8) :
    ∃ d ≤ 1, (if quoted then r else behindBrace r) = r.drop d ∧ Braces d r ∧
      (d = 0 ↔ quoted = true ∨ r.head? ≠ some rightBrace) := by
  by_cases h : quoted = true ∨ r.head? ≠ some rightBrace
  · refine ⟨0, Nat.zero_le 1, ?_, List.nil_prefix, by simp [h]⟩
    split_ifs with hquoted
    · rfl
    · exact behindBrace_of_head (h.resolve_left hquoted)
  · rw [not_or, not_not] at h
    obtain ⟨r, rfl⟩ := List.head?_eq_some_iff.1 h.2
    refine ⟨1, le_refl 1, ?_, ⟨r, rfl⟩, by simp [h.1]⟩
    rw [if_neg h.1, behindBrace, if_pos h.2]

/-- No included text ends with the begin of a command. -/
def TplSource.Whole : TplSource → Prop
  | .last plain => NoPartial plain
  | .command _ _ _ content rest => content.Whole ∧ rest.Whole

theorem NoPartial.of_suffix {s t : List UInt8} (h : NoPartial t) (hs : s <:+ t) : NoPartial s :=
  fun p hp hne hsuffix => h p hp hne (hsuffix.trans hs)

theorem TplSource.whole_of_files (hfiles : ∀ file f, files file = some f → NoPartial f.content)
    (hof : t.Of files) (ht : NoPartial t.text) : t.Whole := by
  induction t with
  | last plain => exact ht
  | command plain quoted name content rest ihcontent ihrest =>
      obtain ⟨-, -, ⟨f, hf, hftext⟩, hcontent, hrest⟩ := hof
      refine ⟨ihcontent hcontent ?_, ihrest hrest (ht.of_suffix ?_)⟩
      · rw [← hftext]
        exact hfiles name f hf
      · exact (List.suffix_append _ _).trans (List.suffix_append _ _)

/-- Behind `d` braces that have been passed over the loop comes behind the template, with
fewer bytes than its expansion has as soon as one more brace has been passed over. -/
theorem gather_whole (hof : t.Of files) (hwhole : t.Whole) (hnul : nul ∉ t.text) {d : Nat}
    (hd : Braces d (t.text ++ behind)) :
    ∃ k out e, (∀ n len front, ∃ len', gather files (n + k) len front ((t.text ++ behind).drop d) =
        gather files n len' (front ++ out) (behind.drop e)) ∧ Braces e behind ∧
      out.length + d ≤ t.expand.length + e ∧
      (d = 0 → (¬t.Unbroken behind ∨ 0 < e) → out.length < t.expand.length + e) := by
  induction t generalizing behind d with
  | last plain =>
      have hbegins : ∀ r, NoneBegins (plain.drop d) r := fun r =>
        noneBegins_of_noPartial (not_infix_of_suffix (List.drop_suffix d plain) hof)
          (hwhole.of_suffix (List.drop_suffix d plain)) r
      have hnul' : nul ∉ plain.drop d := fun hmem => hnul (List.mem_of_mem_drop hmem)
      refine ⟨0, plain.drop d, d - plain.length, fun n len front => ⟨len, ?_⟩, hd.of_append, ?_, ?_⟩
      · rw [TplSource.text, List.drop_append]
        exact gather_skip hnul' (hbegins _) n len front
      · rw [List.length_drop, TplSource.expand]
        omega
      · rintro rfl (hbroken | hpos)
        · exact absurd (hbegins behind) hbroken
        · omega
  | command plain quoted name content rest ihcontent ihrest =>
      obtain ⟨hplain, hname, ⟨f, hf, hftext⟩, hcontent, hrest⟩ := hof
      rw [TplSource.text, List.mem_append, List.mem_append, not_or, not_or] at hnul
      have htext : (TplSource.command plain quoted name content rest).text ++ behind =
          plain ++ (commandText quoted name ++ (rest.text ++ behind)) := by
        simp [TplSource.text]
      rw [htext] at hd ⊢
      have hle := hd.le_length
      obtain ⟨s, hs, hleft, hsbraces, hszero⟩ := exists_swallowed quoted (rest.text ++ behind)
      -- the included text, and what is left of the braces behind it
      have hnone : Braces 0 (content.text ++ (rest.text ++ behind).drop s) := List.nil_prefix
      obtain ⟨k₁, out₁, e₁, hk₁, hbraces₁, hle₁, hlt₁⟩ :=
        ihcontent hcontent hwhole.1 (hftext ▸ f.noNul) hnone
      obtain ⟨k₂, out₂, e₂, hk₂, hbraces₂, hle₂, hlt₂⟩ :=
        ihrest hrest hwhole.2 hnul.2.2 (hsbraces.add hbraces₁)
      refine ⟨k₂ + k₁ + 1, plain.drop d ++ (out₁ ++ out₂), e₂, fun n len front => ?_, hbraces₂,
        ?_, ?_⟩
      · obtain ⟨len₁, h₁⟩ := gather_command (r := rest.text ++ behind)
          (fun hmem => hnul.1 (List.mem_of_mem_drop hmem))
          (not_infix_of_suffix (List.drop_suffix d plain) hplain) hname hf quoted
          (n + k₂ + k₁) len front
        obtain ⟨len₂, h₂⟩ := hk₁ (n + k₂) len₁ (front ++ plain.drop d)
        obtain ⟨len₃, h₃⟩ := hk₂ n len₂ (front ++ plain.drop d ++ out₁)
        refine ⟨len₃, ?_⟩
        have hsteps : n + (k₂ + k₁ + 1) = n + k₂ + k₁ + 1 := by omega
        rw [List.drop_zero] at h₂
        rw [List.drop_append_of_le_length hle, hsteps, h₁, hleft, hftext, h₂, List.drop_drop, h₃]
        simp
      · simp only [List.length_append, List.length_drop, TplSource.expand]
        omega
      · rintro rfl hbroken
        have hlt₁' := hlt₁ rfl
        simp only [List.length_append, List.length_drop, TplSource.expand]
        by_cases hzero : s = 0
        · subst hzero
          rw [List.drop_zero] at hlt₁'
          by_cases hin : ¬content.Unbroken (rest.text ++ behind) ∨ 0 < e₁
          · have hlt := hlt₁' hin
            omega
          · rw [not_or, not_not] at hin
            have he₁ : e₁ = 0 := by omega
            have hbrace := hszero.1 rfl
            have hlt := hlt₂ (by omega) (hbroken.imp (fun hnot hrest => hnot ⟨hbrace, hin.1, hrest⟩) id)
            omega
        · omega

/-- Where no text ends with the begin of a command, the expansion is gathered only from a
template that is not broken. -/
theorem unbroken_of_gathers {f : TplFile} (hof : t.Of files) (hwhole : t.Whole)
    (htext : t.text = f.content) (h : Gathers files f t.expand) : t.Unbroken [] := by
  by_contra hbroken
  have hnone : Braces 0 (t.text ++ []) := List.nil_prefix
  obtain ⟨k, out, e, hk, hbraces, -, hlt⟩ := gather_whole hof hwhole (htext ▸ f.noNul) hnone
  obtain ⟨len, hlen⟩ := hk 1 f.content.length []
  have he : e = 0 := by
    have hlength := List.IsPrefix.length_le hbraces
    rw [List.length_replicate] at hlength
    exact Nat.le_zero.1 hlength
  rw [List.append_nil, List.drop_zero, List.drop_nil, htext, gather_nil, List.nil_append] at hlen
  obtain ⟨n, hn⟩ := h
  have hmax := gather_mono hn (max n (1 + k)) (le_max_left _ _)
  have hmax' := gather_mono hlen (max n (1 + k)) (le_max_right _ _)
  have hsame := (Gathered.ok.inj (hmax.symm.trans hmax')).1
  have hshort := hlt rfl (.inl hbroken)
  rw [he, ← hsame] at hshort
  exact absurd hshort (Nat.lt_irrefl _)

end Sources

/-- Formed files have an expansion. It is gathered if the template is not broken, and
where no file ends with the begin of a command, only then. -/
theorem gathers_iff_unbroken {files : TplFiles} (hformed : IncludesFormed files)
    {file : List UInt8} {f : TplFile} (hf : files file = some f) :
    (∃ t : TplSource, t.Of files ∧ t.text = f.content) ∧
      ∀ t : TplSource, t.Of files → t.text = f.content →
        (t.Unbroken [] → Gathers files f t.expand) ∧
        ((∀ name g, files name = some g → NoPartial g.content) →
          (Gathers files f t.expand ↔ t.Unbroken [])) := by
  refine ⟨exists_source hformed hf, fun t hof htext => ⟨gathers_of_unbroken hof htext, ?_⟩⟩
  intro hfiles
  have hwhole := t.whole_of_files hfiles hof (htext ▸ hfiles file f hf)
  exact ⟨unbroken_of_gathers hof hwhole htext, gathers_of_unbroken hof htext⟩

/-- A page with two commands, and a part. -/
def twicePages : TplFiles := fun file =>
  if file = ascii "page" then
    some ⟨ascii "\x7binclude part\x7d,\x7binclude \"part\"\x7d\x7d", 1, by decide +kernel⟩
  else if file = ascii "part" then some ⟨ascii "b", 1, by decide +kernel⟩
  else none

/-- A page with a brace behind the brace of a command, and a part. -/
def bracePages : TplFiles := fun file =>
  if file = ascii "page" then some ⟨ascii "\x7binclude part\x7d\x7d", 1, by decide +kernel⟩
  else if file = ascii "part" then some ⟨ascii "b", 1, by decide +kernel⟩
  else none

theorem IncludeForm.mono {named named' : List UInt8 → Prop} {s : List UInt8}
    (h : IncludeForm named s) (hnamed : ∀ name, named name → named' name) :
    IncludeForm named' s := by
  induction h with
  | last ht => exact .last ht
  | command ha hname hn _ ihb => exact .command ha hname (hnamed _ hn) ihb

theorem includeName_part : IncludeName (ascii "part") := by
  refine ⟨?_, ?_, ?_⟩ <;> decide

/-- A page that includes nothing but a part, and a part that includes nothing. -/
theorem includesFormed_of_page {files : TplFiles} (hpart : (files (ascii "part")).isSome = true)
    (hfiles : ∀ file f, files file = some f →
      file = ascii "page" ∧ IncludeForm (fun name => name = ascii "part") f.content ∨
        ¬cmdInclude <:+: f.content) : IncludesFormed files := by
  let below := fun name file : List UInt8 => name = ascii "part" ∧ file = ascii "page"
  have hbelow : ∀ {name file}, below name file →
      (if name = ascii "page" then 1 else 0) < (if file = ascii "page" then 1 else 0) := by
    rintro name file ⟨rfl, rfl⟩
    decide
  refine ⟨below, Subrelation.wf hbelow (measure fun file => if file = ascii "page" then 1 else 0).wf,
    fun file f hf => ?_⟩
  rcases hfiles file f hf with ⟨rfl, hform⟩ | hplain
  · refine hform.mono ?_
    rintro name rfl
    exact ⟨⟨rfl, rfl⟩, hpart⟩
  · exact .last hplain

/-- Two commands, the second in quotes with a brace behind it. -/
theorem gathers_twicePages :
    ∃ f, twicePages (ascii "page") = some f ∧ Gathers twicePages f (ascii "b,b\x7d") := by
  have hplain : ¬cmdInclude <:+: ascii "b" ∧ ¬cmdInclude <:+: ascii "," ∧
      ¬cmdInclude <:+: ascii "\x7d" := by decide +kernel
  have hformed : IncludesFormed twicePages := by
    refine includesFormed_of_page (by decide +kernel) fun file f hf => ?_
    unfold twicePages at hf
    split_ifs at hf with hpage hpart
    · refine .inl ⟨hpage, ?_⟩
      have hform : IncludeForm (fun name => name = ascii "part")
          ([] ++ (commandText false (ascii "part") ++
            (ascii "," ++ (commandText true (ascii "part") ++ ascii "\x7d")))) :=
        .command (by decide +kernel) includeName_part rfl
          (.command hplain.2.1 includeName_part rfl (.last hplain.2.2))
      have htext : f.content = [] ++ (commandText false (ascii "part") ++
          (ascii "," ++ (commandText true (ascii "part") ++ ascii "\x7d"))) := by
        rw [← Option.some.inj hf]
        decide +kernel
      rw [htext]
      exact hform
    · rw [← Option.some.inj hf]
      exact .inr hplain.1
  obtain ⟨f, hf, htext⟩ : ∃ f, twicePages (ascii "page") = some f ∧
      f.content = ascii "\x7binclude part\x7d,\x7binclude \"part\"\x7d\x7d" :=
    ⟨_, rfl, rfl⟩
  obtain ⟨g, hg, hgtext⟩ : ∃ g, twicePages (ascii "part") = some g ∧ g.content = ascii "b" :=
    ⟨⟨ascii "b", 1, by decide +kernel⟩, by decide +kernel, rfl⟩
  let t : TplSource := .command [] false (ascii "part") (.last (ascii "b"))
    (.command (ascii ",") true (ascii "part") (.last (ascii "b")) (.last (ascii "\x7d")))
  have hof : t.Of twicePages :=
    ⟨by decide +kernel, includeName_part, ⟨g, hg, hgtext⟩, hplain.1,
      hplain.2.1, includeName_part, ⟨g, hg, hgtext⟩, hplain.1, hplain.2.2⟩
  have htree : t.text = f.content := by
    rw [htext]
    decide +kernel
  have hunbroken : t.Unbroken [] := by
    have hbegins : NoneBegins (ascii "b") (ascii ",\x7binclude \"part\"\x7d\x7d") ∧
        NoneBegins (ascii "b") (ascii "\x7d") ∧ NoneBegins (ascii "\x7d") [] := by
      decide +kernel
    exact ⟨.inr (by decide +kernel), hbegins.1, .inl rfl, hbegins.2.1, hbegins.2.2⟩
  exact ⟨f, hf, (((gathers_iff_unbroken hformed hf).2 t hof htree).1 hunbroken)⟩

/-- Formed files are gathered into their expansion. -/
def IncludesExpand : Prop :=
  ∀ files, IncludesFormed files → ∀ file f, files file = some f →
    ∀ t : TplSource, t.Of files → t.text = f.content → Gathers files f t.expand

/-- A brace behind the brace of a command without quotes is lost. -/
theorem not_includesExpand_brace : ¬IncludesExpand := by
  intro h
  have hplain : ¬cmdInclude <:+: ascii "b" ∧ ¬cmdInclude <:+: ascii "\x7d" := by decide +kernel
  have hformed : IncludesFormed bracePages := by
    refine includesFormed_of_page (by decide +kernel) fun file f hf => ?_
    unfold bracePages at hf
    split_ifs at hf with hpage hpart
    · refine .inl ⟨hpage, ?_⟩
      have hform : IncludeForm (fun name => name = ascii "part")
          ([] ++ (commandText false (ascii "part") ++ ascii "\x7d")) :=
        .command (by decide +kernel) includeName_part rfl (.last hplain.2)
      have htext : f.content = [] ++ (commandText false (ascii "part") ++ ascii "\x7d") := by
        rw [← Option.some.inj hf]
        decide +kernel
      rw [htext]
      exact hform
    · rw [← Option.some.inj hf]
      exact .inr hplain.1
  obtain ⟨f, hf, htext, hlost⟩ : ∃ f, bracePages (ascii "page") = some f ∧
      f.content = ascii "\x7binclude part\x7d\x7d" ∧
      gather bracePages 2 f.content.length [] f.content = .ok (ascii "b") 1 :=
    ⟨_, rfl, rfl, by decide +kernel⟩
  obtain ⟨g, hg, hgtext⟩ : ∃ g, bracePages (ascii "part") = some g ∧ g.content = ascii "b" :=
    ⟨⟨ascii "b", 1, by decide +kernel⟩, by decide +kernel, rfl⟩
  let t : TplSource :=
    .command [] false (ascii "part") (.last (ascii "b")) (.last (ascii "\x7d"))
  have hof : t.Of bracePages :=
    ⟨by decide +kernel, includeName_part, ⟨g, hg, hgtext⟩, hplain.1, hplain.2⟩
  have htree : t.text = f.content := by
    rw [htext]
    decide +kernel
  obtain ⟨n, hn⟩ := h bracePages hformed (ascii "page") f hf t hof htree
  have hmax := gather_mono hn (max n 2) (le_max_left _ _)
  have hmax' := gather_mono hlost (max n 2) (le_max_right _ _)
  have hsame := (Gathered.ok.inj (hmax.symm.trans hmax')).1
  exact absurd hsame (by decide +kernel)

end OpenTube
