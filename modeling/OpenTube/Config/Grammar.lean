import OpenTube.Config.Document
import OpenTube.Config.Numbers

/-!
# The grammar of configurations

`server.conf` documents the syntax of configurations: settings with a name, a separator
and a value, groups in braces, comments of three kinds, and a command that includes a
file. `Written` says of a text that it is a configuration with a given document. Blanks
and comments stand between any two tokens, and semicolons behind a value, a group or a
command, in any number.

`lex` is a scan of a text that knows only strings, comments and braces. A text of the
grammar closes all of them, and nothing is closed that was not opened.
-/

namespace OpenTube

/-! ## Blanks and comments -/

/-- The begin of a comment up to the end of the line. -/
def LineMark (o : List UInt8) : Prop := o = [hash] ∨ o = [slash, slash]

/-- A comment that is closed: up to the end of the line, or in `/*` and `*/`. -/
inductive Comment : List UInt8 → Prop
  | line {o t} (ho : LineMark o) (ht : lf ∉ t) : Comment (o ++ (t ++ [lf]))
  | block {t} (ht : ¬[star, slash] <:+: t) : Comment (slash :: star :: (t ++ [star, slash]))

/-- Blanks and comments. At the end of a text the last comment may be without its
newline. -/
inductive Gap : Bool → List UInt8 → Prop
  | nil {last} : Gap last []
  | blank {last c w} (hc : configBlank c = true) (hw : Gap last w) : Gap last (c :: w)
  | comment {last c w} (hc : Comment c) (hw : Gap last w) : Gap last (c ++ w)
  | lastLine {o t} (ho : LineMark o) (ht : lf ∉ t) : Gap true (o ++ t)

theorem Gap.toLast {w : List UInt8} (h : Gap false w) : Gap true w := by
  generalize hlast : false = last at h
  induction h with
  | nil => exact .nil
  | blank hc _ ih => exact .blank hc (ih hlast)
  | comment hc _ ih => exact .comment hc (ih hlast)
  | lastLine _ _ => exact absurd hlast Bool.false_ne_true

theorem Gap.append {last : Bool} {v w : List UInt8} (hv : Gap false v) (hw : Gap last w) :
    Gap last (v ++ w) := by
  generalize hfalse : false = inner at hv
  induction hv with
  | nil => exact hw
  | blank hc _ ih => exact .blank hc (ih hfalse)
  | comment hc _ ih =>
      rw [List.append_assoc]
      exact .comment hc (ih hfalse)
  | lastLine _ _ => exact absurd hfalse Bool.false_ne_true

/-! ## Texts of documents -/

/-- A value that is not a group, and its text. A number is read as `strtoll` and
`strtod` read it. -/
inductive ValueText : DocValue → List UInt8 → Prop
  | string {t} (ht : quote ∉ t) : ValueText (.string t) (quote :: (t ++ [quote]))
  | bool {b word t} (hb : b = false ∧ word = ascii "false" ∨ b = true ∧ word = ascii "true")
      (ht : t.map toLower = word) : ValueText (.bool b) t
  | number {value c m rest} (hc : isDigit c = true) (hm : ∀ d ∈ c :: m, isNumberByte d = true)
      (hread : readNumber (c :: (m ++ rest)) = (value, rest)) : ValueText value (c :: m)

/-- The text of a setting up to its value. -/
def SettingHead (name head : List UInt8) : Prop :=
  ∃ g g₁ sep g₂, Gap false g ∧ Gap false g₁ ∧ Gap false g₂ ∧ SettingName name ∧
    (sep = colon ∨ sep = equals) ∧ head = g ++ (name ++ (g₁ ++ sep :: g₂))

/-- Semicolons behind a setting. -/
inductive Tail : List UInt8 → Prop
  | nil : Tail []
  | semicolon {g w} (hg : Gap false g) (hw : Tail w) : Tail (g ++ semicolon :: w)

/-- The texts of a document, of a whole file or between the braces of a group. The file
that a command names has to be one of its document. -/
inductive Written (files : ConfigFiles) : Bool → ConfigDoc → List UInt8 → Prop
  | nil {last w} (hw : Gap last w) : Written files last .nil w
  | scalar {last name value next head text tail rest} (hhead : SettingHead name head)
      (hvalue : ValueText value text) (htail : Tail tail) (hnext : Written files last next rest) :
      Written files last (.setting name value .nil next) (head ++ (text ++ (tail ++ rest)))
  | group {last name childs next head body tail rest} (hhead : SettingHead name head)
      (hchilds : Written files false childs body) (htail : Tail tail)
      (hnext : Written files last next rest) :
      Written files last (.setting name .group childs next)
        (head ++ leftBrace :: (body ++ rightBrace :: (tail ++ rest)))
  | included {last file childs next g word g' content tail rest} (hg : Gap false g)
      (hword : word.map toLower = ascii "include") (hg' : Gap false g') (hfile : quote ∉ file)
      (hload : loadIncluded files file = .ok content) (hchilds : Written files true childs content)
      (htail : Tail tail) (hnext : Written files last next rest) :
      Written files last (.included file childs next)
        (g ++ atSign :: (word ++ (g' ++ quote :: (file ++ quote :: (tail ++ rest)))))

/-- The files that are included, in the order of the document. -/
def ConfigDoc.files : ConfigDoc → List (List UInt8)
  | nil => []
  | setting _ _ childs next => childs.files ++ next.files
  | included file childs next => file :: (childs.files ++ next.files)

/-! ## Strings, comments and braces -/

/-- What a scan of a text is in: between tokens, in a comment up to the end of the line,
at the star that opens a comment, in a comment, at the slash that closes it, or in a
string. -/
inductive LexMode
  | code
  | line
  | opening
  | block
  | closing
  | string
deriving DecidableEq, Repr

/-- A scan of a text with the number of braces that are open. It fails at a brace that
closes nothing, and, if it is strict, at a comment whose text begins with a slash. -/
def lex (strict : Bool) : LexMode → Nat → List UInt8 → Option (LexMode × Nat)
  | mode, d, [] => some (mode, d)
  | mode, d, c :: m =>
      match mode with
      | .code =>
          if c = hash ∨ c = slash ∧ m.head? = some slash then lex strict .line d m
          else if c = slash ∧ m.head? = some star then lex strict .opening d m
          else if c = quote then lex strict .string d m
          else if c = leftBrace then lex strict .code (d + 1) m
          else if c = rightBrace then if d = 0 then none else lex strict .code (d - 1) m
          else lex strict .code d m
      | .line => lex strict (if c = lf then .code else .line) d m
      | .opening =>
          if strict = true ∧ m.head? = some slash then none else lex strict .block d m
      | .block => lex strict (if c = star ∧ m.head? = some slash then .closing else .block) d m
      | .closing => lex strict .code d m
      | .string => lex strict (if c = quote then .code else .string) d m

/-- What is open when the rest of a text begins is closed in it: `d` braces, and the
string or the comment of the mode. -/
def LexMode.Closes (strict : Bool) (mode : LexMode) (d : Nat) (s : List UInt8) : Prop :=
  lex strict mode d s = some (.code, 0) ∨ lex strict mode d s = some (.line, 0)

/-- The braces, the strings and the comments of a text are balanced. -/
abbrev Balances (strict : Bool) (text : List UInt8) : Prop := LexMode.code.Closes strict 0 text

/-- A byte that is no brace and begins no string and no comment. -/
def isPlain (c : UInt8) : Bool :=
  c ≠ hash && c ≠ slash && c ≠ quote && c ≠ leftBrace && c ≠ rightBrace

section Lex

variable {strict : Bool} {d : Nat}

theorem lex_plain {t : List UInt8} (ht : ∀ c ∈ t, isPlain c = true) (r : List UInt8) :
    lex strict .code d (t ++ r) = lex strict .code d r := by
  induction t with
  | nil => rfl
  | cons c t ih =>
      obtain ⟨hc, ht⟩ := List.forall_mem_cons.1 ht
      simp only [isPlain, Bool.and_eq_true, decide_eq_true_eq] at hc
      obtain ⟨⟨⟨⟨hhash, hslash⟩, hquote⟩, hleft⟩, hright⟩ := hc
      simp only [List.cons_append, lex, hhash, hslash, hquote, hleft, hright, false_and, or_false,
        if_false, ih ht]

theorem lex_plain_cons {c : UInt8} (hc : isPlain c = true) (r : List UInt8) :
    lex strict .code d (c :: r) = lex strict .code d r :=
  lex_plain (t := [c]) (by simpa using hc) r

/-- Blanks, names, numbers and letters in either case have nothing that is special. -/
theorem isPlain_of_kind : ∀ c : UInt8,
    configBlank c = true ∨ configValidNameSymbol c = true ∨ isNumberByte c = true ∨
      isLower c = true ∨ isPlain (toLower c) = true → isPlain c = true :=
  forall_byte (by decide)

theorem isPlain_of_blank {c : UInt8} (h : configBlank c = true) : isPlain c = true :=
  isPlain_of_kind c (.inl h)

theorem lex_line {t : List UInt8} (ht : lf ∉ t) (r : List UInt8) :
    lex strict .line d (t ++ r) = lex strict .line d r := by
  induction t with
  | nil => rfl
  | cons c t ih =>
      rw [List.mem_cons, not_or] at ht
      simp only [List.cons_append, lex, if_neg (Ne.symm ht.1), ih ht.2]

theorem lex_string {t : List UInt8} (ht : quote ∉ t) (r : List UInt8) :
    lex strict .code d (quote :: (t ++ quote :: r)) = lex strict .code d r := by
  have hinner : lex strict .string d (t ++ quote :: r) = lex strict .code d r := by
    induction t with
    | nil => simp only [List.nil_append, lex, if_true]
    | cons c t ih =>
        rw [List.mem_cons, not_or] at ht
        simp only [List.cons_append, lex, if_neg (Ne.symm ht.1), ih ht.2]
  have hhash : quote ≠ hash := by decide
  have hslash : quote ≠ slash := by decide
  simp only [lex, hhash, hslash, false_and, or_false, if_false, if_true, hinner]

theorem lex_lineMark {o : List UInt8} (ho : LineMark o) (r : List UInt8) :
    lex strict .code d (o ++ r) = lex strict .line d r := by
  have hslash : slash ≠ lf := by decide
  rcases ho with rfl | rfl
  · simp only [List.cons_append, List.nil_append, lex, true_or, if_true]
  · simp only [List.cons_append, List.nil_append, lex, List.head?_cons, and_self, or_true, if_true,
      if_neg hslash]

theorem lex_block {t : List UInt8} (ht : ¬[star, slash] <:+: t) (r : List UInt8) :
    lex strict .block d (t ++ star :: slash :: r) = lex strict .code d r := by
  induction t with
  | nil => simp only [List.nil_append, lex, List.head?_cons, and_self, if_true]
  | cons c t ih =>
      rw [List.infix_cons_iff, not_or] at ht
      have hnot : ¬(c = star ∧ (t ++ star :: slash :: r).head? = some slash) := by
        rintro ⟨rfl, hhead⟩
        cases t with
        | nil => exact absurd (Option.some.inj hhead) (by decide)
        | cons e t =>
            obtain rfl : e = slash := Option.some.inj hhead
            exact ht.1 ⟨t, rfl⟩
      simp only [List.cons_append, lex, if_neg hnot, ih ht.2]

theorem lex_comment {c : List UInt8} (hc : Comment c) (r : List UInt8) :
    lex false .code d (c ++ r) = lex false .code d r := by
  cases hc with
  | line ho ht =>
      rw [List.append_assoc, lex_lineMark ho, List.append_assoc, lex_line ht]
      simp only [List.cons_append, List.nil_append, lex, if_true]
  | @block t ht =>
      have hslash : slash ≠ hash := by decide
      have hstar : star ≠ slash := by decide
      simp only [List.cons_append, List.append_assoc, List.nil_append, lex, hslash, List.head?_cons,
        Option.some.injEq, hstar, and_false, or_false, if_false, true_and, if_true, Bool.false_eq_true,
        false_and, lex_block ht]

theorem lex_gap {w : List UInt8} (hw : Gap false w) (r : List UInt8) :
    lex false .code d (w ++ r) = lex false .code d r := by
  have hgap : ∃ last, last = false ∧ Gap last w := ⟨false, rfl, hw⟩
  clear hw
  obtain ⟨last, hlast, hw⟩ := hgap
  induction hw with
  | nil => rfl
  | blank hc _ ih => rw [List.cons_append, lex_plain_cons (isPlain_of_blank hc), ih hlast]
  | comment hc _ ih => rw [List.append_assoc, lex_comment hc, ih hlast]
  | lastLine _ _ => exact absurd hlast.symm Bool.false_ne_true

end Lex

/-! ## Texts of the grammar are balanced -/

theorem isPlain_of_name {c : UInt8} (h : configValidNameSymbol c = true) : isPlain c = true :=
  isPlain_of_kind c (.inr (.inl h))

theorem isPlain_of_number {c : UInt8} (h : isNumberByte c = true) : isPlain c = true :=
  isPlain_of_kind c (.inr (.inr (.inl h)))

/-- The words that are looked for. -/
theorem isPlain_words : ∀ word ∈ [ascii "false", ascii "true", ascii "include"],
    ∀ c ∈ word, isPlain c = true := fun word hword c hc =>
  isPlain_of_kind c (.inr (.inr (.inr (.inl ((words_lower word hword).2.2 c hc)))))

/-- The case of a letter makes no difference. -/
theorem isPlain_word {word t : List UInt8} (hword : ∀ c ∈ word, isPlain c = true)
    (ht : t.map toLower = word) : ∀ c ∈ t, isPlain c = true := by
  intro c hc
  exact isPlain_of_kind c (.inr (.inr (.inr (.inr (hword _ (ht ▸ List.mem_map_of_mem hc))))))

theorem lex_head {name head : List UInt8} {d : Nat} (h : SettingHead name head) (r : List UInt8) :
    lex false .code d (head ++ r) = lex false .code d r := by
  obtain ⟨g, g₁, sep, g₂, hg, hg₁, hg₂, hname, hsep, rfl⟩ := h
  have hplain : isPlain sep = true := by rcases hsep with rfl | rfl <;> decide
  rw [List.append_assoc, lex_gap hg, List.append_assoc, lex_plain (fun c hc =>
    isPlain_of_name (hname.2 c hc)), List.append_assoc, lex_gap hg₁, List.cons_append,
    lex_plain_cons hplain, lex_gap hg₂]

theorem lex_value {value : DocValue} {text : List UInt8} {d : Nat} (h : ValueText value text)
    (r : List UInt8) : lex false .code d (text ++ r) = lex false .code d r := by
  cases h with
  | string ht =>
      rw [List.cons_append, List.append_assoc]
      exact lex_string ht r
  | bool hb ht =>
      refine lex_plain (isPlain_word ?_ ht) r
      rcases hb with ⟨-, rfl⟩ | ⟨-, rfl⟩
      · exact isPlain_words _ (by simp)
      · exact isPlain_words _ (by simp)
  | number _ hm _ => exact lex_plain (fun c hc => isPlain_of_number (hm c hc)) r

theorem lex_tail {tail : List UInt8} {d : Nat} (h : Tail tail) (r : List UInt8) :
    lex false .code d (tail ++ r) = lex false .code d r := by
  induction h with
  | nil => rfl
  | semicolon hg _ ih =>
      rw [List.append_assoc, lex_gap hg, List.cons_append, lex_plain_cons (by decide), ih]

theorem lex_leftBrace {strict : Bool} {d : Nat} (r : List UInt8) :
    lex strict .code d (leftBrace :: r) = lex strict .code (d + 1) r := by
  have hhash : leftBrace ≠ hash := by decide
  have hslash : leftBrace ≠ slash := by decide
  have hquote : leftBrace ≠ quote := by decide
  simp only [lex, hhash, hslash, hquote, false_and, or_false, if_false, if_true]

theorem lex_rightBrace {strict : Bool} {d : Nat} (r : List UInt8) :
    lex strict .code d (rightBrace :: r) = if d = 0 then none else lex strict .code (d - 1) r := by
  have hhash : rightBrace ≠ hash := by decide
  have hslash : rightBrace ≠ slash := by decide
  have hquote : rightBrace ≠ quote := by decide
  have hleft : rightBrace ≠ leftBrace := by decide
  simp only [lex, hhash, hslash, hquote, hleft, false_and, or_false, if_false, if_true]

/-- A text of the grammar leaves the braces as they were; a whole file may end in a
comment. -/
theorem Written.scan {files : ConfigFiles} {last : Bool} {doc : ConfigDoc} {w : List UInt8}
    (h : Written files last doc w) (d : Nat) {r : List UInt8} (hr : last = true → r = []) :
    lex false .code d (w ++ r) = lex false .code d r ∨
      last = true ∧ lex false .code d (w ++ r) = some (.line, d) := by
  induction h generalizing d r with
  | @nil last w hw =>
      induction hw with
      | nil => exact .inl rfl
      | blank hc _ ih =>
          rw [List.cons_append, lex_plain_cons (isPlain_of_blank hc)]
          exact ih hr
      | comment hc _ ih =>
          rw [List.append_assoc, lex_comment hc]
          exact ih hr
      | @lastLine o t ho ht =>
          right
          rw [hr rfl, List.append_nil, lex_lineMark ho]
          have hline := @lex_line false d _ ht []
          rw [List.append_nil] at hline
          exact ⟨rfl, hline⟩
  | scalar hhead hvalue htail _ ih =>
      rw [List.append_assoc, lex_head hhead, List.append_assoc, lex_value hvalue, List.append_assoc,
        lex_tail htail]
      exact ih d hr
  | group hhead _ htail _ ihchilds ih =>
      rw [List.append_assoc, lex_head hhead, List.cons_append, lex_leftBrace, List.append_assoc,
        (ihchilds (d + 1) (fun hlast => absurd hlast Bool.false_ne_true)).resolve_right
          (fun hlast => absurd hlast.1 Bool.false_ne_true),
        List.cons_append, lex_rightBrace, if_neg (Nat.succ_ne_zero d), Nat.add_sub_cancel,
        List.append_assoc, lex_tail htail]
      exact ih d hr
  | included hg hword hg' hfile _ _ htail _ _ ih =>
      rw [List.append_assoc, lex_gap hg, List.cons_append, lex_plain_cons (by decide),
        List.append_assoc, lex_plain (isPlain_word (isPlain_words _ (by simp)) hword),
        List.append_assoc, lex_gap hg', List.cons_append, List.append_assoc, List.cons_append, lex_string hfile,
        List.append_assoc, lex_tail htail]
      exact ih d hr

/-- A file of the grammar is balanced, and so are the files it includes. -/
theorem Written.balances {files : ConfigFiles} {doc : ConfigDoc} {w : List UInt8}
    (h : Written files true doc w) : Balances false w := by
  have hscan := h.scan 0 (r := []) fun _ => rfl
  rw [List.append_nil] at hscan
  rcases hscan with hscan | ⟨-, hscan⟩
  · exact .inl hscan
  · exact .inr hscan

theorem Written.balances_files {files : ConfigFiles} {last : Bool} {doc : ConfigDoc}
    {w : List UInt8} (h : Written files last doc w) :
    ∀ file ∈ doc.files, ∀ text, files file = some text → Balances false text := by
  induction h with
  | nil _ => exact fun file hfile => absurd hfile List.not_mem_nil
  | scalar _ _ _ _ ih =>
      intro file hfile
      exact ih file (by simpa [ConfigDoc.files] using hfile)
  | group _ _ _ _ ihchilds ih =>
      intro file hfile
      rcases List.mem_append.1 hfile with hfile | hfile
      · exact ihchilds file hfile
      · exact ih file hfile
  | included _ _ _ _ hload hchilds _ _ ihchilds ih =>
      intro file hfile text htext
      rcases List.mem_cons.1 hfile with rfl | hfile
      · have hcontent := (loadIncluded_eq_ok hload).1
        rw [htext, Option.some.injEq] at hcontent
        rw [hcontent]
        exact hchilds.balances
      · rcases List.mem_append.1 hfile with hfile | hfile
        · exact ihchilds file hfile text htext
        · exact ih file hfile text htext

end OpenTube
