import Mathlib.Data.Nat.Digits.Lemmas
import OpenTube.Config.Parser

/-!
# Printed configurations

A configuration is a tree of named values. It is printed in the syntax that
`server.conf` documents, with any blanks between the tokens, so a tree has many
texts. Every one of them is read back by `config_read` as the same tree: the
names and the strings of the tree it builds are places in the text, which has
been overwritten by then, so the tree is compared with the text that is left.
-/

namespace OpenTube

/-! ## Trees -/

/-- A value that is not a group. -/
inductive ConfigScalar
  | string (s : List UInt8)
  | bool (b : Bool)
  | int (n : Nat)
deriving DecidableEq, Repr

/-- The settings of a group, in order. -/
inductive ConfigTree
  | nil
  | scalar (name : List UInt8) (value : ConfigScalar) (next : ConfigTree)
  | group (name : List UInt8) (childs next : ConfigTree)
deriving DecidableEq, Repr

/-- The names of the settings of a group. -/
def ConfigTree.names : ConfigTree → List (List UInt8)
  | nil => []
  | scalar name _ next => name :: next.names
  | group name _ next => name :: next.names

/-- The values that can be printed: a string has no quote, and an integer is at
most `LLONG_MAX`. -/
def ConfigScalar.WellFormed : ConfigScalar → Prop
  | string s => ∀ c ∈ s, configValidSymbol c = true ∧ c ≠ quote
  | bool _ => True
  | int n => n ≤ llongMax

/-- A name of a setting. -/
def SettingName (name : List UInt8) : Prop :=
  name ≠ [] ∧ ∀ c ∈ name, configValidNameSymbol c = true

/-- The names of each group are names of settings and distinct, and the values can
be printed. -/
def ConfigTree.WellFormed : ConfigTree → Prop
  | nil => True
  | scalar name value next =>
      SettingName name ∧ name ∉ next.names ∧ value.WellFormed ∧ next.WellFormed
  | group name childs next =>
      SettingName name ∧ name ∉ next.names ∧ childs.WellFormed ∧ next.WellFormed

instance ConfigScalar.instDecidableWellFormed : (v : ConfigScalar) → Decidable v.WellFormed
  | string s => inferInstanceAs (Decidable (∀ c ∈ s, configValidSymbol c = true ∧ c ≠ quote))
  | bool _ => isTrue trivial
  | int n => inferInstanceAs (Decidable (n ≤ llongMax))

instance (name : List UInt8) : Decidable (SettingName name) :=
  inferInstanceAs (Decidable (name ≠ [] ∧ ∀ c ∈ name, configValidNameSymbol c = true))

instance ConfigTree.instDecidableWellFormed : (t : ConfigTree) → Decidable t.WellFormed
  | nil => isTrue trivial
  | scalar name value next =>
      have := instDecidableWellFormed next
      inferInstanceAs (Decidable
        (SettingName name ∧ name ∉ next.names ∧ value.WellFormed ∧ next.WellFormed))
  | group name childs next =>
      have := instDecidableWellFormed childs
      have := instDecidableWellFormed next
      inferInstanceAs (Decidable
        (SettingName name ∧ name ∉ next.names ∧ childs.WellFormed ∧ next.WellFormed))

/-- A configuration that is not empty. -/
structure Configuration where
  tree : ConfigTree
  nonempty : tree ≠ .nil
  wellFormed : tree.WellFormed

/-! ## Printing -/

/-- The digits of a number in decimal notation. -/
def decimal (n : Nat) : List UInt8 :=
  if n = 0 then [48] else (Nat.digits 10 n).reverse.map fun d => (48 + d).toUInt8

/-- The text of a value. -/
def ConfigScalar.text : ConfigScalar → List UInt8
  | string s => quote :: (s ++ [quote])
  | bool b => if b then ascii "true" else ascii "false"
  | int n => decimal n

/-- Blanks and newlines, in any number. -/
def Blanks (w : List UInt8) : Prop := ∀ c ∈ w, configBlank c = true

/-- The texts of the settings of a group: `name = value;` with `{` and `}` around
the settings of a group, and blanks between the tokens. The separator may be a
colon, and a semicolon may stand behind a group. -/
inductive ConfigTree.Prints : ConfigTree → List UInt8 → Prop
  | nil : Prints .nil []
  | scalar {name value next text w₁ w₂ w₃ w₄ sep} (hsep : sep = colon ∨ sep = equals)
      (h₁ : Blanks w₁) (h₂ : Blanks w₂) (h₃ : Blanks w₃) (h₄ : Blanks w₄)
      (hnext : Prints next text) :
      Prints (.scalar name value next)
        (name ++ (w₁ ++ sep :: (w₂ ++ (value.text ++ (w₃ ++ semicolon :: (w₄ ++ text))))))
  | group {name childs next inner text w₁ w₂ w₃ w₄ w₅ sep semi}
      (hsep : sep = colon ∨ sep = equals) (hsemi : semi = [] ∨ semi = [semicolon])
      (h₁ : Blanks w₁) (h₂ : Blanks w₂) (h₃ : Blanks w₃) (h₄ : Blanks w₄) (h₅ : Blanks w₅)
      (hchilds : Prints childs inner) (hnext : Prints next text) :
      Prints (.group name childs next)
        (name ++ (w₁ ++ sep :: (w₂ ++ leftBrace :: (w₃ ++ (inner ++
          rightBrace :: (w₄ ++ (semi ++ (w₅ ++ text))))))))

/-- The texts of a configuration: its settings, with blanks before the first. -/
def Configuration.Prints (c : Configuration) (text : List UInt8) : Prop :=
  ∃ w body, Blanks w ∧ c.tree.Prints body ∧ text = w ++ body

/-! ## What a tree of settings denotes -/

/-- The bytes of a `str_t` in a text. -/
def Span.read (buffer : List UInt8) (s : Span) : List UInt8 := (buffer.drop s.pos).take s.len

/-- A `str_t` is this string, and a `NUL` follows it. -/
def Span.Holds (buffer : List UInt8) (s : Span) (t : List UInt8) : Prop :=
  s.read buffer = t ∧ buffer[s.pos + s.len]? = some nul

/-- The value of a setting is of the right type, `CONFIG_TYPE_INT64` for the
integers above `INT_MAX`. -/
def ConfigValue.Denotes (buffer : List UInt8) : ConfigValue → ConfigScalar → Prop
  | string s, .string t => s.Holds buffer t
  | bool b, .bool b' => b = b'
  | int n, .int m => n = m ∧ m ≤ intMax
  | int64 n, .int m => n = m ∧ intMax < m
  | _, _ => False

/-- The settings have the names, the order, the nesting and the values of a tree. -/
def ConfigSettings.Denotes (buffer : List UInt8) : ConfigSettings → ConfigTree → Prop
  | nil, .nil => True
  | cons (some s) _ value nil next, .scalar name v tree =>
      s.Holds buffer name ∧ value.Denotes buffer v ∧ next.Denotes buffer tree
  | cons (some s) _ value childs next, .group name inner tree =>
      s.Holds buffer name ∧ value = .group ∧ childs.Denotes buffer inner ∧
        next.Denotes buffer tree
  | _, _ => False

/-- The steps that reading a tree takes. -/
def ConfigTree.steps : ConfigTree → Nat
  | nil => 1
  | scalar _ _ next => next.steps + 1
  | group _ childs next => childs.steps + next.steps + 1

/-! ## Blanks and tokens -/

theorem configBlank_ne {c : UInt8} (h : configBlank c = true) :
    c ≠ nul ∧ c ≠ hash ∧ c ≠ slash ∧ c ≠ semicolon := by
  have hall : ∀ c : UInt8, configBlank c = true → c ≠ nul ∧ c ≠ hash ∧ c ≠ slash ∧ c ≠ semicolon :=
    forall_byte (by decide)
  exact hall c h

/-- A place at which no blank and no comment begins. -/
def AtToken (s : List UInt8) : Prop :=
  ∃ c m, s = c :: m ∧ configBlank c = false ∧ c ≠ hash ∧ c ≠ slash

theorem atToken_cons {c : UInt8} (m : List UInt8) (hblank : configBlank c = false)
    (hhash : c ≠ hash) (hslash : c ≠ slash) : AtToken (c :: m) :=
  ⟨c, m, rfl, hblank, hhash, hslash⟩

theorem jumpToNonspace_blanks {w s : List UInt8} (hw : Blanks w) (hs : AtToken s) :
    jumpToNonspace .blank (w ++ s) = (w, s) := by
  induction w with
  | nil =>
      obtain ⟨c, m, rfl, hblank, hhash, hslash⟩ := hs
      simp [jumpToNonspace, hblank, hhash, hslash]
  | cons c w ih =>
      have hc := hw c List.mem_cons_self
      obtain ⟨hnul, hhash, hslash, -⟩ := configBlank_ne hc
      have hrest := ih fun d hd => hw d (List.mem_cons_of_mem c hd)
      simp [jumpToNonspace, hnul, hhash, hslash, hc, hrest]

theorem Place.jump_blanks {w s : List UInt8} (done : List UInt8) (hw : Blanks w)
    (hs : AtToken s) : Place.jump (done, w ++ s) = (done ++ w, s) := by
  simp [Place.jump, jumpToNonspace_blanks hw hs]

/-- Blanks before a setting make no difference. -/
theorem parseChilds_blanks {files : ConfigFiles} {n : Nat} {root : Bool}
    {chain : List (List UInt8)} {names : List Span} {w s : List UInt8} (done : List UInt8)
    (hw : Blanks w) (hs : AtToken s) :
    parseChilds files (n + 1) root chain names (done, w ++ s) =
      parseChilds files (n + 1) root chain names (done ++ w, s) := by
  cases w with
  | nil => simp
  | cons c w =>
      have hnul := (configBlank_ne (hw c List.mem_cons_self)).1
      have hstay : Place.jump (done ++ c :: w, s) = (done ++ c :: w, s) := by
        simpa using Place.jump_blanks (done ++ c :: w) (w := []) (by simp [Blanks]) hs
      rw [parseChilds, parseChilds, Place.jump_blanks done hw hs, hstay]
      simp only [List.cons_append, List.head?_cons, Option.some.injEq, hnul, if_false, ite_self]

/-! ## Names -/

theorem configBlank_eq_false_of_name {c : UInt8} (h : configValidNameSymbol c = true) :
    configBlank c = false ∧ c ≠ hash ∧ c ≠ slash := by
  have hall : ∀ c : UInt8, configValidNameSymbol c = true →
      configBlank c = false ∧ c ≠ hash ∧ c ≠ slash := forall_byte (by decide)
  exact hall c h

theorem SettingName.atToken {name : List UInt8} (h : SettingName name) (s : List UInt8) :
    AtToken (name ++ s) := by
  obtain ⟨hne, hvalid⟩ := h
  cases name with
  | nil => exact absurd rfl hne
  | cons c m =>
      obtain ⟨hblank, hhash, hslash⟩ := configBlank_eq_false_of_name (hvalid c List.mem_cons_self)
      exact atToken_cons _ hblank hhash hslash

/-- The names that were read are not names of the tree. -/
def Unused (done : List UInt8) (names : List Span) (tree : ConfigTree) : Prop :=
  ∀ s ∈ names, s.pos + s.len ≤ done.length ∧ s.read done ∉ tree.names

theorem Span.read_append {done : List UInt8} {s : Span} (h : s.pos + s.len ≤ done.length)
    (more : List UInt8) : s.read (done ++ more) = s.read done := by
  unfold Span.read
  rw [List.drop_append_of_le_length (by omega), List.take_append_of_le_length (by simp; omega)]

theorem Span.read_mid (done name more : List UInt8) :
    Span.read (done ++ (name ++ more)) ⟨done.length, name.length⟩ = name := by
  simp [Span.read]

/-- A string with a `NUL` behind it. -/
theorem Span.holds_mid (done name more : List UInt8) :
    Span.Holds (done ++ (name ++ nul :: more)) ⟨done.length, name.length⟩ name :=
  ⟨Span.read_mid _ _ _, by simp⟩

/-- The separator stands behind blanks, so the byte behind the name can be
overwritten. -/
theorem cut_sep (w : List UInt8) (sep : UInt8) : ∃ m, cut (w ++ [sep]) = nul :: m := by
  cases w with
  | nil => exact ⟨[], rfl⟩
  | cons c w => exact ⟨w ++ [sep], rfl⟩

theorem takeWhile_append_stop {p : UInt8 → Bool} {a s : List UInt8} (ha : ∀ c ∈ a, p c = true)
    (hs : ∀ c, s.head? = some c → p c = false) : (a ++ s).takeWhile p = a := by
  rw [List.takeWhile_append_of_pos ha]
  cases s with
  | nil => simp
  | cons c s => simp [hs c rfl]

/-- The name of a setting and its separator. -/
theorem parseName_print {name w₁ w₂ s done : List UInt8} {names : List Span} {sep : UInt8}
    (file : List UInt8) (hname : SettingName name) (hnames : ∀ s ∈ names, s.read done ≠ name)
    (hsep : sep = colon ∨ sep = equals) (h₁ : Blanks w₁) (h₂ : Blanks w₂) (hs : AtToken s) :
    Place.parseName file names (done, name ++ (w₁ ++ sep :: (w₂ ++ s))) =
      .ok (configLine done, ⟨done.length, name.length⟩,
        (done ++ (name ++ (cut (w₁ ++ [sep]) ++ w₂)), s)) := by
  have hsepTok : AtToken (sep :: (w₂ ++ s)) := by
    rcases hsep with rfl | rfl <;> exact atToken_cons _ (by decide) (by decide) (by decide)
  have hstop : ∀ c, (w₁ ++ sep :: (w₂ ++ s)).head? = some c → configValidNameSymbol c = false := by
    intro c hc
    cases w₁ with
    | nil =>
        obtain rfl : sep = c := by simpa using hc
        rcases hsep with rfl | rfl <;> decide
    | cons d w₁ =>
        obtain rfl : d = c := by simpa using hc
        by_contra hvalid
        have hblank := (configBlank_eq_false_of_name (by simpa using hvalid)).1
        simp [h₁ d List.mem_cons_self] at hblank
  have htake : (name ++ (w₁ ++ sep :: (w₂ ++ s))).takeWhile configValidNameSymbol = name :=
    takeWhile_append_stop hname.2 hstop
  have hq : Place.pass (done, name ++ (w₁ ++ sep :: (w₂ ++ s))) name.length =
      (done ++ name, w₁ ++ sep :: (w₂ ++ s)) := by
    simp [Place.pass]
  have hr : Place.jump (done ++ name, w₁ ++ sep :: (w₂ ++ s)) =
      (done ++ name ++ w₁, sep :: (w₂ ++ s)) := Place.jump_blanks _ h₁ hsepTok
  have hany : (names.any fun s => (done.drop s.pos).take s.len = name) = false := by
    simpa [Span.read] using hnames
  have hhead : (sep :: (w₂ ++ s)).head? = some colon ∨ (sep :: (w₂ ++ s)).head? = some equals := by
    simpa using hsep
  simp only [Place.parseName, htake, hq, hr, hany, if_neg hname.1, if_pos hhead]
  simp [Place.pass, Place.jump_blanks _ h₂ hs]

/-! ## Values -/

theorem isDigit_digit {d : Nat} (h : d < 10) :
    isDigit (48 + d).toUInt8 = true ∧ hexValue (48 + d).toUInt8 = some d := by
  interval_cases d <;> decide

theorem isDigit_of_mem_decimal {n : Nat} {c : UInt8} (hc : c ∈ decimal n) : isDigit c = true := by
  unfold decimal at hc
  split at hc
  · obtain rfl := List.mem_singleton.1 hc
    decide
  · simp only [List.mem_map, List.mem_reverse] at hc
    obtain ⟨d, hd, rfl⟩ := hc
    exact (isDigit_digit (Nat.digits_lt_base (by decide) hd)).1

theorem decimal_ne_nil (n : Nat) : decimal n ≠ [] := by
  unfold decimal
  split
  · simp
  · rename_i hn
    simpa [Nat.digits_eq_nil_iff_eq_zero] using hn

theorem numeral_decimal (n : Nat) : numeral 10 (decimal n) = n := by
  unfold decimal
  split
  · rename_i hn
    rw [hn]
    decide
  · have hfold : ∀ l : List Nat, (∀ d ∈ l, d < 10) →
        numeral 10 (l.reverse.map fun d => (48 + d).toUInt8) = Nat.ofDigits 10 l := by
      intro l
      induction l with
      | nil => intro _; rfl
      | cons d l ih =>
          intro hl
          have hd := (isDigit_digit (hl d List.mem_cons_self)).2
          have hrest := ih fun e he => hl e (List.mem_cons_of_mem d he)
          rw [numeral] at hrest
          rw [Nat.ofDigits_cons, ← hrest, numeral, List.reverse_cons, List.map_append,
            List.foldl_append, List.map_singleton, List.foldl_cons, List.foldl_nil, hd]
          simp [Nat.add_comm]
    rw [hfold _ fun d hd => Nat.digits_lt_base (by decide) hd, Nat.ofDigits_digits]

/-- A positive number does not begin with a zero. -/
theorem head?_decimal {n : Nat} (hn : n ≠ 0) : (decimal n).head? ≠ some 48 := by
  have hdigits : Nat.digits 10 n ≠ [] := by simpa [Nat.digits_eq_nil_iff_eq_zero] using hn
  have hlast := Nat.getLast_digit_ne_zero 10 hn
  have hlt := Nat.digits_lt_base (b := 10) (by decide) (List.getLast_mem hdigits)
  have hhex := (isDigit_digit hlt).2
  rw [decimal, if_neg hn, List.head?_map, List.head?_reverse, List.getLast?_eq_some_getLast hdigits]
  intro heq
  rw [Option.map_some, Option.some.injEq] at heq
  rw [heq] at hhex
  exact hlast (Option.some.inj (hhex.symm.trans (by decide)))

/-- What stands behind a value: a blank or the semicolon. -/
def AtEnd (s : List UInt8) : Prop :=
  ∃ c m, s = c :: m ∧ (configBlank c = true ∨ c = semicolon)

theorem atEnd_blanks {w : List UInt8} (hw : Blanks w) (s : List UInt8) :
    AtEnd (w ++ semicolon :: s) := by
  cases w with
  | nil => exact ⟨semicolon, s, rfl, .inr rfl⟩
  | cons c w => exact ⟨c, w ++ semicolon :: s, rfl, .inl (hw c List.mem_cons_self)⟩

theorem not_digit_of_end {c : UInt8} (h : configBlank c = true ∨ c = semicolon) :
    isDigitOf 10 c = false ∧ isDigitOf 8 c = false ∧ c ≠ dot ∧ c ≠ 120 ∧ c ≠ 88 := by
  have hall : ∀ c : UInt8, configBlank c = true ∨ c = semicolon →
      isDigitOf 10 c = false ∧ isDigitOf 8 c = false ∧ c ≠ dot ∧ c ≠ 120 ∧ c ≠ 88 :=
    forall_byte (by decide)
  exact hall c h

theorem isDigitOf_ten {c : UInt8} (h : isDigit c = true) : isDigitOf 10 c = true := by
  have hall : ∀ c : UInt8, isDigit c = true → isDigitOf 10 c = true :=
    forall_byte (by decide)
  exact hall c h

theorem numberBase_zero {s : List UInt8} (hs : AtEnd s) : numberBase (48 :: s) = (8, 48 :: s) := by
  obtain ⟨c, m, rfl, hc⟩ := hs
  obtain ⟨-, -, -, hx, hX⟩ := not_digit_of_end hc
  cases m with
  | nil => rfl
  | cons y m => simp [numberBase, hx, hX]

theorem numberBase_ten {s : List UInt8} (hs : s.head? ≠ some 48) : numberBase s = (10, s) := by
  unfold numberBase
  split
  · simp at hs
  · simp at hs
  · rfl

theorem strtoll_decimal {n : Nat} {s : List UInt8} (hn : n ≤ llongMax) (hs : AtEnd s) :
    strtoll (decimal n ++ s) = (n, s) := by
  have hend := hs
  obtain ⟨c, m, rfl, hc⟩ := hs
  obtain ⟨hten, height, -⟩ := not_digit_of_end hc
  by_cases hzero : n = 0
  · subst hzero
    have hdec : decimal 0 ++ c :: m = 48 :: c :: m := rfl
    have htake : (48 :: c :: m).takeWhile (isDigitOf 8) = [48] :=
      takeWhile_append_stop (a := [48]) (by decide +kernel) (by simp [height])
    rw [strtoll, hdec, numberBase_zero hend]
    simp only [htake]
    rfl
  · have hhead : (decimal n ++ c :: m).head? ≠ some 48 := by
      rw [List.head?_append_of_ne_nil _ (decimal_ne_nil n)]
      exact head?_decimal hzero
    have htake : (decimal n ++ c :: m).takeWhile (isDigitOf 10) = decimal n :=
      takeWhile_append_stop (fun d hd => isDigitOf_ten (isDigit_of_mem_decimal hd)) (by simp [hten])
    rw [strtoll, numberBase_ten hhead]
    simp only [htake, numeral_decimal, Nat.min_eq_left hn, List.drop_left]

theorem token_of_digit {c : UInt8} (h : isDigit c = true) :
    configBlank c = false ∧ c ≠ hash ∧ c ≠ slash ∧ c ≠ leftBrace ∧ c ≠ quote := by
  have hall : ∀ c : UInt8, isDigit c = true →
      configBlank c = false ∧ c ≠ hash ∧ c ≠ slash ∧ c ≠ leftBrace ∧ c ≠ quote :=
    forall_byte (by decide)
  exact hall c h

/-- The first character of a number. -/
theorem decimal_eq_cons (n : Nat) : ∃ c m, decimal n = c :: m ∧ isDigit c = true := by
  have hmem := fun c => @isDigit_of_mem_decimal n c
  have hne := decimal_ne_nil n
  cases hd : decimal n with
  | nil => exact absurd hd hne
  | cons c m => exact ⟨c, m, rfl, hmem c (by simp [hd])⟩

/-- A value begins a token, and not a group. -/
theorem ConfigScalar.atToken (v : ConfigScalar) (s : List UInt8) :
    AtToken (v.text ++ s) ∧ (v.text ++ s).head? ≠ some leftBrace := by
  cases v with
  | string t =>
      refine ⟨atToken_cons _ (by decide) (by decide) (by decide), ?_⟩
      rw [text, List.cons_append, List.head?_cons]
      decide
  | bool b =>
      cases b
      · refine ⟨atToken_cons (ascii "alse" ++ s) (c := 102) (by decide) (by decide) (by decide), ?_⟩
        change some (102 : UInt8) ≠ some leftBrace
        decide
      · refine ⟨atToken_cons (ascii "rue" ++ s) (c := 116) (by decide) (by decide) (by decide), ?_⟩
        change some (116 : UInt8) ≠ some leftBrace
        decide
  | int n =>
      obtain ⟨c, m, heq, hc⟩ := decimal_eq_cons n
      obtain ⟨hblank, hhash, hslash, hbrace, -⟩ := token_of_digit hc
      rw [text, heq]
      exact ⟨atToken_cons _ hblank hhash hslash, by simpa using hbrace⟩

theorem parseString_print {t : List UInt8} (file done s : List UInt8)
    (ht : (ConfigScalar.string t).WellFormed) :
    Place.parseString file (done, t ++ quote :: s) =
      .ok (⟨done.length, t.length⟩, (done ++ t ++ [nul], s)) := by
  have hplain : ∀ c ∈ t, (c ≠ nul && c ≠ quote) = true := by
    intro c hc
    have hnul : c ≠ nul := by
      rintro rfl
      exact absurd (ht _ hc).1 (by decide)
    simp [hnul, (ht c hc).2]
  have htake : (t ++ quote :: s).takeWhile (fun c => c ≠ nul && c ≠ quote) = t :=
    takeWhile_append_stop hplain (by simp)
  have hdrop : (t ++ quote :: s).drop (t.length + 1) = s := by
    simp [← List.drop_drop]
  simp only [Place.parseString, htake, hdrop, List.drop_left, List.head?_cons, if_true]

/-- A value that was printed is read back. -/
theorem parseScalar_print {v : ConfigScalar} {s : List UInt8} (file done : List UInt8)
    (hv : v.WellFormed) (hs : AtEnd s) :
    ∃ value region, (∀ more, value.Denotes (done ++ (region ++ more)) v) ∧
      Place.parseScalar file (done, v.text ++ s) = .ok (value, (done ++ region, s)) := by
  cases v with
  | string t =>
      refine ⟨.string ⟨(done ++ [quote]).length, t.length⟩, quote :: (t ++ [nul]),
        fun more => ?_, ?_⟩
      · have hbuffer : done ++ (quote :: (t ++ [nul]) ++ more) =
            done ++ [quote] ++ (t ++ nul :: more) := by simp
        rw [hbuffer]
        exact Span.holds_mid (done ++ [quote]) t more
      · have hpass : Place.pass (done, quote :: (t ++ quote :: s)) 1 =
            (done ++ [quote], t ++ quote :: s) := rfl
        simp [Place.parseScalar, ConfigScalar.text, hpass, parseString_print file _ s hv]
  | bool b =>
      refine ⟨.bool b, (ConfigScalar.bool b).text, fun _ => rfl, ?_⟩
      have hquote : (102 : UInt8) ≠ quote ∧ (116 : UInt8) ≠ quote := by decide
      cases b <;> simp [Place.parseScalar, ConfigScalar.text, Place.pass, beginsWith,
        ascii, isDigit,
        toLower, hquote]
  | int n =>
      obtain ⟨c, m, heq, hc⟩ := decimal_eq_cons n
      have hquote := (token_of_digit hc).2.2.2.2
      have hll := strtoll_decimal hv hs
      have hdot : s.head? ≠ some dot := by
        obtain ⟨d, m, rfl, hd⟩ := hs
        simpa using (not_digit_of_end hd).2.2.1
      have hint : Place.parseInt (done, decimal n ++ s) =
          (if intMax < n then .int64 n else .int n, (done ++ decimal n, s)) := by
        simp [Place.parseInt, hll, hdot, Place.pass]
      refine ⟨if intMax < n then .int64 n else .int n, decimal n, fun more => ?_, ?_⟩
      · split_ifs with hmax
        · exact ⟨rfl, hmax⟩
        · exact ⟨rfl, not_lt.1 hmax⟩
      · rw [ConfigScalar.text, ← hint]
        simp [Place.parseScalar, heq, hquote, hc]

/-! ## Semicolons -/

theorem semicolon_of_ne {p : Place} (h : p.2.head? ≠ some semicolon) : p.semicolon = p := by
  simp [Place.semicolon, h]

/-- Behind a value a semicolon is passed over. -/
theorem semicolon_scalar {w : List UInt8} (done s : List UInt8) (hw : Blanks w) :
    (Place.jump (done, w ++ semicolon :: s)).semicolon = (done ++ (w ++ [semicolon]), s) := by
  rw [Place.jump_blanks done hw (atToken_cons s (by decide) (by decide) (by decide))]
  simp [Place.semicolon, Place.pass]

/-- Behind a group a semicolon is passed over, if there is one. -/
theorem semicolon_group {w₄ w₅ semi s : List UInt8} (done : List UInt8)
    (hsemi : semi = [] ∨ semi = [semicolon]) (h₄ : Blanks w₄) (h₅ : Blanks w₅) (hs : AtToken s)
    (hhead : s.head? ≠ some semicolon) :
    ∃ u v, Blanks v ∧
      (Place.semicolon (done, w₄ ++ (semi ++ (w₅ ++ s)))).jump.semicolon = (done ++ u, v ++ s) := by
  have hblank : ∀ {w : List UInt8} (t : List UInt8), Blanks w → t.head? ≠ some semicolon →
      (w ++ t).head? ≠ some semicolon := by
    intro w t hw ht
    cases w with
    | nil => exact ht
    | cons c w => simpa using (configBlank_ne (hw c List.mem_cons_self)).2.2.2
  have hnone : Blanks [] := by simp [Blanks]
  rcases hsemi with rfl | rfl
  · refine ⟨w₄ ++ w₅, [], hnone, ?_⟩
    have hw : Blanks (w₄ ++ w₅) := by
      intro c hc
      rcases List.mem_append.1 hc with hc | hc
      · exact h₄ c hc
      · exact h₅ c hc
    rw [List.nil_append, ← List.append_assoc, semicolon_of_ne (p := (done, _)) (hblank s hw hhead),
      Place.jump_blanks done hw hs, semicolon_of_ne hhead, List.nil_append]
  · cases w₄ with
    | nil =>
        refine ⟨semicolon :: w₅, [], hnone, ?_⟩
        have hfirst : Place.semicolon (done, [] ++ ([semicolon] ++ (w₅ ++ s))) =
            (done ++ [semicolon], w₅ ++ s) := by
          simp [Place.semicolon, Place.pass]
        rw [hfirst, Place.jump_blanks _ h₅ hs, semicolon_of_ne hhead]
        simp
    | cons c w₄ =>
        refine ⟨c :: w₄ ++ [semicolon], w₅, h₅, ?_⟩
        have hc := (configBlank_ne (h₄ c List.mem_cons_self)).2.2.2
        rw [semicolon_of_ne (p := (done, _)) (by simpa using hc)]
        exact semicolon_scalar done (w₅ ++ s) h₄

/-! ## The settings of a group -/

/-- What ends the settings of a group: the `NUL` for the root, else the brace. -/
def Closes (root : Bool) (s : List UInt8) : Prop :=
  s.head? = some (if root then nul else rightBrace)

/-- The place behind the end of a group. -/
def Place.leave (root : Bool) (p : Place) : Place :=
  if root then p else (p.pass 1).semicolon

/-- What stands where the settings of a group go on: the name of the next one, or
the end of the group. -/
structure AtSetting (root : Bool) (s : List UInt8) : Prop where
  token : AtToken s
  semicolon : s.head? ≠ some semicolon
  nul : root = false → s.head? ≠ some nul

theorem SettingName.atSetting {name : List UInt8} (h : SettingName name) (root : Bool)
    (s : List UInt8) : AtSetting root (name ++ s) := by
  have hhead : ∀ c, (name ++ s).head? = some c → configValidNameSymbol c = true := by
    intro c hc
    rw [List.head?_append_of_ne_nil _ h.1] at hc
    exact h.2 c (List.mem_of_mem_head? hc)
  exact ⟨h.atToken s, fun heq => absurd (hhead _ heq) (by decide),
    fun _ heq => absurd (hhead _ heq) (by decide)⟩

theorem Closes.atSetting {root : Bool} {s : List UInt8} (h : Closes root s) : AtSetting root s := by
  cases s with
  | nil => simp [Closes] at h
  | cons c m =>
      obtain rfl : c = if root then OpenTube.nul else rightBrace := by simpa [Closes] using h
      cases root
      · exact ⟨atToken_cons m (by decide) (by decide) (by decide),
          fun heq => absurd (Option.some.inj heq) (by decide),
          fun _ heq => absurd (Option.some.inj heq) (by decide)⟩
      · exact ⟨atToken_cons m (by decide) (by decide) (by decide),
          fun heq => absurd (Option.some.inj heq) (by decide),
          fun hroot => absurd hroot (by decide)⟩

theorem ConfigTree.Prints.atSetting {tree : ConfigTree} {text rest : List UInt8} {root : Bool}
    (h : tree.Prints text) (hwf : tree.WellFormed) (hrest : Closes root rest) :
    AtSetting root (text ++ rest) := by
  cases h with
  | nil => exact hrest.atSetting
  | scalar =>
      rw [List.append_assoc]
      exact hwf.1.atSetting root _
  | group =>
      rw [List.append_assoc]
      exact hwf.1.atSetting root _

section ParseChilds

variable {files : ConfigFiles} {n : Nat} {root : Bool} {chain : List (List UInt8)}
  {names : List Span}

theorem parseChilds_close {s : List UInt8} (done : List UInt8) (hs : Closes root s) :
    parseChilds files (n + 1) root chain names (done, s) =
      .ok (.nil, Place.leave root (done, s)) := by
  have hstay : Place.jump (done, s) = (done, s) := by
    simpa using Place.jump_blanks done (w := []) (by simp [Blanks]) hs.atSetting.token
  have hbrace : rightBrace ≠ nul := by decide
  cases s with
  | nil => simp [Closes] at hs
  | cons c m =>
      obtain rfl : c = if root then nul else rightBrace := by simpa [Closes] using hs
      rw [parseChilds, hstay]
      cases root <;> simp [Place.leave, hbrace]

/-- A setting begins neither the end of the group nor a command. -/
theorem head_of_settingName {name : List UInt8} (h : SettingName name) :
    ∃ c m, name = c :: m ∧ c ≠ nul ∧ c ≠ rightBrace ∧ c ≠ atSign := by
  have hall : ∀ c : UInt8, configValidNameSymbol c = true →
      c ≠ nul ∧ c ≠ rightBrace ∧ c ≠ atSign := forall_byte (by decide)
  obtain ⟨hne, hvalid⟩ := h
  cases name with
  | nil => exact absurd rfl hne
  | cons c m => exact ⟨c, m, rfl, hall c (hvalid c List.mem_cons_self)⟩

variable {name s done : List UInt8} {line : Nat} {span : Span} {q r t : Place}
  {childs next : ConfigSettings} {value : ConfigValue}

/-- One round of the loop, for a value. -/
theorem parseChilds_scalar (hname : SettingName name)
    (hparse : Place.parseName (chain.headD []) names (done, name ++ s) = .ok (line, span, q))
    (hbrace : q.2.head? ≠ some leftBrace)
    (hvalue : q.parseScalar (chain.headD []) = .ok (value, r))
    (hnext : parseChilds files n root chain (names ++ [span]) r.jump.semicolon = .ok (next, t)) :
    parseChilds files (n + 1) root chain names (done, name ++ s) =
      .ok (.cons (some span) line value .nil next, t) := by
  have hstay : Place.jump (done, name ++ s) = (done, name ++ s) := by
    simpa using Place.jump_blanks done (w := []) (by simp [Blanks]) (hname.atToken s)
  obtain ⟨c, m, rfl, hnul, hright, hat⟩ := head_of_settingName hname
  rw [List.cons_append] at hparse hstay ⊢
  rw [List.headD_eq_head?_getD] at hparse hvalue
  rw [parseChilds]
  simp [hstay, hnul, hright, hat, hparse, ConfigResult.lift, hbrace, hvalue, hnext]

/-- One round of the loop, for a group. -/
theorem parseChilds_group (hname : SettingName name)
    (hparse : Place.parseName (chain.headD []) names (done, name ++ s) = .ok (line, span, q))
    (hbrace : q.2.head? = some leftBrace) (hnul : (q.pass 1).2.head? ≠ some nul)
    (hchilds : parseChilds files n false chain [] (q.pass 1) = .ok (childs, r))
    (hnext : parseChilds files n root chain (names ++ [span]) r.jump.semicolon = .ok (next, t)) :
    parseChilds files (n + 1) root chain names (done, name ++ s) =
      .ok (.cons (some span) line .group childs next, t) := by
  have hstay : Place.jump (done, name ++ s) = (done, name ++ s) := by
    simpa using Place.jump_blanks done (w := []) (by simp [Blanks]) (hname.atToken s)
  obtain ⟨c, m, rfl, hc, hright, hat⟩ := head_of_settingName hname
  rw [List.cons_append] at hparse hstay ⊢
  rw [List.headD_eq_head?_getD] at hparse
  rw [parseChilds]
  simp [hstay, hc, hright, hat, hparse, ConfigResult.lift, hbrace, hnul, hchilds, hnext]

end ParseChilds

/-- A name that was read is not used again by the settings behind it. -/
theorem Unused.next {done name : List UInt8} {names : List Span} {tree : ConfigTree}
    (h : Unused done names tree) (next : ConfigTree) (more : List UInt8)
    (htree : tree.names = name :: next.names)
    (hname : name ∉ next.names) :
    Unused (done ++ (name ++ more)) (names ++ [⟨done.length, name.length⟩]) next := by
  intro s hs
  rcases List.mem_append.1 hs with hs | hs
  · obtain ⟨hle, hread⟩ := h s hs
    rw [Span.read_append hle]
    refine ⟨by simp; omega, fun hmem => hread ?_⟩
    rw [htree]
    exact List.mem_cons_of_mem name hmem
  · obtain rfl := List.mem_singleton.1 hs
    rw [Span.read_mid]
    exact ⟨by simp, hname⟩

theorem Unused.append {done : List UInt8} {names : List Span} {tree : ConfigTree}
    (h : Unused done names tree) (w : List UInt8) : Unused (done ++ w) names tree := by
  intro s hs
  obtain ⟨hle, hread⟩ := h s hs
  rw [Span.read_append hle]
  exact ⟨by simp; omega, hread⟩

theorem Unused.ne {done : List UInt8} {names : List Span} {tree : ConfigTree}
    (h : Unused done names tree) (name : List UInt8) (hname : name ∈ tree.names) : ∀ s ∈ names,
    s.read done ≠ name := by
  rintro s hs rfl
  exact (h s hs).2 hname

/-- A text is read back as the settings of a group, with any blanks before it and
any names read before it. The region is what the parser leaves of the text. -/
def ReadBack (files : ConfigFiles) (tree : ConfigTree) (text : List UInt8) : Prop :=
  ∀ (root : Bool) (chain : List (List UInt8)) (names : List Span) (done w rest : List UInt8),
    Blanks w → Unused done names tree → Closes root rest →
    ∃ settings region, (∀ more, settings.Denotes (done ++ (region ++ more)) tree) ∧
      ∀ n, tree.steps ≤ n →
        parseChilds files n root chain names (done, w ++ (text ++ rest)) =
          .ok (settings, Place.leave root (done ++ region, rest))

section ReadBack

variable {files : ConfigFiles} {name text w₁ w₂ w₃ w₄ : List UInt8} {next : ConfigTree}
    {sep : UInt8}

theorem readBack_nil : ReadBack files .nil [] := by
  intro root chain names done w rest hw _ hrest
  refine ⟨.nil, w, fun _ => trivial, fun n hn => ?_⟩
  obtain ⟨n, rfl⟩ := Nat.exists_eq_add_of_le' hn
  rw [List.nil_append, ConfigTree.steps, parseChilds_blanks done hw hrest.atSetting.token,
    parseChilds_close _ hrest]

theorem readBack_scalar {value : ConfigScalar}
    (hwf : (ConfigTree.scalar name value next).WellFormed)
    (hsep : sep = colon ∨ sep = equals) (h₁ : Blanks w₁) (h₂ : Blanks w₂) (h₃ : Blanks w₃)
    (h₄ : Blanks w₄) (hread : ReadBack files next text) :
    ReadBack files (.scalar name value next)
      (name ++ (w₁ ++ sep :: (w₂ ++ (value.text ++ (w₃ ++ semicolon :: (w₄ ++ text)))))) := by
  intro root chain names done w rest hw hunused hrest
  obtain ⟨hname, hnew, hvalue, hwfnext⟩ := hwf
  have hblank := hunused.append w
  have hfresh := hblank.ne name (by simp [ConfigTree.names])
  obtain ⟨m, hcut⟩ := cut_sep w₁ sep
  -- the name, up to the value
  have htoken := value.atToken (w₃ ++ semicolon :: (w₄ ++ (text ++ rest)))
  have hparse := parseName_print (chain.headD []) hname hfresh hsep h₁ h₂ htoken.1
  -- the value, up to the semicolon
  obtain ⟨v, region, hv, hscalar⟩ := parseScalar_print (chain.headD [])
    (done ++ w ++ (name ++ (cut (w₁ ++ [sep]) ++ w₂))) hvalue
    (atEnd_blanks h₃ (w₄ ++ (text ++ rest)))
  have hsemi := semicolon_scalar (done ++ w ++ (name ++ (cut (w₁ ++ [sep]) ++ w₂)) ++ region)
    (w₄ ++ (text ++ rest)) h₃
  -- the settings behind it
  have hunused' := hblank.next next
    (cut (w₁ ++ [sep]) ++ w₂ ++ region ++ (w₃ ++ [semicolon])) rfl hnew
  obtain ⟨settings, region', hden, hrun⟩ := hread root chain _ _ w₄ rest h₄ hunused' hrest
  refine ⟨.cons (some ⟨(done ++ w).length, name.length⟩) (configLine (done ++ w)) v .nil settings,
    w ++ (name ++ (cut (w₁ ++ [sep]) ++ w₂ ++ region ++ (w₃ ++ [semicolon]))) ++ region',
    fun more => ⟨?_, ?_, ?_⟩, fun n hn => ?_⟩
  · have hholds := Span.holds_mid (done ++ w) name
      (m ++ w₂ ++ region ++ (w₃ ++ [semicolon]) ++ region' ++ more)
    simpa only [hcut, List.append_assoc, List.cons_append] using hholds
  · have hvalue := hv (w₃ ++ [semicolon] ++ region' ++ more)
    simpa only [List.append_assoc, List.cons_append] using hvalue
  · have hnext := hden more
    simpa only [List.append_assoc, List.cons_append] using hnext
  · obtain ⟨n, rfl⟩ : ∃ k, n = k + 1 := ⟨n - 1, by rw [ConfigTree.steps] at hn; omega⟩
    have hnext := hrun n (by rw [ConfigTree.steps] at hn; omega)
    simp only [List.append_assoc, List.cons_append] at hparse hscalar hsemi hnext ⊢
    rw [parseChilds_blanks done hw (hname.atToken _)]
    refine parseChilds_scalar hname hparse htoken.2 hscalar ?_
    rw [hsemi]
    exact hnext

theorem readBack_group {childs : ConfigTree} {inner w₅ semi : List UInt8}
    (hwf : (ConfigTree.group name childs next).WellFormed) (hsep : sep = colon ∨ sep = equals)
    (hsemi : semi = [] ∨ semi = [semicolon]) (h₁ : Blanks w₁) (h₂ : Blanks w₂) (h₃ : Blanks w₃)
    (h₄ : Blanks w₄) (h₅ : Blanks w₅) (hchilds : childs.Prints inner) (hnext : next.Prints text)
    (hreadChilds : ReadBack files childs inner) (hread : ReadBack files next text) :
    ReadBack files (.group name childs next)
      (name ++ (w₁ ++ sep :: (w₂ ++ leftBrace :: (w₃ ++ (inner ++
        rightBrace :: (w₄ ++ (semi ++ (w₅ ++ text)))))))) := by
  intro root chain names done w rest hw hunused hrest
  obtain ⟨hname, hnew, hwfchilds, hwfnext⟩ := hwf
  have hblank := hunused.append w
  have hfresh := hblank.ne name (by simp [ConfigTree.names])
  have hset := hnext.atSetting hwfnext hrest
  obtain ⟨m, hcut⟩ := cut_sep w₁ sep
  have hclose : Closes false (rightBrace :: (w₄ ++ (semi ++ (w₅ ++ (text ++ rest))))) := rfl
  -- the name, up to the brace
  have hparse := parseName_print (s := leftBrace :: (w₃ ++ (inner ++
    rightBrace :: (w₄ ++ (semi ++ (w₅ ++ (text ++ rest)))))))
      (chain.headD []) hname hfresh hsep h₁ h₂
    (atToken_cons _ (by decide) (by decide) (by decide))
  -- the settings of the group
  obtain ⟨settings, region, hden, hrun⟩ := hreadChilds false chain []
    (done ++ w ++ (name ++ (cut (w₁ ++ [sep]) ++ w₂)) ++ [leftBrace]) w₃ _ h₃
        (by simp [Unused]) hclose
  obtain ⟨u, v, hv, hsemi⟩ := semicolon_group
    (done ++ w ++ (name ++ (cut (w₁ ++ [sep]) ++ w₂)) ++ [leftBrace] ++ region ++ [rightBrace])
    hsemi
    h₄ h₅ hset.token hset.semicolon
  -- the settings behind it
  have hunused' := hblank.next next
    (cut (w₁ ++ [sep]) ++ w₂ ++ [leftBrace] ++ region ++ [rightBrace] ++ u) rfl hnew
  obtain ⟨settings', region', hden', hrun'⟩ := hread root chain _ _ v rest hv hunused' hrest
  refine ⟨.cons (some ⟨(done ++ w).length, name.length⟩) (configLine (done ++ w)) .group settings
      settings',
    w ++ (name ++ (cut (w₁ ++ [sep]) ++ w₂ ++ [leftBrace] ++ region ++
      [rightBrace] ++ u)) ++ region',
    fun more => ?_, fun n hn => ?_⟩
  · rw [ConfigSettings.Denotes]
    refine ⟨?_, rfl, ?_, ?_⟩
    · have hholds := Span.holds_mid (done ++ w) name
        (m ++ w₂ ++ [leftBrace] ++ region ++ [rightBrace] ++ u ++ region' ++ more)
      simpa only [hcut, List.append_assoc, List.cons_append] using hholds
    · have hinner := hden ([rightBrace] ++ u ++ region' ++ more)
      simpa only [List.append_assoc, List.cons_append] using hinner
    · have hbehind := hden' more
      simpa only [List.append_assoc, List.cons_append] using hbehind
  · obtain ⟨n, rfl⟩ : ∃ k, n = k + 1 := ⟨n - 1, by rw [ConfigTree.steps] at hn; omega⟩
    have hinner := hrun n (by rw [ConfigTree.steps] at hn; omega)
    have hbehind := hrun' n (by rw [ConfigTree.steps] at hn; omega)
    have hnul : (w₃ ++ (inner ++ rightBrace :: (w₄ ++ (semi ++ (w₅ ++ (text ++ rest)))))).head? ≠
        some nul := by
      cases w₃ with
      | nil => exact (hchilds.atSetting hwfchilds hclose).nul rfl
      | cons c w₃ => simpa using (configBlank_ne (h₃ c List.mem_cons_self)).1
    have hleave : ∀ s, Place.leave false (done ++ w ++ (name ++ (cut (w₁ ++ [sep]) ++ w₂)) ++
        [leftBrace] ++ region, rightBrace :: s) = Place.semicolon (done ++ w ++ (name ++
        (cut (w₁ ++ [sep]) ++ w₂)) ++ [leftBrace] ++ region ++ [rightBrace], s) := fun s => rfl
    rw [hleave] at hinner
    simp only [List.append_assoc, List.cons_append, List.nil_append]
      at hparse hinner hsemi hbehind ⊢
    rw [parseChilds_blanks done hw (hname.atToken _)]
    have hpass : Place.pass (done ++ (w ++ (name ++ (cut (w₁ ++ [sep]) ++ w₂))), leftBrace ::
        (w₃ ++ (inner ++ rightBrace :: (w₄ ++ (semi ++ (w₅ ++ (text ++ rest))))))) 1 =
        (done ++ (w ++ (name ++ (cut (w₁ ++ [sep]) ++ (w₂ ++ [leftBrace])))),
          w₃ ++ (inner ++ rightBrace :: (w₄ ++ (semi ++ (w₅ ++ (text ++ rest)))))) := by
      simp [Place.pass]
    rw [← hsemi] at hbehind
    exact parseChilds_group hname hparse rfl hnul (hpass ▸ hinner) hbehind

/-- The settings that are printed are read back. -/
theorem readBack_of_prints (files : ConfigFiles) {tree : ConfigTree} (hprint : tree.Prints text)
    (hwf : tree.WellFormed) : ReadBack files tree text := by
  induction hprint with
  | nil => exact readBack_nil
  | scalar hsep h₁ h₂ h₃ h₄ _ ih =>
      exact readBack_scalar hwf hsep h₁ h₂ h₃ h₄ (ih hwf.2.2.2)
  | group hsep hsemi h₁ h₂ h₃ h₄ h₅ hchilds hnext ihchilds ih =>
      exact readBack_group hwf hsep hsemi h₁ h₂ h₃ h₄ h₅ hchilds hnext (ihchilds hwf.2.2.1)
        (ih hwf.2.2.2)

end ReadBack

/-! ## The characters of a text -/

theorem configValidSymbol_of_blank {c : UInt8} (h : configBlank c = true) :
    configValidSymbol c = true := by
  simp only [configBlank, Bool.or_eq_true] at h
  simp only [configValidSymbol, Bool.or_eq_true]
  tauto

theorem configValidSymbol_of_name {c : UInt8} (h : configValidNameSymbol c = true) :
    configValidSymbol c = true := by
  have hall : ∀ c : UInt8, configValidNameSymbol c = true → configValidSymbol c = true :=
    forall_byte (by decide)
  exact hall c h

theorem configValidSymbol_of_digit {c : UInt8} (h : isDigit c = true) :
    configValidSymbol c = true := by
  apply configValidSymbol_of_name
  simp [configValidNameSymbol, isAlnum, h]

/-- A text whose characters are allowed. -/
abbrev TextFile (text : List UInt8) : Prop := ∀ c ∈ text, configValidSymbol c = true

theorem textFile_append {a b : List UInt8} : TextFile (a ++ b) ↔ TextFile a ∧ TextFile b :=
  List.forall_mem_append

theorem textFile_cons {c : UInt8} {a : List UInt8} :
    TextFile (c :: a) ↔ configValidSymbol c = true ∧ TextFile a :=
  List.forall_mem_cons

theorem Blanks.textFile {w : List UInt8} (h : Blanks w) : TextFile w :=
  fun c hc => configValidSymbol_of_blank (h c hc)

theorem ConfigScalar.textFile {v : ConfigScalar} (h : v.WellFormed) : TextFile v.text := by
  cases v with
  | string t =>
      rw [text, textFile_cons, textFile_append]
      exact ⟨by decide, fun c hc => (h c hc).1, by decide +kernel⟩
  | bool b => cases b <;> decide +kernel
  | int n => exact fun c hc => configValidSymbol_of_digit (isDigit_of_mem_decimal hc)

theorem ConfigTree.Prints.textFile {tree : ConfigTree} {text : List UInt8} (h : tree.Prints text)
    (hwf : tree.WellFormed) : TextFile text := by
  have hmark : configValidSymbol colon = true ∧ configValidSymbol equals = true ∧
      configValidSymbol semicolon = true ∧ configValidSymbol leftBrace = true ∧
      configValidSymbol rightBrace = true := by decide
  induction h with
  | nil => simp [TextFile]
  | scalar hsep h₁ h₂ h₃ h₄ _ ih =>
      obtain ⟨hname, -, hvalue, hnext⟩ := hwf
      have hsep := hsep.elim (fun heq => heq ▸ hmark.1) (fun heq => heq ▸ hmark.2.1)
      have hname : TextFile _ := fun c hc => configValidSymbol_of_name (hname.2 c hc)
      simp only [textFile_append, textFile_cons]
      exact ⟨hname, h₁.textFile, hsep, h₂.textFile, ConfigScalar.textFile hvalue, h₃.textFile,
        hmark.2.2.1, h₄.textFile, ih hnext⟩
  | @group _ _ _ _ _ _ _ _ _ _ _ semi hsep hsemi h₁ h₂ h₃ h₄ h₅ _ _ ihchilds ih =>
      obtain ⟨hname, -, hchilds, hnext⟩ := hwf
      have hsep := hsep.elim (fun heq => heq ▸ hmark.1) (fun heq => heq ▸ hmark.2.1)
      have hname : TextFile _ := fun c hc => configValidSymbol_of_name (hname.2 c hc)
      have hsemi : TextFile semi := by rcases hsemi with rfl | rfl <;> decide +kernel
      simp only [textFile_append, textFile_cons]
      exact ⟨hname, h₁.textFile, hsep, h₂.textFile, hmark.2.2.2.1, h₃.textFile, ihchilds hchilds,
        hmark.2.2.2.2, h₄.textFile, hsemi, h₅.textFile, ih hnext⟩

/-- `config_quick_validate` lets a text file pass. -/
theorem quickValidate_eq_none {text : List UInt8} (h : TextFile text) (file : List UInt8) :
    quickValidate file text = none := by
  have htake : text.takeWhile configValidSymbol = text := by
    simpa using takeWhile_append_stop (s := []) h (by simp)
  simp [quickValidate, htake]

/-! ## The round trip -/

/-- Every text of a configuration is read, and the tree that is built denotes the
configuration in the text that is left. -/
theorem configRead_prints (c : Configuration) {text : List UInt8} (h : c.Prints text)
    (files : ConfigFiles) (file : List UInt8) :
    ∃ settings buffer, settings.Denotes buffer c.tree ∧
      ∀ steps, c.tree.steps ≤ steps →
        configRead files steps file text = .ok (settings, buffer) := by
  obtain ⟨w, body, hw, hbody, rfl⟩ := h
  have htext : TextFile (w ++ body) :=
    textFile_append.2 ⟨hw.textFile, hbody.textFile c.wellFormed⟩
  obtain ⟨settings, region, hden, hrun⟩ := readBack_of_prints files hbody c.wellFormed
    true [file] [] [] w [nul, nul] hw (by simp [Unused]) rfl
  refine ⟨settings, region ++ [nul, nul], by simpa using hden [nul, nul], fun steps hsteps => ?_⟩
  rw [configRead, quickValidate_eq_none htext]
  simp only [List.append_assoc, hrun steps hsteps, ConfigResult.andThen_ok, Place.leave, if_true,
    List.nil_append]

/-- A group with a number, a string and a switch, and a large number behind it. -/
def sampleConfiguration : Configuration where
  tree := .group (ascii "server")
    (.scalar (ascii "port") (.int 8080) (.scalar (ascii "log-file") (.string (ascii "a b"))
      (.scalar (ascii "gzip") (.bool true) .nil)))
    (.scalar (ascii "size_max") (.int 5000000000) .nil)
  nonempty := by decide
  wellFormed := by decide +kernel

/-- A text of it. -/
def sampleConfigurationText : List UInt8 :=
  ascii "server:\n\x7b port = 8080 ;log-file=\"a b\"; gzip:true;\n\x7d;\n\nsize_max = 5000000000;\n"

theorem sampleConfiguration_prints : sampleConfiguration.Prints sampleConfigurationText := by
  have hnone : Blanks [] := by simp [Blanks]
  have hspace : Blanks [space] := by simp [Blanks, configBlank, isSpaceChar]
  have hline : Blanks [lf] := by simp [Blanks, configBlank, isSpaceChar]
  have hlines : Blanks [lf, lf] := by simp [Blanks, configBlank, isSpaceChar]
  have hgroup : sampleConfiguration.tree.Prints _ :=
    .group (.inl rfl) (.inr rfl) hnone hline hspace hnone hlines
      (.scalar (.inr rfl) hspace hspace hspace hnone
        (.scalar (.inr rfl) hnone hnone hnone hspace
          (.scalar (.inl rfl) hnone hnone hnone hline .nil)))
      (.scalar (.inr rfl) hspace hspace hnone hline .nil)
  exact ⟨[], _, hnone, hgroup, by decide⟩

/-- The round trip of a configuration. -/
theorem configRead_sampleConfiguration :
    ∃ settings buffer, settings.Denotes buffer sampleConfiguration.tree ∧
      ∀ steps, sampleConfiguration.tree.steps ≤ steps →
        configRead (fun _ => none) steps (ascii "server.conf") sampleConfigurationText =
          .ok (settings, buffer) :=
  configRead_prints sampleConfiguration sampleConfiguration_prints (fun _ => none)
    (ascii "server.conf")

end OpenTube
