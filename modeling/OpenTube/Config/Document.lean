import Mathlib.Data.List.TakeWhile
import OpenTube.Config.Print
import OpenTube.Config.Termination

/-!
# What a configuration says

A tree of settings holds places in texts that have been overwritten. `ConfigDoc` is the
tree that its users see: names, types and values, with a node for each file that was
included. `Reads` is the parser on the untouched rest of the text alone, without the
places: it builds such a tree, and it knows the names that are taken as texts.

The two agree: what `config_read` accepts is what `Reads` derives, and the tree
`config_read` builds shows the document that is derived.
-/

namespace OpenTube

/-! ## Documents -/

/-- The type of a setting with its value. -/
inductive DocValue
  | string (s : List UInt8)
  | bool (b : Bool)
  | int (n : Nat)
  | int64 (n : Nat)
  | float (text : List UInt8)
  | group
deriving DecidableEq, Repr

/-- The settings of a file or of a group, with a node for each included file. -/
inductive ConfigDoc
  | nil
  | setting (name : List UInt8) (value : DocValue) (childs next : ConfigDoc)
  | included (file : List UInt8) (childs next : ConfigDoc)
deriving DecidableEq, Repr

/-- A value as its users see it. -/
def ConfigValue.doc (buffer : List UInt8) : ConfigValue → DocValue
  | string s => .string (s.read buffer)
  | bool b => .bool b
  | int n => .int n
  | int64 n => .int64 n
  | float text => .float text
  | group => .group
  | included _ _ => .group

/-- A tree of settings as its users see it. -/
def ConfigSettings.doc (buffer : List UInt8) : ConfigSettings → ConfigDoc
  | nil => .nil
  | cons _ _ (.included file content) childs next =>
      .included file (childs.doc content) (next.doc buffer)
  | cons name _ value childs next =>
      .setting ((name.map (Span.read buffer)).getD []) (value.doc buffer) (childs.doc buffer)
        (next.doc buffer)

/-! ## Reading the rest of a text -/

/-- The text behind blanks and comments. -/
def afterBlanks (s : List UInt8) : List UInt8 := (jumpToNonspace .blank s).2

/-- The text behind a semicolon, if there is one. -/
def afterSemicolon (s : List UInt8) : List UInt8 :=
  if s.head? = some semicolon then s.tail else s

/-- The text at which a pass looks. -/
def atItem (s : List UInt8) : List UInt8 := if s.head? = some nul then s else afterBlanks s

/-- A number and the text behind it. -/
def readNumber (s : List UInt8) : DocValue × List UInt8 :=
  let e := Place.parseInt ([], s)
  (e.1.doc [], e.2.2)

/-- A value that is not a group, and the text behind it. -/
inductive ReadsScalar : List UInt8 → DocValue → List UInt8 → Prop
  | string {t r} (ht : ∀ c ∈ t, c ≠ nul ∧ c ≠ quote) :
      ReadsScalar (quote :: (t ++ quote :: r)) (.string t) r
  | number {c m} (hc : isDigit c = true) :
      ReadsScalar (c :: m) (readNumber (c :: m)).1 (readNumber (c :: m)).2
  | bool {b word s} (hb : b = false ∧ word = ascii "false" ∨ b = true ∧ word = ascii "true")
      (hs : beginsWith word s = true) : ReadsScalar s (.bool b) (s.drop word.length)

/-- The name of a setting, and the text from its value on. -/
def ReadsName (names : List (List UInt8)) (s name v : List UInt8) : Prop :=
  ∃ w sep m, s = name ++ w ∧ name ≠ [] ∧ s.takeWhile configValidNameSymbol = name ∧
    name ∉ names ∧ afterBlanks w = sep :: m ∧ (sep = colon ∨ sep = equals) ∧ v = afterBlanks m

/-- A command behind its `@`: the file it names and the text behind it. -/
def ReadsCommand (chain : List (List UInt8)) (s file r : List UInt8) : Prop :=
  beginsWith (ascii "include") s = true ∧ file ∉ chain ∧
    ∃ rest, afterBlanks (s.drop 7) = quote :: (file ++ quote :: rest) ∧
      (∀ c ∈ file, c ≠ nul ∧ c ≠ quote) ∧ r = afterSemicolon (afterBlanks rest)

/-- The value of a group: its type is set when its loop is entered. -/
def groupValue (inner : List UInt8) : DocValue :=
  if inner.head? = some nul then .string [] else .group

/-- `config_parse_childs` on the rest of a text, with the names that are taken: the
document and the text behind it. -/
inductive Reads (files : ConfigFiles) : Bool → List (List UInt8) → List (List UInt8) →
    List UInt8 → ConfigDoc → List UInt8 → Prop
  | finish {root chain names s} (hs : atItem s = [] ∨ (atItem s).head? = some nul) :
      Reads files root chain names s .nil (atItem s)
  | close {chain names s m} (hs : atItem s = rightBrace :: m) :
      Reads files false chain names s .nil (afterSemicolon m)
  | command {root chain names s m file r content childs u next t}
      (hs : atItem s = atSign :: m) (hcommand : ReadsCommand chain m file r)
      (hload : loadIncluded files file = .ok content)
      (hchilds : Reads files false (file :: chain) [] (content ++ [nul, nul]) childs u)
      (hnext : Reads files root chain names r next t) :
      Reads files root chain names s (.included file childs next) t
  | group {root chain names s name inner childs u next t}
      (hname : ReadsName names (atItem s) name (leftBrace :: inner))
      (hchilds : Reads files false chain [] inner childs u)
      (hnext : Reads files root chain (names ++ [name]) (afterSemicolon (afterBlanks u)) next t) :
      Reads files root chain names s (.setting name (groupValue inner) childs next) t
  | scalar {root chain names s name v value u next t} (hname : ReadsName names (atItem s) name v)
      (hvalue : ReadsScalar v value u)
      (hnext : Reads files root chain (names ++ [name]) (afterSemicolon (afterBlanks u)) next t) :
      Reads files root chain names s (.setting name value .nil next) t

/-! ## The pieces of a pass -/

namespace Place

@[simp] theorem jump_snd (p : Place) : p.jump.2 = afterBlanks p.2 := rfl

@[simp] theorem semicolon_snd (p : Place) : p.semicolon.2 = afterSemicolon p.2 := by
  unfold semicolon afterSemicolon
  split
  · exact List.drop_one
  · rfl

@[simp] theorem enter_snd (p : Place) : p.enter.2 = atItem p.2 := by
  unfold enter atItem
  split
  · rfl
  · rfl

end Place

/-- A string that lies before a place is not changed any more. -/
theorem Span.read_of_front {front T : List UInt8} {s : Span} (h : front <+: T)
    (hs : s.pos + s.len ≤ front.length) : s.read T = s.read front := by
  obtain ⟨more, rfl⟩ := h
  exact Span.read_append hs more

theorem parseInt_doc (p : Place) (T : List UInt8) :
    (p.parseInt.1.doc T, p.parseInt.2.2) = readNumber p.2 := by
  simp only [readNumber, Place.parseInt]
  split
  · rfl
  · split <;> rfl

theorem Place.readsScalar {p q : Place} {file T : List UInt8} {v : ConfigValue}
    (h : p.parseScalar file = .ok (v, q)) (hT : q.1 <+: T) : ReadsScalar p.2 (v.doc T) q.2 := by
  unfold Place.parseScalar at h
  split at h
  · exact absurd h (by simp)
  · rename_i c m hp
    split_ifs at h with hquote hdigit hfalse htrue
    · split at h
      · rename_i s r hstring
        obtain ⟨t, rest, hrest, ht, rfl, rfl⟩ := Place.parseString_eq_ok_iff.1 hstring
        simp only [Except.ok.injEq, Prod.mk.injEq] at h
        obtain ⟨rfl, rfl⟩ := h
        have hread : Span.read T ⟨(p.pass 1).1.length, t.length⟩ = t := by
          rw [Span.read_of_front hT (by simp)]
          rw [List.append_assoc]
          exact Span.read_mid (p.pass 1).1 t [nul]
        have htail : m = t ++ quote :: rest := by
          rw [← hrest, Place.pass, hp]
          rfl
        rw [hp, hquote, htail, ConfigValue.doc, hread]
        exact .string ht
      · exact absurd h (by simp)
    · rw [Except.ok.injEq] at h
      have hnumber := parseInt_doc p T
      rw [h] at hnumber
      have hv : v.doc T = (readNumber (c :: m)).1 := by rw [← hp, ← hnumber]
      have hr : q.2 = (readNumber (c :: m)).2 := by rw [← hp, ← hnumber]
      rw [hp, hv, hr]
      exact .number hdigit
    · simp only [Except.ok.injEq, Prod.mk.injEq] at h
      obtain ⟨rfl, rfl⟩ := h
      exact .bool (.inl ⟨rfl, rfl⟩) hfalse
    · simp only [Except.ok.injEq, Prod.mk.injEq] at h
      obtain ⟨rfl, rfl⟩ := h
      exact .bool (.inr ⟨rfl, rfl⟩) htrue

/-- The first byte of a switch. -/
theorem beginsWith_head {word s : List UInt8} {c : UInt8} {m : List UInt8} (hs : s = c :: m)
    (hword : word ≠ []) (h : beginsWith word s = true) : some (toLower c) = word.head? := by
  obtain ⟨d, word, rfl⟩ := List.exists_cons_of_ne_nil hword
  rw [beginsWith, decide_eq_true_eq, hs, List.length_cons, List.take_succ_cons, List.map_cons,
    List.cons.injEq] at h
  rw [h.1, List.head?_cons]

/-- The words that are looked for are of letters. -/
theorem words_lower : ∀ word ∈ [ascii "false", ascii "true", ascii "include"],
    word ≠ [] ∧ nul ∉ word ∧ ∀ c ∈ word, isLower c = true := by
  decide +kernel

theorem letter_of_toLower {c : UInt8} (h : toLower c = 102 ∨ toLower c = 116) :
    c ≠ quote ∧ isDigit c = false ∧ c ≠ leftBrace := by
  have hall : ∀ c : UInt8, toLower c = 102 ∨ toLower c = 116 →
      c ≠ quote ∧ isDigit c = false ∧ c ≠ leftBrace := forall_byte (by decide)
  exact hall c h

theorem ReadsScalar.parseScalar {p : Place} {w : DocValue} {r : List UInt8}
    (h : ReadsScalar p.2 w r) (file : List UInt8) :
    ∃ v q, p.parseScalar file = .ok (v, q) ∧ q.2 = r ∧ ∀ T, q.1 <+: T → v.doc T = w := by
  obtain ⟨front, s⟩ := p
  cases h with
  | @string t _ ht =>
      have hstring : (Place.pass (front, quote :: (t ++ quote :: r)) 1).parseString file =
          .ok (⟨(front ++ [quote]).length, t.length⟩, (front ++ [quote] ++ t ++ [nul], r)) :=
        Place.parseString_eq_ok_iff.2 ⟨t, r, rfl, ht, rfl, rfl⟩
      refine ⟨.string ⟨(front ++ [quote]).length, t.length⟩, (front ++ [quote] ++ t ++ [nul], r),
        ?_, rfl, fun T hT => ?_⟩
      · simp only [Place.parseScalar, if_true, hstring]
      · rw [ConfigValue.doc, Span.read_of_front hT (by simp; omega), List.append_assoc]
        exact congrArg _ (Span.read_mid (front ++ [quote]) t [nul])
  | @number c m hc =>
      have hquote : c ≠ quote := by
        rintro rfl
        exact absurd hc (by decide)
      refine ⟨(Place.parseInt (front, c :: m)).1, (Place.parseInt (front, c :: m)).2, ?_, ?_,
        fun T _ => ?_⟩
      · simp only [Place.parseScalar, if_neg hquote, hc, if_true]
      · rw [← parseInt_doc (front, c :: m) []]
      · rw [← parseInt_doc (front, c :: m) T]
  | @bool b word _ hb hs =>
      replace hs : beginsWith word s = true := hs
      have hne : s ≠ [] := by
        rintro rfl
        rcases hb with ⟨-, rfl⟩ | ⟨-, rfl⟩ <;> exact absurd hs (by decide)
      obtain ⟨c, m, rfl⟩ := List.exists_cons_of_ne_nil hne
      have hletter : c ≠ quote ∧ isDigit c = false ∧ c ≠ leftBrace := by
        apply letter_of_toLower
        rcases hb with ⟨-, rfl⟩ | ⟨-, rfl⟩
        · exact .inl (Option.some.inj (beginsWith_head rfl (by decide) hs))
        · exact .inr (Option.some.inj (beginsWith_head rfl (by decide) hs))
      rcases hb with ⟨rfl, rfl⟩ | ⟨rfl, rfl⟩
      · refine ⟨.bool false, Place.pass (front, c :: m) 5, ?_, rfl, fun _ _ => rfl⟩
        simp [Place.parseScalar, hletter.1, hletter.2.1, hs]
      · have hfalse : beginsWith (ascii "false") (c :: m) = false := by
          rw [Bool.eq_false_iff]
          intro hother
          have htrue := beginsWith_head rfl (by decide) hs
          have hfalse := beginsWith_head rfl (by decide) hother
          exact absurd (htrue.symm.trans hfalse) (by decide)
        refine ⟨.bool true, Place.pass (front, c :: m) 4, ?_, rfl, fun _ _ => rfl⟩
        simp [Place.parseScalar, hletter.1, hletter.2.1, hs, hfalse]

/-- The names that are taken, as texts and as places. -/
structure NamesAt (front : List UInt8) (names : List Span) (texts : List (List UInt8)) : Prop where
  texts_eq : names.map (Span.read front) = texts
  le : ∀ s ∈ names, s.pos + s.len ≤ front.length

theorem NamesAt.nil (front : List UInt8) : NamesAt front [] [] :=
  ⟨rfl, fun _ hs => absurd hs List.not_mem_nil⟩

theorem NamesAt.mono {front T : List UInt8} {names : List Span} {texts : List (List UInt8)}
    (h : NamesAt front names texts) (hT : front <+: T) : NamesAt T names texts := by
  refine ⟨?_, fun s hs => (h.le s hs).trans hT.length_le⟩
  rw [← h.texts_eq]
  exact List.map_congr_left fun s hs => Span.read_of_front hT (h.le s hs)

theorem NamesAt.append {front name : List UInt8} {names : List Span} {texts : List (List UInt8)}
    {s : Span} (h : NamesAt front names texts) (hread : s.read front = name)
    (hs : s.pos + s.len ≤ front.length) : NamesAt front (names ++ [s]) (texts ++ [name]) := by
  refine ⟨by rw [List.map_append, h.texts_eq, List.map_singleton, hread], fun r hr => ?_⟩
  rcases List.mem_append.1 hr with hr | hr
  · exact h.le r hr
  · rw [List.mem_singleton.1 hr]
    exact hs

theorem Place.readsName {p q : Place} {file : List UInt8} {names : List Span}
    {texts : List (List UInt8)} {line : Nat} {s : Span} (hnames : NamesAt p.1 names texts)
    (h : p.parseName file names = .ok (line, s, q)) :
    ReadsName texts p.2 (s.read q.1) q.2 ∧ NamesAt q.1 (names ++ [s]) (texts ++ [s.read q.1]) := by
  have hfront := (Place.advances_parseName h).front
  obtain ⟨t, w, sep, m, hrest, hne, htake, hjump, hsep, -, rfl, hunused, rfl⟩ :=
    Place.parseName_eq_ok h
  have hkept : p.1 ++ t <+: (Place.jump (p.1 ++ t ++ cut (w ++ [sep]), m)).1 := by
    simp only [Place.jump, List.append_assoc]
    exact (List.prefix_append_right_inj p.1).2 (List.prefix_append t _)
  have hread : Span.read (Place.jump (p.1 ++ t ++ cut (w ++ [sep]), m)).1
      ⟨p.1.length, t.length⟩ = t := by
    rw [Span.read_of_front hkept (by simp)]
    have hmid := Span.read_mid p.1 t []
    rwa [List.append_nil] at hmid
  rw [hread]
  refine ⟨⟨w ++ sep :: m, sep, m, hrest, hne, htake.symm, ?_, ?_, hsep, rfl⟩, ?_⟩
  · rw [← hnames.texts_eq, List.mem_map]
    rintro ⟨s, hs, heq⟩
    exact hunused s hs heq
  · rw [afterBlanks, hjump]
  · refine (hnames.mono hfront).append hread ?_
    have hle := hkept.length_le
    rw [List.length_append] at hle
    exact hle

theorem ReadsName.parseName {p : Place} {names : List Span} {texts : List (List UInt8)}
    {name v : List UInt8} (h : ReadsName texts p.2 name v) (hnames : NamesAt p.1 names texts)
    (file : List UInt8) :
    ∃ line s q, p.parseName file names = .ok (line, s, q) ∧ s.read q.1 = name ∧ q.2 = v := by
  obtain ⟨w, sep, m, hrest, hne, htake, hunused, hjump, hsep, rfl⟩ := h
  have hpass : p.pass name.length = (p.1 ++ name, w) := by
    rw [Place.pass, hrest, List.take_left, List.drop_left]
  have hfree : ¬(names.any fun s => (p.1.drop s.pos).take s.len = name) = true := by
    intro hany
    obtain ⟨s, hs, heq⟩ := List.any_eq_true.1 hany
    apply hunused
    rw [← hnames.texts_eq, List.mem_map]
    exact ⟨s, hs, of_decide_eq_true heq⟩
  have hseparator : (Place.jump (p.1 ++ name, w)).2.head? = some colon ∨
      (Place.jump (p.1 ++ name, w)).2.head? = some equals := by
    rw [Place.jump_snd, hjump]
    exact hsep.imp (congrArg some) (congrArg some)
  obtain ⟨line, s, q, hok⟩ : ∃ line s q, p.parseName file names = .ok (line, s, q) := by
    simp only [Place.parseName, htake, hpass, if_neg hne, if_neg hfree, if_pos hseparator]
    exact ⟨_, _, _, rfl⟩
  obtain ⟨hreads, -⟩ := Place.readsName hnames hok
  obtain ⟨w', sep', m', hrest', -, htake', -, hjump', -, hv⟩ := hreads
  have hname : s.read q.1 = name := htake'.symm.trans htake
  refine ⟨line, s, q, hok, hname, ?_⟩
  rw [hname, hrest] at hrest'
  obtain rfl := List.append_cancel_left hrest'
  rw [hjump, List.cons.injEq] at hjump'
  rw [hv, hjump'.2]

theorem Place.readsCommand {p q : Place} {chain : List (List UInt8)} {file : List UInt8}
    (h : p.parseCommand chain = .ok (file, q)) : ReadsCommand chain p.2 file q.2 := by
  obtain ⟨hword, hmem, rest, hrest, hbytes, rfl⟩ := Place.parseCommand_eq_ok h
  exact ⟨hword, hmem, rest, hrest, hbytes, by simp⟩

theorem ReadsCommand.parseCommand {p : Place} {chain : List (List UInt8)} {file r : List UInt8}
    (h : ReadsCommand chain p.2 file r) :
    ∃ q, p.parseCommand chain = .ok (file, q) ∧ q.2 = r := by
  obtain ⟨hword, hmem, rest, hrest, hbytes, rfl⟩ := h
  have hjump : (p.pass 7).jump.2 = quote :: (file ++ quote :: rest) := hrest
  have hstring : ((p.pass 7).jump.pass 1).parseString (chain.headD []) =
      .ok (⟨((p.pass 7).jump.pass 1).1.length, file.length⟩,
        (((p.pass 7).jump.pass 1).1 ++ file ++ [nul], rest)) :=
    Place.parseString_eq_ok_iff.2 ⟨file, rest, by rw [Place.pass, hjump]; rfl, hbytes, rfl, rfl⟩
  have hread : ((((p.pass 7).jump.pass 1).1 ++ file ++ [nul]).drop
      ((p.pass 7).jump.pass 1).1.length).take file.length = file := by
    rw [List.append_assoc, List.drop_left, List.take_left]
  refine ⟨(Place.jump (((p.pass 7).jump.pass 1).1 ++ file ++ [nul], rest)).semicolon, ?_, ?_⟩
  · simp only [Place.parseCommand, hword, hjump, List.head?_cons, if_true, hstring, hread,
      if_neg hmem, Bool.true_eq_false, if_false]
  · simp

/-! ## The two readings agree -/

variable {files : ConfigFiles} {root : Bool} {chain : List (List UInt8)} {names : List Span}
  {texts : List (List UInt8)} {p t : Place} {settings : ConfigSettings} {d : ConfigDoc}
  {s u : List UInt8}

/-- The document of a setting that is not the node of an included file. -/
theorem doc_setting (T : List UInt8) (s : Span) (line : Nat) (value : ConfigValue)
    (childs next : ConfigSettings) (hvalue : ∀ file content, value ≠ .included file content) :
    (ConfigSettings.cons (some s) line value childs next).doc T =
      .setting (s.read T) (value.doc T) (childs.doc T) (next.doc T) := by
  cases value with
  | included file content => exact absurd rfl (hvalue file content)
  | _ => rfl

theorem doc_group (T : List UInt8) (s : Span) (line : Nat) (inner : List UInt8)
    (childs next : ConfigSettings) :
    (ConfigSettings.cons (some s) line (if inner.head? = some nul then .string ⟨0, 0⟩ else .group)
      childs next).doc T =
      .setting (s.read T) (groupValue inner) (childs.doc T) (next.doc T) := by
  rw [groupValue]
  split
  · rfl
  · rfl

theorem parseScalar_ne_included {p q : Place} {file : List UInt8} {v : ConfigValue}
    (h : p.parseScalar file = .ok (v, q)) (name content : List UInt8) :
    v ≠ .included name content := by
  rintro rfl
  unfold Place.parseScalar at h
  split at h
  · exact absurd h (by simp)
  · split_ifs at h
    · split at h <;> simp at h
    · simp only [Place.parseInt] at h
      split at h
      · simp at h
      · split at h <;> simp at h
    · simp at h
    · simp at h

/-- What the parser accepts can be derived from the text, and the document is that of
the tree. -/
theorem Parses.reads (h : Parses files root chain names p settings t)
    (hnames : NamesAt p.1 names texts) {T : List UInt8} (hT : t.1 <+: T) :
    Reads files root chain texts p.2 (settings.doc T) t.2 := by
  induction h generalizing texts T with
  | @finish root chain names p q hitem =>
      have hfound := found_configItem root chain names p
      rw [hitem] at hfound
      rcases hfound with ⟨hend, rfl⟩ | ⟨hbrace, rfl, rfl⟩
      · rw [Place.enter_snd] at hend ⊢
        exact .finish hend
      · rw [Place.enter_snd] at hbrace
        obtain ⟨m, hm⟩ := List.head?_eq_some_iff.1 hbrace
        have hbehind : (p.enter.pass 1).2 = m := by
          rw [Place.pass, Place.enter_snd, hm]
          rfl
        rw [Place.semicolon_snd, hbehind]
        exact .close hm
  | @command root chain names p file q content childs r next t hitem hload hchilds hnext ihchilds
      ihnext =>
      have hfound := found_configItem root chain names p
      rw [hitem] at hfound
      obtain ⟨hat, hcommand⟩ := hfound
      rw [Place.enter_snd] at hat
      obtain ⟨m, hm⟩ := List.head?_eq_some_iff.1 hat
      have hbehind : (p.enter.pass 1).2 = m := by
        rw [Place.pass, Place.enter_snd, hm]
        rfl
      have hreads := Place.readsCommand hcommand
      rw [hbehind] at hreads
      have hfront := (advances_configItem (p := p) (by rw [hitem]; rfl)).front
      exact .command hm hreads hload (ihchilds (.nil []) (List.prefix_append r.1 r.2))
        (ihnext (hnames.mono hfront) hT)
  | @group root chain names p line name value inner childs r next t hitem hchilds hnext ihchilds
      ihnext =>
      have hfound := found_configItem root chain names p
      rw [hitem] at hfound
      obtain ⟨q, hname, hbrace, rfl, rfl⟩ := hfound
      have hbehind := r.advances_jump.trans (Place.advances_semicolon r.jump)
      have hr : r.1 <+: T := hbehind.front.trans (hnext.advances.front.trans hT)
      have hq : q.1 <+: r.1 := (q.advances_pass 1).front.trans hchilds.advances.front
      obtain ⟨hreads, hnames'⟩ := Place.readsName (hnames.mono p.advances_enter.front) hname
      obtain ⟨m, hm⟩ := List.head?_eq_some_iff.1 hbrace
      have hinner : (q.pass 1).2 = m := by
        rw [Place.pass, hm]
        rfl
      have hread : name.read T = name.read q.1 :=
        Span.read_of_front (hq.trans hr) (hnames'.le name (by simp))
      rw [hinner, doc_group, hread]
      rw [Place.enter_snd, hm] at hreads
      have hchilds' := ihchilds (.nil _) hr
      rw [hinner] at hchilds'
      have hnext' := ihnext ((hnames'.mono hq).mono hbehind.front) hT
      rw [Place.semicolon_snd, Place.jump_snd] at hnext'
      exact .group hreads hchilds' hnext'
  | @scalar root chain names p line name value r next t hitem hnext ihnext =>
      have hfound := found_configItem root chain names p
      rw [hitem] at hfound
      obtain ⟨q, hname, -, u, hscalar, rfl⟩ := hfound
      have hbehind := u.advances_jump.trans (Place.advances_semicolon u.jump)
      have hu : u.1 <+: T := hbehind.front.trans (hnext.advances.front.trans hT)
      have hq : q.1 <+: u.1 := (Place.advances_parseScalar hscalar).front
      obtain ⟨hreads, hnames'⟩ := Place.readsName (hnames.mono p.advances_enter.front) hname
      have hread : name.read T = name.read q.1 :=
        Span.read_of_front (hq.trans hu) (hnames'.le name (by simp))
      rw [doc_setting T name line value .nil next (parseScalar_ne_included hscalar), hread]
      rw [Place.enter_snd] at hreads
      have hnext' := ihnext ((hnames'.mono hq).mono hbehind.front) hT
      rw [Place.semicolon_snd, Place.jump_snd] at hnext'
      exact .scalar hreads (Place.readsScalar hscalar hu) hnext'

theorem nameSymbol_ne {c : UInt8} (h : configValidNameSymbol c = true) :
    c ≠ nul ∧ c ≠ rightBrace ∧ c ≠ atSign := by
  have hall : ∀ c : UInt8, configValidNameSymbol c = true →
      c ≠ nul ∧ c ≠ rightBrace ∧ c ≠ atSign := forall_byte (by decide)
  exact hall c h

/-- The first byte of a name. -/
theorem ReadsName.head {name v : List UInt8} (h : ReadsName texts s name v) :
    ∃ c m, s = c :: m ∧ configValidNameSymbol c = true := by
  obtain ⟨w, -, -, hrest, hne, htake, -⟩ := h
  obtain ⟨c, name, rfl⟩ := List.exists_cons_of_ne_nil hne
  refine ⟨c, name ++ w, hrest, ?_⟩
  have hmem : c ∈ s.takeWhile configValidNameSymbol := htake ▸ List.mem_cons_self
  exact List.mem_takeWhile_imp hmem

theorem configItem_finish (h : atItem p.2 = [] ∨ (atItem p.2).head? = some nul) :
    configItem root chain names p = .finish p.enter := by
  rw [← Place.enter_snd] at h
  rw [configItem]
  generalize p.enter = e at h ⊢
  obtain ⟨front, rest⟩ := e
  cases rest with
  | nil => rfl
  | cons c m =>
      have hc : c = nul := h.elim (fun heq => absurd heq (List.cons_ne_nil c m)) Option.some.inj
      simp only [if_pos hc]

theorem configItem_close {m : List UInt8} (h : atItem p.2 = rightBrace :: m) :
    configItem false chain names p = .finish (p.enter.pass 1).semicolon := by
  rw [← Place.enter_snd] at h
  rw [configItem]
  generalize p.enter = e at h ⊢
  obtain ⟨front, rest⟩ := e
  obtain rfl : rest = rightBrace :: m := h
  have hnul : rightBrace ≠ nul := by decide
  simp only [if_neg hnul, true_and, if_true]

theorem configItem_at {m : List UInt8} (h : atItem p.2 = atSign :: m) :
    configItem root chain names p =
      match (p.enter.pass 1).parseCommand chain with
      | .error e => .error e
      | .ok (file, q) => .command file q := by
  rw [← Place.enter_snd] at h
  rw [configItem]
  generalize p.enter = e at h ⊢
  obtain ⟨front, rest⟩ := e
  obtain rfl : rest = atSign :: m := h
  have hnul : atSign ≠ nul := by decide
  have hbrace : ¬(atSign = rightBrace ∧ root = false) := fun heq => absurd heq.1 (by decide)
  exact (if_neg hnul).trans ((if_neg hbrace).trans (if_pos rfl))

theorem configItem_name (root : Bool) (chain : List (List UInt8)) (names : List Span)
    {name v : List UInt8} (h : ReadsName texts (atItem p.2) name v) :
    configItem root chain names p = p.enter.parseSetting (chain.headD []) names := by
  obtain ⟨c, m, hs, hc⟩ := h.head
  obtain ⟨hnul, hbrace, hat⟩ := nameSymbol_ne hc
  rw [← Place.enter_snd] at hs
  rw [configItem]
  generalize p.enter = e at hs ⊢
  obtain ⟨front, rest⟩ := e
  obtain rfl : rest = c :: m := hs
  have hnot : ¬(c = rightBrace ∧ root = false) := fun heq => hbrace heq.1
  simp only [if_neg hnul, if_neg hnot, if_neg hat]

theorem ReadsScalar.head_ne {v r : List UInt8} {value : DocValue} (h : ReadsScalar v value r) :
    v.head? ≠ some leftBrace := by
  cases h with
  | string ht => exact fun heq => absurd (Option.some.inj heq) (by decide)
  | number hc =>
      intro heq
      rw [Option.some.inj heq] at hc
      exact absurd hc (by decide)
  | @bool b word _ hb hs =>
      intro heq
      obtain ⟨m, hm⟩ := List.head?_eq_some_iff.1 heq
      rcases hb with ⟨-, rfl⟩ | ⟨-, rfl⟩
      · exact absurd (beginsWith_head hm (by decide) hs) (by decide)
      · exact absurd (beginsWith_head hm (by decide) hs) (by decide)

/-- What can be derived from the text is accepted by the parser. -/
theorem Reads.parses (h : Reads files root chain texts s d u) (hs : p.2 = s)
    (hnames : NamesAt p.1 names texts) :
    ∃ settings t, Parses files root chain names p settings t ∧ t.2 = u ∧
      ∀ T, t.1 <+: T → settings.doc T = d := by
  induction h generalizing p names with
  | finish hend =>
      subst hs
      exact ⟨.nil, p.enter, .finish (configItem_finish hend), by simp, fun _ _ => rfl⟩
  | close hclose =>
      subst hs
      refine ⟨.nil, (p.enter.pass 1).semicolon, .finish (configItem_close hclose), ?_,
        fun _ _ => rfl⟩
      rw [Place.semicolon_snd, Place.pass, Place.enter_snd, hclose]
      rfl
  | @command root chain texts s m file r content childs u next t hat hcommand hload hchilds hnext
      ihchilds ihnext =>
      subst hs
      have hbehind : (p.enter.pass 1).2 = m := by
        rw [Place.pass, Place.enter_snd, hat]
        rfl
      rw [← hbehind] at hcommand
      obtain ⟨q, hq, hrest⟩ := hcommand.parseCommand
      have hitem : configItem root chain names p = .command file q := by
        rw [configItem_at hat, hq]
      have hfront := (advances_configItem (p := p) (by rw [hitem]; rfl)).front
      obtain ⟨inner, v, hinner, -, hdoc⟩ :=
        ihchilds (p := ([], content ++ [nul, nul])) rfl (.nil [])
      obtain ⟨settings, w, hsettings, hw, hdoc'⟩ := ihnext hrest (hnames.mono hfront)
      refine ⟨_, w, .command hitem hload hinner hsettings, hw, fun T hT => ?_⟩
      rw [ConfigSettings.doc, hdoc _ (List.prefix_append v.1 v.2), hdoc' T hT]
  | @group root chain texts s name inner childs u next t hname hchilds hnext ihchilds ihnext =>
      subst hs
      have hitem := configItem_name root chain names hname
      rw [← Place.enter_snd] at hname
      obtain ⟨line, span, q, hq, hread, hv⟩ :=
        hname.parseName (hnames.mono p.advances_enter.front) (chain.headD [])
      obtain ⟨-, hnames'⟩ := Place.readsName (hnames.mono p.advances_enter.front) hq
      have hbrace : q.2.head? = some leftBrace := by rw [hv]; rfl
      have hinner : (q.pass 1).2 = inner := by
        rw [Place.pass, hv]
        rfl
      rw [Place.parseSetting, hq] at hitem
      simp only [if_pos hbrace] at hitem
      obtain ⟨childs', r, hchilds', hr, hdoc⟩ := ihchilds hinner (.nil _)
      have hbehind := r.advances_jump.trans (Place.advances_semicolon r.jump)
      have hfront : q.1 <+: r.1 := (q.advances_pass 1).front.trans hchilds'.advances.front
      have hrest : r.jump.semicolon.2 = afterSemicolon (afterBlanks u) := by
        rw [Place.semicolon_snd, Place.jump_snd, hr]
      rw [hread] at hnames'
      obtain ⟨settings, w, hsettings, hw, hdoc'⟩ :=
        ihnext hrest ((hnames'.mono hfront).mono hbehind.front)
      refine ⟨_, w, .group hitem hchilds' hsettings, hw, fun T hT => ?_⟩
      have hrT : r.1 <+: T := hbehind.front.trans (hsettings.advances.front.trans hT)
      rw [hinner, doc_group, hdoc T hrT, hdoc' T hT,
        Span.read_of_front (hfront.trans hrT) (hnames'.le span (by simp)), hread]
  | @scalar root chain texts s name v value u next t hname hscalar hnext ihnext =>
      subst hs
      have hitem := configItem_name root chain names hname
      rw [← Place.enter_snd] at hname
      obtain ⟨line, span, q, hq, hread, hv⟩ :=
        hname.parseName (hnames.mono p.advances_enter.front) (chain.headD [])
      obtain ⟨-, hnames'⟩ := Place.readsName (hnames.mono p.advances_enter.front) hq
      rw [← hv] at hscalar
      obtain ⟨w, r, hr, hrest, hdoc⟩ := hscalar.parseScalar (chain.headD [])
      rw [Place.parseSetting, hq] at hitem
      simp only [if_neg hscalar.head_ne, hr] at hitem
      have hbehind := r.advances_jump.trans (Place.advances_semicolon r.jump)
      have hfront : q.1 <+: r.1 := (Place.advances_parseScalar hr).front
      have hrest' : r.jump.semicolon.2 = afterSemicolon (afterBlanks u) := by
        rw [Place.semicolon_snd, Place.jump_snd, hrest]
      rw [hread] at hnames'
      obtain ⟨settings, x, hsettings, hx, hdoc'⟩ :=
        ihnext hrest' ((hnames'.mono hfront).mono hbehind.front)
      refine ⟨_, x, .scalar hitem hsettings, hx, fun T hT => ?_⟩
      have hrT : r.1 <+: T := hbehind.front.trans (hsettings.advances.front.trans hT)
      rw [doc_setting T span line w .nil settings (parseScalar_ne_included hr), hdoc T hrT,
        hdoc' T hT, Span.read_of_front (hfront.trans hrT) (hnames'.le span (by simp)), hread]
      rfl

/-- A derivation is found with enough steps. -/
theorem Parses.exists_steps (h : Parses files root chain names p settings t) :
    ∃ n, parseChilds files n root chain names p = .ok (settings, t) := by
  have hmore : ∀ {n m : Nat} {root : Bool} {chain : List (List UInt8)} {names : List Span}
      {p t : Place} {settings : ConfigSettings}, n ≤ m →
      parseChilds files n root chain names p = .ok (settings, t) →
      parseChilds files m root chain names p = .ok (settings, t) := by
    intro n m root chain names p t settings hnm hn
    rw [below_parseChilds hnm (by rw [hn]; simp), hn]
  induction h with
  | finish hitem => exact ⟨1, by rw [parseChilds_succ, hitem]⟩
  | command hitem hload _ _ ihchilds ihnext =>
      obtain ⟨n, hn⟩ := ihchilds
      obtain ⟨m, hm⟩ := ihnext
      refine ⟨max n m + 1, ?_⟩
      rw [parseChilds_succ, hitem]
      simp only [hload, ConfigResult.lift, ConfigResult.andThen_ok, hmore (le_max_left n m) hn,
        hmore (le_max_right n m) hm]
  | group hitem _ _ ihchilds ihnext =>
      obtain ⟨n, hn⟩ := ihchilds
      obtain ⟨m, hm⟩ := ihnext
      refine ⟨max n m + 1, ?_⟩
      rw [parseChilds_succ, hitem]
      simp only [ConfigResult.andThen_ok, hmore (le_max_left n m) hn, hmore (le_max_right n m) hm]
  | scalar hitem _ ihnext =>
      obtain ⟨m, hm⟩ := ihnext
      refine ⟨m + 1, ?_⟩
      rw [parseChilds_succ, hitem]
      simp only [ConfigResult.andThen_ok, hm]

/-- What `config_read` accepts can be derived from the text, and the tree shows the
document. -/
theorem reads_of_configRead {steps : Nat} {file content buffer : List UInt8}
    (h : configRead files steps file content = .ok (settings, buffer)) :
    quickValidate file content = none ∧
      ∃ u, Reads files true [file] [] (content ++ [nul, nul]) (settings.doc buffer) u := by
  unfold configRead at h
  split at h
  · exact absurd h (by simp)
  · rename_i hvalid
    obtain ⟨⟨settings', t⟩, hparse, heq⟩ := ConfigResult.andThen_eq_ok.1 h
    obtain ⟨rfl, rfl⟩ := Prod.mk.inj (ConfigResult.ok.inj heq)
    exact ⟨hvalid, t.2, (parses_of_parseChilds hparse).reads (.nil [])
      (List.prefix_append t.1 t.2)⟩

/-- What can be derived from the text, `config_read` accepts. -/
theorem configRead_of_reads {file content : List UInt8}
    (hvalid : quickValidate file content = none)
    (h : Reads files true [file] [] (content ++ [nul, nul]) d u) :
    ∃ steps settings buffer, configRead files steps file content = .ok (settings, buffer) ∧
      settings.doc buffer = d := by
  obtain ⟨settings, t, hparses, -, hdoc⟩ :=
    h.parses (p := ([], content ++ [nul, nul])) rfl (.nil [])
  obtain ⟨n, hn⟩ := hparses.exists_steps
  refine ⟨n, settings, t.1 ++ t.2, ?_, hdoc _ (List.prefix_append t.1 t.2)⟩
  simp only [configRead, hvalid, hn, ConfigResult.andThen_ok]

end OpenTube
