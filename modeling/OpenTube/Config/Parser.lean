import OpenTube.Common.Chars

/-!
# The configuration parser

`config_parser.c` reads a configuration file into a tree of settings. The parser
works on the text itself: a name and a string of the tree are places in the text,
and the byte behind each of them is overwritten with a `NUL` when it has been
read. All these bytes lie behind the place the parser has reached, so that place
is given by what lies before it, as it is now, and the untouched rest; the two
`NUL` bytes the loader puts behind the text end the rest.

The files an `@include` command names are a parameter. A call of
`config_parse_childs` for an included file is not bounded by the text that
includes it, so the functions take a number of steps; they run out of it only if
it is too small.
-/

namespace OpenTube

/-! ## Characters -/

/-- `CONFIG_VALID_SYMBOL`. -/
def configValidSymbol (c : UInt8) : Bool :=
  isSym c || isSpaceChar c || c = cr || c = lf

/-- `CONFIG_VALID_NAME_SYMBOL`. -/
def configValidNameSymbol (c : UInt8) : Bool :=
  isAlnum c || c = hyphen || c = underscore

/-- The blanks `config_jump_to_nonspace` passes over. -/
def configBlank (c : UInt8) : Bool :=
  isSpaceChar c || c = cr || c = lf

/-! ## Numbers -/

/-- A digit of a number in the given base, at most 16. -/
def isDigitOf (base : Nat) (c : UInt8) : Bool :=
  match hexValue c with
  | some v => decide (v < base)
  | none => false

/-- The number some digits denote. -/
def numeral (base : Nat) (ds : List UInt8) : Nat :=
  ds.foldl (fun n c => base * n + (hexValue c).getD 0) 0

/-- `LLONG_MAX`. -/
def llongMax : Nat := 2 ^ 63 - 1

/-- `INT_MAX`. -/
def intMax : Nat := 2 ^ 31 - 1

/-- The base of a number and the text from its digits on, for `strtoll` with base
0. -/
def numberBase : List UInt8 → Nat × List UInt8
  | 48 :: x :: y :: m =>
      if (x = 120 ∨ x = 88) ∧ isDigitOf 16 y = true then (16, y :: m) else (8, 48 :: x :: y :: m)
  | 48 :: m => (8, 48 :: m)
  | m => (10, m)

/-- `strtoll` with base 0 on a text that begins with a digit: the value and the
text behind the number. -/
def strtoll (s : List UInt8) : Nat × List UInt8 :=
  let b := numberBase s
  let ds := b.2.takeWhile (isDigitOf b.1)
  (min (numeral b.1 ds) llongMax, b.2.drop ds.length)

/-- The exponent of a number, if there is one. -/
def exponentText (mark upper : UInt8) : List UInt8 → List UInt8
  | c :: m =>
      if c = mark ∨ c = upper then
        let sign := m.take 1 |>.filter fun c => c = plus || c = hyphen
        let ds := (m.drop sign.length).takeWhile isDigit
        if ds = [] then [] else c :: (sign ++ ds)
      else []
  | [] => []

/-- The text `strtod` takes for a number: digits with a point and an exponent, in
decimal or in hexadecimal notation. -/
def floatText (s : List UInt8) : List UInt8 :=
  let b := if (numberBase s).1 = 16 then 16 else 10
  let front := if b = 16 then s.take 2 else []
  let whole := (s.drop front.length).takeWhile (isDigitOf b)
  let m := s.drop (front.length + whole.length)
  let fraction :=
    match m with
    | c :: m => if c = dot then c :: m.takeWhile (isDigitOf b) else []
    | [] => []
  let m := m.drop fraction.length
  front ++ whole ++ fraction ++ if b = 16 then exponentText 112 80 m else exponentText 101 69 m

/-! ## The tree -/

/-- `str_t` in the text of a file. -/
structure Span where
  pos : Nat
  len : Nat
deriving DecidableEq, Repr

/-- The type of a setting and its value. A floating point number is given by its
text; an included file by its name and its text after it was parsed. -/
inductive ConfigValue
  | string (s : Span)
  | bool (b : Bool)
  | int (n : Nat)
  | int64 (n : Nat)
  | float (text : List UInt8)
  | group
  | included (file content : List UInt8)
deriving DecidableEq, Repr

/-- A list of `config_setting_t`, each with its children. The node of an included
file has no name. -/
inductive ConfigSettings
  | nil
  | cons (name : Option Span) (line : Nat) (value : ConfigValue) (childs next : ConfigSettings)
deriving DecidableEq, Repr

/-- The reasons for which a configuration is refused. -/
inductive ConfigErrorText
  | notText
  | noName
  | duplicateName
  | noClosingQuote
  | unknownCommand
  | noIncludeString
  | includeLoop
  | notOpened
  | noSeparator
  | unknownType
deriving DecidableEq, Repr

/-- The texts of the errors; that of a file which cannot be opened is given by the
system. -/
def ConfigErrorText.text (strerror : String) : ConfigErrorText → String
  | notText => "this is not a text file"
  | noName => "name for the setting object not found"
  | duplicateName => "duplicate setting name"
  | noClosingQuote => "unexpected end of file, expected end of string (closing quote)"
  | unknownCommand => "unknown command after \"@\""
  | noIncludeString => "expected a quoted string after \"@include\""
  | includeLoop => "inclusion of this file will lead to an infinite loop"
  | notOpened => strerror
  | noSeparator =>
      "invalid character after the setting name (expected one of \":\" or \"=\")"
  | unknownType => "unrecognized value type for setting"

/-- `error_text`, `error_file` and `error_line`. There is no line when it is counted
in the empty text a command leaves in its node. -/
structure ConfigError where
  text : ConfigErrorText
  file : List UInt8
  line : Option Nat
deriving DecidableEq, Repr

/-- The newlines of a text up to its first two adjacent `NUL` bytes. -/
def newlines : List UInt8 → Nat
  | [] => 0
  | c :: m =>
      if c = nul ∧ m.head? = some nul then 0 else (if c = lf then 1 else 0) + newlines m

/-- `config_get_line_by_ptr`, given the text before the place. -/
def configLine (front : List UInt8) : Nat := 1 + newlines front

/-! ## The pieces of a setting -/

/-- What `config_jump_to_nonspace` is in: blanks, a comment up to the end of the
line, a comment in `/*` and `*/`, or the end of the latter. -/
inductive JumpMode
  | blank
  | line
  | block
  | close
deriving DecidableEq, Repr

/-- `config_jump_to_nonspace`: the bytes that are passed over and the rest. A
comment that is not closed goes up to the `NUL`. -/
def jumpToNonspace : JumpMode → List UInt8 → List UInt8 × List UInt8
  | _, [] => ([], [])
  | mode, c :: m =>
      let keep (e : List UInt8 × List UInt8) := (c :: e.1, e.2)
      if c = nul then ([], c :: m)
      else
        match mode with
        | .blank =>
            if c = hash ∨ c = slash ∧ m.head? = some slash then keep (jumpToNonspace .line m)
            else if c = slash ∧ m.head? = some star then keep (jumpToNonspace .block m)
            else if configBlank c then keep (jumpToNonspace .blank m)
            else ([], c :: m)
        | .line => keep (jumpToNonspace (if c = lf then .blank else .line) m)
        | .block => keep (jumpToNonspace (if c = star ∧
          m.head? = some slash then .close else .block) m)
        | .close => keep (jumpToNonspace .blank m)

/-- A place in the text: what lies before it, and the rest. -/
abbrev Place := List UInt8 × List UInt8

/-- `config_jump_to_nonspace` from a place. -/
def Place.jump (p : Place) : Place :=
  let e := jumpToNonspace .blank p.2
  (p.1 ++ e.1, e.2)

/-- Pass over some bytes. -/
def Place.pass (p : Place) (n : Nat) : Place := (p.1 ++ p.2.take n, p.2.drop n)

/-- Pass over a semicolon, if there is one. -/
def Place.semicolon (p : Place) : Place :=
  if p.2.head? = some OpenTube.semicolon then p.pass 1 else p

/-- Overwrite the first byte of a text with a `NUL`. -/
def cut : List UInt8 → List UInt8
  | [] => []
  | _ :: m => nul :: m

/-- `config_parse_string`: the string and the place behind its closing quote. -/
def Place.parseString (file : List UInt8) (p : Place) : Except ConfigError (Span × Place) :=
  let s := p.2.takeWhile fun c => c ≠ nul && c ≠ quote
  if (p.2.drop s.length).head? = some quote then
    .ok (⟨p.1.length, s.length⟩, (p.1 ++ s ++ [nul], p.2.drop (s.length + 1)))
  else .error ⟨.noClosingQuote, file, configLine (p.1 ++ s)⟩

/-- `config_parse_int`: the value and the place behind it. -/
def Place.parseInt (p : Place) : ConfigValue × Place :=
  let e := strtoll p.2
  if e.2.head? = some dot then
    let text := floatText p.2
    (.float text, p.pass text.length)
  else
    (if intMax < e.1 then .int64 e.1 else .int e.1, p.pass (p.2.length - e.2.length))

/-- Whether the text begins with `word`, in any case. -/
def beginsWith (word s : List UInt8) : Bool := (s.take word.length).map toLower = word

/-- The value of a setting that is not a group. -/
def Place.parseScalar (file : List UInt8) (p : Place) : Except ConfigError (ConfigValue × Place) :=
  match p.2 with
  | [] => .error ⟨.unknownType, file, configLine p.1⟩
  | c :: _ =>
      if c = quote then
        match (p.pass 1).parseString file with
        | .ok (s, q) => .ok (.string s, q)
        | .error e => .error e
      else if isDigit c then .ok p.parseInt
      else if beginsWith (ascii "false") p.2 then .ok (.bool false, p.pass 5)
      else if beginsWith (ascii "true") p.2 then .ok (.bool true, p.pass 4)
      else .error ⟨.unknownType, file, configLine p.1⟩

/-- The name of a setting and its separator, with the names of the settings before
it: the line, the name and the place of the value. -/
def Place.parseName (file : List UInt8) (names : List Span) (p : Place) :
    Except ConfigError (Nat × Span × Place) :=
  let name := p.2.takeWhile configValidNameSymbol
  let q := p.pass name.length
  let r := q.jump
  if name = [] then .error ⟨.noName, file, configLine q.1⟩
  else if names.any fun s => (p.1.drop s.pos).take s.len = name then
    .error ⟨.duplicateName, file, configLine q.1⟩
  else if r.2.head? = some colon ∨ r.2.head? = some equals then
    let v := r.pass 1
    .ok (configLine p.1, ⟨p.1.length, name.length⟩,
      Place.jump (q.1 ++ cut (v.1.drop q.1.length), v.2))
  else .error ⟨.noSeparator, file, configLine r.1⟩

/-- `config_parse_command` up to the opening of the file: its name and the place
behind the command. `chain` holds the file the command is in and the files that
include it. -/
def Place.parseCommand (chain : List (List UInt8)) (p : Place) :
    Except ConfigError (List UInt8 × Place) :=
  let file := chain.headD []
  let q := (p.pass 7).jump
  if beginsWith (ascii "include") p.2 = false then
    .error ⟨.unknownCommand, file, configLine p.1⟩
  else if q.2.head? = some quote then
    match (q.pass 1).parseString file with
    | .error e => .error e
    | .ok (s, r) =>
        let name := (r.1.drop s.pos).take s.len
        if name ∈ chain then .error ⟨.includeLoop, name, none⟩
        else .ok (name, r.jump.semicolon)
  else .error ⟨.noIncludeString, file, configLine q.1⟩

/-! ## The recursion -/

/-- A result of the recursion: it is out of steps, an error, or a value. -/
inductive ConfigResult (α : Type)
  | outOfSteps
  | error (e : ConfigError)
  | ok (a : α)
deriving DecidableEq, Repr

/-- Continue with the value. -/
def ConfigResult.andThen {α β : Type} (r : ConfigResult α) (f : α → ConfigResult β) :
    ConfigResult β :=
  match r with
  | outOfSteps => outOfSteps
  | error e => error e
  | ok a => f a

@[simp] theorem ConfigResult.andThen_ok {α β : Type} (a : α) (f : α → ConfigResult β) :
    (ConfigResult.ok a).andThen f = f a := rfl

/-- A result without recursion. -/
def ConfigResult.lift {α : Type} : Except ConfigError α → ConfigResult α
  | .error e => .error e
  | .ok a => .ok a

/-- `config_quick_validate`: the error of a text with a character that is not
allowed. -/
def quickValidate (file content : List UInt8) : Option ConfigError :=
  let front := content.takeWhile configValidSymbol
  if front.length = content.length then none else some ⟨.notText, file, configLine front⟩

/-- The files that can be opened, with their contents. -/
abbrev ConfigFiles := List UInt8 → Option (List UInt8)

/-- `config_parse_childs` from a place on, with the names that are taken: the
settings and the place behind them. -/
def parseChilds (files : ConfigFiles) : Nat → Bool → List (List UInt8) → List Span → Place →
    ConfigResult (ConfigSettings × Place)
  | 0, _, _, _, _ => .outOfSteps
  | n + 1, root, chain, names, p =>
      -- the loop is not entered at the end of the text
      let p := if p.2.head? = some nul then p else p.jump
      match p.2 with
      | [] => .ok (.nil, p)
      | c :: _ =>
          if c = nul then .ok (.nil, p)
          else if c = rightBrace ∧ root = false then .ok (.nil, (p.pass 1).semicolon)
          else if c = atSign then
            (ConfigResult.lift ((p.pass 1).parseCommand chain)).andThen fun (file, q) =>
              match files file with
              | none => .error ⟨.notOpened, file, none⟩
              | some content =>
                  match quickValidate file content with
                  | some e => .error e
                  | none =>
                      (parseChilds files n false (file :: chain) []
                        ([], content ++ [nul, nul])).andThen fun (childs, r) =>
                        (parseChilds files n root chain names q).andThen fun (next, t) =>
                          .ok (.cons none 0 (.included file (r.1 ++ r.2)) childs next, t)
          else
            (ConfigResult.lift (Place.parseName (chain.headD []) names p)).andThen
              fun (line, name, q) =>
                if q.2.head? = some leftBrace then
                  -- the type of a group is set when its loop is entered
                  let value := if (q.pass 1).2.head? = some nul then .string ⟨0, 0⟩ else .group
                  (parseChilds files n false chain [] (q.pass 1)).andThen fun (childs, r) =>
                    (parseChilds files n root chain (names ++ [name]) r.jump.semicolon).andThen
                      fun (next, t) => .ok (.cons (some name) line value childs next, t)
                else
                  (ConfigResult.lift (q.parseScalar (chain.headD []))).andThen fun (value, r) =>
                    (parseChilds files n root chain (names ++ [name]) r.jump.semicolon).andThen
                      fun (next, t) => .ok (.cons (some name) line value .nil next, t)

/-- `config_read`: the settings of the root and the text after it was parsed. -/
def configRead (files : ConfigFiles) (steps : Nat) (file content : List UInt8) :
    ConfigResult (ConfigSettings × List UInt8) :=
  match quickValidate file content with
  | some e => .error e
  | none =>
      (parseChilds files steps true [file] [] ([], content ++ [nul, nul])).andThen
        fun (settings, p) => .ok (settings, p.1 ++ p.2)

end OpenTube
