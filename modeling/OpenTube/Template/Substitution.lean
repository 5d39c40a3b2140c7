import Mathlib.Data.List.Infix
import OpenTube.Template.Append
import OpenTube.Template.Assignment
import OpenTube.Template.Cache
import OpenTube.Template.Meaning

/-!
# Variables are substituted

A text without blocks is a sequence of plain texts with variable commands between
them. What is compiled from it renders to the plain texts with the values of the
variables between them.

The lengths are the limit: that of a piece, of a value and of the buffer is a
`uint`, and so is that of the whole text as it is handed to `process_blocks`, where a
text whose length is a multiple of `2 ^ 32` is taken to be empty.
-/

namespace OpenTube

open Scan

/-! ## Texts -/

/-- A text without variable commands. -/
structure PlainText where
  text : List UInt8
  plain : ¬ cmdVar <:+: text

/-- A variable command. -/
structure VarCommand where
  name : List UInt8
  ne_nil : name ≠ []
  valid : ∀ c ∈ name, isValidTplVariableCharacter c = true

/-- The text of a command. -/
def VarCommand.print (c : VarCommand) : List UInt8 := cmdVar ++ (c.name ++ [rightBrace])

/-- Plain texts with variable commands between them. -/
inductive VarText
  | last (t : PlainText)
  | var (t : PlainText) (c : VarCommand) (rest : VarText)

namespace VarText

/-- The text. -/
def print : VarText → List UInt8
  | last t => t.text
  | var t c rest => t.text ++ (c.print ++ rest.print)

/-- The text with the values of the variables in the place of the commands. -/
def fill (value : List UInt8 → List UInt8) : VarText → List UInt8
  | last t => t.text
  | var t c rest => t.text ++ (value (variableName c.name) ++ rest.fill value)

/-- The names of the variables. -/
def names : VarText → List (List UInt8)
  | last _ => []
  | var _ c rest => variableName c.name :: rest.names

/-- The text behind the last command. -/
def final : VarText → PlainText
  | last t => t
  | var _ _ rest => rest.final

/-- The length of what lies before that. -/
def frontLength : VarText → Nat
  | last _ => 0
  | var t c rest => t.text.length + c.print.length + rest.frontLength

/-- The elements of a text at `p`, but for the last. -/
def elements : Nat → VarText → List TplBlock
  | _, last _ => []
  | p, var t c rest =>
      (if t.text = [] then [] else [⟨p, .text (uint t.text.length), 0, 0⟩]) ++
        ⟨p + t.text.length + cmdVar.length, .var (calcChecksum (variableName c.name)), 0, 0⟩ ::
          rest.elements (p + t.text.length + c.print.length)

theorem length_print (v : VarText) :
    v.print.length = v.frontLength + v.final.text.length := by
  induction v with
  | last t => simp [print, frontLength, final]
  | var t c rest ih =>
      simp only [print, frontLength, final, List.length_append, ih]
      omega

end VarText

/-- A name and the brace behind it. -/
def ClosesName (m : List UInt8) : Prop :=
  ∃ name rest, m = name ++ rightBrace :: rest ∧ name ≠ [] ∧
    ∀ c ∈ name, isValidTplVariableCharacter c = true

/-- Somewhere a variable command begins that is none. -/
def BadVariable (s : List UInt8) : Prop :=
  ∃ a m, s = a ++ (cmdVar ++ m) ∧ ¬ ClosesName m

theorem isCommand_cmdVar : IsCommand cmdVar := ⟨_, rfl, by decide⟩

theorem VarCommand.not_mem_name (c : VarCommand) {x : UInt8}
    (hx : x = leftBrace ∨ x = rightBrace) : x ∉ c.name := by
  intro hmem
  obtain ⟨hleft, hright⟩ := not_brace_of_valid (c.valid x hmem)
  rcases hx with hx | hx
  · exact hleft hx
  · exact hright hx

theorem VarCommand.isCommand_print (c : VarCommand) : IsCommand c.print := by
  obtain ⟨w, hw, hbrace⟩ := isCommand_cmdVar
  refine ⟨w ++ (c.name ++ [rightBrace]), by rw [print, hw, List.cons_append], ?_⟩
  rw [List.mem_append, List.mem_append, not_or, not_or]
  exact ⟨hbrace, c.not_mem_name (.inl rfl), by decide⟩

theorem VarCommand.print_append (c : VarCommand) (s : List UInt8) :
    c.print ++ s = cmdVar ++ (c.name ++ rightBrace :: s) := by
  rw [print, List.append_assoc, List.append_assoc, List.singleton_append]

theorem VarCommand.prefix_print (c : VarCommand) (s : List UInt8) : cmdVar <+: c.print ++ s := by
  rw [print_append]
  exact List.prefix_append _ _

/-- The characters up to the brace. -/
theorem VarCommand.takeWhile_name (c : VarCommand) (s : List UInt8) :
    (c.name ++ rightBrace :: s).takeWhile isValidTplVariableCharacter = c.name := by
  rw [List.takeWhile_append_of_pos c.valid, List.takeWhile_cons_of_neg (by decide),
    List.append_nil]

/-- The commands of a text are variables. -/
theorem VarText.not_badVariable (v : VarText) : ¬ BadVariable v.print := by
  rintro ⟨a, m, h, hbad⟩
  induction v generalizing a with
  | last t => exact t.plain ⟨a, m, by rw [List.append_assoc]; exact h.symm⟩
  | var t c rest ih =>
      obtain ⟨a₁, rfl, h₁⟩ := occurs_behind_text isCommand_cmdVar t.plain
        (c.isCommand_print.follower _) h (List.prefix_append _ _)
      rcases occurs_behind_command isCommand_cmdVar c.isCommand_print h₁
        (List.prefix_append _ _) with rfl | ⟨a₂, rfl, h₂⟩
      · apply hbad
        refine ⟨c.name, rest.print, ?_, c.ne_nil, c.valid⟩
        simpa [VarCommand.print] using h₁.symm
      · exact ih a₂ h₂

theorem takeWhile_ne_nul {s : List UInt8} (hnul : nul ∉ s) : s.takeWhile (· ≠ nul) = s := by
  rw [List.takeWhile_eq_self_iff]
  intro c hc
  have hne : c ≠ nul := fun heq => hnul (heq ▸ hc)
  simpa using hne

/-- The search for a command in the text. -/
theorem strstr_print {t : PlainText} {s : List UInt8} (hnul : nul ∉ t.text ++ s) (hs : Follower s)
    (hpre : cmdVar <+: s) : strstr cmdVar (t.text ++ s) = some (t.text, s) := by
  have hscan : scanToPat cmdVar (t.text ++ s) = some (t.text, s) := by
    refine (scanToPat_eq_some_iff _ _ _ _).2 ⟨rfl, ?_, hpre, ?_⟩
    · rintro rfl
      exact absurd hpre (by decide)
    · intro a₁ a₂ ha hne hocc
      have hsplit : t.text ++ s = a₁ ++ (a₂ ++ s) := by rw [← List.append_assoc, ← ha]
      obtain ⟨c, hc, -⟩ := occurs_behind_text isCommand_cmdVar t.plain hs hsplit hocc
      apply hne
      have hlen := congrArg List.length (ha.trans (congrArg (· ++ a₂) hc))
      simp only [List.length_append] at hlen
      exact List.length_eq_zero_iff.1 (by omega)
  rw [strstr, takeWhile_ne_nul hnul, hscan, Option.map_some, List.drop_left]

/-! ## The variables that are found -/

/-- The loop of `parse_variables` finds the commands of the text. -/
theorem VarText.parseVariablesLoop_print {v : VarText} (hnul : nul ∉ v.print) {n : Nat}
    (hn : v.print.length ≤ n) (p : Nat) :
    parseVariablesLoop n p v.print = some (v.elements p, p + v.frontLength) := by
  induction v generalizing n p with
  | last t => exact parseVariablesLoop_none (strstr_eq_none (by decide) t.plain) n p
  | var t c rest ih =>
      have hstr := strstr_print hnul (c.isCommand_print.follower rest.print)
        (c.prefix_print rest.print)
      have hdrop : (c.print ++ rest.print).drop cmdVar.length =
          c.name ++ rightBrace :: rest.print := by
        rw [c.print_append, List.drop_left]
      have hbehind : (c.name ++ rightBrace :: rest.print).drop (c.name.length + 1) =
          rest.print := by
        rw [← List.drop_drop, List.drop_left, List.drop_one, List.tail_cons]
      have hlen : c.print.length = cmdVar.length + (c.name.length + 1) := by
        simp only [VarCommand.print, List.length_append, List.length_singleton]
      simp only [print, List.mem_append, not_or, List.length_append] at hnul hn
      obtain ⟨n, rfl⟩ : ∃ k, n = k + 1 := Nat.exists_eq_succ_of_ne_zero (by omega)
      have hrest := ih hnul.2.2 (show rest.print.length ≤ n by omega)
        (p + t.text.length + c.print.length)
      have hplace : p + t.text.length + cmdVar.length + c.name.length + 1 =
          p + t.text.length + c.print.length := by omega
      simp only [parseVariablesLoop, print, hstr, hdrop, c.takeWhile_name, List.drop_left,
        List.head?_cons, ne_eq, not_true_eq_false, c.ne_nil, or_self, if_false, hbehind, hplace,
        hrest, Option.map_some, elements, frontLength]
      rw [← Nat.add_assoc, ← Nat.add_assoc]

/-- What is before the first command has none. -/
theorem plain_of_strstr {s a r : List UInt8} (h : strstr cmdVar s = some (a, r)) :
    ¬ cmdVar <:+: a := by
  obtain ⟨⟨a', r'⟩, hscan, heq⟩ := Option.map_eq_some_iff.1 h
  obtain ⟨rfl, -⟩ := Prod.mk.inj heq
  obtain ⟨-, -, -, hfirst⟩ := (scanToPat_eq_some_iff cmdVar _ a' r').1 hscan
  rintro ⟨x, y, hxy⟩
  refine hfirst x (cmdVar ++ y) (hxy.symm.trans (List.append_assoc _ _ _)) (by simp [cmdVar]) ?_
  rw [List.append_assoc]
  exact List.prefix_append _ _

/-- What there is behind the beginning of a command. -/
theorem closesName_iff {m name b : List UInt8} (hm : m = name ++ b)
    (hvalid : ∀ c ∈ name, isValidTplVariableCharacter c = true)
    (hb : ∀ c ∈ b.head?, isValidTplVariableCharacter c = false) :
    ClosesName m ↔ b.head? = some rightBrace ∧ name ≠ [] := by
  subst hm
  constructor
  · rintro ⟨name', rest, hsplit, hne, hvalid'⟩
    have htake := congrArg (List.takeWhile isValidTplVariableCharacter) hsplit
    have hnil : b.takeWhile isValidTplVariableCharacter = [] := by
      cases b with
      | nil => rfl
      | cons c b => exact List.takeWhile_cons_of_neg (by simp [hb c rfl])
    rw [List.takeWhile_append_of_pos hvalid, hnil, List.append_nil,
      (VarCommand.mk name' hne hvalid').takeWhile_name] at htake
    subst htake
    rw [List.append_cancel_left_eq] at hsplit
    exact ⟨by rw [hsplit, List.head?_cons], hne⟩
  · rintro ⟨hhead, hne⟩
    cases b with
    | nil => simp at hhead
    | cons c b =>
        obtain rfl := Option.some.inj hhead
        exact ⟨name, b, rfl, hne, hvalid⟩

/-- A text is a sequence of plain texts and variables, or nothing is found in it. -/
theorem exists_varText {s : List UInt8} (hnul : nul ∉ s) :
    (∃ v : VarText, v.print = s) ∨
      BadVariable s ∧ ∀ n p, s.length ≤ n → parseVariablesLoop n p s = none := by
  induction hlen : s.length using Nat.strong_induction_on generalizing s with
  | _ len ih =>
  cases hstr : strstr cmdVar s with
  | none =>
      have hscan : scanToPat cmdVar (s.takeWhile (· ≠ nul)) = none := Option.map_eq_none_iff.1 hstr
      rw [takeWhile_ne_nul hnul, scanToPat_eq_none_iff (by decide)] at hscan
      exact .inl ⟨.last ⟨s, hscan⟩, rfl⟩
  | some e =>
      obtain ⟨a, r⟩ := e
      obtain ⟨rfl, m, rfl⟩ := strstr_eq_some hstr
      obtain ⟨name, b, hm, htake, -, hvalid, hb⟩ := exists_span isValidTplVariableCharacter m
      have hrounds : ∀ n, (a ++ (cmdVar ++ m)).length ≤ n → ∃ k, n = k + 1 := by
        intro n hn
        apply Nat.exists_eq_succ_of_ne_zero
        rintro rfl
        simp [cmdVar] at hn
      by_cases hclose : b.head? = some rightBrace ∧ name ≠ []
      · obtain ⟨hhead, hne⟩ := hclose
        obtain ⟨rest, rfl⟩ : ∃ rest, b = rightBrace :: rest := by
          cases b with
          | nil => simp at hhead
          | cons c rest => exact ⟨rest, by rw [Option.some.inj hhead]⟩
        subst hm
        have hbehind : (name ++ rightBrace :: rest).drop (name.length + 1) = rest := by
          rw [← List.drop_drop, List.drop_left, List.drop_one, List.tail_cons]
        simp only [List.mem_append, List.mem_cons, not_or] at hnul
        have hshort := hlen
        simp only [List.length_append, List.length_cons] at hshort
        rcases ih rest.length (by omega) hnul.2.2.2.2 rfl with ⟨v, rfl⟩ | ⟨hbad, hnone⟩
        · refine .inl ⟨.var ⟨a, plain_of_strstr hstr⟩ ⟨name, hne, hvalid⟩ v, ?_⟩
          simp [VarText.print, VarCommand.print]
        · obtain ⟨a', m', rfl, hopen⟩ := hbad
          refine .inr ⟨⟨a ++ (cmdVar ++ (name ++ rightBrace :: a')), m', by simp, hopen⟩, ?_⟩
          intro n p hn
          obtain ⟨n, rfl⟩ := hrounds n (hlen ▸ hn)
          have hrest : (a' ++ (cmdVar ++ m')).length ≤ n := by omega
          simp only [parseVariablesLoop, hstr, List.drop_left, htake, List.head?_cons, ne_eq,
            not_true_eq_false, hne, or_self, if_false, hbehind, hnone n _ hrest, Option.map_none]
      · have hopen : ¬ ClosesName m := fun h => hclose ((closesName_iff hm hvalid hb).1 h)
        refine .inr ⟨⟨a, m, rfl, hopen⟩, ?_⟩
        intro n p hn
        obtain ⟨n, rfl⟩ := hrounds n (by omega)
        have hcond : (m.drop name.length).head? ≠ some rightBrace ∨ name = [] := by
          rw [hm, List.drop_left]
          by_cases hne : name = []
          · exact .inr hne
          · exact .inl fun hhead => hclose ⟨hhead, hne⟩
        simp only [parseVariablesLoop, hstr, List.drop_left, htake, hcond, if_true]

/-! ## The values that are filled in -/

/-- The elements stand for the text with its values. -/
theorem VarText.expand_elements {scope : Scope} {value : List UInt8 → List UInt8} {v : VarText}
    (hvalue : ∀ name ∈ v.names, (value name).length < 2 ^ 32 →
      scope.value none (calcChecksum name) = value name)
    (hlen : (v.fill value).length < 2 ^ 32) (front : List UInt8) :
    (v.elements front.length).flatMap (TplBlock.expand scope none (front ++ v.print)) ++
      v.final.text = v.fill value := by
  induction v generalizing front with
  | last t => rfl
  | var t c rest ih =>
      simp only [fill, List.length_append] at hlen
      simp only [names, List.mem_cons, forall_eq_or_imp] at hvalue
      have hplace : front.length + t.text.length + c.print.length =
          (front ++ (t.text ++ c.print)).length := by
        simp only [List.length_append]
        omega
      have hcontent : front ++ (t.text ++ (c.print ++ rest.print)) =
          front ++ (t.text ++ c.print) ++ rest.print := by simp
      have hrest := ih hvalue.2 (by omega) (front ++ (t.text ++ c.print))
      have htext : ((if t.text = [] then [] else
          [(⟨front.length, .text (uint t.text.length), 0, 0⟩ : TplBlock)]).flatMap
            (TplBlock.expand scope none (front ++ (t.text ++ (c.print ++ rest.print))))) =
          t.text := by
        split_ifs with hnil
        · exact hnil.symm
        · rw [uint_natCast (by omega)]
          simp [TplBlock.expand]
      have hvar : TplBlock.expand scope none (front ++ (t.text ++ (c.print ++ rest.print)))
          ⟨front.length + t.text.length + cmdVar.length, .var (calcChecksum (variableName c.name)),
            0, 0⟩ = value (variableName c.name) := hvalue.1 (by omega)
      rw [elements, print, List.flatMap_append, List.flatMap_cons, htext, hvar, hplace, hcontent,
        final, fill, List.append_assoc, List.append_assoc, hrest]

theorem VarText.length_final_le (v : VarText) (value : List UInt8 → List UInt8) :
    v.final.text.length ≤ (v.fill value).length := by
  induction v with
  | last t => exact le_refl _
  | var t c rest ih =>
      simp only [final, fill, List.length_append]
      omega

theorem VarText.drop_print (v : VarText) : v.print.drop v.frontLength = v.final.text := by
  induction v with
  | last t => rfl
  | var t c rest ih =>
      rw [print, frontLength, final, ← List.append_assoc, ← List.length_append, ← List.drop_drop,
        List.drop_left, ih]

/-! ## The compiled template -/

/-- What a text without blocks is compiled to. -/
theorem compileContent_noBlocks {exec : PcreExec} {s : List UInt8} (hexec : exec s 0 = none) :
    compileContent exec s = if uint s.length = 0 then none else
      (pieceVector s (rootRegion s) 0 (uint s.length)).map fun v =>
        Template.adjustOffsets ⟨setBlockLength v, s⟩ := by
  have hstop : ((rootRegion s).stop : Int) - (0 : Nat) = uint s.length := by
    simp [rootRegion, TplRegion.stop]
  rw [compileContent, parseBlocks, findBlocks, hexec, Option.bind_some, List.tail_cons,
    processBlocks, finishBlock, hstop]
  by_cases hzero : uint s.length = 0
  · simp [hzero]
  · have hzero' : (uint s.length : Int) ≠ 0 := by omega
    rw [if_pos hzero', if_neg hzero]
    cases hv : pieceVector s (rootRegion s) 0 (uint s.length) with
    | none => rfl
    | some v =>
        obtain ⟨w, hw, rfl⟩ := Option.map_eq_some_iff.1 hv
        obtain ⟨es, e, -, -, -, rfl⟩ := parseVariables_eq_some hw
        simp

/-- The elements of the root are rendered one behind the other. -/
theorem pieceVector_renders {s : List UInt8} {len : Nat} {v : List TplBlock}
    (h : parseVariables s len = some v) :
    ∃ upper, pieceVector s (rootRegion s) 0 len = some upper ∧
      ((∀ b ∈ v, b.Inside s.length) → ∀ scope blocks,
        TplComplete (Template.adjustOffsets ⟨setBlockLength upper, s⟩) scope blocks
          (v.flatMap (TplBlock.expand scope none s))) := by
  rw [pieceVector, List.drop_zero, h, Option.map_some]
  refine ⟨_, rfl, ?_⟩
  intro hin scope blocks
  obtain ⟨es, e, -, -, -, hv⟩ := parseVariables_eq_some h
  have hsame : (v.map fun b =>
      { b with
        contentOffset := b.contentOffset + 0
        blockChecksum := (rootRegion s).blockChecksum }).flatMap (TplBlock.expand scope none s) =
      v.flatMap (TplBlock.expand scope none s) := by
    rw [List.flatMap_map]
    rfl
  rw [← hsame]
  refine tplComplete_outside (by simp [hv]) ?_ ?_ scope blocks
  · intro b hb
    obtain ⟨c, -, rfl⟩ := List.mem_map.1 hb
    rfl
  · intro b hb
    obtain ⟨c, hc, rfl⟩ := List.mem_map.1 hb
    exact hin c hc

/-- A text is compiled unless its length is a multiple of `2 ^ 32`, and renders to the
text with its values. -/
theorem VarText.compileContent_print {exec : PcreExec} {v : VarText} (hexec : exec v.print 0 = none)
    (hnul : nul ∉ v.print) (hlen : uint v.print.length ≠ 0) :
    ∃ t, compileContent exec v.print = some t ∧
      ∀ (scope : Scope) (value : List UInt8 → List UInt8),
        (∀ name ∈ v.names, (value name).length < 2 ^ 32 →
          scope.value none (calcChecksum name) = value name) →
        (v.fill value).length < 2 ^ 32 → ∀ blocks, TplComplete t scope blocks (v.fill value) := by
  have hloop := parseVariablesLoop_print hnul (le_refl _) 0
  obtain ⟨-, -, hin⟩ := parseVariablesLoop_inside hloop
  rw [Nat.zero_add] at hloop hin
  have hprint := v.length_print
  have hparse : parseVariables v.print (uint v.print.length) = some (v.elements 0 ++
      [⟨v.frontLength, .text (uint (uint v.print.length - (v.frontLength : Int))), 0, 0⟩]) := by
    rw [parseVariables, hloop, Option.map_some]
  obtain ⟨upper, hupper, hrender⟩ := pieceVector_renders hparse
  rw [compileContent_noBlocks hexec, if_neg hlen, hupper, Option.map_some]
  refine ⟨_, rfl, ?_⟩
  intro scope value hvalue hfill blocks
  have hfinal := Nat.lt_of_le_of_lt (v.length_final_le value) hfill
  have hlast : uint (uint v.print.length - (v.frontLength : Int)) = v.final.text.length := by
    rw [hprint]
    unfold uint
    omega
  rw [hlast] at hrender
  have hexpand : (v.elements 0 ++
      [(⟨v.frontLength, .text v.final.text.length, 0, 0⟩ : TplBlock)]).flatMap
        (TplBlock.expand scope none v.print) = v.fill value := by
    have helements := expand_elements hvalue hfill []
    rw [List.flatMap_append, List.flatMap_singleton]
    simpa [TplBlock.expand, v.drop_print] using helements
  rw [← hexpand]
  refine hrender ?_ scope blocks
  intro b hb
  rcases List.mem_append.1 hb with hb | hb
  · exact (hin b hb).mono (by omega)
  · obtain rfl := List.mem_singleton.1 hb
    intro len htype
    obtain rfl := TplType.text.inj htype
    exact hprint.ge

/-! ## Values -/

/-- The array that a sequence of calls leaves. -/
def variablesOf (calls : List TplSetCall) : List AssocVariable :=
  (calls.foldl TplSetCall.setVar []).map ContextVariable.toAssocVariable

/-- The same for the global variables. -/
def globalVariablesOf (calls : List TplSetCall) : List AssocVariable :=
  (calls.foldl TplSetCall.setGlobalVar []).map ContextVariable.toAssocVariable

/-- The variables of a rendering. There need not be a context. -/
def scopeOf (ctx : Option (List TplSetCall)) (globals : List TplSetCall) : Scope :=
  ⟨ctx.map variablesOf, globalVariablesOf globals⟩

/-- The value in the context, else the global value, else nothing. -/
def valueOf (ctx : Option (List TplSetCall)) (globals : List TplSetCall) (name : List UInt8) :
    List UInt8 :=
  ((ctx.bind (lastSet fun n => n = name)).or (lastSet (fun n => n = name) globals)).getD []

/-- The names in the commands of a text. -/
def commandNames (s : List UInt8) : List (List UInt8) :=
  (s.tails.filter fun r => decide (cmdVar <+: r)).map fun r =>
    variableName ((r.drop cmdVar.length).takeWhile isValidTplVariableCharacter)

/-- No name that was set has the checksum of another name in the text. -/
def NamesSeparated (calls : List TplSetCall) (s : List UInt8) : Prop :=
  ∀ call ∈ calls, ∀ name ∈ commandNames s,
    calcChecksum call.name = calcChecksum name → call.name = name

instance NamesSeparated.decidable (calls : List TplSetCall) (s : List UInt8) :
    Decidable (NamesSeparated calls s) :=
  inferInstanceAs (Decidable (∀ call ∈ calls, ∀ name ∈ commandNames s, _ → _))

theorem VarText.mem_commandNames {v : VarText} {name : List UInt8} (h : name ∈ v.names)
    (front : List UInt8) : name ∈ commandNames (front ++ v.print) := by
  induction v generalizing front with
  | last t => simp [names] at h
  | var t c rest ih =>
      rcases List.mem_cons.1 h with rfl | h
      · refine List.mem_map.2 ⟨c.print ++ rest.print, List.mem_filter.2 ⟨?_, ?_⟩, ?_⟩
        · exact (List.mem_tails _ _).2 ⟨front ++ t.text, by simp [print]⟩
        · simp [c.prefix_print rest.print]
        · rw [c.print_append, List.drop_left, c.takeWhile_name]
      · have hrest := ih h (front ++ (t.text ++ c.print))
        simpa [print] using hrest

/-- A checksum stands for a name. -/
theorem getVar_variablesOf {calls : List TplSetCall} {s name : List UInt8}
    (hnames : NamesSeparated calls s) (hname : name ∈ commandNames s) :
    getVar (variablesOf calls) (calcChecksum name) =
      (lastSet (fun n => n = name) calls).map fun v => v.take (uint v.length) := by
  rw [variablesOf, getVar_foldl_setVar]
  congr 1
  exact lastSet_congr fun call hcall =>
    ⟨hnames call hcall name hname, fun heq => by rw [heq]⟩

/-- The value that is found is the value that was set, unless it is too long. -/
theorem value_scopeOf {ctx : Option (List TplSetCall)} {globals : List TplSetCall}
    {s name : List UInt8} (hctx : ∀ calls ∈ ctx, NamesSeparated calls s)
    (hglobals : NamesSeparated globals s) (hname : name ∈ commandNames s)
    (hlen : (valueOf ctx globals name).length < 2 ^ 32) :
    (scopeOf ctx globals).value none (calcChecksum name) = valueOf ctx globals name := by
  have hglobal : getVar (globalVariablesOf globals) (calcChecksum name) =
      (lastSet (fun n => n = name) globals).map fun v => v.take (uint v.length) :=
    getVar_variablesOf hglobals hname
  have hlocal : ((ctx.map variablesOf).bind fun vars => getVar vars (calcChecksum name)) =
      (ctx.bind (lastSet fun n => n = name)).map fun v => v.take (uint v.length) := by
    cases ctx with
    | none => rfl
    | some calls => exact getVar_variablesOf (hctx calls rfl) hname
  rw [Scope.value, scopeOf, hlocal, hglobal, Option.bind_none, Option.none_or, ← Option.map_or]
  unfold valueOf at hlen ⊢
  cases h : (ctx.bind (lastSet fun n => n = name)).or (lastSet (fun n => n = name) globals) with
  | none => rfl
  | some v =>
      rw [h, Option.getD_some] at hlen
      rw [Option.map_some, Option.getD_some, Option.getD_some, uint_natCast hlen, List.take_length]

/-- The text determines what is filled in. -/
theorem VarText.fill_eq_of_print_eq {v w : VarText} (h : v.print = w.print)
    (value : List UInt8 → List UInt8) : v.fill value = w.fill value := by
  induction v generalizing w with
  | last t =>
      cases w with
      | last t' => exact h
      | var t' c' rest' =>
          rw [print, print] at h
          exact absurd (h ▸ (c'.prefix_print rest'.print).isInfix.trans
            (List.suffix_append t'.text _).isInfix) t.plain
  | var t c rest ih =>
      cases w with
      | last t' =>
          rw [print, print] at h
          exact absurd (h ▸ (c.prefix_print rest.print).isInfix.trans
            (List.suffix_append t.text _).isInfix) t'.plain
      | var t' c' rest' =>
          rw [print, print] at h
          -- each text ends where the first command of the other begins
          obtain ⟨x, hx, -⟩ := occurs_behind_text isCommand_cmdVar t.plain
            (c.isCommand_print.follower _) h (c'.prefix_print _)
          obtain ⟨y, hy, -⟩ := occurs_behind_text isCommand_cmdVar t'.plain
            (c'.isCommand_print.follower _) h.symm (c.prefix_print _)
          have hlen := congrArg List.length hx
          have hlen' := congrArg List.length hy
          rw [List.length_append] at hlen hlen'
          obtain rfl : x = [] := List.length_eq_zero_iff.1 (by omega)
          rw [List.append_nil] at hx
          rw [hx, List.append_cancel_left_eq, c.print_append, c'.print_append,
            List.append_cancel_left_eq] at h
          obtain ⟨hname, hrest⟩ := append_cons_inj (c.not_mem_name (.inr rfl))
            (c'.not_mem_name (.inr rfl)) h
          rw [fill, fill, hx, hname, ih hrest]

/-! ## Calls -/

section Calls

variable (exec : PcreExec) (update : TplCacheUpdate) (files : TplFiles) (file : List UInt8)
  (compiled : List CompiledTemplate) (ctx : Option (List TplSetCall)) (globals : List TplSetCall)
  (addr : Nat → Int) (out : FilledBuf)

/-- `tpl_compile` returns `NULL` exactly for a text that is empty or has a bad variable
command, and otherwise a template for which `tpl_complete` appends the text with its
values to the buffer. -/
def Substitutes (text : List UInt8) : Prop :=
  ∃ r compiled', tplCompile exec update files 1 true file compiled = some (r, compiled') ∧
    (r = none ↔ text = [] ∨ BadVariable text) ∧
    ∀ t ∈ r, ∃ v : VarText, v.print = text ∧
      ∃ b, TplCompleteInto t (scopeOf ctx globals) [] addr out.toBuf b ∧
        Appended out.toBuf b (v.fill (valueOf ctx globals))

variable {exec update files file compiled ctx globals addr out}

variable (exec update) in
/-- A file without includes that was not compiled before. -/
theorem tplCompile_new {f : TplFile} (hfile : files file = some f)
    (hnew : findCompiled (adler32 file) compiled = none) (hinclude : ¬ cmdInclude <:+: f.content) :
    ∃ compiled', tplCompile exec update files 1 true file compiled =
      some (compileContent exec f.content, compiled') := by
  have hgather : gather files 1 f.content.length [] f.content = .ok f.content f.content.length := by
    rw [gather, includeCommand, strstr_eq_none (by decide) hinclude]
    rfl
  have hdate : (if update = .sourceModified then upToDate files file compiled else none) =
      none := by
    split_ifs
    · simp [upToDate, hfile, hnew]
    · rfl
  rw [tplCompile, hnew]
  simp only [Option.isSome_none, Bool.false_eq_true, and_false, if_false, reduceCtorEq, hdate,
    hfile, hgather]
  cases compileContent exec f.content with
  | none => exact ⟨_, rfl⟩
  | some t => exact ⟨_, rfl⟩

/-- The buffer has room for the text with its values. -/
theorem Substitutes.room {v : VarText}
    (h : Substitutes exec update files file compiled ctx globals addr out v.print)
    (hne : v.print ≠ []) :
    out.curLen + (v.fill (valueOf ctx globals)).length < 2 ^ 32 := by
  obtain ⟨r, compiled', -, hnull, hfill⟩ := h
  cases r with
  | none => exact absurd (hnull.1 rfl) (not_or.2 ⟨hne, v.not_badVariable⟩)
  | some t =>
      obtain ⟨w, hw, b, hb, happ⟩ := hfill t rfl
      rw [VarText.fill_eq_of_print_eq hw.symm, ← happ.curLen]
      exact hb.curLen_lt out.short

/-- The condition under which the lengths are enough. -/
def LengthsFit (text : List UInt8) (ctx : Option (List TplSetCall)) (globals : List TplSetCall)
    (out : FilledBuf) : Prop :=
  text.length % 2 ^ 32 ≠ 0 ∧ ∃ v : VarText, v.print = text ∧
    out.curLen + (v.fill (valueOf ctx globals)).length < 2 ^ 32

/-- The variables of a text are substituted if and only if the text is empty, has a bad
variable command, or the lengths fit. -/
theorem substitutes_iff {f : TplFile} (hfile : files file = some f)
    (hnew : findCompiled (adler32 file) compiled = none) (hinclude : ¬ cmdInclude <:+: f.content)
    (hblock : ¬ cmdBlock <:+: f.content) (hexec : Finds exec f.content)
    (hctx : ∀ calls ∈ ctx, NamesSeparated calls f.content)
    (hglobals : NamesSeparated globals f.content) :
    Substitutes exec update files file compiled ctx globals addr out f.content ↔
      f.content = [] ∨ BadVariable f.content ∨ LengthsFit f.content ctx globals out := by
  have hnone := hexec.eq_none (not_matchAt hblock) 0
  have huint : uint f.content.length = f.content.length % 2 ^ 32 := by
    unfold uint
    omega
  obtain ⟨compiled', hcall⟩ := tplCompile_new exec update hfile hnew hinclude
  rcases exists_varText f.noNul with ⟨v, hv⟩ | ⟨hbad, hloop⟩
  · by_cases hempty : f.content = []
    · refine iff_of_true ⟨none, compiled', ?_, by simp [hempty], by simp⟩ (.inl hempty)
      rw [hcall, compileContent_noBlocks hnone, hempty, if_pos (by decide)]
    · have hgood : ¬ BadVariable f.content := hv ▸ v.not_badVariable
      constructor
      · intro h
        have hroom := Substitutes.room (hv.symm ▸ h) (hv ▸ hempty)
        refine .inr (.inr ⟨?_, v, hv, hroom⟩)
        intro hzero
        obtain ⟨r, compiled'', hcall', hnull, -⟩ := h
        rw [hcall, compileContent_noBlocks hnone, if_pos (huint.trans hzero)] at hcall'
        obtain ⟨rfl, -⟩ := Prod.mk.inj (Option.some.inj hcall')
        exact absurd (hnull.1 rfl) (not_or.2 ⟨hempty, hgood⟩)
      · rintro (h | h | ⟨hlen, w, hw, hroom⟩)
        · exact absurd h hempty
        · exact absurd h hgood
        · have hlen' : uint w.print.length ≠ 0 := by rwa [hw, huint]
          obtain ⟨t, ht, hrender⟩ :=
            w.compileContent_print (hw.symm ▸ hnone) (hw.symm ▸ f.noNul) hlen'
          rw [hw] at ht
          refine ⟨some t, compiled', by rw [hcall, ht], by simp [hempty, hgood], ?_⟩
          rintro t' ⟨rfl⟩
          have hout := hrender (scopeOf ctx globals) (valueOf ctx globals) (fun name hname hshort =>
            value_scopeOf hctx hglobals (hw ▸ w.mem_commandNames hname []) hshort) (by omega) []
          obtain ⟨b, hb, happ⟩ := hout.appended addr out.filled hroom
          exact ⟨w, hw, b, hb, happ⟩
  · refine iff_of_true ⟨none, compiled', ?_, by simp [hbad], by simp⟩ (.inr (.inl hbad))
    rw [hcall, compileContent_noBlocks hnone, pieceVector, parseVariables, List.drop_zero,
      hloop _ _ (le_refl _)]
    simp

end Calls

theorem finds_noBlocks {s : List UInt8} (h : ¬ cmdBlock <:+: s) : Finds noBlocks s :=
  fun _ p m _ => not_matchAt h p m

/-- The page `Hi {$ name }!{$ x}`. -/
def greeting : VarText :=
  .var ⟨ascii "Hi ", by decide +kernel⟩ ⟨ascii "name ", by decide +kernel, by decide +kernel⟩
    (.var ⟨ascii "!", by decide +kernel⟩ ⟨ascii "x", by decide +kernel, by decide +kernel⟩
      (.last ⟨[], by decide +kernel⟩))

theorem substitutes_greeting :
    Substitutes noBlocks .never
      (fun _ => some ⟨greeting.print, 1, by decide +kernel⟩) (ascii "page") []
      (some [⟨false, ascii "name", ascii "Ann"⟩, ⟨true, ascii "name", ascii "Bob"⟩])
      [⟨false, ascii "x", ascii "?"⟩, ⟨true, ascii "name", ascii "all"⟩] (fun n => n)
      ⟨⟨2, 16, 0, ascii "> "⟩, by decide +kernel, by decide +kernel⟩ greeting.print :=
  (substitutes_iff (f := ⟨greeting.print, 1, by decide +kernel⟩) rfl rfl (by decide +kernel)
    (by decide +kernel) (finds_noBlocks (by decide +kernel))
    (by decide +kernel) (by decide +kernel)).2
    (.inr (.inr ⟨by decide +kernel, greeting, rfl, by decide +kernel⟩))

/-- The page `{$ a}{$ a}`. -/
def twice : VarText :=
  .var ⟨[], by decide +kernel⟩ ⟨ascii "a", by decide +kernel, by decide +kernel⟩
    (.var ⟨[], by decide +kernel⟩ ⟨ascii "a", by decide +kernel, by decide +kernel⟩
      (.last ⟨[], by decide +kernel⟩))

theorem length_fill_twice (value : List UInt8) :
    (twice.fill (valueOf (some [⟨false, ascii "a", value⟩]) [])).length =
      value.length + value.length := by
  have hname : variableName (ascii "a") = ascii "a" := by decide
  have hvalue : valueOf (some [⟨false, ascii "a", value⟩]) [] (ascii "a") = value := by
    simp [valueOf, lastSet]
  simp only [twice, VarText.fill, hname, hvalue, List.nil_append, List.append_nil,
    List.length_append]

/-- A value of `2 ^ 31` bytes that is filled in twice. -/
theorem not_substitutes_twice :
    ¬ Substitutes noBlocks .never
      (fun _ => some ⟨twice.print, 1, by decide +kernel⟩) (ascii "page") []
      (some [⟨false, ascii "a", List.replicate (2 ^ 31) 120⟩]) [] (fun n => n)
      ⟨⟨0, 65536, 0, []⟩, rfl, by decide +kernel⟩ twice.print := by
  intro h
  have hroom := h.room (by decide +kernel)
  rw [length_fill_twice, List.length_replicate] at hroom
  exact absurd hroom (by decide)

end OpenTube
