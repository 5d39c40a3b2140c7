import Mathlib.Data.List.Pairwise
import OpenTube.Template.Compile

/-!
# The blocks of a template

A template with properly nested blocks is a tree: a body is a text, or a text, a
block with its own body, and the rest of the body. `print` is the text of the
template. `Chosen` states what PCRE documents for the block expression

  `{block ([\w _-]+) *}(.*?){end \1 *}`

the match that begins first, of these the one with the longest name, and of these
the one with the shortest body. In the text of a tree these are the blocks of the
tree, one after another, and `findBlocks_print` says that the loop of
`parse_blocks` collects them.
-/

namespace OpenTube

open Scan

/-! ## Trees -/

/-- The name of a block and the spaces behind it in its two commands. Spaces that
both commands have belong to the name. -/
structure BlockTag where
  name : List UInt8
  pad : Nat
  endPad : Nat
  ne_nil : name ≠ []
  valid : ∀ c ∈ name, isValidTplVariableCharacter c = true
  pads : pad = 0 ∨ endPad = 0

/-- The words of the two commands. -/
def cmdBlock : List UInt8 := leftBrace :: ascii "block "

def cmdEnd : List UInt8 := leftBrace :: ascii "end "

/-- A command for a block. -/
def command (word name : List UInt8) (pad : Nat) : List UInt8 :=
  word ++ (name ++ (List.replicate pad space ++ [rightBrace]))

def BlockTag.opening (b : BlockTag) : List UInt8 := command cmdBlock b.name b.pad

def BlockTag.closing (b : BlockTag) : List UInt8 := command cmdEnd b.name b.endPad

/-- The body of a block, or a whole template. -/
inductive TplBody
  | last (text : List UInt8)
  | block (text : List UInt8) (tag : BlockTag) (inner rest : TplBody)

namespace TplBody

/-- The text of a body. -/
def print : TplBody → List UInt8
  | last t => t
  | block t b inner rest => t ++ (b.opening ++ (inner.print ++ (b.closing ++ rest.print)))

/-- The texts between the blocks, those inside the blocks included. -/
def texts : TplBody → List (List UInt8)
  | last t => [t]
  | block t _ inner rest => t :: (inner.texts ++ rest.texts)

/-- The blocks, in the order of their first commands. -/
def tags : TplBody → List BlockTag
  | last _ => []
  | block _ b inner rest => b :: (inner.tags ++ rest.tags)

/-- The commands in a template are those of its blocks, and no two names differ by
spaces at their ends only. -/
structure ProperlyNested (body : TplBody) : Prop where
  plain : ∀ t ∈ body.texts, ¬ cmdBlock <:+: t ∧ ¬ cmdEnd <:+: t
  distinct : body.tags.Pairwise fun b c =>
    ∀ i j, b.name ++ List.replicate i space ≠ c.name ++ List.replicate j space

end TplBody

/-- A block and its place in a text: the places of its first command, of its body
and of its second command. -/
structure Placed where
  tag : BlockTag
  start : Nat
  bodyStart : Nat
  bodyEnd : Nat

/-- The blocks of a body that begins at `p`. -/
def TplBody.placed : Nat → TplBody → List Placed
  | _, last _ => []
  | p, block t b inner rest =>
      let bodyStart := p + t.length + b.opening.length
      let bodyEnd := bodyStart + inner.print.length
      ⟨b, p + t.length, bodyStart, bodyEnd⟩ ::
        (inner.placed bodyStart ++ rest.placed (bodyEnd + b.closing.length))

theorem TplBody.map_tag_placed (body : TplBody) (p : Nat) :
    (body.placed p).map Placed.tag = body.tags := by
  induction body generalizing p with
  | last t => rfl
  | block t b inner rest ihInner ihRest =>
      simp only [placed, tags, List.map_cons, List.map_append, ihInner, ihRest]

/-! ## Commands -/

theorem not_brace_of_valid {c : UInt8} (h : isValidTplVariableCharacter c = true) :
    c ≠ leftBrace ∧ c ≠ rightBrace := by
  constructor
  · rintro rfl
    revert h
    decide
  · rintro rfl
    revert h
    decide

/-- The name and the spaces of a command have no brace. -/
theorem BlockTag.not_mem_padded (b : BlockTag) (pad : Nat) {c : UInt8}
    (hc : c = leftBrace ∨ c = rightBrace) : c ∉ b.name ++ List.replicate pad space := by
  intro hmem
  rcases List.mem_append.1 hmem with hmem | hmem
  · obtain ⟨hleft, hright⟩ := not_brace_of_valid (b.valid c hmem)
    rcases hc with rfl | rfl
    · exact hleft rfl
    · exact hright rfl
  · obtain rfl := (List.mem_replicate.1 hmem).2
    revert hc
    decide

/-- A command begins with a brace and has no other one before its end. -/
def IsCommand (cmd : List UInt8) : Prop := ∃ w, cmd = leftBrace :: w ∧ leftBrace ∉ w

theorem isCommand_cmdBlock : IsCommand cmdBlock := ⟨_, rfl, by decide⟩

theorem isCommand_cmdEnd : IsCommand cmdEnd := ⟨_, rfl, by decide⟩

theorem BlockTag.isCommand_command (b : BlockTag) {word : List UInt8} (h : IsCommand word)
    (pad : Nat) : IsCommand (command word b.name pad) := by
  obtain ⟨w, rfl, hw⟩ := h
  refine ⟨w ++ (b.name ++ (List.replicate pad space ++ [rightBrace])), rfl, ?_⟩
  intro hmem
  rcases List.mem_append.1 hmem with hmem | hmem
  · exact hw hmem
  · rw [← List.append_assoc] at hmem
    rcases List.mem_append.1 hmem with hmem | hmem
    · exact b.not_mem_padded pad (.inl rfl) hmem
    · revert hmem
      decide

theorem BlockTag.isCommand_opening (b : BlockTag) : IsCommand b.opening :=
  b.isCommand_command isCommand_cmdBlock b.pad

theorem BlockTag.isCommand_closing (b : BlockTag) : IsCommand b.closing :=
  b.isCommand_command isCommand_cmdEnd b.endPad

/-- What follows a text in a template: nothing, or a command. -/
def Follower (s : List UInt8) : Prop := s = [] ∨ s.head? = some leftBrace

theorem IsCommand.follower {cmd : List UInt8} (h : IsCommand cmd) (s : List UInt8) :
    Follower (cmd ++ s) := by
  obtain ⟨w, rfl, -⟩ := h
  exact .inr rfl

/-- An occurrence of a command word is not in a text without it, nor at its end. -/
theorem occurs_behind_text {pat t s₁ s₂ s : List UInt8} (hpat : IsCommand pat)
    (ht : ¬ pat <:+: t) (hs : Follower s) (h : t ++ s = s₁ ++ s₂) (hocc : pat <+: s₂) :
    ∃ c, s₁ = t ++ c ∧ s = c ++ s₂ := by
  rcases List.append_eq_append_iff.1 h with ⟨c, hc, hs₂⟩ | ⟨c, hc, hs₂⟩
  · exact ⟨c, hc, hs₂⟩
  · rcases c with _ | ⟨x, c⟩
    · exact ⟨[], by simp [hc], by simp [hs₂]⟩
    · exfalso
      obtain ⟨w, rfl, hw⟩ := hpat
      rw [hs₂] at hocc
      rcases List.prefix_or_prefix_of_prefix hocc (List.prefix_append (x :: c) s) with hin | ⟨d, hd⟩
      · refine ht (hin.isInfix.trans ⟨s₁, [], ?_⟩)
        simp [hc]
      · rw [← hd, List.prefix_append_right_inj] at hocc
        rcases d with _ | ⟨y, d⟩
        · refine ht ⟨s₁, [], ?_⟩
          rw [hc, ← hd]
          simp
        · have hy : y ∈ w := by
            rw [List.cons_append, List.cons.injEq] at hd
            rw [← hd.2]
            simp
          have hhead : s.head? = some y := by
            obtain ⟨z, rfl⟩ := hocc
            rfl
          rcases hs with rfl | hbrace
          · simp at hhead
          · rw [hhead] at hbrace
            exact hw (Option.some.inj hbrace ▸ hy)

/-- An occurrence of a command word is at the beginning of a command, or behind
it. -/
theorem occurs_behind_command {pat cmd s₁ s₂ s : List UInt8} (hpat : IsCommand pat)
    (hcmd : IsCommand cmd) (h : cmd ++ s = s₁ ++ s₂) (hocc : pat <+: s₂) :
    s₁ = [] ∨ ∃ c, s₁ = cmd ++ c ∧ s = c ++ s₂ := by
  rcases List.append_eq_append_iff.1 h with ⟨c, hc, hs₂⟩ | ⟨c, hc, hs₂⟩
  · exact .inr ⟨c, hc, hs₂⟩
  · obtain ⟨w, rfl, hw⟩ := hcmd
    obtain ⟨v, rfl, -⟩ := hpat
    rcases s₁ with _ | ⟨x, s₁⟩
    · exact .inl rfl
    · right
      rcases c with _ | ⟨y, c⟩
      · exact ⟨[], by simp [hc], by simp [hs₂]⟩
      · exfalso
        obtain ⟨z, rfl⟩ := hocc
        rw [List.cons_append, List.cons_append, List.cons.injEq] at hs₂
        rw [List.cons_append, List.cons.injEq] at hc
        refine hw ?_
        rw [hc.2, hs₂.1]
        simp

/-! ## The places of the blocks -/

/-- The text around a placed block. -/
theorem TplBody.placed_split (body : TplBody) (s₁ s₂ : List UInt8) {x : Placed}
    (hx : x ∈ body.placed s₁.length) :
    ∃ a mid z, s₁ ++ (body.print ++ s₂) = a ++ (x.tag.opening ++ (mid ++ (x.tag.closing ++ z))) ∧
      a.length = x.start ∧ x.bodyStart = x.start + x.tag.opening.length ∧
      x.bodyEnd = x.bodyStart + mid.length := by
  induction body generalizing s₁ s₂ with
  | last t => simp [placed] at hx
  | block t b inner rest ihInner ihRest =>
      simp only [placed, List.mem_cons, List.mem_append] at hx
      rcases hx with rfl | hx | hx
      · exact ⟨s₁ ++ t, inner.print, rest.print ++ s₂, by simp [print], by simp, rfl, rfl⟩
      · have hlen : s₁.length + t.length + b.opening.length = (s₁ ++ (t ++ b.opening)).length := by
          simp only [List.length_append]
          omega
        rw [hlen] at hx
        obtain ⟨a, mid, z, heq, hplaces⟩ := ihInner _ (b.closing ++ (rest.print ++ s₂)) hx
        exact ⟨a, mid, z, by rw [← heq]; simp [print], hplaces⟩
      · have hlen : s₁.length + t.length + b.opening.length + inner.print.length +
            b.closing.length = (s₁ ++ (t ++ (b.opening ++ (inner.print ++ b.closing)))).length := by
          simp only [List.length_append]
          omega
        rw [hlen] at hx
        obtain ⟨a, mid, z, heq, hplaces⟩ := ihRest _ s₂ hx
        exact ⟨a, mid, z, by rw [← heq]; simp [print], hplaces⟩

theorem length_command_pos (word name : List UInt8) (pad : Nat) :
    0 < (command word name pad).length := by
  simp only [command, List.length_append, List.length_singleton]
  omega

theorem BlockTag.length_opening_pos (b : BlockTag) : 0 < b.opening.length :=
  length_command_pos _ _ _

theorem BlockTag.length_closing_pos (b : BlockTag) : 0 < b.closing.length :=
  length_command_pos _ _ _

/-- A placed block lies in its body. -/
theorem TplBody.placed_bounds {body : TplBody} {p : Nat} {x : Placed} (hx : x ∈ body.placed p) :
    p ≤ x.start ∧ x.start < x.bodyStart ∧ x.bodyStart ≤ x.bodyEnd ∧
      x.bodyEnd < p + body.print.length := by
  induction body generalizing p with
  | last t => simp [placed] at hx
  | block t b inner rest ihInner ihRest =>
      have hopening := b.length_opening_pos
      have hclosing := b.length_closing_pos
      simp only [placed, List.mem_cons, List.mem_append] at hx
      simp only [print, List.length_append]
      rcases hx with rfl | hx | hx
      · simp only
        omega
      · have hin := ihInner hx
        omega
      · have hin := ihRest hx
        omega

/-- A block begins behind the command of the one before it, and lies inside its
body or behind it. -/
def Placed.Before (x y : Placed) : Prop :=
  x.bodyStart ≤ y.start ∧ (y.bodyEnd < x.bodyEnd ∨ x.bodyEnd < y.bodyStart)

theorem TplBody.pairwise_placed (body : TplBody) (p : Nat) :
    (body.placed p).Pairwise Placed.Before := by
  induction body generalizing p with
  | last t => exact List.Pairwise.nil
  | block t b inner rest ihInner ihRest =>
      rw [placed, List.pairwise_cons, List.pairwise_append]
      refine ⟨?_, ihInner _, ihRest _, ?_⟩
      · intro y hy
        simp only [Placed.Before]
        rcases List.mem_append.1 hy with hy | hy
        · have hin := placed_bounds hy
          omega
        · have hin := placed_bounds hy
          omega
      · intro x hx y hy
        have hin := placed_bounds hx
        have hbehind := placed_bounds hy
        simp only [Placed.Before]
        omega

/-- The command words occur at the places of the blocks only. -/
theorem TplBody.occurs {pat : List UInt8} (hpat : IsCommand pat) (body : TplBody)
    (htexts : ∀ t ∈ body.texts, ¬ pat <:+: t) (p : Nat) {s₁ s₂ s : List UInt8} (hs : Follower s)
    (h : body.print ++ s = s₁ ++ s₂) (hocc : pat <+: s₂) :
    (∃ x ∈ body.placed p, p + s₁.length = x.start ∨ p + s₁.length = x.bodyEnd) ∨
      ∃ c, s₁ = body.print ++ c ∧ s = c ++ s₂ := by
  induction body generalizing p s s₁ with
  | last t => exact .inr (occurs_behind_text hpat (htexts t (by simp [texts])) hs h hocc)
  | block t b inner rest ihInner ihRest =>
      simp only [texts, List.mem_cons, List.mem_append] at htexts
      simp only [print, List.append_assoc] at h
      simp only [placed, print, List.mem_cons, List.mem_append]
      obtain ⟨c₁, rfl, h₁⟩ := occurs_behind_text hpat (htexts t (.inl rfl))
        (b.isCommand_opening.follower _) h hocc
      rcases occurs_behind_command hpat b.isCommand_opening h₁ hocc with rfl | ⟨c₂, rfl, h₂⟩
      · exact .inl ⟨_, .inl rfl, .inl (by simp)⟩
      · rcases ihInner (fun t ht => htexts t (.inr (.inl ht))) (p + t.length + b.opening.length)
          (b.isCommand_closing.follower _) h₂ with ⟨x, hx, hplace⟩ | ⟨c₃, rfl, h₃⟩
        · refine .inl ⟨x, .inr (.inl hx), ?_⟩
          simp only [List.length_append]
          omega
        · rcases occurs_behind_command hpat b.isCommand_closing h₃ hocc with rfl | ⟨c₄, rfl, h₄⟩
          · refine .inl ⟨_, .inl rfl, .inr ?_⟩
            simp only [List.length_append, List.length_nil]
            omega
          · rcases ihRest (fun t ht => htexts t (.inr (.inr ht)))
              (p + t.length + b.opening.length + inner.print.length + b.closing.length) hs h₄ with
              ⟨x, hx, hplace⟩ | ⟨c₅, rfl, h₅⟩
            · refine .inl ⟨x, .inr (.inr hx), ?_⟩
              simp only [List.length_append]
              omega
            · exact .inr ⟨c₅, by simp, h₅⟩

/-! ## The block expression -/

/-- The expression matches at `p`. -/
def MatchAt (content : List UInt8) (p : Nat) (m : BlockMatch) : Prop :=
  ∃ name k body l, name ≠ [] ∧ (∀ c ∈ name, isValidTplVariableCharacter c = true) ∧
    command cmdBlock name k ++ (body ++ command cmdEnd name l) <+: content.drop p ∧
    m = ⟨p + cmdBlock.length, p + cmdBlock.length + name.length,
      p + (command cmdBlock name k).length, p + (command cmdBlock name k).length + body.length⟩

/-- The match PCRE documents: the first one, with the longest name, with the
shortest body. -/
def Chosen (content : List UInt8) (offset : Nat) : Option BlockMatch → Prop
  | none => ∀ p m, offset ≤ p → ¬ MatchAt content p m
  | some m => ∃ p, offset ≤ p ∧ MatchAt content p m ∧
      (∀ q m', offset ≤ q → q < p → ¬ MatchAt content q m') ∧
      ∀ m', MatchAt content p m' →
        m'.nameEnd ≤ m.nameEnd ∧ (m'.nameEnd = m.nameEnd → m.bodyEnd ≤ m'.bodyEnd)

/-- `pcre_exec` does what is documented on a text. -/
def Finds (exec : PcreExec) (content : List UInt8) : Prop :=
  ∀ offset, Chosen content offset (exec content offset)

/-- A padded name ends at the brace. -/
theorem command_inj {word : List UInt8} {name name' : List UInt8} {k k' : Nat} {s s' : List UInt8}
    (hname : ∀ c ∈ name, isValidTplVariableCharacter c = true)
    (hname' : ∀ c ∈ name', isValidTplVariableCharacter c = true)
    (h : command word name k ++ s = command word name' k' ++ s') :
    name ++ List.replicate k space = name' ++ List.replicate k' space ∧ s = s' := by
  have hbrace : ∀ {n : List UInt8} {k : Nat}, (∀ c ∈ n, isValidTplVariableCharacter c = true) →
      rightBrace ∉ n ++ List.replicate k space := by
    intro n k hn hmem
    rcases List.mem_append.1 hmem with hmem | hmem
    · exact (not_brace_of_valid (hn _ hmem)).2 rfl
    · have hspace := (List.mem_replicate.1 hmem).2
      revert hspace
      decide
  simp only [command, List.append_assoc, List.append_cancel_left_eq, List.singleton_append] at h
  rw [← List.append_assoc, ← List.append_assoc] at h
  exact append_cons_inj (hbrace hname) (hbrace hname') h

/-- The documented match is one. -/
theorem chosen_unique {content : List UInt8} {offset : Nat} {r r' : Option BlockMatch}
    (h : Chosen content offset r) (h' : Chosen content offset r') : r = r' := by
  cases r with
  | none =>
      cases r' with
      | none => rfl
      | some m' =>
          obtain ⟨p, hp, hm, -⟩ := h'
          exact absurd hm (h p m' hp)
  | some m =>
      obtain ⟨p, hp, hm, hfirst, hbest⟩ := h
      cases r' with
      | none => exact absurd hm (h' p m hp)
      | some m' =>
          obtain ⟨p', hp', hm', hfirst', hbest'⟩ := h'
          have hle : p ≤ p' := by
            by_contra hlt
            exact hfirst p' m' hp' (by omega) hm'
          have hge : p' ≤ p := by
            by_contra hlt
            exact hfirst' p m hp (by omega) hm
          obtain rfl : p = p' := by omega
          obtain ⟨hname, hbody⟩ := hbest m' hm'
          obtain ⟨hname', hbody'⟩ := hbest' m hm
          have hnames : m'.nameEnd = m.nameEnd := by omega
          have hbodies : m'.bodyEnd = m.bodyEnd :=
            Nat.le_antisymm (hbody' hnames.symm) (hbody hnames)
          obtain ⟨n, k, body, l, -, hn, hpre, rfl⟩ := hm
          obtain ⟨n', k', body', l', -, hn', hpre', rfl⟩ := hm'
          obtain ⟨z, hz⟩ := hpre
          obtain ⟨z', hz'⟩ := hpre'
          rw [← hz] at hz'
          simp only [List.append_assoc] at hz'
          have hpadded := congrArg List.length (command_inj hn' hn hz').1
          simp only [List.length_append, List.length_replicate] at hpadded
          simp only at hnames hbodies
          have hstart : (command cmdBlock n' k').length = (command cmdBlock n k).length := by
            simp only [command, List.length_append, List.length_replicate]
            omega
          rw [hnames, hbodies, hstart]

/-- The match of a block of a tree. -/
def Placed.blockMatch (x : Placed) : BlockMatch :=
  ⟨x.start + cmdBlock.length, x.start + cmdBlock.length + x.tag.name.length, x.bodyStart, x.bodyEnd⟩

section Printed

variable {body : TplBody} (hbody : body.ProperlyNested)

/-- The text from the places of a block on. -/
theorem TplBody.drop_print {x : Placed} (hx : x ∈ body.placed 0) :
    ∃ mid z, body.print.drop x.start = x.tag.opening ++ (mid ++ (x.tag.closing ++ z)) ∧
      body.print.drop x.bodyEnd = x.tag.closing ++ z ∧
      x.bodyStart = x.start + x.tag.opening.length ∧ x.bodyEnd = x.bodyStart + mid.length := by
  obtain ⟨a, mid, z, heq, hstart, hbodyStart, hbodyEnd⟩ := body.placed_split [] [] hx
  rw [List.nil_append, List.append_nil] at heq
  refine ⟨mid, z, ?_, ?_, hbodyStart, hbodyEnd⟩
  · rw [heq, ← hstart, List.drop_left]
  · have hlen : x.bodyEnd = (a ++ (x.tag.opening ++ mid)).length := by
      simp only [List.length_append]
      omega
    have hsplit : a ++ (x.tag.opening ++ (mid ++ (x.tag.closing ++ z))) =
        (a ++ (x.tag.opening ++ mid)) ++ (x.tag.closing ++ z) := by simp
    rw [heq, hsplit, hlen, List.drop_left]

/-- The places where a command word occurs. -/
theorem TplBody.place_of_occurs {pat : List UInt8} (hpat : IsCommand pat)
    (htexts : ∀ t ∈ body.texts, ¬ pat <:+: t) {p : Nat} (hocc : pat <+: body.print.drop p) :
    ∃ x ∈ body.placed 0, p = x.start ∨ p = x.bodyEnd := by
  have hne : body.print.drop p ≠ [] := by
    obtain ⟨w, rfl, -⟩ := hpat
    obtain ⟨z, hz⟩ := hocc
    rw [← hz]
    simp
  have hp : p < body.print.length := by
    by_contra hge
    exact hne (List.drop_eq_nil_of_le (by omega))
  have hsplit : body.print ++ [] = body.print.take p ++ body.print.drop p := by simp
  have htake : (body.print.take p).length = p := List.length_take_of_le (by omega)
  rcases body.occurs hpat htexts 0 (.inl rfl) hsplit hocc with ⟨x, hx, hplace⟩ | ⟨c, -, hnil⟩
  · rw [htake, Nat.zero_add] at hplace
    exact ⟨x, hx, hplace⟩
  · exact absurd (List.append_eq_nil_iff.1 hnil.symm).2 hne

theorem not_cmdBlock_of_cmdEnd {s : List UInt8} (h : cmdBlock <+: s) (h' : cmdEnd <+: s) :
    False := by
  rcases List.prefix_or_prefix_of_prefix h h' with hpre | hpre
  · revert hpre
    decide
  · revert hpre
    decide

theorem cmdEnd_closing (b : BlockTag) (z : List UInt8) : cmdEnd <+: b.closing ++ z :=
  (List.prefix_append _ _).trans (List.prefix_append _ _)

theorem cmdBlock_opening (b : BlockTag) (z : List UInt8) : cmdBlock <+: b.opening ++ z :=
  (List.prefix_append _ _).trans (List.prefix_append _ _)

theorem TplBody.matchAt_placed {x : Placed} (hx : x ∈ body.placed 0) :
    MatchAt body.print x.start x.blockMatch := by
  obtain ⟨mid, z, hstart, -, hbodyStart, hbodyEnd⟩ := body.drop_print hx
  refine ⟨x.tag.name, x.tag.pad, mid, x.tag.endPad, x.tag.ne_nil, x.tag.valid, ?_, ?_⟩
  · rw [hstart]
    exact ⟨z, by simp [BlockTag.opening, BlockTag.closing]⟩
  · rw [Placed.blockMatch, hbodyEnd, hbodyStart]
    rfl

include hbody

theorem TplBody.ProperlyNested.start_of_occurs {p : Nat} (hocc : cmdBlock <+: body.print.drop p) :
    ∃ x ∈ body.placed 0, p = x.start := by
  obtain ⟨x, hx, rfl | rfl⟩ := body.place_of_occurs isCommand_cmdBlock
    (fun t ht => (hbody.plain t ht).1) hocc
  · exact ⟨x, hx, rfl⟩
  · obtain ⟨mid, z, -, hend, -⟩ := body.drop_print hx
    exact (not_cmdBlock_of_cmdEnd hocc (hend ▸ cmdEnd_closing x.tag z)).elim

theorem TplBody.ProperlyNested.bodyEnd_of_occurs {p : Nat} (hocc : cmdEnd <+: body.print.drop p) :
    ∃ x ∈ body.placed 0, p = x.bodyEnd := by
  obtain ⟨x, hx, rfl | rfl⟩ := body.place_of_occurs isCommand_cmdEnd
    (fun t ht => (hbody.plain t ht).2) hocc
  · obtain ⟨mid, z, hstart, -⟩ := body.drop_print hx
    exact (not_cmdBlock_of_cmdEnd (hstart ▸ cmdBlock_opening x.tag _) hocc).elim
  · exact ⟨x, hx, rfl⟩

/-- Two blocks whose names differ by spaces at their ends are one block. -/
theorem TplBody.ProperlyNested.eq_of_padded {x y : Placed} (hx : x ∈ body.placed 0)
    (hy : y ∈ body.placed 0) {i j : Nat}
    (h : x.tag.name ++ List.replicate i space = y.tag.name ++ List.replicate j space) : x = y := by
  by_contra hne
  have hpair := hbody.distinct
  rw [← body.map_tag_placed 0, List.pairwise_map] at hpair
  have hsymm : Std.Symm fun a b : Placed => ∀ i j, a.tag.name ++ List.replicate i space ≠
      b.tag.name ++ List.replicate j space := ⟨fun a b hab i j heq => hab j i heq.symm⟩
  exact hpair.forall hx hy hne i j h

/-- Every match at the first command of a block is that block, with a name that is
not longer. -/
theorem TplBody.ProperlyNested.le_of_matchAt {x : Placed} (hx : x ∈ body.placed 0) {m : BlockMatch}
    (hm : MatchAt body.print x.start m) :
    m.nameEnd ≤ x.blockMatch.nameEnd ∧ m.bodyEnd = x.bodyEnd := by
  obtain ⟨mid, z, hstart, -, hbodyStart, hbodyEnd⟩ := body.drop_print hx
  obtain ⟨name, k, text, l, -, hname, ⟨z', hz'⟩, rfl⟩ := hm
  rw [hstart] at hz'
  simp only [List.append_assoc] at hz'
  obtain ⟨hpad, htext⟩ := command_inj hname x.tag.valid hz'
  have hpadLen := congrArg List.length hpad
  simp only [List.length_append, List.length_replicate] at hpadLen
  have hcmd : (command cmdBlock name k).length = x.tag.opening.length := by
    simp only [BlockTag.opening, command, List.length_append, List.length_replicate]
    omega
  -- The second command of the match is the second command of some block.
  have hdrop : body.print.drop (x.bodyStart + text.length) = command cmdEnd name l ++ z' := by
    rw [hbodyStart, Nat.add_assoc, ← List.drop_drop, hstart, ← List.drop_drop, List.drop_left,
      ← htext, List.drop_left]
  have hocc : cmdEnd <+: body.print.drop (x.bodyStart + text.length) := by
    rw [hdrop]
    exact (List.prefix_append _ _).trans (List.prefix_append _ _)
  obtain ⟨y, hy, hplace⟩ := hbody.bodyEnd_of_occurs hocc
  obtain ⟨mid', z'', -, hend, -⟩ := body.drop_print hy
  rw [hplace, hend] at hdrop
  have hendPad := (command_inj y.tag.valid hname hdrop).1
  have hsame : x.tag.name ++ List.replicate (x.tag.pad + l) space =
      y.tag.name ++ List.replicate (y.tag.endPad + k) space := by
    rw [List.replicate_add, ← List.append_assoc, ← hpad, List.replicate_add, ← List.append_assoc,
      hendPad, List.append_assoc, List.append_assoc, ← List.replicate_add, ← List.replicate_add,
      Nat.add_comm]
  obtain rfl := hbody.eq_of_padded hx hy hsame
  have hendLen := congrArg List.length hendPad
  simp only [List.length_append, List.length_replicate] at hendLen
  have hpads := x.tag.pads
  simp only [Placed.blockMatch]
  omega

/-- The documented match is the first block from the offset on. -/
theorem TplBody.ProperlyNested.chosen (offset : Nat) :
    Chosen body.print offset
      (((body.placed 0).find? fun x => offset ≤ x.start).map Placed.blockMatch) := by
  have hmatch : ∀ p m, MatchAt body.print p m → ∃ x ∈ body.placed 0, p = x.start := by
    rintro p m ⟨name, k, text, l, -, -, hpre, -⟩
    refine hbody.start_of_occurs (List.IsPrefix.trans ?_ hpre)
    exact (List.prefix_append _ _).trans (List.prefix_append _ _)
  cases hfind : (body.placed 0).find? fun x => offset ≤ x.start with
  | none =>
      intro p m hp hm
      obtain ⟨x, hx, rfl⟩ := hmatch p m hm
      have hnot := List.find?_eq_none.1 hfind x hx
      simp only [decide_eq_true_eq] at hnot
      exact hnot hp
  | some x =>
      obtain ⟨hx, before, after, heq, hbefore⟩ := List.find?_eq_some_iff_append.1 hfind
      have hmem : x ∈ body.placed 0 := by simp [heq]
      simp only [decide_eq_true_eq] at hx
      refine ⟨x.start, hx, body.matchAt_placed hmem, ?_, ?_⟩
      · intro q m hq hlt hm
        obtain ⟨y, hy, rfl⟩ := hmatch q m hm
        have hpair := body.pairwise_placed 0
        rw [heq] at hy hpair
        rcases List.mem_append.1 hy with hy | hy
        · have hnot := hbefore y hy
          simp only [Bool.not_eq_true', decide_eq_false_iff_not] at hnot
          exact hnot hq
        · rcases List.mem_cons.1 hy with rfl | hy
          · omega
          · have hbefore := (List.pairwise_cons.1 (List.pairwise_append.1 hpair).2.1).1 y hy
            have hbounds := body.placed_bounds hmem
            have hle := hbefore.1
            omega
      · intro m hm
        obtain ⟨hname, hend⟩ := hbody.le_of_matchAt hmem hm
        exact ⟨hname, fun _ => by simp [Placed.blockMatch, hend]⟩

end Printed

/-! ## The loop of `parse_blocks` -/

/-- The element of a block. -/
def Placed.region (x : Placed) : TplRegion :=
  ⟨x.bodyStart, x.bodyEnd - x.bodyStart, adler32 x.tag.name⟩

/-- The checksums of the names. -/
def TplBody.sums (body : TplBody) : List Nat := body.tags.map fun b => adler32 b.name

theorem TplBody.map_sum_placed (body : TplBody) (p : Nat) :
    (body.placed p).map (fun x => adler32 x.tag.name) = body.sums := by
  rw [sums, ← body.map_tag_placed p, List.map_map]
  rfl

theorem TplBody.sum_mem_of_placed {body : TplBody} {p : Nat} {x : Placed}
    (hx : x ∈ body.placed p) : adler32 x.tag.name ∈ body.sums := by
  rw [← body.map_sum_placed p]
  exact List.mem_map.2 ⟨x, hx, rfl⟩

theorem TplBody.sums_block (t : List UInt8) (b : BlockTag) (inner rest : TplBody) :
    (block t b inner rest).sums = adler32 b.name :: (inner.sums ++ rest.sums) := by
  simp [sums, tags]

theorem TplBody.region_blockMatch {body : TplBody} {x : Placed} (hx : x ∈ body.placed 0) :
    x.blockMatch.region body.print = x.region := by
  obtain ⟨mid, z, hstart, -⟩ := body.drop_print hx
  have hname : (body.print.drop (x.start + cmdBlock.length)).take x.tag.name.length =
      x.tag.name := by
    rw [← List.drop_drop, hstart, BlockTag.opening, command, List.append_assoc, List.drop_left,
      List.append_assoc, List.take_left]
  simp only [BlockMatch.region, Placed.blockMatch, Placed.region, Nat.add_sub_cancel_left, hname]

end OpenTube
