import Mathlib.Data.List.Count
import OpenTube.Lib.Loop
import OpenTube.Template.Compile

/-!
# Rendering a template

`tpl_complete` walks over the vector of a compiled template. The elements of a
block are passed over unless there is a context with the checksum of the block;
the last element of a block goes back to the first one, and the context that was
used is struck out.

The jumps do not test for `TERM`: a jump that leads there, or out of the vector,
and a text that is not inside the content are undefined.
-/

namespace OpenTube

/-- `struct assoc_variable`. -/
structure AssocVariable where
  checksum : Nat
  value : List UInt8
deriving DecidableEq, Repr

/-- `get_var` and `get_global_var`. -/
def getVar (vars : List AssocVariable) (checksum : Nat) : Option (List UInt8) :=
  (vars.reverse.find? fun v => v.checksum = checksum).map AssocVariable.value

/-- The variables of a rendering: those of `ctx`, if there is one, and the global
ones. -/
structure Scope where
  ctx : Option (List AssocVariable)
  global : List AssocVariable
deriving DecidableEq, Repr

/-- The value of a variable; `own` are the variables of the block context. -/
def Scope.value (scope : Scope) (own : Option (List AssocVariable)) (checksum : Nat) :
    List UInt8 :=
  ((own.bind fun vars => getVar vars checksum).or
    ((scope.ctx.bind fun vars => getVar vars checksum).or (getVar scope.global checksum))).getD []

/-- `struct block_context`, with the name it was created for. -/
structure BlockContext where
  name : List UInt8
  vars : List AssocVariable
deriving DecidableEq, Repr

/-- The checksum `tpl_block_context_create` stores. -/
def BlockContext.checksum (c : BlockContext) : Nat := adler32 c.name

/-- The bytes of a text. -/
def Template.read (t : Template) (offset len : Nat) : Option (List UInt8) :=
  if t.headerSize ≤ offset ∧ offset + len ≤ t.headerSize + t.content.length then
    some ((t.content.drop (offset - t.headerSize)).take len)
  else none

/-- What an element appends to the output. -/
def Template.emit (t : Template) (scope : Scope) (own : Option (List AssocVariable))
    (b : TplBlock) :
    Option (List UInt8) :=
  match b.type with
  | .text len => t.read b.contentOffset len
  | .var checksum => some (scope.value own checksum)

/-- The state at the label `a`. -/
structure RenderState where
  pc : Nat
  checksums : List Nat
  out : List UInt8
deriving DecidableEq, Repr

/-- `vector++` and the test of the loop. -/
def Template.advance (t : Template) (s : RenderState) : Loop.Next RenderState (List UInt8) :=
  if s.pc + 1 < t.vector.length then .goto { s with pc := s.pc + 1 } else .done s.out

/-- `vector += d`. -/
def RenderState.jump (s : RenderState) (d : Int) : Option (Loop.Next RenderState (List UInt8)) :=
  if 0 ≤ s.pc + d then some (.goto { s with pc := (s.pc + d).toNat }) else none

/-- One round from the label `a` on. -/
def Template.step (t : Template) (scope : Scope) (blocks : List BlockContext) (s : RenderState) :
    Option (Loop.Next RenderState (List UInt8)) :=
  match t.vector[s.pc]? with
  | none => none
  | some b =>
      if b.blockChecksum = 0 then
        (t.emit scope none b).map fun e => t.advance { s with out := s.out ++ e }
      else
        match s.checksums.idxOf? b.blockChecksum with
        | none => if 0 < b.blockLength then s.jump b.blockLength else some (t.advance s)
        | some i =>
            (t.emit scope (blocks[i]?.map BlockContext.vars) b).bind fun e =>
              let used := { s with checksums := s.checksums.set i 0, out := s.out ++ e }
              if b.blockLength < 0 then used.jump b.blockLength
              else if b.blockLength = 1 then some (.goto used)
              else some (t.advance { s with out := s.out ++ e })

/-- `tpl_complete` ends with the output `out`. -/
def TplComplete (t : Template) (scope : Scope) (blocks : List BlockContext) (out : List UInt8) :
    Prop :=
  if t.vector = [] then out = []
  else Loop.Ends (t.step scope blocks) ⟨0, blocks.map BlockContext.checksum, []⟩ out

/-! ## The rounds -/

section Rounds

variable {t : Template} {scope : Scope} {blocks : List BlockContext} {pc : Nat} {cs : List Nat}
  {out : List UInt8} {b : TplBlock}

/-- An element outside of all blocks. -/
theorem step_outside (hb : t.vector[pc]? = some b) (hsum : b.blockChecksum = 0) {e : List UInt8}
    (he : t.emit scope none b = some e) :
    t.step scope blocks ⟨pc, cs, out⟩ = some (t.advance ⟨pc, cs, out ++ e⟩) := by
  simp [Template.step, hb, hsum, he]

/-- A block without a context is passed over at its first element. -/
theorem step_skip (hb : t.vector[pc]? = some b) (hsum : b.blockChecksum ≠ 0)
    (hcs : b.blockChecksum ∉ cs) {n : Nat} (hn : 0 < n) (hlen : b.blockLength = n) :
    t.step scope blocks ⟨pc, cs, out⟩ = some (.goto ⟨pc + n, cs, out⟩) := by
  have hnone : cs.idxOf? b.blockChecksum = none := List.idxOf?_eq_none_iff.2 hcs
  have hpos : (0 : Int) ≤ pc + n := by omega
  have hnat : ((pc : Int) + n).toNat = pc + n := by omega
  simp [Template.step, hb, hsum, hnone, hlen, hn, RenderState.jump, hpos, hnat]

/-- The first context of a block. -/
theorem exists_idxOf {c : Nat} (hc : c ∈ cs) : ∃ i, cs.idxOf? c = some i := by
  rw [← Option.isSome_iff_exists, List.isSome_idxOf?]
  exact hc

/-- A text of a block whose context is there, not at an end of the block. -/
theorem step_text (hb : t.vector[pc]? = some b) (hsum : b.blockChecksum ≠ 0)
    (hcs : b.blockChecksum ∈ cs) (hlen : 0 ≤ b.blockLength ∧ b.blockLength ≠ 1) {len : Nat}
    (htype : b.type = .text len) {e : List UInt8} (he : t.read b.contentOffset len = some e) :
    t.step scope blocks ⟨pc, cs, out⟩ = some (t.advance ⟨pc, cs, out ++ e⟩) := by
  obtain ⟨i, hi⟩ := exists_idxOf hcs
  have hback : ¬ b.blockLength < 0 := by omega
  simp [Template.step, hb, hsum, hi, Template.emit, htype, he, hback, hlen.2]

/-- The only element of a block is repeated for the next context. -/
theorem step_again (hb : t.vector[pc]? = some b) (hsum : b.blockChecksum ≠ 0) {i : Nat}
    (hi : cs.idxOf? b.blockChecksum = some i) (hlen : b.blockLength = 1) {len : Nat}
    (htype : b.type = .text len) {e : List UInt8} (he : t.read b.contentOffset len = some e) :
    t.step scope blocks ⟨pc, cs, out⟩ = some (.goto ⟨pc, cs.set i 0, out ++ e⟩) := by
  simp [Template.step, hb, hsum, hi, Template.emit, htype, he, hlen]

/-- The last element of a block goes back to the first. -/
theorem step_back {n : Nat} (hb : t.vector[pc + n]? = some b) (hsum : b.blockChecksum ≠ 0) {i : Nat}
    (hi : cs.idxOf? b.blockChecksum = some i) (hn : 0 < n) (hlen : b.blockLength = -(n : Int))
    {len : Nat} (htype : b.type = .text len) {e : List UInt8}
    (he : t.read b.contentOffset len = some e) :
    t.step scope blocks ⟨pc + n, cs, out⟩ = some (.goto ⟨pc, cs.set i 0, out ++ e⟩) := by
  have hback : -(n : Int) < 0 := by omega
  have hpos : (0 : Int) ≤ ((pc + n : Nat) : Int) + -(n : Int) := by omega
  have hnat : (((pc + n : Nat) : Int) + -(n : Int)).toNat = pc := by omega
  simp only [Template.step, hb, hsum, if_false, hi, Template.emit, htype, he, Option.bind_some,
    hlen, hback, if_true, RenderState.jump, hpos, hnat]

/-- A context that is struck out is one of its block less, and no other. -/
theorem count_set_idxOf {cs : List Nat} {c i : Nat} (hc : c ≠ 0) (hi : cs.idxOf? c = some i) :
    (cs.set i 0).count c + 1 = cs.count c ∧
      ∀ d, d ≠ 0 → d ≠ c → (cs.set i 0).count d = cs.count d := by
  induction cs generalizing i with
  | nil => simp at hi
  | cons x cs ih =>
      rw [List.idxOf?_cons] at hi
      by_cases hx : x = c
      · subst hx
        obtain rfl : 0 = i := by simpa using hi
        refine ⟨by simp [hc.symm], ?_⟩
        intro d hd hdx
        simp [hd.symm, hdx.symm]
      · have hne : (x == c) = false := by simpa using hx
        rw [hne] at hi
        obtain ⟨j, hj, rfl⟩ := Option.map_eq_some_iff.1 hi
        obtain ⟨hsame, hother⟩ := ih hj
        refine ⟨?_, ?_⟩
        · simp only [List.set_cons_succ, List.count_cons, hne]
          simpa using hsame
        · intro d hd hdc
          simp only [List.set_cons_succ, List.count_cons, hother d hd hdc]

end Rounds

end OpenTube
