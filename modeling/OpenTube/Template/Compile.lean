import Mathlib.Data.List.TakeWhile
import OpenTube.Common.Types
import OpenTube.Lib.Scan

/-!
# The template compiler

`templates.c` compiles a text into a vector of pieces: plain text, given by its
place in the text, and variables, given by a checksum of their names. The blocks
of the text are found with a regular expression, each with the blocks inside it
behind it; `process_blocks` cuts the text at their borders and puts the pieces
one behind the other. A piece carries the checksum of the block it stands in, and
the first and the last piece of a block the distance over which the renderer has
to move.

The block expression is matched by PCRE, which is a parameter here.
-/

namespace OpenTube

open Scan

/-- `adler32` of zlib, from the initial value 1. -/
def adler32 (s : List UInt8) : Nat :=
  let e := s.foldl (fun (a, b) c => ((a + c.toNat) % 65521,
    (b + (a + c.toNat) % 65521) % 65521)) (1, 0)
  e.2 * 2 ^ 16 + e.1

/-- `CALC_CHECKSUM`. The length is a `uInt` for zlib. -/
def calcChecksum (s : List UInt8) : Nat := adler32 (s.take (uint s.length))

/-- `strstr`: what stands before the first occurrence, and the text from there on.
The search ends at a `NUL`. -/
def strstr (pat s : List UInt8) : Option (List UInt8 × List UInt8) :=
  (scanToPat pat (s.takeWhile (· ≠ nul))).map fun e => (e.1, s.drop e.1.length)

/-- An occurrence that is found lies in the text. -/
theorem strstr_eq_some {pat s a r : List UInt8} (h : strstr pat s = some (a, r)) :
    s = a ++ r ∧ pat <+: r := by
  obtain ⟨⟨a', r'⟩, hscan, heq⟩ := Option.map_eq_some_iff.1 h
  obtain ⟨rfl, rfl⟩ := Prod.mk.inj heq
  obtain ⟨hsplit, -, hpat, -⟩ := (scanToPat_eq_some_iff pat _ a' r').1 hscan
  obtain ⟨x, hx⟩ := s.takeWhile_prefix (· ≠ nul)
  rw [hsplit] at hx
  have hs : s = a' ++ (r' ++ x) := by rw [← hx, List.append_assoc]
  have hdrop : s.drop a'.length = r' ++ x := by rw [hs, List.drop_left]
  rw [hdrop]
  exact ⟨hs, hpat.trans (List.prefix_append r' x)⟩

/-! ## Pieces -/

/-- `type` and the union of `struct tpl_block`: the length of a text or the
checksum of the name of a variable. -/
inductive TplType
  | text (contentLength : Nat)
  | var (checksum : Nat)
deriving DecidableEq, Repr

/-- An element of a vector before its `TERM`. -/
structure TplBlock where
  contentOffset : Nat
  type : TplType
  blockChecksum : Nat
  blockLength : Int
deriving DecidableEq, Repr

/-- `sizeof(struct tpl_block)`. -/
def sizeofTplBlock : Nat := 24

/-- `IS_VALID_TPL_VARIABLE_CHARACTER`. -/
def isValidTplVariableCharacter (c : UInt8) : Bool :=
  isAlnum c || c = hyphen || c = underscore || c = space

/-- `cmd_var`. -/
def cmdVar : List UInt8 := [leftBrace, dollar, space]

/-- The name of a variable, without one space at its end. -/
def variableName (s : List UInt8) : List UInt8 :=
  if s.getLast? = some space then s.dropLast else s

/-- The loop of `parse_variables` from `offset` on, in a text that goes on beyond
the piece: the elements and the offset behind the last variable. The checksum of
the block is set by the caller. -/
def parseVariablesLoop : Nat → Nat → List UInt8 → Option (List TplBlock × Nat)
  | 0, offset, _ => some ([], offset)
  | n + 1, offset, s =>
      match strstr cmdVar s with
      | none => some ([], offset)
      | some (a, r) =>
          let m := r.drop cmdVar.length
          let name := m.takeWhile isValidTplVariableCharacter
          -- an invalid character, or an empty name
          if (m.drop name.length).head? ≠ some rightBrace ∨ name = [] then none
          else
            let found := offset + a.length + cmdVar.length
            let text := if a = [] then [] else [⟨offset, .text (uint a.length), 0, 0⟩]
            (parseVariablesLoop n (found + name.length + 1) (m.drop (name.length + 1))).map fun e =>
              (text ++ ⟨found, .var (calcChecksum (variableName name)), 0, 0⟩ :: e.1, e.2)

/-- `parse_variables` on a piece of the given length. Each round passes over a
byte at least, so the length of the text bounds the rounds. -/
def parseVariables (s : List UInt8) (len : Int) : Option (List TplBlock) :=
  (parseVariablesLoop s.length 0 s).map fun e => e.1 ++ [⟨e.2, .text (uint (len - e.2)), 0, 0⟩]

/-! ## Blocks -/

/-- An element of the vector of blocks: a block that was found, or the whole
text. -/
structure TplRegion where
  contentOffset : Nat
  contentLength : Nat
  blockChecksum : Nat
deriving DecidableEq, Repr

/-- The first byte behind a block. -/
def TplRegion.stop (b : TplRegion) : Nat := b.contentOffset + b.contentLength

/-- The elements of a piece of the block `cur` that begins at `prev`, with
`adjust_offsets`. -/
def pieceVector (content : List UInt8) (cur : TplRegion) (prev : Nat) (len : Int) :
    Option (List TplBlock) :=
  (parseVariables (content.drop prev) len).map fun v => v.map fun b =>
    { b with contentOffset := b.contentOffset + prev, blockChecksum := cur.blockChecksum }

/-- The place where the command that ends at `offset` begins, if there is one. -/
def beforeCommand (content : List UInt8) (offset : Nat) : Nat :=
  if (content.take offset).getLast? = some rightBrace then
    ((content.take offset).reverse.dropWhile (· ≠ leftBrace)).length - 1
  else offset

/-- The place behind the command at `offset`, if there is one. -/
def behindCommand (content : List UInt8) (offset : Nat) : Nat :=
  if (content.drop offset).head? = some leftBrace then
    offset + ((content.drop offset).takeWhile (· ≠ rightBrace)).length + 1
  else offset

/-- The distances of a block, in its first and its last element. -/
def setBlockLength : List TplBlock → List TplBlock
  | [] => []
  | [b] => [{ b with blockLength := 1 }]
  | b :: v =>
      { b with blockLength := v.length + 1 } ::
        (v.dropLast ++ (v.getLast?.toList.map fun e => { e with blockLength := -(v.length : Int) }))

/-- The end of `process_blocks`: the piece behind the last block. A vector without
elements is `NULL`. -/
def finishBlock (content : List UInt8) (cur : TplRegion) (prev : Nat) (res : List TplBlock) :
    Option (List TplBlock) :=
  let len : Int := (cur.stop : Int) - prev
  let last := if len ≠ 0 then pieceVector content cur prev len else some []
  last.bind fun v => if res ++ v = [] then none else some (setBlockLength (res ++ v))

/-- `process_blocks` for `cur`, at the blocks behind it: `prev` is the place
behind the last block inside `cur`, and `res` the elements up to there. -/
def processBlocks (content : List UInt8) :
    List TplRegion → TplRegion → Nat → List TplBlock → Option (List TplBlock)
  | [], cur, prev, res => finishBlock content cur prev res
  | next :: rest, cur, prev, res =>
      -- a block inside a block that was processed
      if res.any fun b => b.blockChecksum = next.blockChecksum then
        processBlocks content rest cur prev res
      else if cur.contentOffset < next.contentOffset ∧ next.stop < cur.stop then
        (processBlocks content rest next next.contentOffset []).bind fun inner =>
          -- the length is a `size_t`: if the block begins before `prev`, it is not zero
          let len : Int := (beforeCommand content next.contentOffset : Int) - prev
          let upper := if len ≠ 0 then pieceVector content cur prev len else some []
          upper.bind fun v =>
            processBlocks content rest cur (behindCommand content next.stop) (res ++ (v ++ inner))
      else finishBlock content cur prev res

/-- `ovector` of a match: the places of the name and of the body. -/
structure BlockMatch where
  nameStart : Nat
  nameEnd : Nat
  bodyStart : Nat
  bodyEnd : Nat
deriving DecidableEq, Repr

/-- `pcre_exec` with the block expression: the text and the offset from which on it
is searched. -/
abbrev PcreExec := List UInt8 → Nat → Option BlockMatch

/-- The element of a match. -/
def BlockMatch.region (content : List UInt8) (m : BlockMatch) : TplRegion :=
  ⟨m.bodyStart, m.bodyEnd - m.bodyStart,
    adler32 ((content.drop m.nameStart).take (m.nameEnd - m.nameStart))⟩

/-- A block that cannot be added: it overlaps a block, or its name is taken. -/
def TplRegion.refuses (b : TplRegion) (next : TplRegion) : Bool :=
  (decide (b.contentOffset ≤ next.contentOffset) && decide (b.stop ≤ next.stop) &&
    decide (next.contentOffset ≤ b.stop)) || decide (b.blockChecksum = next.blockChecksum)

/-- The loop of `parse_blocks`: the vector of blocks. Every match begins behind the
one before it, so the length of the text bounds the rounds. -/
def findBlocks (exec : PcreExec) (content : List UInt8) :
    Nat → Nat → List TplRegion → Option (List TplRegion)
  | 0, _, _ => none
  | n + 1, offset, vector =>
      match exec content offset with
      | none => some vector
      | some m =>
          if vector.any fun b => b.refuses (m.region content) then none
          else findBlocks exec content n m.bodyStart (vector ++ [m.region content])

/-- The whole text as a block. -/
def rootRegion (content : List UInt8) : TplRegion := ⟨0, uint content.length, 0⟩

/-- A compiled template: the vector with the text behind it. -/
structure Template where
  vector : List TplBlock
  content : List UInt8
deriving DecidableEq, Repr

/-- `parse_blocks`. -/
def parseBlocks (exec : PcreExec) (content : List UInt8) : Option Template :=
  (findBlocks exec content (content.length + 1) 0 [rootRegion content]).bind fun vector =>
    (processBlocks content vector.tail (rootRegion content) 0 []).map fun v => ⟨v, content⟩

/-- The size of the vector in memory, with its `TERM`. -/
def Template.headerSize (t : Template) : Nat := sizeofTplBlock * (t.vector.length + 1)

/-- `adjust_offsets` with the size of the vector. -/
def Template.adjustOffsets (t : Template) : Template :=
  { t with vector := t.vector.map fun b => { b with contentOffset :=
      b.contentOffset + t.headerSize } }

/-- The part of `tpl_compile` behind the loading of the text. -/
def compileContent (exec : PcreExec) (content : List UInt8) : Option Template :=
  (parseBlocks exec content).map Template.adjustOffsets

end OpenTube
