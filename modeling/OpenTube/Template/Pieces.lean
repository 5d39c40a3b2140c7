import OpenTube.Template.Flatten
import OpenTube.Template.Substitution

/-!
# The pieces of a template

`process_blocks` hands pieces of the text to `parse_variables`: a pointer into the
text and a length. `processPieces` collects these pieces instead of their elements,
so that every element of the vector has the piece it was produced for.

The search for variables goes on to the end of the text. So the elements of a piece
lie in the piece if and only if no variable command ends behind it.
-/

namespace OpenTube

open Scan

/-- A piece: the block it was cut from, its place in the text and the length that
`process_blocks` computes. -/
structure TplPiece where
  region : TplRegion
  start : Nat
  length : Int
deriving DecidableEq, Repr

/-- The elements that are produced for a piece. -/
def TplPiece.elements (content : List UInt8) (p : TplPiece) : List TplBlock :=
  (pieceVector content p.region p.start p.length).getD []

/-- A piece of `cur` without bytes is not handed over. -/
def piece (cur : TplRegion) (prev : Nat) (len : Int) : List TplPiece :=
  if len ≠ 0 then [⟨cur, prev, len⟩] else []

/-- `finishBlock` with pieces. -/
def finishPieces (cur : TplRegion) (prev : Nat) (res : List TplPiece) : Option (List TplPiece) :=
  let last := piece cur prev ((cur.stop : Int) - prev)
  if res ++ last = [] then none else some (res ++ last)

/-- `processBlocks` with pieces. -/
def processPieces (content : List UInt8) :
    List TplRegion → TplRegion → Nat → List TplPiece → Option (List TplPiece)
  | [], cur, prev, res => finishPieces cur prev res
  | next :: rest, cur, prev, res =>
      if res.any fun p => p.region.blockChecksum = next.blockChecksum then
        processPieces content rest cur prev res
      else if cur.contentOffset < next.contentOffset ∧ next.stop < cur.stop then
        (processPieces content rest next next.contentOffset []).bind fun inner =>
          let upper := piece cur prev ((beforeCommand content next.contentOffset : Int) - prev)
          processPieces content rest cur (behindCommand content next.stop) (res ++ (upper ++ inner))
      else finishPieces cur prev res

/-! ## The elements of the pieces -/

/-- An element without its distance, which is not set by `parse_variables`. -/
def TplBlock.slice (b : TplBlock) : TplBlock := { b with blockLength := 0 }

/-- A vector is made of the elements of the pieces. -/
structure MadeOf (content : List UInt8) (ps : List TplPiece) (v : List TplBlock) : Prop where
  parsed : ∀ p ∈ ps, pieceVector content p.region p.start p.length ≠ none
  slices : v.map TplBlock.slice = (ps.flatMap (TplPiece.elements content)).map TplBlock.slice

/-- A piece has an element, and all carry the checksum of its block. -/
theorem pieceVector_sums {content : List UInt8} {cur : TplRegion} {prev : Nat} {len : Int}
    {v : List TplBlock} (h : pieceVector content cur prev len = some v) :
    v ≠ [] ∧ ∀ b ∈ v, b.blockChecksum = cur.blockChecksum := by
  obtain ⟨w, hw, rfl⟩ := Option.map_eq_some_iff.1 h
  obtain ⟨e, -, rfl⟩ := Option.map_eq_some_iff.1 hw
  refine ⟨by simp, ?_⟩
  intro b hb
  obtain ⟨c, -, rfl⟩ := List.mem_map.1 hb
  rfl

section Made

variable {content : List UInt8}

theorem TplPiece.elements_eq {p : TplPiece} {v : List TplBlock}
    (h : pieceVector content p.region p.start p.length = some v) : p.elements content = v := by
  rw [elements, h, Option.getD_some]

theorem madeOf_nil : MadeOf content [] [] := ⟨by simp, rfl⟩

theorem MadeOf.append {ps qs : List TplPiece} {v w : List TplBlock} (hv : MadeOf content ps v)
    (hw : MadeOf content qs w) : MadeOf content (ps ++ qs) (v ++ w) where
  parsed p hp := (List.mem_append.1 hp).elim (hv.parsed p) (hw.parsed p)
  slices := by
    rw [List.map_append, List.flatMap_append, List.map_append, hv.slices, hw.slices]

theorem MadeOf.setBlockLength {ps : List TplPiece} {v : List TplBlock} (h : MadeOf content ps v) :
    MadeOf content ps (setBlockLength v) where
  parsed := h.parsed
  slices := by
    rw [map_setBlockLength TplBlock.slice fun _ _ => rfl]
    exact h.slices

/-- The piece that is handed over, and its elements. -/
theorem madeOf_piece {cur : TplRegion} {prev : Nat} {len : Int} {v : List TplBlock}
    (h : (if len ≠ 0 then pieceVector content cur prev len else some []) = some v) :
    MadeOf content (piece cur prev len) v := by
  rw [piece]
  split_ifs at h ⊢
  · refine ⟨?_, ?_⟩
    · intro p hp
      obtain rfl := List.mem_singleton.1 hp
      simp [h]
    · have helements : (TplPiece.mk cur prev len).elements content = v := TplPiece.elements_eq h
      rw [List.flatMap_singleton, helements]
  · obtain rfl := Option.some.inj h
    exact madeOf_nil

theorem MadeOf.eq_nil_iff {ps : List TplPiece} {v : List TplBlock} (h : MadeOf content ps v) :
    v = [] ↔ ps = [] := by
  constructor
  · rintro rfl
    cases ps with
    | nil => rfl
    | cons p ps =>
        exfalso
        obtain ⟨w, hw⟩ := Option.ne_none_iff_exists'.1 (h.parsed p List.mem_cons_self)
        have hnil := h.slices.symm
        rw [List.map_nil, List.map_eq_nil_iff, List.flatMap_cons, TplPiece.elements_eq hw] at hnil
        exact (pieceVector_sums hw).1 (List.append_eq_nil_iff.1 hnil).1
  · rintro rfl
    exact List.map_eq_nil_iff.1 h.slices

/-- The blocks that have an element have a piece. -/
theorem MadeOf.any_eq {ps : List TplPiece} {v : List TplBlock} (h : MadeOf content ps v)
    (sum : Nat) : (v.any fun b => b.blockChecksum = sum) =
      ps.any fun p => p.region.blockChecksum = sum := by
  have hslices : (v.any fun b => b.blockChecksum = sum) =
      (v.map TplBlock.slice).any fun b => b.blockChecksum = sum := by
    rw [List.any_map]
    rfl
  rw [hslices, h.slices, List.any_map, List.any_flatMap, Bool.eq_iff_iff, List.any_eq_true,
    List.any_eq_true]
  refine exists_congr fun p => and_congr_right fun hp => ?_
  obtain ⟨w, hw⟩ := Option.ne_none_iff_exists'.1 (h.parsed p hp)
  obtain ⟨hne, hsums⟩ := pieceVector_sums hw
  rw [TplPiece.elements_eq hw, List.any_eq_true, decide_eq_true_iff]
  constructor
  · rintro ⟨b, hb, heq⟩
    rw [← hsums b hb]
    exact of_decide_eq_true heq
  · intro heq
    obtain ⟨b, hb⟩ := List.exists_mem_of_ne_nil w hne
    exact ⟨b, hb, decide_eq_true ((hsums b hb).trans heq)⟩

theorem MadeOf.finishBlock {ps : List TplPiece} {cur : TplRegion} {prev : Nat}
    {res v : List TplBlock} (hres : MadeOf content ps res)
    (h : finishBlock content cur prev res = some v) :
    ∃ qs, finishPieces cur prev ps = some qs ∧ MadeOf content qs v := by
  obtain ⟨w, hw, h⟩ := Option.bind_eq_some_iff.1 h
  have hmade := hres.append (madeOf_piece hw)
  split at h
  · simp at h
  · rename_i hne
    obtain rfl := Option.some.inj h
    rw [hmade.eq_nil_iff] at hne
    exact ⟨_, if_neg hne, hmade.setBlockLength⟩

/-- `process_blocks` puts the elements of its pieces one behind the other. -/
theorem MadeOf.processBlocks {l : List TplRegion} {ps : List TplPiece} {cur : TplRegion}
    {prev : Nat} {res v : List TplBlock} (hres : MadeOf content ps res)
    (h : processBlocks content l cur prev res = some v) :
    ∃ qs, processPieces content l cur prev ps = some qs ∧ MadeOf content qs v := by
  induction l generalizing cur prev res ps v with
  | nil => exact hres.finishBlock h
  | cons next rest ih =>
      rw [OpenTube.processBlocks] at h
      rw [processPieces, ← hres.any_eq]
      split at h
      · rw [if_pos ‹_›]
        exact ih hres h
      · rw [if_neg ‹_›]
        split at h
        · rw [if_pos ‹_›]
          obtain ⟨inner, hinner, h⟩ := Option.bind_eq_some_iff.1 h
          obtain ⟨upper, hupper, h⟩ := Option.bind_eq_some_iff.1 h
          obtain ⟨qs, hqs, hmade⟩ := ih madeOf_nil hinner
          rw [hqs]
          exact ih (hres.append ((madeOf_piece hupper).append hmade)) h
        · rw [if_neg ‹_›]
          exact hres.finishBlock h

end Made

/-! ## Texts in their pieces -/

/-- The range of a text element lies between two places. -/
def TplBlock.Within (start : Nat) (stop : Int) (b : TplBlock) : Prop :=
  ∀ len, b.type = .text len → start ≤ b.contentOffset ∧ (b.contentOffset + len : Int) ≤ stop

/-- A piece has no negative length, and no variable command behind its beginning ends
behind it. The search ends at a `NUL`. -/
structure TplPiece.Closed (content : List UInt8) (p : TplPiece) : Prop where
  nonneg : 0 ≤ p.length
  commands : ∀ a (c : VarCommand) m, content.drop p.start = a ++ (c.print ++ m) → nul ∉ a →
    ((a ++ c.print).length : Int) ≤ p.length

theorem nul_not_mem_print (c : VarCommand) : nul ∉ c.print := by
  simp only [VarCommand.print, List.mem_append, not_or]
  refine ⟨by decide +kernel, ?_, by decide +kernel⟩
  intro hmem
  have hvalid := c.valid nul hmem
  revert hvalid
  decide +kernel

/-- What `strstr` finds lies in front of the first `NUL`. -/
theorem strstr_front {pat s a r : List UInt8} (h : strstr pat s = some (a, r)) : nul ∉ a := by
  obtain ⟨⟨a', r'⟩, hscan, heq⟩ := Option.map_eq_some_iff.1 h
  obtain ⟨rfl, -⟩ := Prod.mk.inj heq
  obtain ⟨hsplit, -⟩ := (scanToPat_eq_some_iff pat _ a' r').1 hscan
  intro hmem
  have hne := List.mem_takeWhile_imp (hsplit ▸ List.mem_append_left r' hmem)
  simp at hne

/-- If nothing is found, there is no command in front of a `NUL`. -/
theorem nul_mem_of_strstr {s a m : List UInt8} {c : VarCommand} (h : strstr cmdVar s = none)
    (hs : s = a ++ (c.print ++ m)) : nul ∈ a := by
  by_contra hnul
  have hscan : scanToPat cmdVar (s.takeWhile (· ≠ nul)) = none := Option.map_eq_none_iff.1 h
  rw [scanToPat_eq_none_iff (by decide)] at hscan
  apply hscan
  have hfront : ∀ x ∈ a ++ c.print, decide (x ≠ nul) = true := by
    intro x hx
    rw [decide_eq_true_iff]
    rintro rfl
    exact (List.mem_append.1 hx).elim hnul (nul_not_mem_print c)
  rw [hs, ← List.append_assoc, List.takeWhile_append_of_pos hfront]
  rw [List.append_assoc]
  exact (c.prefix_print _).isInfix.trans (List.suffix_append a _).isInfix

/-- The place behind the last variable: no command ends behind it, and one ends there
unless there is none. -/
theorem parseVariablesLoop_end {n p : Nat} {s : List UInt8} {es : List TplBlock} {e : Nat}
    (hn : s.length ≤ n) (h : parseVariablesLoop n p s = some (es, e)) :
    (∀ a (c : VarCommand) m, s = a ++ (c.print ++ m) → nul ∉ a →
      p + (a ++ c.print).length ≤ e) ∧
    (e = p ∨ ∃ a, ∃ c : VarCommand, ∃ m, s = a ++ (c.print ++ m) ∧ nul ∉ a ∧
      e = p + (a ++ c.print).length) := by
  induction n generalizing p s es with
  | zero =>
      obtain rfl : s = [] := List.length_eq_zero_iff.1 (by omega)
      refine ⟨?_, .inl (Prod.mk.inj (Option.some.inj h)).2.symm⟩
      intro a c m hs
      have hlen := congrArg List.length hs
      simp [VarCommand.print, cmdVar] at hlen
  | succ n ih =>
      rcases parseVariablesLoop_succ h with
        ⟨hnone, -, rfl⟩ | ⟨a', name, rest, es', hstr, hne, hvalid, hrest, -⟩
      · exact ⟨fun a c m hs hnul => absurd (nul_mem_of_strstr hnone hs) hnul, .inl rfl⟩
      · obtain ⟨c', rfl⟩ : ∃ c : VarCommand, c.name = name := ⟨⟨name, hne, hvalid⟩, rfl⟩
        rw [← c'.print_append] at hstr
        obtain ⟨rfl, -⟩ := strstr_eq_some hstr
        have hplace : p + a'.length + cmdVar.length + c'.name.length + 1 =
            p + (a' ++ c'.print).length := by
          simp only [VarCommand.print, List.length_append, List.length_singleton]
          omega
        rw [hplace] at hrest
        have hpos : 0 < c'.print.length := by simp [VarCommand.print, cmdVar]
        have hshort : rest.length ≤ n := by
          simp only [List.length_append] at hn
          omega
        obtain ⟨hall, hlast⟩ := ih hshort hrest
        have hle : p + (a' ++ c'.print).length ≤ e := (parseVariablesLoop_inside hrest).1
        constructor
        · intro a c m hs hnul
          obtain ⟨d, rfl, hfirst⟩ := occurs_behind_text isCommand_cmdVar (plain_of_strstr hstr)
            (c'.isCommand_print.follower rest) hs (c.prefix_print m)
          rcases occurs_behind_command isCommand_cmdVar c'.isCommand_print hfirst
            (c.prefix_print m) with rfl | ⟨d, rfl, hrest⟩
          · -- the first command itself
            rw [List.nil_append, c'.print_append, c.print_append,
              List.append_cancel_left_eq] at hfirst
            have hname := congrArg (List.takeWhile isValidTplVariableCharacter) hfirst
            rw [c'.takeWhile_name, c.takeWhile_name] at hname
            have hsame : c.print = c'.print := by rw [VarCommand.print, VarCommand.print, hname]
            rw [hsame, List.append_nil]
            exact hle
          · have hbehind := hall d c m hrest fun hmem => hnul (by simp [hmem])
            simp only [List.length_append] at hbehind ⊢
            omega
        · right
          rcases hlast with rfl | ⟨a, c, m, rfl, hnul, rfl⟩
          · exact ⟨a', c', rest, rfl, strstr_front hstr, rfl⟩
          · refine ⟨a' ++ (c'.print ++ a), c, m, by simp, ?_, ?_⟩
            · simp only [List.mem_append, not_or]
              exact ⟨strstr_front hstr, nul_not_mem_print c', hnul⟩
            · simp only [List.length_append]
              omega

/-- The elements of a piece lie in it if and only if no variable behind its beginning
ends behind it. -/
theorem TplPiece.closed_iff {content : List UInt8} {p : TplPiece}
    (h : pieceVector content p.region p.start p.length ≠ none) :
    p.Closed content ↔ ∀ b ∈ p.elements content, b.Within p.start (p.start + p.length) := by
  obtain ⟨v, hv⟩ := Option.ne_none_iff_exists'.1 h
  rw [elements_eq hv]
  obtain ⟨w, hw, rfl⟩ := Option.map_eq_some_iff.1 hv
  obtain ⟨es, e, hloop, -, hin, rfl⟩ := parseVariables_eq_some hw
  obtain ⟨hall, hlast⟩ := parseVariablesLoop_end (le_refl _) hloop
  constructor
  · intro hclosed b hb
    obtain ⟨b, hmem, rfl⟩ := List.mem_map.1 hb
    have hle : (e : Int) ≤ p.length := by
      rcases hlast with rfl | ⟨a, c, m, hsplit, hnul, rfl⟩
      · exact hclosed.nonneg
      · rw [Nat.zero_add]
        exact hclosed.commands a c m hsplit hnul
    intro len hlen
    refine ⟨Nat.le_add_left _ _, ?_⟩
    rcases List.mem_append.1 hmem with hmem | hmem
    · have hbound := hin b hmem len hlen
      push_cast
      omega
    · obtain rfl := List.mem_singleton.1 hmem
      have hlen' := TplType.text.inj hlen
      unfold uint at hlen'
      push_cast
      omega
  · intro hwithin
    have hle : (e : Int) ≤ p.length := by
      have hmem : (⟨e, .text (uint (p.length - e)), 0, 0⟩ : TplBlock) ∈
          es ++ [⟨e, .text (uint (p.length - e)), 0, 0⟩] := by simp
      have hbound := (hwithin _ (List.mem_map.2 ⟨_, hmem, rfl⟩) _ rfl).2
      push_cast at hbound
      omega
    refine ⟨by omega, ?_⟩
    intro a c m hsplit hnul
    have hbound := hall a c m hsplit hnul
    omega

end OpenTube
