import OpenTube.Template.Blocks

/-!
# The vector of a template

`process_blocks` flattens the tree of the blocks into one vector. `elements` are
the elements of a body, as long as there is no variable in it or behind it: the
search for variables does not stop at the end of a piece. The regions that lie
inside a block that was already processed are recognised by its checksums, so a
block needs a text of its own.
-/

namespace OpenTube

open Scan

/-! ## The elements of a tree -/

/-- The element of a text. -/
def textElements (p sum : Nat) (t : List UInt8) : List TplBlock :=
  if t = [] then [] else [⟨p, .text t.length, sum, 0⟩]

namespace TplBody

/-- The elements of a body that begins at `p`. -/
def elements : Nat → Nat → TplBody → List TplBlock
  | p, sum, last t => textElements p sum t
  | p, sum, block t b inner rest =>
      let bodyStart := p + t.length + b.opening.length
      textElements p sum t ++
        (setBlockLength (inner.elements bodyStart (adler32 b.name)) ++
          rest.elements (bodyStart + inner.print.length + b.closing.length) sum)

/-- The first text of a body. -/
def first : TplBody → List UInt8
  | last t => t
  | block t _ _ _ => t

/-- The last text of a body. -/
def final : TplBody → List UInt8
  | last t => t
  | block _ _ _ rest => rest.final

/-- A body with blocks begins and ends with a text of its own. -/
def Bordered : TplBody → Prop
  | last _ => True
  | block t _ _ rest => t ≠ [] ∧ rest.final ≠ []

/-- The bodies of all blocks are bordered. -/
def InnerBordered : TplBody → Prop
  | last _ => True
  | block _ _ inner rest => inner.Bordered ∧ inner.InnerBordered ∧ rest.InnerBordered

/-- No block is empty. -/
def Filled : TplBody → Prop
  | last _ => True
  | block _ _ inner rest => inner.print ≠ [] ∧ inner.Filled ∧ rest.Filled

end TplBody

theorem setBlockLength_concat (x y : TplBlock) (l : List TplBlock) :
    setBlockLength (x :: (l ++ [y])) = { x with blockLength := (l.length + 2 : Nat) } ::
      (l ++ [{ y with blockLength := -((l.length + 1 : Nat) : Int) }]) := by
  rw [setBlockLength]
  · simp only [List.length_append, List.length_singleton, List.dropLast_concat,
      List.getLast?_concat, Option.toList_some, List.map_cons, List.map_nil]
    rfl
  · simp

/-- Only the distances are changed. -/
theorem map_setBlockLength {α : Type} (f : TplBlock → α)
    (hf : ∀ b n, f { b with blockLength := n } = f b) (v : List TplBlock) :
    (setBlockLength v).map f = v.map f := by
  rcases v with _ | ⟨b, v⟩
  · rfl
  · rcases List.eq_nil_or_concat v with rfl | ⟨l, y, rfl⟩
    · simp [setBlockLength, hf]
    · rw [List.concat_eq_append, setBlockLength_concat]
      simp [hf]

theorem length_setBlockLength (v : List TplBlock) : (setBlockLength v).length = v.length := by
  have hmap := congrArg List.length (map_setBlockLength TplBlock.contentOffset (fun _ _ => rfl) v)
  simpa using hmap

theorem strstr_eq_none {pat s : List UInt8} (hpat : pat ≠ []) (h : ¬ pat <:+: s) :
    strstr pat s = none := by
  have hscan : scanToPat pat (s.takeWhile (· ≠ nul)) = none := by
    rw [scanToPat_eq_none_iff hpat]
    exact fun hin => h (hin.trans (s.takeWhile_prefix _).isInfix)
  rw [strstr, hscan]
  rfl

/-- A piece is one text if there is no variable in it or anywhere behind it. -/
theorem pieceVector_text {content : List UInt8} {prev : Nat} (h : ¬ cmdVar <:+: content.drop prev)
    (cur : TplRegion) (len : Nat) (hlen : len < 2 ^ 32) :
    pieceVector content cur prev len = some [⟨prev, .text len, cur.blockChecksum, 0⟩] := by
  have hnone := strstr_eq_none (by decide) h
  have hloop : ∀ n, parseVariablesLoop n 0 (content.drop prev) = some ([], 0) := by
    intro n
    cases n with
    | zero => rfl
    | succ n => rw [parseVariablesLoop, hnone]
  have huint : uint len = len := by
    unfold uint
    omega
  simp [pieceVector, parseVariables, hloop, huint]

/-- The place before the first command of a block. -/
theorem beforeCommand_opening {content s z : List UInt8} {b : BlockTag}
    (h : content = s ++ (b.opening ++ z)) :
    beforeCommand content (s.length + b.opening.length) = s.length := by
  obtain ⟨w, hw, hnot⟩ := b.isCommand_opening
  have htake : content.take (s.length + b.opening.length) = s ++ b.opening := by
    rw [h, ← List.append_assoc, ← List.length_append, List.take_left]
  have hlast : (s ++ b.opening).getLast? = some rightBrace := by
    simp [BlockTag.opening, command]
  have hdrop : (s ++ b.opening).reverse.dropWhile (· ≠ leftBrace) = leftBrace :: s.reverse := by
    rw [hw, List.reverse_append, List.reverse_cons, List.append_assoc,
      List.dropWhile_append_of_pos]
    · simp
    · intro c hc
      have hne : c ≠ leftBrace := fun heq => hnot (heq ▸ List.mem_reverse.1 hc)
      simpa using hne
  rw [beforeCommand, htake, if_pos hlast, hdrop]
  simp

/-- The place behind the second command of a block. -/
theorem behindCommand_closing {content s z : List UInt8} {b : BlockTag}
    (h : content = s ++ (b.closing ++ z)) :
    behindCommand content s.length = s.length + b.closing.length := by
  have hdrop : content.drop s.length = b.closing ++ z := by rw [h, List.drop_left]
  have hhead : (b.closing ++ z).head? = some leftBrace := rfl
  have htake : (b.closing ++ z).takeWhile (· ≠ rightBrace) =
      cmdEnd ++ (b.name ++ List.replicate b.endPad space) := by
    have hword : rightBrace ∉ cmdEnd := by decide +kernel
    have hname := b.not_mem_padded b.endPad (.inr rfl)
    rw [BlockTag.closing, command]
    have hsplit : cmdEnd ++ (b.name ++ (List.replicate b.endPad space ++ [rightBrace])) ++ z =
        (cmdEnd ++ (b.name ++ List.replicate b.endPad space)) ++ (rightBrace :: z) := by simp
    rw [hsplit, List.takeWhile_append_of_pos]
    · simp
    · intro c hc
      have hne : c ≠ rightBrace := by
        rintro rfl
        rcases List.mem_append.1 hc with hc | hc
        · exact hword hc
        · exact hname hc
      simpa using hne
  rw [behindCommand, hdrop, if_pos hhead, htake]
  simp only [BlockTag.closing, command, List.length_append, List.length_replicate,
    List.length_singleton]
  omega

/-! ## The regions -/

/-- The element of a block whose body begins at `p`. -/
def BlockTag.region (b : BlockTag) (inner : TplBody) (p : Nat) : TplRegion :=
  ⟨p, inner.print.length, adler32 b.name⟩

section Region

variable (b : BlockTag) (inner : TplBody) (p : Nat)

@[simp] theorem BlockTag.contentOffset_region : (b.region inner p).contentOffset = p := rfl

@[simp] theorem BlockTag.blockChecksum_region :
    (b.region inner p).blockChecksum = adler32 b.name := rfl

@[simp] theorem BlockTag.stop_region : (b.region inner p).stop = p + inner.print.length := rfl

end Region

/-- The blocks inside a block end before it. -/
theorem BlockTag.placed_region (b : BlockTag) {inner : TplBody} {p : Nat} :
    ∀ x ∈ inner.placed p, x.bodyEnd < (b.region inner p).stop :=
  fun _ hx => (TplBody.placed_bounds hx).2.2.2

/-- The regions of a body end behind its beginning. -/
theorem TplBody.le_stop {body : TplBody} {p : Nat} {x : TplRegion}
    (hx : x ∈ (body.placed p).map Placed.region) : p ≤ x.stop := by
  obtain ⟨y, hy, rfl⟩ := List.mem_map.1 hx
  have hbounds := placed_bounds hy
  simp only [Placed.region, TplRegion.stop]
  omega

/-- The regions of what follows a place end behind every region that ends before it. -/
theorem TplBody.stop_le_of_mem (rest : TplBody) {p : Nat} {r : TplRegion} (hp : r.stop ≤ p)
    {more : List TplRegion} (hmore : ∀ x ∈ more, r.stop ≤ x.stop) :
    ∀ x ∈ (rest.placed p).map Placed.region ++ more, r.stop ≤ x.stop := by
  intro x hx
  rcases List.mem_append.1 hx with hx | hx
  · exact Nat.le_trans hp (rest.le_stop hx)
  · exact hmore x hx

section Block

variable {t : List UInt8} {b : BlockTag} {inner rest : TplBody} {s₁ s₂ content : List UInt8}
  {p bodyStart next : Nat}

/-- The regions of a body that begins with a block. -/
theorem regions_block (hbodyStart : p + t.length + b.opening.length = bodyStart)
    (hnext : bodyStart + inner.print.length + b.closing.length = next) (more : List TplRegion) :
    ((TplBody.block t b inner rest).placed p).map Placed.region ++ more =
      b.region inner bodyStart :: ((inner.placed bodyStart).map Placed.region ++
        ((rest.placed next).map Placed.region ++ more)) := by
  subst hbodyStart hnext
  simp [TplBody.placed, Placed.region, BlockTag.region]

variable (hcontent : content = s₁ ++ ((TplBody.block t b inner rest).print ++ s₂))
include hcontent

/-- The length of the piece in front of a block. -/
theorem beforeCommand_block (hp : s₁.length = p)
    (hbodyStart : p + t.length + b.opening.length = bodyStart) :
    (beforeCommand content bodyStart : Int) - p = t.length := by
  have hsplit : content = (s₁ ++ t) ++
      (b.opening ++ (inner.print ++ (b.closing ++ (rest.print ++ s₂)))) := by
    simp [hcontent, TplBody.print]
  have hplace := beforeCommand_opening hsplit
  rw [List.length_append, hp, hbodyStart] at hplace
  rw [hplace]
  omega

/-- The place behind a block. -/
theorem behindCommand_block (hp : s₁.length = p)
    (hbodyStart : p + t.length + b.opening.length = bodyStart)
    (hnext : bodyStart + inner.print.length + b.closing.length = next) :
    behindCommand content (bodyStart + inner.print.length) = next := by
  have hsplit : content = (s₁ ++ (t ++ (b.opening ++ inner.print))) ++
      (b.closing ++ (rest.print ++ s₂)) := by
    simp [hcontent, TplBody.print]
  have hlen : bodyStart + inner.print.length =
      (s₁ ++ (t ++ (b.opening ++ inner.print))).length := by
    simp only [List.length_append]
    omega
  rw [hlen, behindCommand_closing hsplit, ← hlen, hnext]

end Block

end OpenTube
