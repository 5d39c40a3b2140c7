import OpenTube.Template.Forest
import OpenTube.Template.Pieces

/-!
# The slices of a template

The pieces that `process_blocks` cuts from a tree of blocks are the texts between the
commands, and they lie in their blocks. A block is processed a second time if no
element of the vector shows that it was processed, and that is so for a block without
text of its own inside another block: its second piece has a negative length. Apart from
that, a slice leaves its piece only if a variable command ends behind the piece.
-/

namespace OpenTube

/-! ## The property -/

/-- The pieces of a text. -/
def pieces (exec : PcreExec) (content : List UInt8) : Option (List TplPiece) :=
  (findBlocks exec content (content.length + 1) 0 [rootRegion content]).bind fun vector =>
    processPieces content vector.tail (rootRegion content) 0 []

/-- A piece lies in its block and the block in the text, and the texts of its elements
lie in the piece. -/
structure TplPiece.Holds (content : List UInt8) (p : TplPiece) : Prop where
  start : p.region.contentOffset ≤ p.start
  stop : (p.start + p.length : Int) ≤ p.region.stop
  inText : p.region.stop ≤ content.length
  within : ∀ b ∈ p.elements content, b.Within p.start (p.start + p.length)

/-- Every text of a compiled template lies in the piece it was produced for, the piece in
its block, and the block in the text of the template. -/
def SlicesInside (exec : PcreExec) (content : List UInt8) (t : Template) : Prop :=
  ∃ ps, pieces exec content = some ps ∧ MadeOf content ps t.vector ∧ ∀ p ∈ ps, p.Holds content

namespace TplBody

/-- A body has a text that is not in a block of it. -/
def HasText : TplBody → Prop
  | last t => t ≠ []
  | block t _ _ rest => t ≠ [] ∨ rest.HasText

/-- Every block of a body has a text that is not in a block inside it. -/
def AllHaveText : TplBody → Prop
  | last _ => True
  | block _ _ inner rest => inner.HasText ∧ inner.AllHaveText ∧ rest.AllHaveText

/-- Every block inside a block of a body has such a text. -/
def NestedHaveText : TplBody → Prop
  | last _ => True
  | block _ _ inner rest => inner.AllHaveText ∧ rest.NestedHaveText

/-- The pieces of a body that begins at `p`, of the block `cur`. -/
def cut (cur : TplRegion) : Nat → TplBody → List TplPiece
  | p, last _ => piece cur p ((cur.stop : Int) - p)
  | p, block t b inner rest =>
      let bodyStart := p + t.length + b.opening.length
      piece cur p t.length ++
        (inner.cut (b.region inner bodyStart) bodyStart ++
          rest.cut cur (bodyStart + inner.print.length + b.closing.length))

end TplBody

/-! ## The pieces of a tree -/

theorem TplBody.AllHaveText.nested {body : TplBody} (h : body.AllHaveText) :
    body.NestedHaveText := by
  induction body with
  | last t => trivial
  | block t b inner rest ihInner ihRest => exact ⟨h.2.1, ihRest h.2.2⟩

/-- The blocks of a list of pieces. -/
def pieceSums (ps : List TplPiece) : List Nat := ps.map fun p => p.region.blockChecksum

@[simp] theorem pieceSums_append (ps qs : List TplPiece) :
    pieceSums (ps ++ qs) = pieceSums ps ++ pieceSums qs := List.map_append

theorem mem_pieceSums_piece {cur : TplRegion} {prev : Nat} {len : Int} {s : Nat} :
    s ∈ pieceSums (piece cur prev len) ↔ len ≠ 0 ∧ s = cur.blockChecksum := by
  rw [piece]
  split_ifs with h
  · simp [pieceSums, h]
  · simp [pieceSums, h]

namespace TplBody

/-- A piece of the body shows that the block with this checksum was processed. -/
def Shows : TplBody → Nat → Prop
  | last _, _ => False
  | block _ b inner rest, s =>
      (inner.HasText ∧ s = adler32 b.name) ∨ inner.Shows s ∨ rest.Shows s

theorem mem_sums_of_shows {body : TplBody} {s : Nat} (h : body.Shows s) : s ∈ body.sums := by
  induction body with
  | last t => exact h.elim
  | block t b inner rest ihInner ihRest =>
      rw [sums_block, List.mem_cons, List.mem_append]
      rcases h with ⟨-, rfl⟩ | h | h
      · exact .inl rfl
      · exact .inr (.inl (ihInner h))
      · exact .inr (.inr (ihRest h))

/-- If every block has a text of its own, they are all blocks. -/
theorem allHaveText_iff {body : TplBody} (hsums : body.sums.Nodup) :
    body.AllHaveText ↔ ∀ s ∈ body.sums, body.Shows s := by
  induction body with
  | last t => simp [AllHaveText, sums, tags]
  | block t b inner rest ihInner ihRest =>
      simp only [sums_block, List.nodup_cons, List.nodup_append, List.mem_append, not_or] at hsums
      obtain ⟨⟨hbInner, hbRest⟩, hsInner, hsRest, hdisjoint⟩ := hsums
      have hother : ∀ s ∈ inner.sums, ¬ rest.Shows s :=
        fun s hs htext => hdisjoint s hs s (mem_sums_of_shows htext) rfl
      rw [AllHaveText, ihInner hsInner, ihRest hsRest, sums_block]
      simp only [List.mem_cons, List.mem_append, Shows]
      constructor
      · rintro ⟨hhas, hinner, hrest⟩ s (rfl | hs | hs)
        · exact .inl ⟨hhas, rfl⟩
        · exact .inr (.inl (hinner s hs))
        · exact .inr (.inr (hrest s hs))
      · intro hall
        refine ⟨?_, ?_, ?_⟩
        · rcases hall _ (.inl rfl) with ⟨hhas, -⟩ | htext | htext
          · exact hhas
          · exact absurd (mem_sums_of_shows htext) hbInner
          · exact absurd (mem_sums_of_shows htext) hbRest
        · intro s hs
          rcases hall s (.inr (.inl hs)) with ⟨-, rfl⟩ | htext | htext
          · exact absurd hs hbInner
          · exact htext
          · exact absurd htext (hother s hs)
        · intro s hs
          rcases hall s (.inr (.inr hs)) with ⟨-, rfl⟩ | htext | htext
          · exact absurd hs hbRest
          · exact absurd rfl (hdisjoint s (mem_sums_of_shows htext) s hs)
          · exact htext

/-- The blocks of the pieces of a body. -/
theorem mem_pieceSums_cut {body : TplBody} {cur : TplRegion} {p s : Nat}
    (hstop : cur.stop = p + body.print.length) :
    s ∈ pieceSums (body.cut cur p) ↔
      (body.HasText ∧ s = cur.blockChecksum) ∨ body.Shows s := by
  induction body generalizing cur p with
  | last t =>
      have hlen : (cur.stop : Int) - p ≠ 0 ↔ t ≠ [] := by
        rw [hstop, print, ← List.length_pos_iff]
        omega
      rw [cut, mem_pieceSums_piece, hlen, HasText, Shows, or_false]
  | block t b inner rest ihInner ihRest =>
      have hlen : (t.length : Int) ≠ 0 ↔ t ≠ [] := by
        rw [← List.length_pos_iff]
        omega
      simp only [print, List.length_append] at hstop
      rw [cut, pieceSums_append, pieceSums_append, List.mem_append, List.mem_append,
        mem_pieceSums_piece, ihInner rfl, ihRest (by omega), hlen, HasText, Shows]
      tauto

/-- The pieces of a body lie in their blocks. -/
theorem cut_inside {body : TplBody} {cur : TplRegion} {p n : Nat} (hcur : cur.contentOffset ≤ p)
    (hstop : ∀ x ∈ body.placed p, x.bodyEnd < cur.stop) (hlen : cur.stop ≤ n) {q : TplPiece}
    (hq : q ∈ body.cut cur p) : q.region.contentOffset ≤ q.start ∧
      (q.start + q.length : Int) ≤ q.region.stop ∧ q.region.stop ≤ n := by
  induction body generalizing cur p with
  | last t =>
      rw [cut, piece] at hq
      split_ifs at hq
      · obtain rfl := List.mem_singleton.1 hq
        refine ⟨hcur, ?_, hlen⟩
        simp only
        omega
      · simp at hq
  | block t b inner rest ihInner ihRest =>
      simp only [placed, List.forall_mem_cons, List.forall_mem_append] at hstop
      obtain ⟨hb, -, hrest⟩ := hstop
      rw [cut, List.mem_append, List.mem_append] at hq
      rcases hq with hq | hq | hq
      · rw [piece] at hq
        split_ifs at hq
        · obtain rfl := List.mem_singleton.1 hq
          refine ⟨hcur, ?_, hlen⟩
          simp only
          omega
        · simp at hq
      · exact ihInner (le_refl _) b.placed_region (Nat.le_trans (Nat.le_of_lt hb) hlen) hq
      · exact ihRest (by omega) hrest hlen hq

end TplBody

/-! ## The run over a tree -/

section Run

variable {content : List UInt8} {cur : TplRegion}

theorem finishPieces_eq {prev : Nat} {res out : List TplPiece}
    (h : finishPieces cur prev res = some out) :
    out = res ++ piece cur prev ((cur.stop : Int) - prev) := by
  simp only [finishPieces] at h
  split at h
  · simp at h
  · exact (Option.some.inj h).symm

/-- The pieces that there are stay. -/
theorem prefix_of_processPieces {l : List TplRegion} {prev : Nat} {res out : List TplPiece}
    (h : processPieces content l cur prev res = some out) : res <+: out := by
  induction l generalizing prev res with
  | nil =>
      rw [finishPieces_eq h]
      exact List.prefix_append _ _
  | cons next rest ih =>
      rw [processPieces] at h
      split at h
      · exact ih h
      · split at h
        · obtain ⟨inner, -, h⟩ := Option.bind_eq_some_iff.1 h
          exact (List.prefix_append _ _).trans (ih h)
        · rw [finishPieces_eq h]
          exact List.prefix_append _ _

theorem any_region_eq {res : List TplPiece} {s : Nat} :
    (res.any fun p => p.region.blockChecksum = s) = true ↔ s ∈ pieceSums res := by
  rw [List.any_eq_true, pieceSums, List.mem_map]
  simp only [decide_eq_true_eq]

/-- Blocks that have a piece are passed over. -/
theorem processPieces_skip {prev : Nat} {res : List TplPiece} {l : List TplRegion}
    (hl : ∀ x ∈ l, x.blockChecksum ∈ pieceSums res) (more : List TplRegion) :
    processPieces content (l ++ more) cur prev res = processPieces content more cur prev res := by
  induction l with
  | nil => rfl
  | cons x l ih =>
      rw [List.cons_append, processPieces, if_pos (any_region_eq.2 (hl x List.mem_cons_self))]
      exact ih fun y hy => hl y (List.mem_cons_of_mem x hy)

/-- Blocks that do not end inside a block end it. -/
theorem processPieces_outside {prev : Nat} {res : List TplPiece} {more : List TplRegion}
    (hmore : ∀ x ∈ more, cur.stop ≤ x.stop) :
    processPieces content more cur prev res = finishPieces cur prev res := by
  induction more with
  | nil => rfl
  | cons x more ih =>
      have hnot : ¬ (cur.contentOffset < x.contentOffset ∧ x.stop < cur.stop) := by
        have hle := hmore x List.mem_cons_self
        omega
      rw [processPieces, if_neg hnot]
      split
      · exact ih fun y hy => hmore y (List.mem_cons_of_mem x hy)
      · rfl

/-- A block that was passed but has no piece is processed again, from a place behind it. -/
theorem processPieces_again {prev : Nat} {res out : List TplPiece} {l more : List TplRegion}
    (hl : ∀ x ∈ l, cur.contentOffset < x.contentOffset ∧ x.stop < cur.stop ∧
      beforeCommand content x.contentOffset < prev)
    (hagain : ∃ x ∈ l, x.blockChecksum ∉ pieceSums res)
    (h : processPieces content (l ++ more) cur prev res = some out) : ∃ q ∈ out, q.length < 0 := by
  induction l with
  | nil => simp at hagain
  | cons x l ih =>
      obtain ⟨hx, hl⟩ := List.forall_mem_cons.1 hl
      obtain ⟨hstart, hstop, hbefore⟩ := hx
      rw [List.cons_append, processPieces] at h
      split at h
      · rename_i hany
        refine ih hl ?_ h
        obtain ⟨y, hy, hnot⟩ := hagain
        rcases List.mem_cons.1 hy with rfl | hy
        · exact absurd (any_region_eq.1 hany) hnot
        · exact ⟨y, hy, hnot⟩
      · rw [if_pos ⟨hstart, hstop⟩] at h
        obtain ⟨inner, -, h⟩ := Option.bind_eq_some_iff.1 h
        have hneg : (beforeCommand content x.contentOffset : Int) - prev < 0 := by omega
        refine ⟨⟨cur, prev, _⟩, (prefix_of_processPieces h).subset ?_, hneg⟩
        rw [piece, if_pos (ne_of_lt hneg)]
        simp

theorem beforeCommand_placed {body : TplBody} {s₁ s₂ : List UInt8}
    (hcontent : content = s₁ ++ (body.print ++ s₂)) {p : Nat} (hp : s₁.length = p) {x : Placed}
    (hx : x ∈ body.placed p) : beforeCommand content x.bodyStart = x.start := by
  subst hp
  obtain ⟨a, mid, z, hsplit, hstart, hbodyStart, -⟩ := body.placed_split s₁ s₂ hx
  rw [hbodyStart, ← hstart]
  exact beforeCommand_opening (hcontent.trans hsplit)

/-- A block of `cur`: the pieces of the block, and then the rest of `cur`, which begins
with the blocks inside it. -/
theorem processPieces_round {t : List UInt8} {b : BlockTag} {inner rest : TplBody}
    {s₁ s₂ : List UInt8} (hcontent : content = s₁ ++ ((TplBody.block t b inner rest).print ++ s₂))
    {p bodyStart next : Nat} (hp : s₁.length = p)
    (hbodyStart : p + t.length + b.opening.length = bodyStart)
    (hnext : bodyStart + inner.print.length + b.closing.length = next)
    (hcur : cur.contentOffset ≤ p) (hstop : bodyStart + inner.print.length < cur.stop)
    {res out : List TplPiece} (hres : adler32 b.name ∉ pieceSums res) {more : List TplRegion}
    (h : processPieces content
      (((TplBody.block t b inner rest).placed p).map Placed.region ++ more) cur p res = some out) :
    ∃ ps, processPieces content ((inner.placed bodyStart).map Placed.region ++
        ((rest.placed next).map Placed.region ++ more)) (b.region inner bodyStart) bodyStart [] =
          some ps ∧
      processPieces content ((inner.placed bodyStart).map Placed.region ++
        ((rest.placed next).map Placed.region ++ more)) cur next
        (res ++ (piece cur p t.length ++ ps)) = some out := by
  have hopening := b.length_opening_pos
  have hinside : cur.contentOffset < (b.region inner bodyStart).contentOffset ∧
      (b.region inner bodyStart).stop < cur.stop := ⟨by rw [b.contentOffset_region]; omega, hstop⟩
  have hany : ¬ (res.any fun q => q.region.blockChecksum =
      (b.region inner bodyStart).blockChecksum) = true := mt any_region_eq.1 hres
  rw [regions_block hbodyStart hnext, processPieces, if_neg hany, if_pos hinside] at h
  obtain ⟨ps, hps, h⟩ := Option.bind_eq_some_iff.1 h
  rw [b.stop_region, b.contentOffset_region, behindCommand_block hcontent hp hbodyStart hnext,
    beforeCommand_block hcontent hp hbodyStart] at h
  exact ⟨ps, hps, h⟩

/-- What is there after the pieces of a block. -/
theorem mem_pieceSums_round {b : BlockTag} {inner : TplBody} {p bodyStart s : Nat} {len : Int}
    {res : List TplPiece} : s ∈ pieceSums (res ++ (piece cur p len ++
      inner.cut (b.region inner bodyStart) bodyStart)) ↔ s ∈ pieceSums res ∨
        (len ≠ 0 ∧ s = cur.blockChecksum) ∨ (inner.HasText ∧ s = adler32 b.name) ∨
          inner.Shows s := by
  rw [pieceSums_append, pieceSums_append, List.mem_append, List.mem_append,
    mem_pieceSums_piece, TplBody.mem_pieceSums_cut (b.stop_region inner bodyStart),
    b.blockChecksum_region]

/-- If the pieces do not show all blocks of a body, one of these is processed again. -/
theorem processPieces_inner {body : TplBody} (hsums : body.sums.Nodup) (hnot : ¬ body.AllHaveText)
    {s₁ s₂ : List UInt8} (hcontent : content = s₁ ++ (body.print ++ s₂)) {p : Nat}
    (hp : s₁.length = p) (hcur : cur.contentOffset ≤ p)
    (hstop : ∀ x ∈ body.placed p, x.bodyEnd < cur.stop) {next : Nat}
    (hnext : p + body.print.length ≤ next) {res out : List TplPiece}
    (hres : ∀ s ∈ body.sums, s ∈ pieceSums res → body.Shows s) {more : List TplRegion}
    (h : processPieces content ((body.placed p).map Placed.region ++ more) cur next res =
      some out) : ∃ q ∈ out, q.length < 0 := by
  refine processPieces_again ?_ ?_ h
  · intro x hx
    obtain ⟨y, hy, rfl⟩ := List.mem_map.1 hx
    have hbounds := TplBody.placed_bounds hy
    have hstop' : y.region.stop = y.bodyEnd := Nat.add_sub_cancel' hbounds.2.2.1
    refine ⟨?_, hstop' ▸ hstop y hy, ?_⟩
    · change cur.contentOffset < y.bodyStart
      omega
    · change beforeCommand content y.bodyStart < next
      rw [beforeCommand_placed hcontent hp hy]
      omega
  · rw [TplBody.allHaveText_iff hsums] at hnot
    obtain ⟨s, hs, hshows⟩ : ∃ s ∈ body.sums, ¬ body.Shows s := by
      by_contra hnone
      exact hnot fun s hs => by_contra fun hshows => hnone ⟨s, hs, hshows⟩
    have hmem := hs
    rw [← body.map_sum_placed p] at hmem
    obtain ⟨y, hy, rfl⟩ := List.mem_map.1 hmem
    exact ⟨y.region, List.mem_map_of_mem hy, fun hin => hshows (hres _ hs hin)⟩

/-- `process_blocks` for a body at the end of `cur`, with the blocks in it and then blocks
that lie behind: the pieces are those of the tree, or a block inside a block has no text
of its own and a piece has a negative length. -/
theorem processPieces_tree {body : TplBody} (hsums : body.sums.Nodup) {s₁ s₂ : List UInt8}
    (hcontent : content = s₁ ++ (body.print ++ s₂)) {p : Nat} (hp : s₁.length = p)
    (hcur : cur.contentOffset ≤ p) (hstop : ∀ x ∈ body.placed p, x.bodyEnd < cur.stop)
    (hsum : cur.blockChecksum ∉ body.sums) {res : List TplPiece}
    (hres : ∀ s ∈ pieceSums res, s ∉ body.sums) {more : List TplRegion}
    (hmore : ∀ x ∈ more, cur.stop ≤ x.stop) {out : List TplPiece}
    (h : processPieces content ((body.placed p).map Placed.region ++ more) cur p res =
      some out) :
    body.NestedHaveText ∧ out = res ++ body.cut cur p ∨
      ¬ body.NestedHaveText ∧ ∃ q ∈ out, q.length < 0 := by
  induction body generalizing s₁ s₂ p cur res more out with
  | last t =>
      rw [TplBody.placed, List.map_nil, List.nil_append, processPieces_outside hmore] at h
      exact .inl ⟨trivial, finishPieces_eq h⟩
  | block t b inner rest ihInner ihRest =>
      simp only [TplBody.sums_block, List.mem_cons, List.mem_append, not_or, List.nodup_cons,
        List.nodup_append] at hsums hsum hres
      obtain ⟨hb, hsInner, hsRest, hdisjoint⟩ := hsums
      simp only [TplBody.placed, List.forall_mem_cons, List.forall_mem_append] at hstop
      obtain ⟨hend, hstopInner, hstopRest⟩ := hstop
      obtain ⟨bodyStart, hbodyStart⟩ : ∃ n, p + t.length + b.opening.length = n := ⟨_, rfl⟩
      obtain ⟨next, hnext⟩ : ∃ n, bodyStart + inner.print.length + b.closing.length = n :=
        ⟨_, rfl⟩
      rw [hbodyStart] at hend hstopInner hstopRest
      rw [hnext] at hstopRest
      obtain ⟨ps, hps, hout⟩ := processPieces_round hcontent hp hbodyStart hnext hcur hend
        (fun hmem => (hres _ hmem).1 rfl) h
      have hfront : content = (s₁ ++ (t ++ b.opening)) ++
          (inner.print ++ (b.closing ++ (rest.print ++ s₂))) := by
        simp [hcontent, TplBody.print]
      have hback : content = (s₁ ++ (t ++ (b.opening ++ (inner.print ++ b.closing)))) ++
          (rest.print ++ s₂) := by
        simp [hcontent, TplBody.print]
      have hlenFront : (s₁ ++ (t ++ b.opening)).length = bodyStart := by
        simp only [List.length_append]
        omega
      have hlenBack : (s₁ ++ (t ++ (b.opening ++ (inner.print ++ b.closing)))).length = next := by
        simp only [List.length_append]
        omega
      have hbehind : ∀ x ∈ (rest.placed next).map Placed.region ++ more,
          (b.region inner bodyStart).stop ≤ x.stop := by
        refine rest.stop_le_of_mem ?_ fun x hx => Nat.le_trans (Nat.le_of_lt hend) (hmore x hx)
        rw [b.stop_region]
        omega
      rcases ihInner hsInner hfront hlenFront (le_refl _) b.placed_region hb.1
        (by simp [pieceSums]) hbehind hps with ⟨-, rfl⟩ | ⟨hnot, q, hq, hneg⟩
      · rw [List.nil_append] at hout
        by_cases hall : inner.AllHaveText
        · -- the blocks inside are passed over
          rw [processPieces_skip] at hout
          · have hresRest : ∀ s ∈ pieceSums (res ++ (piece cur p t.length ++
                inner.cut (b.region inner bodyStart) bodyStart)), s ∉ rest.sums := by
              intro s hs
              rcases mem_pieceSums_round.1 hs with hs | ⟨-, rfl⟩ | ⟨-, rfl⟩ | hs
              · exact (hres s hs).2.2
              · exact hsum.2.2
              · exact hb.2
              · exact fun hmem => hdisjoint s (TplBody.mem_sums_of_shows hs) s hmem rfl
            rcases ihRest hsRest hback hlenBack (by omega) hstopRest hsum.2.2 hresRest hmore hout
              with ⟨hnested, rfl⟩ | ⟨hnot, hneg⟩
            · refine .inl ⟨⟨hall, hnested⟩, ?_⟩
              rw [TplBody.cut, hbodyStart, hnext, List.append_assoc, List.append_assoc]
            · exact .inr ⟨fun hnested => hnot hnested.2, hneg⟩
          · intro x hx
            obtain ⟨y, hy, rfl⟩ := List.mem_map.1 hx
            have hshows := (TplBody.allHaveText_iff hsInner).1 hall _
              (TplBody.sum_mem_of_placed hy)
            exact mem_pieceSums_round.2 (.inr (.inr (.inr hshows)))
        · refine .inr ⟨fun hnested => hall hnested.1, processPieces_inner hsInner hall hfront
            hlenFront (by omega) hstopInner (by omega) ?_ hout⟩
          intro s hs hin
          rcases mem_pieceSums_round.1 hin with hin | ⟨-, rfl⟩ | ⟨-, rfl⟩ | hin
          · exact absurd hs (hres s hin).2.1
          · exact absurd hs hsum.2.1
          · exact absurd hs hb.1
          · exact hin
      · refine .inr ⟨fun hnested => hnot hnested.1.nested, q, ?_, hneg⟩
        exact (prefix_of_processPieces hout).subset
          (List.mem_append_right res (List.mem_append_right _ hq))

end Run

/-! ## The slices of a text -/

/-- The pieces of a text whose blocks are those of a tree. -/
theorem TreeOf.pieces {exec : PcreExec} {content : List UInt8} {body : TplBody}
    {others : List TplRegion} (htree : TreeOf exec content body others) {ps : List TplPiece}
    (h : pieces exec content = some ps) :
    body.NestedHaveText ∧ ps = body.cut (rootRegion content) 0 ∨
      ¬ body.NestedHaveText ∧ ∃ q ∈ ps, q.length < 0 := by
  have hsplit : content = [] ++ (body.print ++ []) := by simp [htree.print]
  have hmore : ∀ r ∈ others, (rootRegion content).stop ≤ r.stop := fun r hr =>
    Nat.le_trans (Nat.le_of_lt (htree.behind r hr)) (Nat.le_add_right _ _)
  rw [OpenTube.pieces, htree.found, Option.bind_some, List.tail_cons] at h
  exact processPieces_tree htree.sums hsplit rfl (le_refl _) htree.inside htree.nonzero
    (by simp [pieceSums]) hmore h

theorem rootRegion_stop_le (content : List UInt8) : (rootRegion content).stop ≤ content.length := by
  simp only [rootRegion, TplRegion.stop]
  unfold uint
  omega

/-- The slices of a compiled template stay inside if and only if the blocks inside a block
have texts of their own, and no variable command that the search for variables comes to
ends behind the piece it began in front of. -/
theorem slicesInside_iff {exec : PcreExec} {content : List UInt8}
    (hexec : FindsOnly exec content) {t : Template} (h : parseBlocks exec content = some t) :
    SlicesInside exec content t ↔ ∃ body others, TreeOf exec content body others ∧
      body.NestedHaveText ∧ ∀ p ∈ body.cut (rootRegion content) 0, p.Closed content := by
  obtain ⟨regions, hregions, h⟩ := Option.bind_eq_some_iff.1 h
  obtain ⟨v, hv, rfl⟩ := Option.map_eq_some_iff.1 h
  obtain ⟨ps, hps, hmade⟩ := madeOf_nil.processBlocks hv
  have hpieces : pieces exec content = some ps := by rw [pieces, hregions, Option.bind_some, hps]
  constructor
  · rintro ⟨qs, hqs, -, hholds⟩
    obtain rfl := Option.some.inj (hpieces.symm.trans hqs)
    have hclosed : ∀ p ∈ ps, p.Closed content := fun p hp =>
      (TplPiece.closed_iff (hmade.parsed p hp)).2 (hholds p hp).within
    obtain ⟨body, others, htree⟩ := exists_tree hexec hregions
    rcases htree.pieces hpieces with ⟨hnested, rfl⟩ | ⟨-, q, hq, hneg⟩
    · exact ⟨body, others, htree, hnested, hclosed⟩
    · have hnonneg := (hclosed q hq).nonneg
      omega
  · rintro ⟨body, others, htree, hnested, hclosed⟩
    rcases htree.pieces hpieces with ⟨-, rfl⟩ | ⟨hnot, -⟩
    · refine ⟨_, hpieces, hmade, ?_⟩
      intro p hp
      obtain ⟨hstart, hstop, hin⟩ := TplBody.cut_inside (Nat.zero_le _) htree.inside
        (rootRegion_stop_le content) hp
      exact ⟨hstart, hstop, hin, (TplPiece.closed_iff (hmade.parsed p hp)).1 (hclosed p hp)⟩
    · exact absurd hnested hnot

/-- Without a variable behind its beginning, a piece that has a length is closed. -/
theorem TplPiece.closed_of_plain {content : List UInt8} {p : TplPiece} (hlen : 0 ≤ p.length)
    (h : ¬ cmdVar <:+: content.drop p.start) : p.Closed content := by
  refine ⟨hlen, fun a c m hsplit _ => absurd ?_ h⟩
  rw [hsplit]
  exact (c.prefix_print m).isInfix.trans (List.suffix_append a _).isInfix

theorem treeOf_oneBlock : TreeOf oneBlock.exec oneBlock.print oneBlock [] where
  print := rfl
  found := by decide
  inside := by decide
  behind := by simp
  sums := by decide
  nonzero := by decide

/-- The slices of `t{block a}x{end a}u`. -/
theorem slicesInside_oneBlock :
    ∃ t, parseBlocks oneBlock.exec oneBlock.print = some t ∧
      SlicesInside oneBlock.exec oneBlock.print t := by
  obtain ⟨t, ht⟩ := Option.isSome_iff_exists.1
    (show (parseBlocks oneBlock.exec oneBlock.print).isSome = true by decide +kernel)
  refine ⟨t, ht, (slicesInside_iff (fun offset m hm => ?_) ht).2
    ⟨oneBlock, [], treeOf_oneBlock, ⟨trivial, trivial⟩, ?_⟩⟩
  · rw [← hm]
    exact properlyNested_oneBlock.finds offset
  · have hcut : oneBlock.cut (rootRegion oneBlock.print) 0 =
        [⟨rootRegion oneBlock.print, 0, 1⟩, ⟨⟨10, 1, adler32 (ascii "a")⟩, 10, 1⟩,
          ⟨rootRegion oneBlock.print, 18, 1⟩] := by
      decide +kernel
    rw [hcut]
    simp only [List.forall_mem_cons]
    exact ⟨TplPiece.closed_of_plain (by decide) (by decide +kernel),
      TplPiece.closed_of_plain (by decide) (by decide +kernel),
      TplPiece.closed_of_plain (by decide) (by decide +kernel), by simp⟩

/-- A variable behind a block. -/
def variableBehind : TplBody := .block [] tagA (.last (ascii "x")) (.last (ascii "{$ v}"))

theorem properlyNested_variableBehind : variableBehind.ProperlyNested :=
  ⟨by decide, List.pairwise_singleton _ _⟩

/-- In `{block a}x{end a}{$ v}` the variable behind the block is found in the block, and
the text behind it gets a length of almost `2 ^ 32`. -/
theorem not_slicesInside_variableBehind :
    Finds variableBehind.exec variableBehind.print ∧
      ∃ t, parseBlocks variableBehind.exec variableBehind.print = some t ∧
        ⟨22, .text (2 ^ 32 - 12), adler32 (ascii "a"), -2⟩ ∈ t.vector ∧
        ¬ SlicesInside variableBehind.exec variableBehind.print t := by
  refine ⟨properlyNested_variableBehind.finds, ?_⟩
  obtain ⟨t, ht⟩ := Option.isSome_iff_exists.1
    (show (parseBlocks variableBehind.exec variableBehind.print).isSome = true by decide +kernel)
  have hvector : (parseBlocks variableBehind.exec variableBehind.print).map Template.vector =
      some [⟨9, .text 8, adler32 (ascii "a"), 5⟩,
        ⟨20, .var (adler32 (ascii "v")), adler32 (ascii "a"), 0⟩,
        ⟨22, .text (2 ^ 32 - 12), adler32 (ascii "a"), -2⟩,
        ⟨20, .var (adler32 (ascii "v")), 0, 0⟩, ⟨22, .text 0, 0, -4⟩] := by
    decide +kernel
  rw [ht, Option.map_some] at hvector
  refine ⟨t, ht, by rw [Option.some.inj hvector]; simp, ?_⟩
  rintro ⟨ps, hps, -, hholds⟩
  have hpieces : pieces variableBehind.exec variableBehind.print =
      some [⟨⟨9, 1, adler32 (ascii "a")⟩, 9, 1⟩, ⟨rootRegion variableBehind.print, 17, 5⟩] := by
    decide +kernel
  obtain rfl := Option.some.inj (hpieces.symm.trans hps)
  have hmem : (⟨9, .text 8, adler32 (ascii "a"), 0⟩ : TplBlock) ∈
      (TplPiece.mk ⟨9, 1, adler32 (ascii "a")⟩ 9 1).elements variableBehind.print := by
    decide +kernel
  exact absurd ((hholds _ List.mem_cons_self).within _ hmem 8 rfl).2 (by decide)

end OpenTube
