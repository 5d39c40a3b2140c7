import Mathlib.Logic.Function.Basic
import OpenTube.Template.Variables

/-!
# What a template with blocks renders to

A body is rendered by going through its texts and its blocks in order; a block is
rendered once for every context that has its name, and each context is used once.
`render` is this meaning of a tree, and the module shows that the walk of
`tpl_complete` over the flattened vector follows it, if every body with blocks
begins and ends with a text of its own and no variable stands behind the first
block command: `blocksRender_of_sound`.

Otherwise the distances of a block are overwritten by those of the block around
it, or the search for variables runs into the next pieces.
-/

namespace OpenTube

open Loop

/-! ## The meaning of a tree -/

/-- A block is rendered for one context after another. -/
def eachContext (f : BlockContext → List BlockContext → List UInt8 × List BlockContext) :
    List BlockContext → List BlockContext → List UInt8 × List BlockContext
  | [], pending => ([], pending)
  | c :: mine, pending =>
      let r := f c pending
      let s := eachContext f mine r.2
      (r.1 ++ s.1, s.2)

/-- What a body is rendered to with the contexts that are not used yet, and the
contexts that are left. -/
def TplBody.render (scope : Scope) :
    Option (List AssocVariable) → List BlockContext → TplBody → List UInt8 × List BlockContext
  | own, pending, last t => (fill scope own t, pending)
  | own, pending, block t b inner rest =>
      let r := eachContext (fun c pending => inner.render scope (some c.vars) pending)
        (pending.filter fun c => c.name = b.name) (pending.filter fun c => c.name ≠ b.name)
      let s := rest.render scope own r.2
      (fill scope own t ++ (r.1 ++ s.1), s.2)

/-- No context comes back. -/
theorem eachContext_sublist {f : BlockContext → List BlockContext → List UInt8 × List BlockContext}
    (hf : ∀ c pending, (f c pending).2.Sublist pending) (mine pending : List BlockContext) :
    (eachContext f mine pending).2.Sublist pending := by
  induction mine generalizing pending with
  | nil => exact List.Sublist.refl _
  | cons c mine ih => exact (ih _).trans (hf c pending)

theorem TplBody.render_sublist (scope : Scope) (body : TplBody) (own : Option (List AssocVariable))
    (pending : List BlockContext) : (body.render scope own pending).2.Sublist pending := by
  induction body generalizing own pending with
  | last t => exact List.Sublist.refl _
  | block t b inner rest ihInner ihRest =>
      exact (ihRest _ _).trans ((eachContext_sublist (fun c pending => ihInner _ pending) _ _).trans
        List.filter_sublist)

/-! ## Elements in the vector -/

/-- An element with the offset it has in memory. -/
def Template.shift (t : Template) (b : TplBlock) : TplBlock :=
  { b with contentOffset := b.contentOffset + t.headerSize }

/-- The elements stand in the vector from `i` on. -/
def Located (t : Template) (i : Nat) (es : List TplBlock) : Prop :=
  ∀ (k : Nat) (b : TplBlock), es[k]? = some b → t.vector[i + k]? = some (t.shift b)

theorem Located.left {t : Template} {i : Nat} {es fs : List TplBlock} (h : Located t i (es ++ fs)) :
    Located t i es := by
  intro k b hb
  refine h k b ?_
  rw [List.getElem?_append_left (List.getElem?_eq_some_iff.1 hb).1]
  exact hb

theorem Located.right {t : Template} {i : Nat} {es fs : List TplBlock}
    (h : Located t i (es ++ fs)) : Located t (i + es.length) fs := by
  intro k b hb
  rw [Nat.add_assoc]
  refine h (es.length + k) b ?_
  rw [List.getElem?_append_right (Nat.le_add_right _ _), Nat.add_sub_cancel_left]
  exact hb

theorem Located.head {t : Template} {i : Nat} {e : TplBlock} {es : List TplBlock}
    (h : Located t i (e :: es)) : t.vector[i]? = some (t.shift e) := h 0 e rfl

theorem Located.tail {t : Template} {i : Nat} {e : TplBlock} {es : List TplBlock}
    (h : Located t i (e :: es)) : Located t (i + 1) es := @Located.right t i [e] es h

theorem Located.lt_length {t : Template} {i : Nat} {e : TplBlock} {es : List TplBlock}
    (h : Located t i (e :: es)) : i < t.vector.length := (List.getElem?_eq_some_iff.1 h.head).1

/-- A text of the content is read. -/
theorem Template.read_shift {t : Template} {a s z : List UInt8} (h : t.content = a ++ (s ++ z)) :
    t.read (a.length + t.headerSize) s.length = some s := by
  have hlen := congrArg List.length h
  simp only [List.length_append] at hlen
  rw [Template.read, if_pos (by omega), Nat.add_sub_cancel, h, List.drop_left, List.take_left]

/-- A part of a content is no longer than the content. -/
theorem Template.length_lt {t : Template} {a s z : List UInt8} {n : Nat}
    (h : t.content = a ++ (s ++ z)) (hlen : t.content.length < n) : s.length < n := by
  rw [h] at hlen
  simp only [List.length_append] at hlen
  omega

/-! ## The parts of a tree -/

namespace TplBody

/-- The text of a body in front of its last text. -/
def front : TplBody → List UInt8
  | last _ => []
  | block t b inner rest => t ++ (b.opening ++ (inner.print ++ (b.closing ++ rest.front)))

theorem print_eq (body : TplBody) : body.print = body.front ++ body.final := by
  induction body with
  | last t => rfl
  | block t b inner rest _ ihRest => simp [print, front, final, ihRest]

/-- The elements of a body in front of that of its last text. -/
def init : Nat → Nat → TplBody → List TplBlock
  | _, _, last _ => []
  | p, sum, block t b inner rest =>
      let bodyStart := p + t.length + b.opening.length
      textElements p sum t ++
        (setBlockLength (inner.elements bodyStart (adler32 b.name)) ++
          rest.init (bodyStart + inner.print.length + b.closing.length) sum)

/-- The element of the last text. -/
def finalElement (body : TplBody) (p sum : Nat) : TplBlock :=
  ⟨p + body.front.length, .text body.final.length, sum, 0⟩

theorem elements_eq {body : TplBody} (h : body.final ≠ []) (p sum : Nat) :
    body.elements p sum = body.init p sum ++ [body.finalElement p sum] := by
  induction body generalizing p with
  | last t => simpa [elements, init, finalElement, textElements, front, final] using h
  | block t b inner rest _ ihRest =>
      have hplace : p + t.length + b.opening.length + inner.print.length + b.closing.length +
          rest.front.length = p + (block t b inner rest).front.length := by
        simp only [front, List.length_append]
        omega
      rw [elements, ihRest h]
      simp only [init, finalElement, hplace, List.append_assoc]
      rfl

/-- What is known of a body whose names are among `names`: it has no variables, the
bodies of its blocks are bordered, and none is empty. -/
structure Regular (names : List (List UInt8)) (body : TplBody) : Prop where
  mem : ∀ b ∈ body.tags, b.name ∈ names
  nodup : (body.tags.map BlockTag.name).Nodup
  texts : ∀ t ∈ body.texts, ¬ cmdVar <:+: t
  border : body.InnerBordered
  filled : body.Filled

/-- The parts of a regular body. -/
structure RegularBlock (names : List (List UInt8)) (t : List UInt8) (b : BlockTag)
    (inner rest : TplBody) : Prop where
  mem : b.name ∈ names
  text : ¬ cmdVar <:+: t
  regularInner : inner.Regular names
  regularRest : rest.Regular names
  bordered : inner.Bordered
  ne_nil : inner.print ≠ []
  inner_ne : ∀ c ∈ inner.tags, c.name ≠ b.name
  rest_ne : ∀ c ∈ rest.tags, c.name ≠ b.name

theorem Regular.block {names : List (List UInt8)} {t : List UInt8} {b : BlockTag}
    {inner rest : TplBody} (h : (block t b inner rest).Regular names) :
    RegularBlock names t b inner rest := by
  obtain ⟨hmem, hnodup, htexts, ⟨hbordered, hborderInner, hborderRest⟩,
    ⟨hne, hfilledInner, hfilledRest⟩⟩ := h
  simp only [tags, TplBody.texts, List.mem_cons, List.mem_append, List.map_cons, List.map_append,
    List.nodup_cons, List.nodup_append, not_or, List.mem_map, not_exists, not_and] at *
  obtain ⟨⟨hbInner, hbRest⟩, hnInner, hnRest, -⟩ := hnodup
  exact
    { mem := hmem b (.inl rfl)
      text := htexts t (.inl rfl)
      regularInner := ⟨fun c hc => hmem c (.inr (.inl hc)), hnInner,
        fun t ht => htexts t (.inr (.inl ht)), hborderInner, hfilledInner⟩
      regularRest := ⟨fun c hc => hmem c (.inr (.inr hc)), hnRest,
        fun t ht => htexts t (.inr (.inr ht)), hborderRest, hfilledRest⟩
      bordered := hbordered
      ne_nil := hne
      inner_ne := hbInner
      rest_ne := hbRest }

end TplBody

/-! ## The contexts that are left -/

/-- The checksums tell the names apart. -/
structure Separated (names : List (List UInt8)) : Prop where
  ne_zero : ∀ x ∈ names, adler32 x ≠ 0
  inj : ∀ x ∈ names, ∀ y ∈ names, adler32 x = adler32 y → x = y

/-- The number of contexts of a name. -/
def contextsOf (x : List UInt8) (pending : List BlockContext) : Nat :=
  pending.countP fun c => c.name = x

/-- The checksums that are not struck out belong to the contexts that are left,
`extra` of them to blocks that are being rendered. -/
def Agree (names : List (List UInt8)) (cs : List Nat) (pending : List BlockContext)
    (extra : List UInt8 → Nat) : Prop :=
  ∀ x ∈ names, cs.count (adler32 x) = contextsOf x pending + extra x

section Agree

variable {names : List (List UInt8)} {cs : List Nat} {pending : List BlockContext}
  {extra : List UInt8 → Nat} {x : List UInt8}

theorem Agree.mem (h : Agree names cs pending extra) (hx : x ∈ names) (hextra : 0 < extra x) :
    adler32 x ∈ cs := by
  have hcount := h x hx
  exact List.count_pos_iff.1 (by omega)

theorem Agree.not_mem (h : Agree names cs pending extra) (hx : x ∈ names) (hextra : extra x = 0)
    (hpending : contextsOf x pending = 0) : adler32 x ∉ cs := by
  have hcount := h x hx
  exact List.count_eq_zero.1 (by omega)

/-- A context of `x` is struck out. -/
theorem Agree.strike (hnames : Separated names) (hx : x ∈ names) {k i : Nat}
    (h : Agree names cs pending (Function.update extra x (k + 1)))
    (hi : cs.idxOf? (adler32 x) = some i) :
    Agree names (cs.set i 0) pending (Function.update extra x k) := by
  obtain ⟨hsame, hother⟩ := count_set_idxOf (hnames.ne_zero x hx) hi
  intro y hy
  have hcount := h y hy
  by_cases hyx : y = x
  · subst hyx
    rw [Function.update_self] at hcount ⊢
    omega
  · rw [Function.update_of_ne hyx] at hcount ⊢
    rw [hother _ (hnames.ne_zero y hy) fun heq => hyx (hnames.inj y hy x hx heq)]
    exact hcount

/-- The contexts of a block are those it is rendered for. -/
theorem Agree.split (h : Agree names cs pending extra) (hextra : extra x = 0) :
    Agree names cs (pending.filter fun c => c.name ≠ x)
      (Function.update extra x (pending.filter fun c => c.name = x).length) := by
  intro y hy
  have hcount := h y hy
  rw [hcount]
  by_cases hyx : y = x
  · subst hyx
    have hnone : contextsOf y (pending.filter fun c => c.name ≠ y) = 0 := by
      rw [contextsOf, List.countP_eq_zero]
      intro c hc
      simpa using (List.mem_filter.1 hc).2
    rw [Function.update_self, hnone, hextra, contextsOf, List.countP_eq_length_filter]
    omega
  · have hsame : contextsOf y (pending.filter fun c => c.name ≠ x) = contextsOf y pending := by
      rw [contextsOf, contextsOf, List.countP_filter]
      refine List.countP_congr fun c _ => ?_
      simp only [ne_eq, decide_not, Bool.and_eq_true, decide_eq_true_eq, Bool.not_eq_true',
        decide_eq_false_iff_not, and_iff_left_iff_imp]
      rintro rfl
      exact hyx
    rw [Function.update_of_ne hyx, hsame]

theorem contextsOf_sublist {pending' : List BlockContext} (h : pending'.Sublist pending)
    (hzero : contextsOf x pending = 0) : contextsOf x pending' = 0 := by
  have hle : contextsOf x pending' ≤ contextsOf x pending := List.Sublist.countP_le h
  omega

end Agree

/-! ## The walk over a body -/

section Walk

variable {t : Template} {scope : Scope} {blocks : List BlockContext} {names : List (List UInt8)}

/-- The checksum of a body: that of no block, or of one that is being rendered. -/
def Rendering (names : List (List UInt8)) (extra : List UInt8 → Nat) (sum : Nat) : Prop :=
  sum = 0 ∨ ∃ x ∈ names, adler32 x = sum ∧ 0 < extra x

/-- The walk from the first element of a body to its last text. -/
def ChainRuns (t : Template) (scope : Scope) (blocks : List BlockContext)
    (names : List (List UInt8)) (body : TplBody) : Prop :=
  ∀ (s₁ s₂ : List UInt8) (i sum : Nat) (own : Option (List AssocVariable))
    (pending : List BlockContext) (extra : List UInt8 → Nat) (cs : List Nat) (out : List UInt8),
    t.content = s₁ ++ (body.print ++ s₂) → Located t i (body.init s₁.length sum) →
    i + (body.init s₁.length sum).length < t.vector.length → Rendering names extra sum →
    Agree names cs pending extra → (∀ b ∈ body.tags, extra b.name = 0) →
    ∃ cs' y, (body.render scope own pending).1 = y ++ body.final ∧
      Reaches (t.step scope blocks) ⟨i, cs, out⟩
        ⟨i + (body.init s₁.length sum).length, cs', out ++ y⟩ ∧
      Agree names cs' (body.render scope own pending).2 extra

/-- The walk over a block, once for each of the contexts `mine`. -/
def BlockRuns (t : Template) (scope : Scope) (blocks : List BlockContext)
    (names : List (List UInt8)) (body : TplBody) : Prop :=
  ∀ (s₁ s₂ x : List UInt8) (i : Nat) (mine pending : List BlockContext) (extra : List UInt8 → Nat)
    (cs : List Nat) (out : List UInt8),
    body.Bordered → body.print ≠ [] → x ∈ names → (∀ b ∈ body.tags, b.name ≠ x) →
    t.content = s₁ ++ (body.print ++ s₂) →
    Located t i (setBlockLength (body.elements s₁.length (adler32 x))) →
    Agree names cs pending (Function.update extra x mine.length) → extra x = 0 →
    contextsOf x pending = 0 → (∀ b ∈ body.tags, extra b.name = 0) →
    ∃ cs', Reaches (t.step scope blocks) ⟨i, cs, out⟩
        ⟨i + (body.elements s₁.length (adler32 x)).length, cs',
          out ++ (eachContext (fun c pending => body.render scope (some c.vars) pending) mine
            pending).1⟩ ∧
      Agree names cs' (eachContext (fun c pending => body.render scope (some c.vars) pending) mine
        pending).2 extra

theorem advance_eq {pc : Nat} {cs : List Nat} {out : List UInt8} (h : pc + 1 < t.vector.length) :
    t.advance ⟨pc, cs, out⟩ = .goto ⟨pc + 1, cs, out⟩ := by
  simp [Template.advance, h]

theorem Rendering.mem {extra : List UInt8 → Nat} {sum : Nat} (h : Rendering names extra sum)
    {cs : List Nat} {pending : List BlockContext} (hagree : Agree names cs pending extra)
    (hsum : sum ≠ 0) : sum ∈ cs := by
  rcases h with hzero | ⟨x, hx, rfl, hextra⟩
  · exact absurd hzero hsum
  · exact hagree.mem hx hextra

/-- A text of a body that is rendered. -/
theorem reaches_textElements {a s z : List UInt8} (hcontent : t.content = a ++ (s ++ z))
    {i sum : Nat}
    (hlocated : Located t i (textElements a.length sum s))
    (hbehind : i + (textElements a.length sum s).length < t.vector.length) {cs : List Nat}
    (hsum : sum ≠ 0 → sum ∈ cs) (out : List UInt8) :
    Reaches (t.step scope blocks) ⟨i, cs, out⟩
      ⟨i + (textElements a.length sum s).length, cs, out ++ s⟩ := by
  unfold textElements at *
  by_cases hs : s = []
  · simp only [hs, if_true, List.length_nil, Nat.add_zero, List.append_nil]
    exact Reaches.refl
  · simp only [if_neg hs, List.length_singleton] at *
    have hread := t.read_shift hcontent
    refine Reaches.single ?_
    rw [← advance_eq hbehind]
    by_cases hzero : sum = 0
    · exact step_outside hlocated.head hzero hread
    · exact step_text hlocated.head hzero (hsum hzero)
        ⟨Int.le_refl 0, show (0 : Int) ≠ 1 by decide⟩ rfl
        hread

/-- The walk from the block of a body on. -/
theorem reaches_middle {s : List UInt8} {b : BlockTag} {inner rest : TplBody}
    (h : TplBody.RegularBlock names s b inner rest) (hinner : BlockRuns t scope blocks names inner)
    (hrest : ChainRuns t scope blocks names rest) {s₁ s₂ : List UInt8} {i sum bodyStart next : Nat}
    (hcontent : t.content = s₁ ++ ((TplBody.block s b inner rest).print ++ s₂))
    (hbodyStart : bodyStart = s₁.length + s.length + b.opening.length)
    (hnext : next = bodyStart + inner.print.length + b.closing.length)
    (hlocated : Located t i (setBlockLength (inner.elements bodyStart (adler32 b.name)) ++
      rest.init next sum))
    (hbehind : i + (setBlockLength (inner.elements bodyStart (adler32 b.name)) ++
      rest.init next sum).length < t.vector.length) (own : Option (List AssocVariable))
    {pending : List BlockContext} {extra : List UInt8 → Nat} {cs : List Nat}
    (hsum : Rendering names extra sum) (hagree : Agree names cs pending extra)
    (hextra : ∀ c ∈ (TplBody.block s b inner rest).tags, extra c.name = 0) (out : List UInt8) :
    ∃ cs' y, ((TplBody.block s b inner rest).render scope own pending).1 =
        fill scope own s ++ (y ++ rest.final) ∧
      Reaches (t.step scope blocks) ⟨i, cs, out⟩
        ⟨i + (setBlockLength (inner.elements bodyStart (adler32 b.name)) ++
          rest.init next sum).length, cs', out ++ y⟩ ∧
      Agree names cs' ((TplBody.block s b inner rest).render scope own pending).2 extra := by
  simp only [TplBody.tags, List.mem_cons, List.mem_append] at hextra
  have hzero := hextra b (.inl rfl)
  have hfront : t.content = (s₁ ++ (s ++ b.opening)) ++
      (inner.print ++ (b.closing ++ (rest.print ++ s₂))) := by
    rw [hcontent]
    simp [TplBody.print]
  have hback : t.content = (s₁ ++ (s ++ (b.opening ++ (inner.print ++ b.closing)))) ++
      (rest.print ++ s₂) := by
    rw [hcontent]
    simp [TplBody.print]
  have hstart : (s₁ ++ (s ++ b.opening)).length = bodyStart := by
    simp only [List.length_append]
    omega
  have hstop : (s₁ ++ (s ++ (b.opening ++ (inner.print ++ b.closing)))).length = next := by
    simp only [List.length_append]
    omega
  have hnone : contextsOf b.name (pending.filter fun c => c.name ≠ b.name) = 0 := by
    rw [contextsOf, List.countP_eq_zero]
    intro c hc
    simpa using (List.mem_filter.1 hc).2
  obtain ⟨cs₁, hreach₁, hagree₁⟩ := hinner _ _ b.name i _ _ extra cs out h.bordered h.ne_nil h.mem
    h.inner_ne hfront (hstart ▸ hlocated.left) (hagree.split hzero) hzero hnone
    (fun c hc => hextra c (.inr (.inl hc)))
  obtain ⟨cs₂, y, hy, hreach₂, hagree₂⟩ := hrest _ _ _ sum own _ extra cs₁ _ hback
    (hstop ▸ hlocated.right) (by
      rw [hstop]
      rw [List.length_append, ← Nat.add_assoc] at hbehind
      exact hbehind) hsum hagree₁ (fun c hc => hextra c (.inr (.inr hc)))
  refine ⟨cs₂, (eachContext (fun c pending => inner.render scope (some c.vars) pending)
    (pending.filter fun c => c.name = b.name) (pending.filter fun c => c.name ≠ b.name)).1 ++ y,
    ?_, ?_, hagree₂⟩
  · rw [TplBody.render, hy]
    simp only [List.append_assoc]
  · rw [hstart] at hreach₁
    rw [hstop, length_setBlockLength] at hreach₂
    rw [List.length_append, length_setBlockLength, ← Nat.add_assoc, ← List.append_assoc]
    exact hreach₁.trans hreach₂

/-- A block that is one text. -/
theorem blockRuns_last (hnames : Separated names) {s : List UInt8} (hs : ¬ cmdVar <:+: s)
    (hlen : t.content.length < 2 ^ 32) : BlockRuns t scope blocks names (.last s) := by
  intro s₁ s₂ x i mine
  induction mine with
  | nil =>
      intro pending extra cs out _ hne hx _ _ hlocated hagree hextra hpending _
      have hsplit : textElements s₁.length (adler32 x) s =
          [⟨s₁.length, .text s.length, adler32 x, 0⟩] := if_neg hne
      simp only [TplBody.elements, hsplit, setBlockLength] at hlocated ⊢
      rw [List.length_nil, ← hextra, Function.update_eq_self] at hagree
      refine ⟨cs, ?_, hagree⟩
      simp only [eachContext, List.append_nil]
      exact Reaches.single (step_skip hlocated.head (hnames.ne_zero x hx)
        (hagree.not_mem hx hextra hpending) Nat.zero_lt_one rfl)
  | cons c mine ih =>
      intro pending extra cs out hborder hne hx hnot hcontent hlocated hagree hextra hpending htags
      have hsplit : textElements s₁.length (adler32 x) s =
          [⟨s₁.length, .text s.length, adler32 x, 0⟩] := if_neg hne
      obtain ⟨k, hk⟩ := exists_idxOf (hagree.mem hx (by simp))
      obtain ⟨cs', hreach, hagree'⟩ := ih pending extra (cs.set k 0) (out ++ s) hborder hne hx hnot
        hcontent hlocated (hagree.strike hnames hx hk) hextra hpending htags
      have hshort := t.length_lt hcontent hlen
      have hrender : ∀ p, (TplBody.last s).render scope (some c.vars) p = (s, p) := by
        intro p
        rw [TplBody.render, fill_eq_self hs hshort]
      simp only [eachContext, hrender]
      refine ⟨cs', ?_, hagree'⟩
      rw [← List.append_assoc]
      refine Reaches.head ?_ hreach
      simp only [TplBody.elements, hsplit, setBlockLength] at hlocated
      exact step_again hlocated.head (hnames.ne_zero x hx) hk rfl rfl (t.read_shift hcontent)

/-- A block with blocks in it. -/
theorem blockRuns_block (hnames : Separated names) {s : List UInt8} {b : BlockTag}
    {inner rest : TplBody} (h : TplBody.RegularBlock names s b inner rest)
    (hinner : BlockRuns t scope blocks names inner) (hrest : ChainRuns t scope blocks names rest)
    (hlen : t.content.length < 2 ^ 32) :
    BlockRuns t scope blocks names (.block s b inner rest) := by
  intro s₁ s₂ x i mine
  -- The elements: the first text, the middle and the last text.
  obtain ⟨bodyStart, hbodyStart⟩ : ∃ n, n = s₁.length + s.length + b.opening.length := ⟨_, rfl⟩
  obtain ⟨next, hnext⟩ : ∃ n, n = bodyStart + inner.print.length + b.closing.length := ⟨_, rfl⟩
  obtain ⟨middle, hmiddle⟩ : ∃ l, l = setBlockLength (inner.elements bodyStart (adler32 b.name)) ++
      rest.init next (adler32 x) := ⟨_, rfl⟩
  have helements : s ≠ [] → rest.final ≠ [] →
      (TplBody.block s b inner rest).elements s₁.length (adler32 x) =
        ⟨s₁.length, .text s.length, adler32 x, 0⟩ ::
          (middle ++ [rest.finalElement next (adler32 x)]) := by
    intro hs hfinal
    rw [TplBody.elements, textElements, if_neg hs, TplBody.elements_eq hfinal, hmiddle, hnext,
      hbodyStart]
    simp
  induction mine with
  | nil =>
      intro pending extra cs out hborder _ hx _ _ hlocated hagree hextra hpending _
      rw [helements hborder.1 hborder.2] at hlocated ⊢
      rw [setBlockLength_concat] at hlocated
      rw [List.length_nil, ← hextra, Function.update_eq_self] at hagree
      refine ⟨cs, ?_, hagree⟩
      simp only [eachContext, List.append_nil]
      refine Reaches.single (step_skip hlocated.head (hnames.ne_zero x hx)
        (hagree.not_mem hx hextra hpending) ?_ ?_)
      · simp
      · rw [List.length_cons, List.length_append]
        rfl
  | cons c mine ih =>
      intro pending extra cs out hborder hne hx hnot hcontent hlocated hagree hextra hpending htags
      have hplaces := hlocated
      rw [helements hborder.1 hborder.2, setBlockLength_concat] at hplaces
      have hfinal := hplaces.tail.right
      have hbehind := hfinal.lt_length
      have hsum : Rendering names (Function.update extra x (c :: mine).length) (adler32 x) :=
        .inr ⟨x, hx, rfl, by simp⟩
      have hzero : ∀ d ∈ (TplBody.block s b inner rest).tags,
          Function.update extra x (c :: mine).length d.name = 0 := by
        intro d hd
        rw [Function.update_of_ne (hnot d hd)]
        exact htags d hd
      -- The first text and the middle.
      have htext : t.content = s₁ ++ (s ++ (b.opening ++ (inner.print ++ (b.closing ++
          rest.print)) ++ s₂)) := by
        rw [hcontent, TplBody.print, List.append_assoc]
      have hread := t.read_shift htext
      have hfirst : t.step scope blocks ⟨i, cs, out⟩ = some (.goto ⟨i + 1, cs, out ++ s⟩) := by
        rw [← advance_eq (t := t) (by omega)]
        refine step_text hplaces.head (hnames.ne_zero x hx) (hagree.mem hx (by simp)) ?_ rfl hread
        refine ⟨Int.natCast_nonneg _, ?_⟩
        change ((_ + 2 : Nat) : Int) ≠ 1
        omega
      obtain ⟨cs₁, y, hy, hreach₁, hagree₁⟩ := reaches_middle h hinner hrest hcontent hbodyStart
        hnext (hmiddle ▸ hplaces.tail.left) (hmiddle ▸ hbehind) (some c.vars) hsum hagree hzero
        (out ++ s)
      rw [← hmiddle] at hreach₁
      -- The last text goes back, and its context is struck out.
      obtain ⟨k, hk⟩ := exists_idxOf (hagree₁.mem hx (by simp))
      have hlast : t.step scope blocks ⟨i + (middle.length + 1), cs₁, out ++ s ++ y⟩ =
          some (.goto ⟨i, cs₁.set k 0, out ++ s ++ y ++ rest.final⟩) := by
        have hplace : i + 1 + middle.length = i + (middle.length + 1) := by omega
        rw [hplace] at hfinal
        refine step_back hfinal.head (hnames.ne_zero x hx) hk (Nat.succ_pos _) rfl rfl ?_
        have hrestFinal : t.content = (s₁ ++ (s ++ (b.opening ++ (inner.print ++ (b.closing ++
            rest.front))))) ++ (rest.final ++ s₂) := by
          rw [hcontent, TplBody.print, rest.print_eq]
          simp
        have hstart : (s₁ ++ (s ++ (b.opening ++ (inner.print ++ (b.closing ++
            rest.front))))).length = next + rest.front.length := by
          simp only [List.length_append]
          omega
        have hread := t.read_shift hrestFinal
        rw [hstart] at hread
        exact hread
      have hshort := t.length_lt htext hlen
      obtain ⟨cs', hreach, hagree'⟩ := ih _ extra (cs₁.set k 0)
        (out ++ s ++ y ++ rest.final) hborder
        hne hx hnot hcontent hlocated (hagree₁.strike hnames hx hk) hextra
        (contextsOf_sublist (TplBody.render_sublist _ _ _ _) hpending) htags
      refine ⟨cs', ?_, hagree'⟩
      have hout : out ++ (eachContext (fun c pending =>
          (TplBody.block s b inner rest).render scope (some c.vars) pending)
              (c :: mine) pending).1 =
          out ++ s ++ y ++ rest.final ++ (eachContext (fun c pending =>
            (TplBody.block s b inner rest).render scope (some c.vars) pending) mine
            ((TplBody.block s b inner rest).render scope (some c.vars) pending).2).1 := by
        rw [eachContext, hy, fill_eq_self h.text hshort]
        simp
      rw [hout]
      refine Reaches.head hfirst (hreach₁.trans (Reaches.head ?_ hreach))
      rw [show i + 1 + middle.length = i + (middle.length + 1) by omega]
      exact hlast

/-- The walk over the vector follows the tree. -/
theorem TplBody.Regular.runs (hnames : Separated names) (hlen : t.content.length < 2 ^ 32)
    {body : TplBody} (h : body.Regular names) :
    ChainRuns t scope blocks names body ∧ BlockRuns t scope blocks names body := by
  induction body with
  | last s =>
      have hs := h.texts s (by simp [TplBody.texts])
      refine ⟨?_, blockRuns_last hnames hs hlen⟩
      intro s₁ s₂ i sum own pending extra cs out hcontent _ _ _ hagree _
      have hshort := t.length_lt hcontent hlen
      refine ⟨cs, [], fill_eq_self hs hshort scope own, ?_, hagree⟩
      simp only [init, List.length_nil, Nat.add_zero, List.append_nil]
      exact Reaches.refl
  | block s b inner rest ihInner ihRest =>
      have hparts := h.block
      obtain ⟨-, hinner⟩ := ihInner hparts.regularInner
      obtain ⟨hrest, -⟩ := ihRest hparts.regularRest
      refine ⟨?_, blockRuns_block hnames hparts hinner hrest hlen⟩
      intro s₁ s₂ i sum own pending extra cs out hcontent hlocated hbehind hsum hagree hextra
      have hfront : t.content = s₁ ++ (s ++ (b.opening ++ (inner.print ++ (b.closing ++
          (rest.print ++ s₂))))) := by
        rw [hcontent, print]
        simp
      have hshort := t.length_lt hfront hlen
      rw [init, List.length_append, ← Nat.add_assoc] at hbehind
      have htext : Reaches (t.step scope blocks) ⟨i, cs, out⟩
          ⟨i + (textElements s₁.length sum s).length, cs, out ++ s⟩ :=
        reaches_textElements hfront hlocated.left (by omega) (fun hne => hsum.mem hagree hne) out
      obtain ⟨cs', y, hy, hreach, hagree'⟩ := reaches_middle hparts hinner hrest hcontent rfl rfl
        hlocated.right hbehind own hsum hagree hextra (out ++ s)
      refine ⟨cs', s ++ y, ?_, ?_, hagree'⟩
      · rw [hy, fill_eq_self hparts.text hshort, final]
        simp
      · rw [init, List.length_append, ← Nat.add_assoc, ← List.append_assoc]
        exact htext.trans hreach

end Walk

end OpenTube
