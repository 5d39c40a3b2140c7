import OpenTube.Config.Acceptance

/-!
# Comments between the tokens

A comment between two tokens of a configuration makes no difference, with two
exceptions. The star that opens a comment in `/*` and `*/` may close it as well, so a
comment whose text begins with a slash ends too early. And a group reads two semicolons,
one directly behind its brace and one behind the blanks that follow: a comment between
the brace and the first of them leaves the second one behind.

The tokens of a text are strings, words and single marks. A word is as long as possible:
it ends at a blank, a mark, a string or a comment.
-/

namespace OpenTube

/-! ## Comments as they are read -/

/-- A comment as `config_jump_to_nonspace` reads it: the search for its end begins with
the star that opens it. -/
inductive SkippedComment : List UInt8 → Prop
  | line {o t} (ho : LineMark o) (ht : lf ∉ t) (hnul : nul ∉ t) :
      SkippedComment (o ++ (t ++ [lf]))
  | block {t} (ht : ¬[star, slash] <:+: star :: t) (hnul : nul ∉ t) :
      SkippedComment (slash :: star :: (t ++ [star, slash]))
  | overlap : SkippedComment [slash, star, slash]

/-- A text that `config_jump_to_nonspace` passes over, whatever follows. -/
inductive Skips : List UInt8 → Prop
  | nil : Skips []
  | blank {c w} (hc : configBlank c = true) (hw : Skips w) : Skips (c :: w)
  | comment {c w} (hc : SkippedComment c) (hw : Skips w) : Skips (c ++ w)

theorem nul_notMem_lineMark {o : List UInt8} (ho : LineMark o) : nul ∉ o := by
  rcases ho with rfl | rfl <;> decide

theorem afterBlanks_blank {c : UInt8} (hc : configBlank c = true) (r : List UInt8) :
    afterBlanks (c :: r) = afterBlanks r := by
  obtain ⟨hnul, hhash, hslash, -⟩ := configBlank_ne hc
  simp only [afterBlanks, jumpToNonspace, hnul, hhash, hslash, hc, false_and, or_false, if_false,
    if_true]

/-- The rest of a comment up to the end of the line. -/
theorem jump_line {t : List UInt8} (ht : lf ∉ t) (hnul : nul ∉ t) (r : List UInt8) :
    (jumpToNonspace .line (t ++ lf :: r)).2 = afterBlanks r := by
  induction t with
  | nil =>
      have hlf : lf ≠ nul := by decide
      simp only [List.nil_append, jumpToNonspace, if_neg hlf, if_true, afterBlanks]
  | cons c t ih =>
      rw [List.mem_cons, not_or] at ht hnul
      simp only [List.cons_append, jumpToNonspace, if_neg (Ne.symm hnul.1), if_neg (Ne.symm ht.1),
        ih ht.2 hnul.2]

/-- The rest of a comment up to `*/`. -/
theorem jump_block {t : List UInt8} (ht : ¬[star, slash] <:+: t) (hnul : nul ∉ t)
    (r : List UInt8) : (jumpToNonspace .block (t ++ star :: slash :: r)).2 = afterBlanks r := by
  induction t with
  | nil =>
      have hstar : star ≠ nul := by decide
      have hslash : slash ≠ nul := by decide
      simp only [List.nil_append, jumpToNonspace, if_neg hstar, List.head?_cons, and_self, if_true,
        if_neg hslash, afterBlanks]
  | cons c t ih =>
      rw [List.infix_cons_iff, not_or] at ht
      rw [List.mem_cons, not_or] at hnul
      have hnot : ¬(c = star ∧ (t ++ star :: slash :: r).head? = some slash) := by
        rintro ⟨rfl, hhead⟩
        cases t with
        | nil => exact absurd (Option.some.inj hhead) (by decide)
        | cons e t =>
            obtain rfl : e = slash := Option.some.inj hhead
            exact ht.1 ⟨t, rfl⟩
      simp only [List.cons_append, jumpToNonspace, if_neg (Ne.symm hnul.1), if_neg hnot,
        ih ht.2 hnul.2]

theorem afterBlanks_lineMark {o : List UInt8} (ho : LineMark o) (r : List UInt8) :
    afterBlanks (o ++ r) = (jumpToNonspace .line r).2 := by
  have hhash : hash ≠ nul := by decide
  have hslash : slash ≠ nul := by decide
  have hlf : slash ≠ lf := by decide
  rcases ho with rfl | rfl
  · simp only [afterBlanks, List.cons_append, List.nil_append, jumpToNonspace, if_neg hhash, true_or,
      if_true]
  · simp only [afterBlanks, List.cons_append, List.nil_append, jumpToNonspace, if_neg hslash,
      List.head?_cons, and_self, or_true, if_true, if_neg hlf]

theorem afterBlanks_opener (r : List UInt8) :
    afterBlanks (slash :: star :: r) = (jumpToNonspace .block (star :: r)).2 := by
  have hnul : slash ≠ nul := by decide
  have hhash : slash ≠ hash := by decide
  have hstar : star ≠ slash := by decide
  simp only [afterBlanks, jumpToNonspace, if_neg hnul, hhash, List.head?_cons, Option.some.injEq,
    hstar, and_false, or_false, if_false, and_self, if_true]

theorem afterBlanks_comment {c : List UInt8} (hc : SkippedComment c) (r : List UInt8) :
    afterBlanks (c ++ r) = afterBlanks r := by
  cases hc with
  | line ho ht hnul =>
      rw [List.append_assoc, afterBlanks_lineMark ho, List.append_assoc]
      exact jump_line ht hnul r
  | @block t ht hnul =>
      have hstar : nul ∉ star :: t := by
        rw [List.mem_cons, not_or]
        exact ⟨by decide, hnul⟩
      have hjump := jump_block ht hstar r
      rw [List.cons_append, List.cons_append, afterBlanks_opener]
      simpa using hjump
  | overlap =>
      exact (afterBlanks_opener (slash :: r)).trans (jump_block (t := []) (by simp) (by simp) r)

theorem afterBlanks_skips {w : List UInt8} (hw : Skips w) (r : List UInt8) :
    afterBlanks (w ++ r) = afterBlanks r := by
  induction hw with
  | nil => rfl
  | blank hc _ ih => rw [List.cons_append, afterBlanks_blank hc, ih]
  | comment hc _ ih => rw [List.append_assoc, afterBlanks_comment hc, ih]

/-! ## Tokens -/

/-- A byte that is a token of its own. -/
def isMark (c : UInt8) : Bool :=
  c = leftBrace || c = rightBrace || c = semicolon || c = colon || c = equals

/-- A byte of a word. -/
def isWordByte (c : UInt8) : Bool :=
  !(configBlank c || isMark c || c = nul || c = hash || c = slash || c = quote)

/-- What stands directly before a place: a byte of a word, a closing brace, or anything
else. -/
inductive Before
  | word
  | brace
  | other
deriving DecidableEq, Repr

/-- What stands before the place behind a mark. -/
def Before.ofMark (c : UInt8) : Before := if c = rightBrace then .brace else .other

/-- Two texts that are the same up to a place behind some tokens, blanks and comments,
where they differ as `leaf` says. -/
inductive Within (leaf : Before → List UInt8 → List UInt8 → Prop) :
    Before → List UInt8 → List UInt8 → Prop
  | here {k s s'} (h : leaf k s s') : Within leaf k s s'
  | word {k x m m'} (hx : isWordByte x = true) (h : Within leaf .word m m') :
      Within leaf k (x :: m) (x :: m')
  | mark {k x m m'} (hx : isMark x = true) (h : Within leaf (.ofMark x) m m') :
      Within leaf k (x :: m) (x :: m')
  | string {k t m m'} (ht : ∀ c ∈ t, c ≠ nul ∧ c ≠ quote) (h : Within leaf .other m m') :
      Within leaf k (quote :: (t ++ quote :: m)) (quote :: (t ++ quote :: m'))
  | blank {k x m m'} (hx : configBlank x = true) (h : Within leaf .other m m') :
      Within leaf k (x :: m) (x :: m')
  | comment {k w m m'} (hw : SkippedComment w) (h : Within leaf .other m m') :
      Within leaf k (w ++ m) (w ++ m')

/-- Two texts that begin with the same token and differ behind it. -/
inductive FromToken (leaf : Before → List UInt8 → List UInt8 → Prop) :
    List UInt8 → List UInt8 → Prop
  | word {x m m'} (hx : isWordByte x = true) (h : Within leaf .word m m') :
      FromToken leaf (x :: m) (x :: m')
  | mark {x m m'} (hx : isMark x = true) (h : Within leaf (.ofMark x) m m') :
      FromToken leaf (x :: m) (x :: m')
  | string {t m m'} (ht : ∀ c ∈ t, c ≠ nul ∧ c ≠ quote) (h : Within leaf .other m m') :
      FromToken leaf (quote :: (t ++ quote :: m)) (quote :: (t ++ quote :: m'))

/-- A comment is put between two tokens. -/
structure Insertion (c : List UInt8) (k : Before) (s s' : List UInt8) : Prop where
  text : s' = c ++ s
  between : k = .word → ∀ x ∈ s.head?, isWordByte x = false
  more : ∃ x m, afterBlanks s = x :: m ∧ x ≠ nul

/-- The place between the brace that closes a group and a semicolon directly behind it,
with another semicolon behind that one. -/
def DoubledSemicolon (k : Before) (s : List UInt8) : Prop :=
  k = .brace ∧ ∃ m m', s = semicolon :: m ∧ afterBlanks m = semicolon :: m'

/-! ## Blanks before a token -/

theorem wordByte_ne {x : UInt8} (h : isWordByte x = true) :
    configBlank x = false ∧ isMark x = false ∧ x ≠ nul ∧ x ≠ hash ∧ x ≠ slash ∧ x ≠ quote := by
  simpa [isWordByte, and_assoc] using h

theorem mark_ne {x : UInt8} (h : isMark x = true) :
    configBlank x = false ∧ x ≠ nul ∧ x ≠ hash ∧ x ≠ slash ∧ x ≠ quote := by
  have hall : ∀ x : UInt8, isMark x = true →
      configBlank x = false ∧ x ≠ nul ∧ x ≠ hash ∧ x ≠ slash ∧ x ≠ quote :=
    forall_byte (by decide)
  exact hall x h

/-- The first byte of a comment. -/
theorem SkippedComment.head {w : List UInt8} (hw : SkippedComment w) :
    ∃ x m, w = x :: m ∧ (x = hash ∨ x = slash) := by
  cases hw with
  | line ho _ _ =>
      rcases ho with rfl | rfl
      · exact ⟨hash, _, rfl, .inl rfl⟩
      · exact ⟨slash, _, rfl, .inr rfl⟩
  | block _ _ => exact ⟨slash, _, rfl, .inr rfl⟩
  | overlap => exact ⟨slash, _, rfl, .inr rfl⟩

theorem SkippedComment.nul_notMem {w : List UInt8} (hw : SkippedComment w) : nul ∉ w := by
  cases hw with
  | line ho _ hnul =>
      rw [List.mem_append, List.mem_append, List.mem_singleton]
      rintro (hmem | hmem | hmem)
      · exact nul_notMem_lineMark ho hmem
      · exact hnul hmem
      · exact absurd hmem (by decide)
  | block _ hnul =>
      simp only [List.mem_cons, List.mem_append, List.not_mem_nil, or_false]
      rintro (hmem | hmem | hmem | hmem | hmem)
      · exact absurd hmem (by decide)
      · exact absurd hmem (by decide)
      · exact hnul hmem
      · exact absurd hmem (by decide)
      · exact absurd hmem (by decide)
  | overlap => decide

theorem afterBlanks_stop {x : UInt8} (hblank : configBlank x = false) (hhash : x ≠ hash)
    (hslash : x ≠ slash) (m : List UInt8) : afterBlanks (x :: m) = x :: m := by
  simp only [afterBlanks, jumpToNonspace, hhash, hslash, hblank, false_and, or_false, if_false,
    Bool.false_eq_true]
  split <;> rfl

theorem atItem_of_head {s : List UInt8} (h : s.head? ≠ some nul) : atItem s = afterBlanks s :=
  if_neg h

variable {c : List UInt8} {leaf : Before → List UInt8 → List UInt8 → Prop}

/-- What is needed of the place where two texts differ: a comment that is skipped is put
there, between two tokens. -/
structure CommentLeaf (c : List UInt8) (leaf : Before → List UInt8 → List UInt8 → Prop) :
    Prop where
  insertion : ∀ {k s s'}, leaf k s s' → Insertion c k s s'
  skips : Skips c
  first : ∃ x m, c = x :: m ∧ (x = hash ∨ x = slash)

/-- The first bytes of two texts. -/
theorem Within.head {k : Before} {s s' : List UInt8} (hleaf : CommentLeaf c leaf)
    (h : Within leaf k s s') :
    (∃ x m, s' = x :: m ∧ (x = hash ∨ x = slash)) ∨
      ∃ x m m', s = x :: m ∧ s' = x :: m' ∧ x ≠ nul := by
  cases h with
  | here h =>
      obtain ⟨x, m, rfl, hx⟩ := hleaf.first
      exact .inl ⟨x, _, (hleaf.insertion h).text, hx⟩
  | word hx _ => exact .inr ⟨_, _, _, rfl, rfl, (wordByte_ne hx).2.2.1⟩
  | mark hx _ => exact .inr ⟨_, _, _, rfl, rfl, (mark_ne hx).2.1⟩
  | string _ _ => exact .inr ⟨_, _, _, rfl, rfl, by decide⟩
  | blank hx _ => exact .inr ⟨_, _, _, rfl, rfl, (configBlank_ne hx).1⟩
  | comment hw _ =>
      obtain ⟨x, m, rfl, hx⟩ := hw.head
      exact .inl ⟨x, _, rfl, hx⟩

theorem Within.head_ne {k : Before} {s s' : List UInt8} (hleaf : CommentLeaf c leaf)
    (h : Within leaf k s s') : s.head? ≠ some nul ∧ s'.head? ≠ some nul := by
  have hcomment : ∀ x : UInt8, x = hash ∨ x = slash → x ≠ nul := by
    rintro x (rfl | rfl) <;> decide
  cases h with
  | here h =>
      have hinsertion := hleaf.insertion h
      obtain ⟨x, m, hx, hne⟩ := hinsertion.more
      refine ⟨fun hhead => ?_, fun hhead => ?_⟩
      · obtain ⟨m', rfl⟩ := List.head?_eq_some_iff.1 hhead
        have hstop : afterBlanks (nul :: m') = nul :: m' := by simp [afterBlanks, jumpToNonspace]
        rw [hstop, List.cons.injEq] at hx
        exact hne hx.1.symm
      · obtain ⟨y, c', rfl, hy⟩ := hleaf.first
        rw [hinsertion.text] at hhead
        exact hcomment y hy (Option.some.inj hhead)
  | word hx _ =>
      have hne := (wordByte_ne hx).2.2.1
      exact ⟨fun h => hne (Option.some.inj h), fun h => hne (Option.some.inj h)⟩
  | mark hx _ =>
      have hne := (mark_ne hx).2.1
      exact ⟨fun h => hne (Option.some.inj h), fun h => hne (Option.some.inj h)⟩
  | string _ _ =>
      exact ⟨fun h => absurd (Option.some.inj h) (by decide),
        fun h => absurd (Option.some.inj h) (by decide)⟩
  | blank hx _ =>
      have hne := (configBlank_ne hx).1
      exact ⟨fun h => hne (Option.some.inj h), fun h => hne (Option.some.inj h)⟩
  | comment hw _ =>
      obtain ⟨x, m, rfl, hx⟩ := hw.head
      exact ⟨fun h => hcomment x hx (Option.some.inj h), fun h => hcomment x hx (Option.some.inj h)⟩

/-- There is a place of insertion that is not directly behind a brace. -/
def Absorbed (leaf : Before → List UInt8 → List UInt8 → Prop) : Prop :=
  ∃ k s s', leaf k s s' ∧ k ≠ .brace

/-- Behind the blanks either the comment has been passed as well, or both texts are at
the same token. -/
theorem Within.behindBlanks {k : Before} {s s' : List UInt8} (hleaf : CommentLeaf c leaf)
    (h : Within leaf k s s') :
    (afterBlanks s' = afterBlanks s ∧ (k ≠ .brace → Absorbed leaf)) ∨
      FromToken leaf (afterBlanks s) (afterBlanks s') := by
  induction h with
  | @here k s s' h =>
      refine .inl ⟨?_, fun hk => ⟨k, s, s', h, hk⟩⟩
      rw [(hleaf.insertion h).text, afterBlanks_skips hleaf.skips]
  | word hx h _ =>
      obtain ⟨hblank, -, -, hhash, hslash, -⟩ := wordByte_ne hx
      rw [afterBlanks_stop hblank hhash hslash, afterBlanks_stop hblank hhash hslash]
      exact .inr (.word hx h)
  | mark hx h _ =>
      obtain ⟨hblank, -, hhash, hslash, -⟩ := mark_ne hx
      rw [afterBlanks_stop hblank hhash hslash, afterBlanks_stop hblank hhash hslash]
      exact .inr (.mark hx h)
  | string ht h _ =>
      rw [afterBlanks_stop (by decide) (by decide) (by decide),
        afterBlanks_stop (by decide) (by decide) (by decide)]
      exact .inr (.string ht h)
  | blank hx _ ih =>
      rw [afterBlanks_blank hx, afterBlanks_blank hx]
      exact ih.imp (fun h => ⟨h.1, fun _ => h.2 (by decide)⟩) id
  | comment hw _ ih =>
      rw [afterBlanks_comment hw, afterBlanks_comment hw]
      exact ih.imp (fun h => ⟨h.1, fun _ => h.2 (by decide)⟩) id

theorem FromToken.within {s s' : List UInt8} (h : FromToken leaf s s') (k : Before) :
    Within leaf k s s' := by
  cases h with
  | word hx h => exact .word hx h
  | mark hx h => exact .mark hx h
  | string ht h => exact .string ht h

/-! ## Words -/

theorem comment_not_word {x : UInt8} (h : x = hash ∨ x = slash) :
    isWordByte x = false ∧ isMark x = false ∧ x ≠ quote := by
  rcases h with rfl | rfl <;> decide

/-- Inside of a word there is no place between two tokens. -/
theorem Within.words {w r s' : List UInt8} (hleaf : CommentLeaf c leaf)
    (hw : ∀ x ∈ w, isWordByte x = true) (h : Within leaf .word (w ++ r) s') :
    ∃ r', s' = w ++ r' ∧ Within leaf .word r r' := by
  induction w generalizing s' with
  | nil => exact ⟨s', rfl, h⟩
  | cons x w ih =>
      obtain ⟨hx, hw⟩ := List.forall_mem_cons.1 hw
      obtain ⟨hblank, hmark, hnul, hhash, hslash, hquote⟩ := wordByte_ne hx
      generalize hs : x :: w ++ r = s at h
      cases h with
      | here h =>
          rw [List.cons_append] at hs
          subst hs
          have hnone := (hleaf.insertion h).between rfl x rfl
          exact absurd (hx.symm.trans hnone) Bool.noConfusion
      | word _ h =>
          rw [List.cons_append, List.cons.injEq] at hs
          obtain ⟨rfl, rfl⟩ := hs
          obtain ⟨r', rfl, hr⟩ := ih hw h
          exact ⟨r', rfl, hr⟩
      | mark hother _ =>
          rw [List.cons_append, List.cons.injEq] at hs
          rw [← hs.1, hmark] at hother
          exact absurd hother Bool.false_ne_true
      | string _ _ =>
          rw [List.cons_append, List.cons.injEq] at hs
          exact absurd hs.1 hquote
      | blank hother _ =>
          rw [List.cons_append, List.cons.injEq] at hs
          rw [← hs.1, hblank] at hother
          exact absurd hother Bool.false_ne_true
      | comment hother _ =>
          obtain ⟨y, m, rfl, hy⟩ := hother.head
          rw [List.cons_append, List.cons_append, List.cons.injEq] at hs
          rw [hs.1] at hx
          exact absurd (hx.symm.trans (comment_not_word hy).1) Bool.noConfusion

/-- A word that is passed. -/
theorem Within.of_words {w r r' : List UInt8} (hw : ∀ x ∈ w, isWordByte x = true)
    (h : Within leaf .word r r') : Within leaf .word (w ++ r) (w ++ r') := by
  induction w with
  | nil => exact h
  | cons x w ih =>
      obtain ⟨hx, hw⟩ := List.forall_mem_cons.1 hw
      exact .word hx (ih hw)

/-- Two texts from a word on. -/
theorem FromToken.words {x : UInt8} {w r s' : List UInt8} (hleaf : CommentLeaf c leaf)
    (hw : ∀ y ∈ x :: w, isWordByte y = true) (h : FromToken leaf (x :: w ++ r) s') :
    ∃ r', s' = x :: w ++ r' ∧ Within leaf .word r r' := by
  obtain ⟨hx, hw⟩ := List.forall_mem_cons.1 hw
  obtain ⟨hblank, hmark, hnul, hhash, hslash, hquote⟩ := wordByte_ne hx
  generalize hs : x :: w ++ r = s at h
  cases h with
  | word _ h =>
      rw [List.cons_append, List.cons.injEq] at hs
      obtain ⟨rfl, rfl⟩ := hs
      obtain ⟨r', rfl, hr⟩ := h.words hleaf hw
      exact ⟨r', rfl, hr⟩
  | mark hother _ =>
      rw [List.cons_append, List.cons.injEq] at hs
      rw [← hs.1, hmark] at hother
      exact absurd hother Bool.false_ne_true
  | string _ _ =>
      rw [List.cons_append, List.cons.injEq] at hs
      exact absurd hs.1 hquote

/-- Two texts from a mark on. -/
theorem FromToken.of_mark {x : UInt8} {m s' : List UInt8} (hx : isMark x = true)
    (h : FromToken leaf (x :: m) s') :
    ∃ m', s' = x :: m' ∧ Within leaf (.ofMark x) m m' := by
  cases h with
  | word hother _ =>
      rw [(wordByte_ne hother).2.1] at hx
      exact absurd hx Bool.false_ne_true
  | mark _ h => exact ⟨_, rfl, h⟩
  | string _ _ => exact absurd hx (by decide)

/-- A text is cut at its first quote in one way. -/
theorem split_quote {t u m n : List UInt8} (ht : quote ∉ t) (hu : quote ∉ u)
    (h : t ++ quote :: m = u ++ quote :: n) : t = u ∧ m = n := by
  induction t generalizing u with
  | nil =>
      cases u with
      | nil => exact ⟨rfl, (List.cons.inj h).2⟩
      | cons x u =>
          rw [List.nil_append, List.cons_append, List.cons.injEq] at h
          exact absurd (h.1 ▸ List.mem_cons_self) hu
  | cons x t ih =>
      cases u with
      | nil =>
          rw [List.nil_append, List.cons_append, List.cons.injEq] at h
          exact absurd (h.1 ▸ List.mem_cons_self) ht
      | cons y u =>
          rw [List.cons_append, List.cons_append, List.cons.injEq] at h
          rw [List.mem_cons, not_or] at ht hu
          obtain ⟨rfl, rfl⟩ := ih ht.2 hu.2 h.2
          exact ⟨by rw [h.1], rfl⟩

/-- Two texts from a string on. -/
theorem FromToken.of_string {t r s' : List UInt8} (ht : ∀ x ∈ t, x ≠ nul ∧ x ≠ quote)
    (h : FromToken leaf (quote :: (t ++ quote :: r)) s') :
    ∃ r', s' = quote :: (t ++ quote :: r') ∧ Within leaf .other r r' := by
  generalize hs : quote :: (t ++ quote :: r) = s at h
  cases h with
  | word hother _ =>
      rw [List.cons.injEq] at hs
      rw [← hs.1] at hother
      exact absurd hother (by decide)
  | mark hother _ =>
      rw [List.cons.injEq] at hs
      rw [← hs.1] at hother
      exact absurd hother (by decide)
  | string hu h =>
      rw [List.cons.injEq] at hs
      obtain ⟨rfl, rfl⟩ := split_quote (fun hmem => (ht quote hmem).2 rfl)
        (fun hmem => (hu quote hmem).2 rfl) hs.2
      exact ⟨_, rfl, h⟩

/-! ## The pieces of a setting in two texts -/

/-- Names, numbers and letters in either case are of bytes of words. -/
theorem isWordByte_of_kind : ∀ x : UInt8,
    configValidNameSymbol x = true ∨ isNumberByte x = true ∨ isLower x = true ∨
      isWordByte (toLower x) = true → isWordByte x = true :=
  forall_byte (by decide)

theorem isWordByte_of_name {x : UInt8} (h : configValidNameSymbol x = true) :
    isWordByte x = true :=
  isWordByte_of_kind x (.inl h)

theorem isWordByte_of_number {x : UInt8} (h : isNumberByte x = true) : isWordByte x = true :=
  isWordByte_of_kind x (.inr (.inl h))

theorem isWordByte_words : ∀ word ∈ [ascii "false", ascii "true", ascii "include"],
    ∀ x ∈ word, isWordByte x = true := fun word hword x hx =>
  isWordByte_of_kind x (.inr (.inr (.inl ((words_lower word hword).2.2 x hx))))

/-- The case of a letter makes no difference. -/
theorem isWordByte_word {word t : List UInt8} (hword : ∀ x ∈ word, isWordByte x = true)
    (ht : t.map toLower = word) : ∀ x ∈ t, isWordByte x = true := by
  intro x hx
  exact isWordByte_of_kind x (.inr (.inr (.inr (hword _ (ht ▸ List.mem_map_of_mem hx)))))

/-- The first byte behind a word is none of the word in both texts. -/
theorem Within.head_other {k : Before} {r r' : List UInt8} {p : UInt8 → Bool}
    (hleaf : CommentLeaf c leaf) (h : Within leaf k r r') (hp : ∀ x, p x = true → isWordByte x = true)
    (hr : ∀ x, r.head? = some x → p x = false) : ∀ x, r'.head? = some x → p x = false := by
  intro x hx
  rcases h.head hleaf with ⟨y, m, rfl, hy⟩ | ⟨y, m, m', rfl, rfl, -⟩
  · obtain rfl := Option.some.inj hx
    rw [Bool.eq_false_iff]
    exact fun hpx => Bool.noConfusion ((hp _ hpx).symm.trans (comment_not_word hy).1)
  · exact hr x hx

/-- Two texts behind the comment, or two texts that begin with the same token. -/
def SameToken (leaf : Before → List UInt8 → List UInt8 → Prop) (s s' : List UInt8) : Prop :=
  s' = s ∧ Absorbed leaf ∨ FromToken leaf s s'

theorem Within.sameToken {k : Before} {s s' : List UInt8} (hleaf : CommentLeaf c leaf)
    (h : Within leaf k s s') (hk : k ≠ .brace) :
    SameToken leaf (afterBlanks s) (afterBlanks s') :=
  (h.behindBlanks hleaf).imp (fun h => ⟨h.1, h.2 hk⟩) id

theorem FromToken.readsName {names : List (List UInt8)} {s s' name v : List UInt8}
    (hleaf : CommentLeaf c leaf) (h : FromToken leaf s s') (hname : ReadsName names s name v) :
    ∃ v', ReadsName names s' name v' ∧ SameToken leaf v v' := by
  · obtain ⟨r, sep, m, rfl, hne, htake, hnew, hr, hsep, rfl⟩ := hname
    have hsymbols : ∀ x ∈ name, configValidNameSymbol x = true := by
      intro x hx
      rw [← htake] at hx
      exact List.mem_takeWhile_imp hx
    have hwords : ∀ x ∈ name, isWordByte x = true := fun x hx => isWordByte_of_name (hsymbols x hx)
    obtain ⟨r', rfl, hr'⟩ : ∃ r', s' = name ++ r' ∧ Within leaf .word r r' := by
      obtain ⟨x, name, rfl⟩ := List.exists_cons_of_ne_nil hne
      exact h.words hleaf hwords
    have hstop : ∀ x, r.head? = some x → configValidNameSymbol x = false := by
      intro x hx
      obtain ⟨r, rfl⟩ := List.head?_eq_some_iff.1 hx
      rw [List.takeWhile_append_of_pos hsymbols] at htake
      have hnone := List.append_cancel_left (htake.trans (List.append_nil name).symm)
      rw [Bool.eq_false_iff]
      intro hsymbol
      rw [List.takeWhile_cons_of_pos hsymbol] at hnone
      exact List.cons_ne_nil _ _ hnone
    have htake' := takeWhile_append_stop hsymbols
      (hr'.head_other hleaf (fun _ => isWordByte_of_name) hstop)
    have hmark : isMark sep = true ∧ Before.ofMark sep ≠ .brace := by
      rcases hsep with rfl | rfl <;> decide
    rcases hr'.sameToken hleaf (by decide) with ⟨hsame, habsorbed⟩ | htoken
    · exact ⟨afterBlanks m, ⟨r', sep, m, rfl, hne, htake', hnew, hsame.trans hr, hsep, rfl⟩,
        .inl ⟨rfl, habsorbed⟩⟩
    · rw [hr] at htoken
      obtain ⟨m', hm', hwithin⟩ := htoken.of_mark hmark.1
      exact ⟨afterBlanks m', ⟨r', sep, m', rfl, hne, htake', hnew, hm', hsep, rfl⟩,
        hwithin.sameToken hleaf hmark.2⟩

/-- A value, and what is left behind it. -/
theorem FromToken.readsScalar {v v' u : List UInt8} {value : DocValue}
    (hleaf : CommentLeaf c leaf) (h : FromToken leaf v v') (hvalue : ReadsScalar v value u) :
    ∃ u', ReadsScalar v' value u' ∧ ∃ k, k ≠ Before.brace ∧ Within leaf k u u' := by
  cases hvalue with
  | string ht =>
      obtain ⟨r', rfl, hr⟩ := h.of_string ht
      exact ⟨r', .string ht, .other, by decide, hr⟩
  | @number x m hx =>
      have hnumber : isNumberByte x = true := isNumberByte_of_isDigit hx
      obtain ⟨w, r, rfl, -, -, hw, hstop⟩ := Scan.exists_span isWordByte m
      have hwords : ∀ y ∈ x :: w, isWordByte y = true :=
        List.forall_mem_cons.2 ⟨isWordByte_of_number hnumber, hw⟩
      obtain ⟨r', rfl, hr⟩ := h.words hleaf hwords
      have hother : ∀ s : List UInt8, (∀ y, s.head? = some y → isWordByte y = false) →
          ∀ y ∈ s.head?, isNumberByte y = false := by
        intro s hs y hy
        rw [Bool.eq_false_iff]
        exact fun hyes => Bool.noConfusion ((isWordByte_of_number hyes).symm.trans (hs y hy))
      have hread := parseInt_append (hother r hstop) (x :: w)
      have hread' := parseInt_append (hother r' (hr.head_other hleaf (fun _ => id) hstop)) (x :: w)
      obtain ⟨a, ha, heq⟩ := parseInt_digit (m := w) hx
      have hrest : ∀ y ∈ (Place.parseInt ([], x :: w)).2.2, isWordByte y = true := by
        intro y hy
        apply hwords y
        rw [heq]
        exact List.mem_cons_of_mem x (List.mem_append_right a hy)
      have hnumber' := ReadsScalar.number (m := w ++ r') hx
      refine ⟨(readNumber (x :: (w ++ r'))).2, ?_, .word, by decide, ?_⟩
      · have hvalue : (readNumber (x :: (w ++ r))).1 = (readNumber (x :: (w ++ r'))).1 := by
          simp only [readNumber, ← List.cons_append, hread, hread']
        rw [hvalue]
        exact hnumber'
      · simp only [readNumber, ← List.cons_append, hread, hread']
        exact hr.of_words hrest
  | @bool b word _ hb hs =>
      have hword : word ≠ [] ∧ ∀ x ∈ word, isWordByte x = true := by
        rcases hb with ⟨-, rfl⟩ | ⟨-, rfl⟩
        · exact ⟨(words_lower _ (by simp)).1, isWordByte_words _ (by simp)⟩
        · exact ⟨(words_lower _ (by simp)).1, isWordByte_words _ (by simp)⟩
      have hlower : (v.take word.length).map toLower = word := by
        rw [beginsWith, decide_eq_true_eq] at hs
        exact hs
      have hwords := isWordByte_word hword.2 hlower
      have hlen : (v.take word.length).length = word.length := by
        rw [← List.length_map toLower, hlower]
      have hsplit := List.take_append_drop word.length v
      generalize v.take word.length = t at hlower hwords hlen hsplit
      generalize hu : v.drop word.length = u at hsplit
      subst hsplit
      obtain ⟨r', rfl, hr⟩ : ∃ r', v' = t ++ r' ∧ Within leaf .word u r' := by
        cases t with
        | nil => exact absurd hlower.symm hword.1
        | cons x t => exact h.words hleaf hwords
      have hbegins : beginsWith word (t ++ r') = true := by
        rw [beginsWith, decide_eq_true_eq, ← hlen, List.take_left, hlower]
      have hdrop : (t ++ r').drop word.length = r' := by rw [← hlen, List.drop_left]
      have hvalue' := ReadsScalar.bool hb hbegins
      rw [hdrop] at hvalue'
      exact ⟨r', hvalue', .word, by decide, hr⟩

/-- Behind a semicolon the texts are related as before it. -/
theorem FromToken.behindSemicolon {s s' : List UInt8} (h : FromToken leaf s s') :
    Within leaf .other (afterSemicolon s) (afterSemicolon s') := by
  cases h with
  | @word x m m' hx h =>
      have hne : x ≠ semicolon := by
        rintro rfl
        exact absurd hx (by decide)
      have hhead : ∀ m : List UInt8, ¬(x :: m).head? = some semicolon := fun m heq =>
        hne (Option.some.inj heq)
      rw [afterSemicolon, afterSemicolon, if_neg (hhead m), if_neg (hhead m')]
      exact .word hx h
  | @mark x m m' hx h =>
      by_cases hsemi : x = semicolon
      · subst hsemi
        exact h
      · have hhead : ∀ m : List UInt8, ¬(x :: m).head? = some semicolon := fun m heq =>
          hsemi (Option.some.inj heq)
        rw [afterSemicolon, afterSemicolon, if_neg (hhead m), if_neg (hhead m')]
        exact .mark hx h
  | string ht h => exact .string ht h

theorem Within.readsCommand {chain : List (List UInt8)} {m m' file r : List UInt8}
    (hleaf : CommentLeaf c leaf) (h : Within leaf .word m m') (hread : ReadsCommand chain m file r) :
    ∃ r', ReadsCommand chain m' file r' ∧ (r' = r ∧ Absorbed leaf ∨ Within leaf .other r r') := by
  obtain ⟨hword, hnew, rest, hrest, hbytes, rfl⟩ := hread
  have hlower : (m.take 7).map toLower = ascii "include" := by
    rw [beginsWith, decide_eq_true_eq] at hword
    exact hword
  have hwords := isWordByte_word (isWordByte_words _ (by simp)) hlower
  have hlen : (m.take 7).length = 7 := by
    rw [← List.length_map toLower, hlower]
    rfl
  have hsplit := List.take_append_drop 7 m
  generalize m.take 7 = t at hlower hwords hlen hsplit
  generalize m.drop 7 = u at hrest hsplit
  subst hsplit
  obtain ⟨u', rfl, hu⟩ := h.words hleaf hwords
  have hdrop : (t ++ u').drop 7 = u' := by rw [← hlen, List.drop_left]
  have hbegins : beginsWith (ascii "include") (t ++ u') = true := by
    have hseven : (ascii "include").length = t.length := hlen.symm
    rw [beginsWith, decide_eq_true_eq, hseven, List.take_left, hlower]
  have hread : ∀ rest', afterBlanks u' = quote :: (file ++ quote :: rest') →
      ReadsCommand chain (t ++ u') file (afterSemicolon (afterBlanks rest')) :=
    fun rest' hrest' => ⟨hbegins, hnew, rest', by rw [hdrop, hrest'], hbytes, rfl⟩
  rcases hu.sameToken hleaf (by decide) with ⟨hsame, habsorbed⟩ | htoken
  · exact ⟨_, hread rest (hsame.trans hrest), .inl ⟨rfl, habsorbed⟩⟩
  · rw [hrest] at htoken
    obtain ⟨rest', hrest', hwithin⟩ := htoken.of_string hbytes
    refine ⟨_, hread rest' hrest', ?_⟩
    rcases hwithin.sameToken hleaf (by decide) with ⟨hsame, habsorbed⟩ | htoken
    · exact .inl ⟨congrArg afterSemicolon hsame, habsorbed⟩
    · exact .inr htoken.behindSemicolon

/-! ## The loop in two texts -/

/-- Behind blanks there are no blanks. -/
theorem afterBlanks_afterBlanks (s : List UInt8) : afterBlanks (afterBlanks s) = afterBlanks s := by
  have hstop : ∀ (mode : JumpMode) (s : List UInt8),
      afterBlanks (jumpToNonspace mode s).2 = (jumpToNonspace mode s).2 := by
    intro mode s
    induction s generalizing mode with
    | nil => cases mode <;> rfl
    | cons c m ih =>
        by_cases hnul : c = nul
        · simp [jumpToNonspace, hnul, afterBlanks]
        · simp only [jumpToNonspace, if_neg hnul]
          cases mode with
          | blank =>
              simp only
              split_ifs with hline hblock hblank
              · exact ih .line
              · exact ih .block
              · exact ih .blank
              · simp only [afterBlanks, jumpToNonspace, if_neg hnul, if_neg hline, if_neg hblock,
                  hblank, if_false, Bool.false_eq_true]
          | line => exact ih _
          | block => exact ih _
          | close => exact ih .blank
  exact hstop .blank s

theorem atItem_afterBlanks (s : List UInt8) : atItem (afterBlanks s) = atItem s := by
  unfold atItem
  by_cases hs : s.head? = some nul
  · obtain ⟨m, rfl⟩ := List.head?_eq_some_iff.1 hs
    have hstay : afterBlanks (nul :: m) = nul :: m := by simp [afterBlanks, jumpToNonspace]
    simp only [hstay]
  · rw [if_neg hs, afterBlanks_afterBlanks, ite_self]

/-- A derivation depends only on what comes behind the blanks. -/
theorem Reads.of_atItem {files : ConfigFiles} {root : Bool} {chain names : List (List UInt8)}
    {s s' t : List UInt8} {d : ConfigDoc} (h : Reads files root chain names s d t)
    (hs : atItem s' = atItem s) : Reads files root chain names s' d t := by
  cases h with
  | finish hend =>
      rw [← hs] at hend ⊢
      exact .finish hend
  | close hclose => exact .close (hs.trans hclose)
  | command hat hcommand hload hchilds hnext =>
      exact .command (hs.trans hat) hcommand hload hchilds hnext
  | group hname hchilds hnext =>
      rw [← hs] at hname
      exact .group hname hchilds hnext
  | scalar hname hvalue hnext =>
      rw [← hs] at hname
      exact .scalar hname hvalue hnext

/-- The texts with which the loop goes on. -/
def SameItem (leaf : Before → List UInt8 → List UInt8 → Prop) (s s' : List UInt8) : Prop :=
  atItem s' = atItem s ∨ ∃ k, Within leaf k s s'

/-- The texts at which the loop ends. -/
def SameEnd (leaf : Before → List UInt8 → List UInt8 → Prop) (t t' : List UInt8) : Prop :=
  atItem (afterSemicolon (afterBlanks t')) = atItem (afterSemicolon (afterBlanks t)) ∨
    ∃ k, Within leaf k t t'

theorem SameItem.fromToken {s s' : List UInt8} (hleaf : CommentLeaf c leaf)
    (h : SameItem leaf s s') :
    atItem s' = atItem s ∨ FromToken leaf (atItem s) (atItem s') := by
  rcases h with h | ⟨k, h⟩
  · exact .inl h
  · obtain ⟨hs, hs'⟩ := h.head_ne hleaf
    rw [atItem_of_head hs, atItem_of_head hs']
    exact (h.behindBlanks hleaf).imp And.left id

theorem SameEnd.next {t t' : List UInt8} (hleaf : CommentLeaf c leaf) (h : SameEnd leaf t t') :
    SameItem leaf (afterSemicolon (afterBlanks t)) (afterSemicolon (afterBlanks t')) := by
  rcases h with h | ⟨k, h⟩
  · exact .inl h
  · rcases h.behindBlanks hleaf with ⟨hsame, -⟩ | htoken
    · exact .inl (congrArg (fun s => atItem (afterSemicolon s)) hsame)
    · exact .inr ⟨.other, htoken.behindSemicolon⟩

theorem afterSemicolon_of_head {s : List UInt8} (h : s.head? ≠ some semicolon) :
    afterSemicolon s = s := if_neg h

theorem comment_ne_semicolon {x : UInt8} (h : x = hash ∨ x = slash) : x ≠ semicolon := by
  rcases h with rfl | rfl <;> decide

theorem atItem_semicolon (m : List UInt8) :
    afterBlanks (semicolon :: m) = semicolon :: m :=
  afterBlanks_stop (by decide) (by decide) (by decide) m

/-- A semicolon in both texts. -/
theorem Within.of_semicolon {k : Before} {m s' : List UInt8} (h : Within leaf k (semicolon :: m) s') :
    leaf k (semicolon :: m) s' ∨ ∃ m', s' = semicolon :: m' ∧ Within leaf .other m m' := by
  generalize hs : semicolon :: m = s at h
  cases h with
  | here h => exact .inl h
  | word hother _ =>
      rw [List.cons.injEq] at hs
      rw [← hs.1] at hother
      exact absurd hother (by decide)
  | mark _ h =>
      rw [List.cons.injEq] at hs
      obtain ⟨rfl, rfl⟩ := hs
      exact .inr ⟨_, rfl, h⟩
  | string _ _ => exact absurd (List.cons.inj hs).1 (by decide)
  | blank hother _ =>
      rw [List.cons.injEq] at hs
      rw [← hs.1] at hother
      exact absurd hother (by decide)
  | comment hother _ =>
      obtain ⟨y, w, rfl, hy⟩ := hother.head
      rw [List.cons_append, List.cons.injEq] at hs
      exact absurd hs.1.symm (comment_ne_semicolon hy)

/-- Behind the brace that closes a group. -/
theorem Within.behindBrace {m m' : List UInt8} (hleaf : CommentLeaf c leaf)
    (hsingle : ∀ {k s s'}, leaf k s s' → ¬DoubledSemicolon k s) (h : Within leaf .brace m m') :
    SameEnd leaf (afterSemicolon m) (afterSemicolon m') := by
  by_cases hsemi : m.head? = some semicolon
  · obtain ⟨m, rfl⟩ := List.head?_eq_some_iff.1 hsemi
    have hbehind : afterSemicolon (semicolon :: m) = m := rfl
    rcases h.of_semicolon with hhere | ⟨m', rfl, hwithin⟩
    · have htext := (hleaf.insertion hhere).text
      obtain ⟨x, c', hc, hx⟩ := hleaf.first
      have hstay : afterSemicolon m' = m' := by
        apply afterSemicolon_of_head
        rw [htext, hc]
        exact fun heq => comment_ne_semicolon hx (Option.some.inj heq)
      have hnot : (afterBlanks m).head? ≠ some semicolon := by
        intro hhead
        obtain ⟨m₂, hm₂⟩ := List.head?_eq_some_iff.1 hhead
        exact hsingle hhere ⟨rfl, m, m₂, rfl, hm₂⟩
      left
      rw [hstay, htext, afterBlanks_skips hleaf.skips, atItem_semicolon, hbehind,
        afterSemicolon_of_head hnot, atItem_afterBlanks]
    · exact .inr ⟨.other, hwithin⟩
  · have hsemi' : m'.head? ≠ some semicolon := by
      rcases h.head hleaf with ⟨x, n, rfl, hx⟩ | ⟨x, n, n', rfl, rfl, -⟩
      · exact fun heq => comment_ne_semicolon hx (Option.some.inj heq)
      · exact hsemi
    rw [afterSemicolon_of_head hsemi, afterSemicolon_of_head hsemi']
    exact .inr ⟨.brace, h⟩

/-- A document is read from a text with comments as from the text without. -/
theorem Reads.inserted {files : ConfigFiles} {root : Bool} {chain names : List (List UInt8)}
    {s s' t : List UInt8} {d : ConfigDoc} (hleaf : CommentLeaf c leaf)
    (hsingle : ∀ {k s s'}, leaf k s s' → ¬DoubledSemicolon k s)
    (h : Reads files root chain names s d t) (hs : SameItem leaf s s') :
    ∃ t', Reads files root chain names s' d t' ∧ SameEnd leaf t t' := by
  induction h generalizing s' with
  | @finish root chain names s hend =>
      rcases hs.fromToken hleaf with hs | htoken
      · exact ⟨_, (Reads.finish hend).of_atItem hs, .inl rfl⟩
      · have hne := ((htoken.within .other).head_ne hleaf).1
        rcases hend with hend | hend
        · rw [hend] at htoken
          cases htoken
        · exact absurd hend hne
  | @close chain names s m hclose =>
      rcases hs.fromToken hleaf with hs | htoken
      · exact ⟨_, (Reads.close hclose).of_atItem hs, .inl rfl⟩
      · rw [hclose] at htoken
        obtain ⟨m', hm', hwithin⟩ := htoken.of_mark (by decide)
        exact ⟨_, .close hm', hwithin.behindBrace hleaf hsingle⟩
  | @command root chain names s m file r content childs u next t hat hcommand hload hchilds hnext
      ihchilds ihnext =>
      rcases hs.fromToken hleaf with hs | htoken
      · exact ⟨_, (Reads.command hat hcommand hload hchilds hnext).of_atItem hs, .inl rfl⟩
      · rw [hat] at htoken
        obtain ⟨m', hm', hwithin⟩ := htoken.words (w := []) hleaf
          (List.forall_mem_singleton.2 (by decide))
        obtain ⟨r', hr', hrest⟩ := hwithin.readsCommand hleaf hcommand
        have hitem : SameItem leaf r r' :=
          hrest.imp (fun h => congrArg atItem h.1) fun h => ⟨_, h⟩
        obtain ⟨t', ht', hend⟩ := ihnext hitem
        exact ⟨t', .command hm' hr' hload hchilds ht', hend⟩
  | @group root chain names s name inner childs u next t hname hchilds hnext ihchilds ihnext =>
      rcases hs.fromToken hleaf with hs | htoken
      · exact ⟨_, (Reads.group hname hchilds hnext).of_atItem hs, .inl rfl⟩
      obtain ⟨v', hname', ⟨rfl, -⟩ | htoken⟩ := htoken.readsName hleaf hname
      · exact ⟨_, .group hname' hchilds hnext, .inl rfl⟩
      · obtain ⟨inner', rfl, hwithin⟩ := htoken.of_mark (by decide)
        obtain ⟨u', hu', hsame⟩ := ihchilds (.inr ⟨_, hwithin⟩)
        obtain ⟨t', ht', hend⟩ := ihnext (hsame.next hleaf)
        obtain ⟨hne, hne'⟩ := hwithin.head_ne hleaf
        have hvalue : groupValue inner = groupValue inner' := by
          rw [groupValue, groupValue, if_neg hne, if_neg hne']
        rw [hvalue]
        exact ⟨t', .group hname' hu' ht', hend⟩
  | @scalar root chain names s name v value u next t hname hvalue hnext ihnext =>
      rcases hs.fromToken hleaf with hs | htoken
      · exact ⟨_, (Reads.scalar hname hvalue hnext).of_atItem hs, .inl rfl⟩
      obtain ⟨v', hname', ⟨rfl, -⟩ | htoken⟩ := htoken.readsName hleaf hname
      · exact ⟨_, .scalar hname' hvalue hnext, .inl rfl⟩
      · obtain ⟨u', hvalue', k, -, hwithin⟩ := htoken.readsScalar hleaf hvalue
        obtain ⟨t', ht', hend⟩ := ihnext (SameEnd.next hleaf (.inr ⟨k, hwithin⟩))
        exact ⟨t', .scalar hname' hvalue' ht', hend⟩

end OpenTube
