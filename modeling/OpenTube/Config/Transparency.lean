import OpenTube.Config.Comments

/-!
# Transparent comments

A comment can be put between any two tokens of any configuration exactly if
`config_jump_to_nonspace` passes over it, whatever follows. That it does so can be seen
from two configurations of one setting.
-/

namespace OpenTube

/-! ## Where the blanks of a text end -/

/-- What is passed over from a mode on, up to the end of a text. -/
def SkipsFrom (w : List UInt8) : JumpMode → Prop
  | .blank => Skips w
  | .line => ∃ t v, w = t ++ lf :: v ∧ lf ∉ t ∧ nul ∉ t ∧ Skips v
  | .block => ∃ t v, w = t ++ star :: slash :: v ∧ ¬[star, slash] <:+: t ∧ nul ∉ t ∧ Skips v
  | .close => ∃ v, w = slash :: v ∧ Skips v

/-- A text that does not continue a comment mark. -/
def EndsMark (r : List UInt8) : Prop := r.head? ≠ some slash ∧ r.head? ≠ some star

/-- The blanks end inside of a text. -/
def StopsIn (w : List UInt8) (mode : JumpMode) : Prop :=
  ∃ v, v ≠ [] ∧ v <:+ w ∧ ∀ r, EndsMark r → (jumpToNonspace mode (w ++ r)).2 = v ++ r

/-- A text ends in a comment, which goes on. -/
def Swallows (w : List UInt8) (mode : JumpMode) : Prop :=
  ∀ r, lf ∉ r → slash ∉ r → star ∉ r → nul ∉ r →
    (jumpToNonspace mode (w ++ (r ++ nuls))).2 = nuls

theorem endsMark_nuls {r : List UInt8} (hslash : slash ∉ r) (hstar : star ∉ r) :
    EndsMark (r ++ nuls) := by
  cases r with
  | nil => exact ⟨by decide, by decide⟩
  | cons c r =>
      refine ⟨fun h => hslash ?_, fun h => hstar ?_⟩
      · rw [← Option.some.inj h]
        exact List.mem_cons_self
      · rw [← Option.some.inj h]
        exact List.mem_cons_self

theorem head?_append_of_ne {r : List UInt8} {c : UInt8} (hr : r.head? ≠ some c) (m : List UInt8) :
    (m ++ r).head? = some c ↔ m.head? = some c := by
  cases m with
  | nil => simpa using hr
  | cons d m => rfl

theorem jump_line_end {r : List UInt8} (hlf : lf ∉ r) (hnul : nul ∉ r) :
    (jumpToNonspace .line (r ++ nuls)).2 = nuls := by
  induction r with
  | nil => rfl
  | cons c r ih =>
      rw [List.mem_cons, not_or] at hlf hnul
      simp only [List.cons_append, jumpToNonspace, if_neg (Ne.symm hnul.1), if_neg (Ne.symm hlf.1),
        ih hlf.2 hnul.2]

theorem jump_block_end {r : List UInt8} (hslash : slash ∉ r) (hnul : nul ∉ r) :
    (jumpToNonspace .block (r ++ nuls)).2 = nuls := by
  induction r with
  | nil => rfl
  | cons c r ih =>
      rw [List.mem_cons, not_or] at hslash hnul
      have hnot : ¬(c = star ∧ (r ++ nuls).head? = some slash) := by
        rintro ⟨-, hhead⟩
        rw [head?_append_nuls (by decide)] at hhead
        exact hslash.2 (List.mem_of_head? hhead)
      simp only [List.cons_append, jumpToNonspace, if_neg (Ne.symm hnul.1), if_neg hnot,
        ih hslash.2 hnul.2]

theorem jump_trichotomy {mode : JumpMode} {w : List UInt8} (hnul : nul ∉ w)
    (hclose : mode = .close → w.head? = some slash) :
    SkipsFrom w mode ∨ StopsIn w mode ∨ Swallows w mode := by
  induction w generalizing mode with
  | nil =>
      cases mode with
      | blank => exact .inl .nil
      | line => exact .inr (.inr fun r hlf _ _ hr => jump_line_end hlf hr)
      | block => exact .inr (.inr fun r _ hslash _ hr => jump_block_end hslash hr)
      | close => exact absurd (hclose rfl) (by simp)
  | cons x m ih =>
      rw [List.mem_cons, not_or] at hnul
      have hx : x ≠ nul := Ne.symm hnul.1
      -- one byte is passed, and the rest by induction
      have hstep : ∀ mode' : JumpMode,
          (∀ r, EndsMark r → (jumpToNonspace mode (x :: m ++ r)).2 =
            (jumpToNonspace mode' (m ++ r)).2) →
          (SkipsFrom m mode' → SkipsFrom (x :: m) mode) →
          (mode' = .close → m.head? = some slash) →
          SkipsFrom (x :: m) mode ∨ StopsIn (x :: m) mode ∨ Swallows (x :: m) mode := by
        intro mode' hjump hskips hclose'
        rcases ih hnul.2 hclose' with h | ⟨v, hne, hsuffix, hv⟩ | h
        · exact .inl (hskips h)
        · refine .inr (.inl ⟨v, hne, hsuffix.trans (List.suffix_cons x m), fun r hr => ?_⟩)
          rw [hjump r hr, hv r hr]
        · refine .inr (.inr fun r hlf hslash hstar hr => ?_)
          rw [hjump _ (endsMark_nuls hslash hstar), h r hlf hslash hstar hr]
      cases mode with
      | blank =>
          by_cases hline : x = hash ∨ x = slash ∧ m.head? = some slash
          · refine hstep .line (fun r hr => ?_) ?_ (fun h => absurd h (by decide))
            · have hhead := head?_append_of_ne hr.1 m
              rw [List.cons_append, jumpToNonspace, if_neg hx]
              simp only [hhead, if_pos hline]
            · rintro ⟨t, v, rfl, ht, hnul', hv⟩
              rcases hline with rfl | ⟨rfl, hhead⟩
              · have hcomment := Skips.comment (.line (.inl rfl) ht hnul') hv
                simpa [SkipsFrom] using hcomment
              · cases t with
                | nil => exact absurd (Option.some.inj hhead) (by decide)
                | cons e t =>
                    obtain rfl : e = slash := Option.some.inj hhead
                    rw [List.mem_cons, not_or] at ht hnul'
                    have hcomment := Skips.comment (.line (.inr rfl) ht.2 hnul'.2) hv
                    simpa [SkipsFrom] using hcomment
          · by_cases hblock : x = slash ∧ m.head? = some star
            · refine hstep .block (fun r hr => ?_) ?_ (fun h => absurd h (by decide))
              · have hhead := head?_append_of_ne hr.1 m
                have hhead' := head?_append_of_ne hr.2 m
                rw [List.cons_append, jumpToNonspace, if_neg hx]
                simp only [hhead, hhead', if_neg hline, if_pos hblock]
              · rintro ⟨t, v, rfl, ht, hnul', hv⟩
                rw [hblock.1]
                cases t with
                | nil => exact Skips.comment .overlap hv
                | cons e t =>
                    obtain rfl : e = star := Option.some.inj hblock.2
                    rw [List.mem_cons, not_or] at hnul'
                    have hcomment := Skips.comment (.block ht hnul'.2) hv
                    simpa [SkipsFrom] using hcomment
            · by_cases hblank : configBlank x = true
              · refine hstep .blank (fun r hr => ?_) (fun h => .blank hblank h)
                  (fun h => absurd h (by decide))
                exact afterBlanks_blank hblank (m ++ r)
              · refine .inr (.inl ⟨x :: m, List.cons_ne_nil x m, List.suffix_refl _, fun r hr => ?_⟩)
                have hhead := head?_append_of_ne hr.1 m
                have hhead' := head?_append_of_ne hr.2 m
                rw [List.cons_append, jumpToNonspace, if_neg hx]
                simp only [hhead, hhead', if_neg hline, if_neg hblock, hblank, if_false,
                  Bool.false_eq_true]
      | line =>
          by_cases hlf : x = lf
          · refine hstep .blank (fun r _ => ?_) (fun h => ?_) (fun h => absurd h (by decide))
            · rw [List.cons_append, jumpToNonspace, if_neg hx]
              simp only [if_pos hlf]
            · exact ⟨[], m, by rw [hlf]; rfl, List.not_mem_nil, List.not_mem_nil, h⟩
          · refine hstep .line (fun r _ => ?_) ?_ (fun h => absurd h (by decide))
            · rw [List.cons_append, jumpToNonspace, if_neg hx]
              simp only [if_neg hlf]
            · rintro ⟨t, v, rfl, ht, hnul', hv⟩
              exact ⟨x :: t, v, rfl, by simp [ht, Ne.symm hlf], by simp [hnul', Ne.symm hx], hv⟩
      | block =>
          by_cases hstar : x = star ∧ m.head? = some slash
          · refine hstep .close (fun r hr => ?_) ?_ (fun _ => hstar.2)
            · have hhead := head?_append_of_ne hr.1 m
              rw [List.cons_append, jumpToNonspace, if_neg hx]
              simp only [hhead, if_pos hstar]
            · rintro ⟨v, rfl, hv⟩
              rw [hstar.1]
              exact ⟨[], v, rfl, by simp, List.not_mem_nil, hv⟩
          · refine hstep .block (fun r hr => ?_) ?_ (fun h => absurd h (by decide))
            · have hhead := head?_append_of_ne hr.1 m
              rw [List.cons_append, jumpToNonspace, if_neg hx]
              simp only [hhead, if_neg hstar]
            · rintro ⟨t, v, rfl, ht, hnul', hv⟩
              refine ⟨x :: t, v, rfl, ?_, by simp [hnul', Ne.symm hx], hv⟩
              rw [List.infix_cons_iff, not_or]
              refine ⟨?_, ht⟩
              rintro ⟨u, hu⟩
              simp only [List.cons_append, List.nil_append, List.cons.injEq] at hu
              apply hstar
              rw [← hu.1, ← hu.2]
              exact ⟨rfl, rfl⟩
      | close =>
          refine hstep .blank (fun r _ => ?_) (fun h => ?_) (fun h => absurd h (by decide))
          · rw [List.cons_append, jumpToNonspace, if_neg hx]
          · exact ⟨m, by rw [Option.some.inj (hclose rfl)], h⟩

/-! ## Comments that are put into a configuration -/

/-- A comment is put at one place between the tokens of a text. -/
def InsertedComment (single : Before → List UInt8 → Prop) (c content content' : List UInt8) :
    Prop :=
  Within (fun k s s' => Insertion c k s s' ∧ single k s) .other (content ++ nuls)
    (content' ++ nuls)

/-- `config_read` accepts a text and builds a tree with this document. -/
def ReadAs (files : ConfigFiles) (file content : List UInt8) (doc : ConfigDoc) : Prop :=
  ∃ steps settings buffer, configRead files steps file content = .ok (settings, buffer) ∧
    settings.doc buffer = doc

theorem readAs_iff {files : ConfigFiles} {file content : List UInt8} {doc : ConfigDoc} :
    ReadAs files file content doc ↔
      quickValidate file content = none ∧
        ∃ t, Reads files true [file] [] (content ++ nuls) doc t := by
  constructor
  · rintro ⟨steps, settings, buffer, hread, rfl⟩
    exact reads_of_configRead hread
  · rintro ⟨hvalid, t, hreads⟩
    obtain ⟨steps, settings, buffer, hread, hdoc⟩ := configRead_of_reads hvalid hreads
    exact ⟨steps, settings, buffer, hread, hdoc⟩

theorem textFile_of_quickValidate {file content : List UInt8}
    (h : quickValidate file content = none) : TextFile content := by
  obtain ⟨front, m, hspan, htake, -, hfront, -⟩ := Scan.exists_span configValidSymbol content
  simp only [quickValidate, htake] at h
  split_ifs at h with hlen
  have hm : m = [] := by
    have hlength := congrArg List.length hspan
    rw [List.length_append] at hlength
    exact List.length_eq_zero_iff.1 (by omega)
  rw [hspan, hm, List.append_nil]
  exact hfront

theorem nul_notMem_textFile {text : List UInt8} (h : TextFile text) : nul ∉ text :=
  fun hmem => absurd (h nul hmem) (by decide)

/-- The bytes of the text are those of the text before and of the comment. -/
theorem Within.bytes {leaf : Before → List UInt8 → List UInt8 → Prop} {k : Before}
    {c b s s' : List UInt8} (h : Within leaf k s s')
    (hleaf : ∀ {k s s'}, leaf k s s' → s' = c ++ s) (hs : s = b ++ nuls) (hb : nul ∉ b) :
    ∃ b', s' = b' ++ nuls ∧ ∀ x ∈ b', x ∈ b ∨ x ∈ c := by
  -- a part that is passed in both texts
  have hpart : ∀ {w m m' : List UInt8} {b : List UInt8}, nul ∉ w → nul ∉ b →
      w ++ m = b ++ nuls → (∀ {b₁}, m = b₁ ++ nuls → nul ∉ b₁ →
        ∃ b', m' = b' ++ nuls ∧ ∀ x ∈ b', x ∈ b₁ ∨ x ∈ c) →
      ∃ b', w ++ m' = b' ++ nuls ∧ ∀ x ∈ b', x ∈ b ∨ x ∈ c := by
    intro w m m' b hw hb heq ih
    obtain ⟨b₁, rfl, hm⟩ := split_nuls heq hw
    obtain ⟨b', rfl, hmem⟩ := ih hm (nul_notMem_right hb)
    refine ⟨w ++ b', by simp, fun x hx => ?_⟩
    rcases List.mem_append.1 hx with hx | hx
    · exact .inl (List.mem_append_left b₁ hx)
    · exact (hmem x hx).imp (List.mem_append_right w) id
  induction h generalizing b with
  | here h =>
      refine ⟨c ++ b, by rw [hleaf h, hs, List.append_assoc], fun x hx => ?_⟩
      exact (List.mem_append.1 hx).symm
  | @word _ x _ _ hx _ ih =>
      have hne := (wordByte_ne hx).2.2.1
      exact hpart (w := [x]) (by simpa using Ne.symm hne) hb hs fun hm hb₁ => ih hm hb₁
  | @mark _ x _ _ hx _ ih =>
      have hne := (mark_ne hx).2.1
      exact hpart (w := [x]) (by simpa using Ne.symm hne) hb hs fun hm hb₁ => ih hm hb₁
  | @string _ t m m' ht _ ih =>
      have hw : nul ∉ quote :: (t ++ [quote]) := by
        simp only [List.mem_cons, List.mem_append, List.not_mem_nil, or_false]
        rintro (hmem | hmem | hmem)
        · exact absurd hmem (by decide)
        · exact (ht nul hmem).1 rfl
        · exact absurd hmem (by decide)
      have heq : quote :: (t ++ [quote]) ++ m = b ++ nuls := by rw [← hs]; simp
      have hdone := hpart hw hb heq fun hm hb₁ => ih hm hb₁
      simpa using hdone
  | @blank _ x _ _ hx _ ih =>
      have hne := (configBlank_ne hx).1
      exact hpart (w := [x]) (by simpa using Ne.symm hne) hb hs fun hm hb₁ => ih hm hb₁
  | comment hw _ ih => exact hpart hw.nul_notMem hb hs fun hm hb₁ => ih hm hb₁

/-! ## The doubled semicolon -/

theorem ReadsName.value_unique {names : List (List UInt8)} {s name v v' : List UInt8}
    (h : ReadsName names s name v) (h' : ReadsName names s name v') : v = v' := by
  obtain ⟨w, sep, m, hrest, -, -, -, hjump, -, rfl⟩ := h
  obtain ⟨w', sep', m', hrest', -, -, -, hjump', -, rfl⟩ := h'
  obtain rfl := List.append_cancel_left (hrest.symm.trans hrest')
  rw [hjump, List.cons.injEq] at hjump'
  rw [hjump'.2]

theorem ReadsCommand.unique {chain : List (List UInt8)} {m file file' r r' : List UInt8}
    (h : ReadsCommand chain m file r) (h' : ReadsCommand chain m file' r') :
    file = file' ∧ r = r' := by
  obtain ⟨-, -, rest, hrest, hbytes, rfl⟩ := h
  obtain ⟨-, -, rest', hrest', hbytes', rfl⟩ := h'
  rw [hrest, List.cons.injEq] at hrest'
  obtain ⟨rfl, rfl⟩ := split_quote (fun hmem => (hbytes quote hmem).2 rfl)
    (fun hmem => (hbytes' quote hmem).2 rfl) hrest'.2
  exact ⟨rfl, rfl⟩

/-- The first byte of a switch belongs to no other value. -/
theorem switch_head {b : Bool} {word : List UInt8} {c : UInt8} {m : List UInt8}
    (hb : b = false ∧ word = ascii "false" ∨ b = true ∧ word = ascii "true")
    (hs : beginsWith word (c :: m) = true) : c ≠ quote ∧ isDigit c = false := by
  have hletter : c ≠ quote ∧ isDigit c = false ∧ c ≠ leftBrace := by
    apply letter_of_toLower
    rcases hb with ⟨-, rfl⟩ | ⟨-, rfl⟩
    · exact .inl (Option.some.inj (beginsWith_head rfl (by decide) hs))
    · exact .inr (Option.some.inj (beginsWith_head rfl (by decide) hs))
  exact ⟨hletter.1, hletter.2.1⟩

theorem ReadsScalar.rest_unique {v u u' : List UInt8} {value : DocValue}
    (h : ReadsScalar v value u) (h' : ReadsScalar v value u') : u = u' := by
  have hquote : isDigit quote = false := by decide
  generalize hvalue : value = value' at h'
  generalize hv : v = v' at h'
  cases h with
  | @string t _ ht =>
      cases h' with
      | string ht' =>
          rw [List.cons.injEq] at hv
          exact (split_quote (fun hmem => (ht quote hmem).2 rfl)
            (fun hmem => (ht' quote hmem).2 rfl) hv.2).2
      | number hc =>
          rw [← (List.cons.inj hv).1, hquote] at hc
          exact absurd hc Bool.false_ne_true
      | bool hb hs =>
          rw [← hv] at hs
          exact absurd rfl (switch_head hb hs).1
  | number hc =>
      cases h' with
      | string _ =>
          rw [(List.cons.inj hv).1, hquote] at hc
          exact absurd hc Bool.false_ne_true
      | number _ => rw [hv]
      | bool hb hs =>
          rw [← hv] at hs
          exact absurd hc (by rw [(switch_head hb hs).2]; exact Bool.false_ne_true)
  | @bool b word _ hb hs =>
      cases h' with
      | string _ =>
          rw [hv] at hs
          exact absurd rfl (switch_head hb hs).1
      | number hc =>
          rw [hv] at hs
          exact absurd hc (by rw [(switch_head hb hs).2]; exact Bool.false_ne_true)
      | bool hb' _ =>
          obtain rfl := DocValue.bool.inj hvalue
          have hword : ∀ {b : Bool} {w w' : List UInt8},
              (b = false ∧ w = ascii "false" ∨ b = true ∧ w = ascii "true") →
              (b = false ∧ w' = ascii "false" ∨ b = true ∧ w' = ascii "true") → w = w' := by
            rintro b w w' (⟨rfl, rfl⟩ | ⟨rfl, rfl⟩) (⟨h, rfl⟩ | ⟨h, rfl⟩)
            · rfl
            · exact absurd h Bool.false_ne_true
            · exact absurd h.symm Bool.false_ne_true
            · rfl
          rw [hword hb hb', hv]

/-- No item begins with a semicolon. -/
theorem Reads.not_semicolon {files : ConfigFiles} {root : Bool} {chain names : List (List UInt8)}
    {s t : List UInt8} {d : ConfigDoc} (h : Reads files root chain names s d t) :
    (atItem s).head? ≠ some semicolon := by
  have hname : ∀ {texts : List (List UInt8)} {s name v : List UInt8},
      ReadsName texts s name v → s.head? ≠ some semicolon := by
    intro texts s name v hread heq
    obtain ⟨e, m, rfl, he⟩ := hread.head
    rw [Option.some.inj heq] at he
    exact absurd he (by decide)
  cases h with
  | finish hend =>
      intro heq
      rcases hend with hend | hend
      · rw [hend] at heq
        cases heq
      · rw [hend] at heq
        exact absurd (Option.some.inj heq) (by decide)
  | close hclose =>
      rw [hclose]
      exact fun heq => absurd (Option.some.inj heq) (by decide)
  | command hat _ _ _ _ =>
      rw [hat]
      exact fun heq => absurd (Option.some.inj heq) (by decide)
  | group hread _ _ => exact hname hread
  | scalar hread _ _ => exact hname hread

/-- A comment is put before the first of two semicolons behind a group. -/
def DoubledLeaf (c : List UInt8) (k : Before) (s s' : List UInt8) : Prop :=
  Insertion c k s s' ∧ DoubledSemicolon k s

/-- The loop ends at a semicolon that nothing reads, or the comment is still ahead. -/
def DoubledEnd (c t t' : List UInt8) : Prop :=
  (atItem (afterSemicolon (afterBlanks t'))).head? = some semicolon ∨
    ∃ k, k ≠ Before.brace ∧ Within (DoubledLeaf c) k t t'

theorem not_absorbed_doubled (c : List UInt8) : ¬Absorbed (DoubledLeaf c) := by
  rintro ⟨k, s, s', h, hk⟩
  exact hk h.2.1

theorem SameToken.doubled {c s s' : List UInt8} (h : SameToken (DoubledLeaf c) s s') :
    FromToken (DoubledLeaf c) s s' :=
  h.resolve_left fun h => not_absorbed_doubled c h.2

/-- Directly behind the brace that closes a group. -/
theorem Within.doubledBrace {c m m' : List UInt8} (hleaf : CommentLeaf c (DoubledLeaf c))
    (h : Within (DoubledLeaf c) .brace m m') :
    DoubledEnd c (afterSemicolon m) (afterSemicolon m') := by
  by_cases hsemi : m.head? = some semicolon
  · obtain ⟨m, rfl⟩ := List.head?_eq_some_iff.1 hsemi
    have hbehind : afterSemicolon (semicolon :: m) = m := rfl
    rcases h.of_semicolon with hhere | ⟨m', rfl, hwithin⟩
    · obtain ⟨⟨htext, -, -⟩, -, n, n', hn, hdouble⟩ := hhere
      obtain ⟨-, rfl⟩ := List.cons.inj hn
      obtain ⟨x, c', hc, hx⟩ := hleaf.first
      have hstay : afterSemicolon m' = m' := by
        apply afterSemicolon_of_head
        rw [htext, hc]
        exact fun heq => comment_ne_semicolon hx (Option.some.inj heq)
      left
      rw [hstay, htext, afterBlanks_skips hleaf.skips, atItem_semicolon, hbehind,
        ← atItem_afterBlanks, hdouble]
      rfl
    · exact .inr ⟨.other, by decide, hwithin⟩
  · have hsemi' : m'.head? ≠ some semicolon := by
      rcases h.head hleaf with ⟨x, n, rfl, hx⟩ | ⟨x, n, n', rfl, rfl, -⟩
      · exact fun heq => comment_ne_semicolon hx (Option.some.inj heq)
      · exact hsemi
    rw [afterSemicolon_of_head hsemi, afterSemicolon_of_head hsemi']
    refine .inr ⟨.other, by decide, ?_⟩
    cases h with
    | here h =>
        obtain ⟨-, -, n, n', rfl, -⟩ := h
        exact absurd rfl hsemi
    | word hx h => exact .word hx h
    | mark hx h => exact .mark hx h
    | string ht h => exact .string ht h
    | blank hx h => exact .blank hx h
    | comment hw h => exact .comment hw h

/-- What follows a setting when the comment is still ahead or a semicolon is left. -/
theorem DoubledEnd.next {files : ConfigFiles} {root : Bool} {chain names : List (List UInt8)}
    {c u u' t' : List UInt8} {d : ConfigDoc} (hleaf : CommentLeaf c (DoubledLeaf c))
    (h : DoubledEnd c u u')
    (hnext : Reads files root chain names (afterSemicolon (afterBlanks u')) d t') :
    Within (DoubledLeaf c) .other (afterSemicolon (afterBlanks u))
      (afterSemicolon (afterBlanks u')) := by
  rcases h with h | ⟨k, hk, h⟩
  · exact absurd h hnext.not_semicolon
  · exact ((h.sameToken hleaf hk).doubled).behindSemicolon

/-- With the comment the same document can only be read up to the second semicolon. -/
theorem Reads.doubled {files : ConfigFiles} {root : Bool} {chain names : List (List UInt8)}
    {c s s' t t' : List UInt8} {d : ConfigDoc} {k : Before}
    (hleaf : CommentLeaf c (DoubledLeaf c)) (h : Reads files root chain names s d t)
    (hs : Within (DoubledLeaf c) k s s') (hk : k ≠ .brace)
    (h' : Reads files root chain names s' d t') : root = false ∧ DoubledEnd c t t' := by
  have hitem : ∀ {k s s'}, Within (DoubledLeaf c) k s s' → k ≠ .brace →
      FromToken (DoubledLeaf c) (atItem s) (atItem s') := by
    intro k s s' hs hk
    obtain ⟨hne, hne'⟩ := hs.head_ne hleaf
    rw [atItem_of_head hne, atItem_of_head hne']
    exact (hs.sameToken hleaf hk).doubled
  induction h generalizing s' t' k with
  | @finish root chain names s hend =>
      have htoken := hitem hs hk
      have hne := ((htoken.within .other).head_ne hleaf).1
      rcases hend with hend | hend
      · rw [hend] at htoken
        cases htoken
      · exact absurd hend hne
  | @close chain names s m hclose =>
      have htoken := hitem hs hk
      rw [hclose] at htoken
      obtain ⟨m', hm', hwithin⟩ := htoken.of_mark (by decide)
      cases h' with
      | finish hend =>
          rw [hm'] at hend
          exact absurd hend (by simp [rightBrace, nul])
      | close hclose' =>
          rw [hm', List.cons.injEq] at hclose'
          rw [← hclose'.2]
          exact ⟨rfl, hwithin.doubledBrace hleaf⟩
  | @command root chain names s m file r content childs u next t hat hcommand hload hchilds hnext
      ihchilds ihnext =>
      have htoken := hitem hs hk
      rw [hat] at htoken
      obtain ⟨m', hm', hwithin⟩ := htoken.words (w := []) hleaf
        (List.forall_mem_singleton.2 (by decide))
      obtain ⟨r', hr', hrest⟩ := hwithin.readsCommand hleaf hcommand
      replace hrest := hrest.resolve_left fun h => not_absorbed_doubled c h.2
      cases h' with
      | command hat' hcommand' hload' hchilds' hnext' =>
          rw [hm', List.cons_append, List.nil_append, List.cons.injEq] at hat'
          rw [← hat'.2] at hcommand'
          rw [(hcommand'.unique hr').2] at hnext'
          exact ihnext hrest (by decide) hnext'
  | @group root chain names s name inner childs u next t hname hchilds hnext ihchilds ihnext =>
      obtain ⟨v', hname', hsame⟩ := (hitem hs hk).readsName hleaf hname
      obtain ⟨inner', rfl, hwithin⟩ := hsame.doubled.of_mark (by decide)
      generalize hdoc : ConfigDoc.setting name (groupValue inner) childs next = d at h'
      cases h' with
      | finish _ => cases hdoc
      | close _ => cases hdoc
      | command _ _ _ _ _ => cases hdoc
      | group hname₂ hchilds₂ hnext₂ =>
          injection hdoc with hname₁ hvalue hchilds₁ hnext₁
          subst hname₁ hchilds₁ hnext₁
          have hinner := hname'.value_unique hname₂
          obtain rfl := (List.cons.inj hinner).2
          obtain ⟨-, hend⟩ := ihchilds hwithin (by decide) hchilds₂
          exact ihnext (hend.next hleaf hnext₂) (by decide) hnext₂
      | scalar hname₂ hvalue₂ _ =>
          injection hdoc with hname₁ hvalue hchilds₁ hnext₁
          subst hname₁
          rw [← hname'.value_unique hname₂] at hvalue₂
          exact absurd rfl hvalue₂.head_ne
  | @scalar root chain names s name v value u next t hname hvalue hnext ihnext =>
      obtain ⟨v', hname', hsame⟩ := (hitem hs hk).readsName hleaf hname
      obtain ⟨u', hvalue', k', hk', hwithin⟩ := hsame.doubled.readsScalar hleaf hvalue
      generalize hdoc : ConfigDoc.setting name value .nil next = d at h'
      cases h' with
      | finish _ => cases hdoc
      | close _ => cases hdoc
      | command _ _ _ _ _ => cases hdoc
      | group hname₂ _ _ =>
          injection hdoc with hname₁ _ _ _
          subst hname₁
          rw [hname'.value_unique hname₂] at hvalue'
          exact absurd rfl hvalue'.head_ne
      | scalar hname₂ hvalue₂ hnext₂ =>
          injection hdoc with hname₁ hvalue₁ _ hnext₁
          subst hname₁ hvalue₁ hnext₁
          rw [← hname'.value_unique hname₂] at hvalue₂
          rw [← hvalue'.rest_unique hvalue₂] at hnext₂
          have hend : DoubledEnd c u u' := .inr ⟨k', hk', hwithin⟩
          exact ihnext (hend.next hleaf hnext₂) (by decide) hnext₂

/-! ## Which comments are transparent -/

section Transparent

variable {c : List UInt8}

theorem Comment.head (h : Comment c) : ∃ x m, c = x :: m ∧ (x = hash ∨ x = slash) := by
  cases h with
  | line ho _ =>
      rcases ho with rfl | rfl
      · exact ⟨hash, _, rfl, .inl rfl⟩
      · exact ⟨slash, _, rfl, .inr rfl⟩
  | block _ => exact ⟨slash, _, rfl, .inr rfl⟩

/-- The last byte of a comment belongs to no number. -/
theorem Comment.last (h : Comment c) : ∃ m x, c = m ++ [x] ∧ isNumberByte x = false := by
  cases h with
  | @line o t _ _ => exact ⟨o ++ t, lf, by simp, by decide⟩
  | @block t _ => exact ⟨slash :: star :: (t ++ [star]), slash, by simp, by decide⟩

theorem commentLeaf_of_skips (hcomment : Comment c) (hskips : Skips c)
    (single : Before → List UInt8 → Prop) :
    CommentLeaf c fun k s s' => Insertion c k s s' ∧ single k s :=
  ⟨And.left, hskips, hcomment.head⟩

/-- A comment makes no difference where no semicolon is doubled. -/
theorem readAs_of_inserted {files : ConfigFiles} {file content content' : List UInt8}
    {doc : ConfigDoc} (hcomment : Comment c) (htext : TextFile c) (hskips : Skips c)
    (hread : ReadAs files file content doc)
    (hinserted : InsertedComment (fun k s => ¬DoubledSemicolon k s) c content content') :
    ReadAs files file content' doc := by
  obtain ⟨hvalid, t, hreads⟩ := readAs_iff.1 hread
  have hcontent := textFile_of_quickValidate hvalid
  have hleaf := commentLeaf_of_skips hcomment hskips fun k s => ¬DoubledSemicolon k s
  obtain ⟨t', hreads', -⟩ := hreads.inserted hleaf And.right (.inr ⟨.other, hinserted⟩)
  refine readAs_iff.2 ⟨quickValidate_eq_none (fun x hx => ?_) file, t', hreads'⟩
  obtain ⟨b, hb, hmem⟩ := hinserted.bytes (fun h => h.1.text) rfl (nul_notMem_textFile hcontent)
  obtain rfl := List.append_cancel_right hb
  exact (hmem x hx).elim (hcontent x) (htext x)

/-- The setting `x` with a number of one digit. -/
def oneSetting (v : UInt8) : List UInt8 := [120, equals, v]

/-- The same with a comment before the value. -/
def oneSettingWith (c : List UInt8) (v : UInt8) : List UInt8 := 120 :: equals :: (c ++ [v])

theorem inserted_oneSetting {single : Before → List UInt8 → Prop} {v : UInt8}
    (hv : v = 49 ∨ v = 50) (hsingle : single (.ofMark equals) (v :: nuls)) (c : List UInt8) :
    InsertedComment single c (oneSetting v) (oneSettingWith c v) := by
  have hstay : afterBlanks (v :: nuls) = v :: nuls := by
    rcases hv with rfl | rfl <;> decide
  have hne : v ≠ nul := by rcases hv with rfl | rfl <;> decide
  have hleaf : Insertion c (.ofMark equals) (v :: nuls) (c ++ v :: nuls) :=
    ⟨rfl, fun h => absurd h (by decide), v, nuls, hstay, hne⟩
  have hwithin : Within (fun k s s' => Insertion c k s s' ∧ single k s) .other
      (120 :: equals :: v :: nuls) (120 :: equals :: (c ++ v :: nuls)) :=
    .word (by decide) (.mark (by decide) (.here ⟨hleaf, hsingle⟩))
  have htext : oneSettingWith c v ++ nuls = 120 :: equals :: (c ++ v :: nuls) := by
    simp [oneSettingWith]
  rw [InsertedComment, htext]
  exact hwithin

/-- The value is read from what is left of the comment. -/
theorem readsScalar_oneSettingWith {files : ConfigFiles} {file : List UInt8} {v : UInt8} {n : Nat}
    (h : ReadAs files file (oneSettingWith c v) (.setting [120] (.int n) .nil .nil)) :
    ∃ u, ReadsScalar (afterBlanks (c ++ v :: nuls)) (.int n) u := by
  obtain ⟨-, t, hreads⟩ := readAs_iff.1 h
  have hitem : atItem (oneSettingWith c v ++ nuls) = 120 :: equals :: (c ++ v :: nuls) := by
    have hhead : (oneSettingWith c v ++ nuls).head? ≠ some nul := fun h =>
      absurd (Option.some.inj h : (120 : UInt8) = nul) (by decide)
    rw [atItem_of_head hhead]
    simp only [oneSettingWith, List.cons_append, List.append_assoc, List.nil_append]
    exact afterBlanks_stop (by decide) (by decide) (by decide) _
  generalize hdoc : ConfigDoc.setting [120] (.int n) .nil .nil = doc at hreads
  cases hreads with
  | finish _ => cases hdoc
  | command _ _ _ _ _ => cases hdoc
  | @group _ _ _ _ name inner _ _ _ _ _ _ _ =>
      have hvalue : DocValue.int n = groupValue inner := by
        injection hdoc
      unfold groupValue at hvalue
      split at hvalue <;> cases hvalue
  | @scalar _ _ _ _ name v₀ value u _ _ hname hvalue _ =>
      obtain ⟨rfl, rfl⟩ : [120] = name ∧ DocValue.int n = value := by
        injection hdoc with hname hvalue _ _
        exact ⟨hname, hvalue⟩
      obtain ⟨w, sep, m, hw, -, -, -, hsep, -, rfl⟩ := hname
      rw [hitem, List.cons_append, List.cons.injEq] at hw
      obtain ⟨-, rfl⟩ := hw
      have hstop : afterBlanks (equals :: (c ++ v :: nuls)) = equals :: (c ++ v :: nuls) :=
        afterBlanks_stop (by decide) (by decide) (by decide) _
      rw [hstop, List.cons.injEq] at hsep
      rw [← hsep.2] at hvalue
      exact ⟨u, hvalue⟩

/-- The value is already in the comment if the blanks end in it. -/
theorem value_in_comment {w r u : List UInt8} {n : Nat} (hne : w ≠ []) (hsuffix : w <:+ c)
    (hcomment : Comment c) (h : ReadsScalar (w ++ r) (.int n) u) (r' : List UInt8) :
    (readNumber (w ++ r')).1 = .int n := by
  have hvalue : (readNumber (w ++ r)).1 = .int n := by
    generalize hs : w ++ r = s at h
    generalize hint : DocValue.int n = value at h
    cases h with
    | string _ => cases hint
    | number _ => rfl
    | bool _ _ => cases hint
  -- the last byte of the comment ends the number
  obtain ⟨m, x, rfl, hx⟩ := hcomment.last
  obtain ⟨v, hv⟩ := hsuffix
  obtain ⟨m', y, rfl⟩ := (List.eq_nil_or_concat' w).resolve_left hne
  rw [← List.append_assoc] at hv
  obtain ⟨-, hxy⟩ := List.append_inj' hv rfl
  obtain rfl : y = x := List.singleton_inj.1 hxy
  obtain ⟨k, s, hk, -, -, hbytes, hs⟩ := Scan.exists_span isNumberByte (m' ++ [y])
  have hsne : s ≠ [] := by
    rintro rfl
    rw [List.append_nil] at hk
    have hy := hbytes y (hk ▸ List.mem_append_right m' List.mem_cons_self)
    exact Bool.noConfusion (hy.symm.trans hx)
  obtain ⟨e, s, rfl⟩ := List.exists_cons_of_ne_nil hsne
  have hstop : ∀ r : List UInt8, ∀ z ∈ (e :: s ++ r).head?, isNumberByte z = false :=
    fun _ z hz => hs z hz
  have hread : ∀ r : List UInt8,
      (readNumber (m' ++ [y] ++ r)).1 = (Place.parseInt ([], k)).1.doc [] := by
    intro r
    rw [hk, List.append_assoc, readNumber, parseInt_append (hstop r)]
  rw [hread r', ← hread r, hvalue]

/-- Which comments can be put anywhere between two tokens. -/
theorem skips_of_transparent (hcomment : Comment c) (htext : TextFile c)
    (h : ∀ v, v = 49 ∨ v = 50 → ∀ doc, ReadAs (fun _ => none) [] (oneSetting v) doc →
      ReadAs (fun _ => none) [] (oneSettingWith c v) doc) : Skips c := by
  have hone : ReadAs (fun _ => none) [] (oneSetting 49) (.setting [120] (.int 1) .nil .nil) :=
    ⟨2, _, _, rfl, by decide⟩
  have htwo : ReadAs (fun _ => none) [] (oneSetting 50) (.setting [120] (.int 2) .nil .nil) :=
    ⟨2, _, _, rfl, by decide⟩
  obtain ⟨u₁, hread₁⟩ := readsScalar_oneSettingWith (h 49 (.inl rfl) _ hone)
  obtain ⟨u₂, hread₂⟩ := readsScalar_oneSettingWith (h 50 (.inr rfl) _ htwo)
  rcases @jump_trichotomy .blank c (nul_notMem_textFile htext) (fun h => by cases h) with
    hskips | ⟨w, hne, hsuffix, hstop⟩ | hswallows
  · exact hskips
  · -- the value of both settings is in the comment
    have hstop₁ : afterBlanks (c ++ 49 :: nuls) = w ++ 49 :: nuls :=
      hstop _ ⟨by decide, by decide⟩
    have hstop₂ : afterBlanks (c ++ 50 :: nuls) = w ++ 50 :: nuls :=
      hstop _ ⟨by decide, by decide⟩
    rw [hstop₁] at hread₁
    rw [hstop₂] at hread₂
    have hfirst := value_in_comment hne hsuffix hcomment hread₁ []
    have hsecond := value_in_comment hne hsuffix hcomment hread₂ []
    exact absurd (hfirst.symm.trans hsecond) (by decide)
  · -- the rest of the text is in the comment
    have hall : afterBlanks (c ++ 49 :: nuls) = nuls :=
      hswallows [49] (by decide) (by decide) (by decide) (by decide)
    rw [hall] at hread₁
    obtain ⟨e, m, heq, he⟩ := hread₁.head
    exact absurd (List.cons.inj heq).1.symm he

/-- A comment is skipped unless its text begins with a slash, which closes it. What is left
of it then has to be skipped as well. -/
theorem Comment.skips_iff (h : Comment c) (hnul : nul ∉ c) :
    Skips c ↔ ¬[slash, star, slash] <+: c ∨ ∃ w, c = [slash, star, slash] ++ w ∧ Skips w := by
  constructor
  · intro hskips
    by_cases hclosed : [slash, star, slash] <+: c
    · right
      obtain ⟨w, rfl⟩ := hclosed
      refine ⟨w, rfl, ?_⟩
      generalize hs : [slash, star, slash] ++ w = s at hskips
      cases hskips with
      | nil => cases hs
      | blank hx _ =>
          rw [List.cons_append, List.cons.injEq] at hs
          rw [← hs.1] at hx
          exact absurd hx (by decide)
      | comment hcomment hw =>
          cases hcomment with
          | @line o t ho _ _ =>
              rcases ho with rfl | rfl
              · exact absurd (List.cons.inj hs).1 (by decide)
              · exact absurd (List.cons.inj (List.cons.inj hs).2).1 (by decide)
          | @block t ht _ =>
              cases t with
              | nil =>
                  have hthird := (List.cons.inj (List.cons.inj (List.cons.inj hs).2).2).1
                  exact absurd hthird (by decide)
              | cons e t =>
                  have hthird := (List.cons.inj (List.cons.inj (List.cons.inj hs).2).2).1
                  rw [← hthird] at ht
                  exact absurd (List.prefix_append [star, slash] t).isInfix ht
          | overlap =>
              obtain rfl := (List.append_cancel_left hs)
              exact hw
    · exact .inl hclosed
  · rintro (hclosed | ⟨w, rfl, hw⟩)
    · have hskipped : SkippedComment c := by
        cases h with
        | @line o t ho ht => exact .line ho ht fun hmem => hnul (by simp [hmem])
        | @block t ht =>
            refine .block ?_ fun hmem => hnul (by simp [hmem])
            rw [List.infix_cons_iff, not_or]
            refine ⟨?_, ht⟩
            rintro ⟨u, hu⟩
            apply hclosed
            refine ⟨u ++ [star, slash], ?_⟩
            exact congrArg (fun t => slash :: (t ++ [star, slash])) hu
      have hskips := Skips.comment hskipped .nil
      rwa [List.append_nil] at hskips
    · exact .comment .overlap hw

/-- The comment makes no difference at the places that are meant. -/
def TransparentWhere (single : Before → List UInt8 → Prop) (c : List UInt8) : Prop :=
  ∀ files file content content' doc, ReadAs files file content doc →
    InsertedComment single c content content' → ReadAs files file content' doc

/-- A comment is transparent exactly if it is skipped as it stands, and except before the
first of two semicolons behind a group. -/
theorem transparentWhere_iff (hcomment : Comment c) (htext : TextFile c) :
    (TransparentWhere (fun k s => ¬DoubledSemicolon k s) c ↔ Skips c) ∧
      (Skips c → ∀ files file content content' doc, ReadAs files file content doc →
        InsertedComment DoubledSemicolon c content content' →
          ¬ReadAs files file content' doc) := by
  refine ⟨⟨fun h => ?_, fun hskips files file content content' doc hread hinserted => ?_⟩,
    fun hskips files file content content' doc hread hinserted hread' => ?_⟩
  · refine skips_of_transparent hcomment htext fun v hv doc hread => ?_
    have hsingle : ¬DoubledSemicolon (.ofMark equals) (v :: nuls) := fun h =>
      absurd h.1 (by decide)
    exact h _ _ _ _ doc hread (inserted_oneSetting hv hsingle c)
  · exact readAs_of_inserted hcomment htext hskips hread hinserted
  · obtain ⟨-, t, hreads⟩ := readAs_iff.1 hread
    obtain ⟨-, t', hreads'⟩ := readAs_iff.1 hread'
    have hleaf := commentLeaf_of_skips hcomment hskips DoubledSemicolon
    obtain ⟨hroot, -⟩ := hreads.doubled hleaf hinserted (by decide) hreads'
    exact absurd hroot (by decide)

end Transparent

/-- A group with two semicolons behind it. -/
def doubledGroup : List UInt8 := ascii "a=\x7b\x7d;;"

/-- The same with a comment before them. -/
def doubledGroupWith : List UInt8 := ascii "a=\x7b\x7d/* c */;;"

/-- A comment that is skipped, and the one place where it is not transparent. -/
theorem transparentWhere_skipped :
    TransparentWhere (fun k s => ¬DoubledSemicolon k s) (ascii "/* c */") ∧
      ReadAs (fun _ => none) [] doubledGroup (.setting (ascii "a") .group .nil .nil) ∧
      ¬ReadAs (fun _ => none) [] doubledGroupWith (.setting (ascii "a") .group .nil .nil) := by
  have hcomment : Comment (ascii "/* c */") := .block (t := ascii " c ") (by decide +kernel)
  have htext : TextFile (ascii "/* c */") := by decide +kernel
  have hskips : Skips (ascii "/* c */") :=
    (hcomment.skips_iff (nul_notMem_textFile htext)).2 (.inl (by decide +kernel))
  have hread : ReadAs (fun _ => none) [] doubledGroup (.setting (ascii "a") .group .nil .nil) :=
    ⟨3, _, _, rfl, by decide +kernel⟩
  have hplace : DoubledSemicolon .brace (ascii ";;" ++ nuls) :=
    ⟨rfl, ascii ";" ++ nuls, nuls, by decide +kernel, by decide +kernel⟩
  have hleaf : Insertion (ascii "/* c */") .brace (ascii ";;" ++ nuls)
      (ascii "/* c */" ++ (ascii ";;" ++ nuls)) :=
    ⟨rfl, fun h => absurd h (by decide), semicolon, ascii ";" ++ nuls, by decide +kernel,
      by decide⟩
  have hinserted : InsertedComment DoubledSemicolon (ascii "/* c */") doubledGroup
      doubledGroupWith := by
    have hwithin : Within
        (fun k s s' => Insertion (ascii "/* c */") k s s' ∧ DoubledSemicolon k s) .other
        (97 :: equals :: leftBrace :: rightBrace :: (ascii ";;" ++ nuls))
        (97 :: equals :: leftBrace :: rightBrace ::
          (ascii "/* c */" ++ (ascii ";;" ++ nuls))) :=
      .word (by decide) (.mark (by decide) (.mark (by decide) (.mark (by decide)
        (.here ⟨hleaf, hplace⟩))))
    have htexts : doubledGroup ++ nuls =
          97 :: equals :: leftBrace :: rightBrace :: (ascii ";;" ++ nuls) ∧
        doubledGroupWith ++ nuls =
          97 :: equals :: leftBrace :: rightBrace ::
            (ascii "/* c */" ++ (ascii ";;" ++ nuls)) := by decide +kernel
    rw [InsertedComment, htexts.1, htexts.2]
    exact hwithin
  exact ⟨(transparentWhere_iff hcomment htext).1.2 hskips, hread,
    (transparentWhere_iff hcomment htext).2 hskips _ _ _ _ _ hread hinserted⟩

/-- Every comment can be put between any two tokens. -/
def CommentsTransparent : Prop :=
  ∀ c, Comment c → TextFile c → TransparentWhere (fun _ _ => True) c

/-- The search for the end of the comment begins with the star that opens it. -/
theorem not_commentsTransparent_slash : ¬CommentsTransparent := by
  intro h
  have hcomment : Comment (ascii "/*/ */") := .block (t := ascii "/ ") (by decide +kernel)
  have hread : ReadAs (fun _ => none) [] (oneSetting 49) (.setting [120] (.int 1) .nil .nil) :=
    ⟨2, _, _, rfl, by decide +kernel⟩
  obtain ⟨u, hvalue⟩ := readsScalar_oneSettingWith
    (h _ hcomment (by decide +kernel) _ _ _ _ _ hread (inserted_oneSetting (.inl rfl) trivial _))
  have hrest : afterBlanks (ascii "/*/ */" ++ 49 :: nuls) = ascii "*/1" ++ nuls := by
    decide +kernel
  rw [hrest] at hvalue
  have hstar : (ascii "*/1" ++ nuls).head? = some star := by decide +kernel
  generalize ascii "*/1" ++ nuls = s at hvalue hstar
  generalize hint : DocValue.int 1 = value at hvalue
  cases hvalue with
  | string _ => cases hint
  | bool _ _ => cases hint
  | number hc =>
      rw [Option.some.inj hstar] at hc
      exact absurd hc (by decide)

end OpenTube
