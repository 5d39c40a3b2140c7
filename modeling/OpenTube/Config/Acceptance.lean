import OpenTube.Config.Grammar

/-!
# What the configuration parser accepts

The loop of `config_parse_childs` ends at the end of the text and at a closing brace,
and does not ask which of them has to come: a group may be left open at the end of its
file, and a closing brace ends an included file, whatever follows. A comment that is not
closed goes up to the end of the text, and the star that opens a comment may close it as
well, so `/*/` is a comment.

A text in which the braces, the strings and the comments are balanced, with no comment
whose text begins with a slash, shows none of this: if it is accepted, it belongs to the
grammar, and its document is that of the tree.
-/

namespace OpenTube

/-! ## Blanks in a balanced text -/

/-- The two bytes behind a text. -/
abbrev nuls : List UInt8 := [nul, nul]

theorem head?_append_nuls {c : UInt8} (hc : c ≠ nul) (m : List UInt8) :
    (m ++ nuls).head? = some c ↔ m.head? = some c := by
  cases m with
  | nil => simp [nuls, Ne.symm hc]
  | cons d m => rfl

/-- A part of a text that contains no `NUL` ends before the `NUL`s. -/
theorem split_nuls {a b r : List UInt8} (h : a ++ r = b ++ nuls) (ha : nul ∉ a) :
    ∃ b', b = a ++ b' ∧ r = b' ++ nuls := by
  rcases List.append_eq_append_iff.1 h with ⟨a', rfl, hr⟩ | ⟨c, rfl, hc⟩
  · exact ⟨a', rfl, hr⟩
  · cases c with
    | nil => exact ⟨[], by simp, by simpa using hc.symm⟩
    | cons d c =>
        rw [List.cons_append, List.cons.injEq] at hc
        exact absurd (List.mem_append_right b (hc.1 ▸ List.mem_cons_self)) ha

/-- The mode of the scan that goes with a mode of `config_jump_to_nonspace`. -/
inductive JumpMode.Scanned : JumpMode → LexMode → Prop
  | blank : Scanned .blank .code
  | line : Scanned .line .line
  | opening : Scanned .block .opening
  | block : Scanned .block .block
  | close : Scanned .close .closing

/-- What is passed over from a mode on. -/
def LexMode.Passes (last : Bool) (w : List UInt8) : LexMode → Prop
  | code => Gap last w
  | line => (∃ t g, w = t ++ lf :: g ∧ lf ∉ t ∧ Gap last g) ∨ last = true ∧ lf ∉ w
  | opening => ∃ c t g, w = c :: (t ++ star :: slash :: g) ∧ ¬[star, slash] <:+: t ∧ Gap last g
  | block => ∃ t g, w = t ++ star :: slash :: g ∧ ¬[star, slash] <:+: t ∧ Gap last g
  | closing => ∃ c g, w = c :: g ∧ Gap last g
  | string => False

/-- `w` is passed over, and `s` is left: it is balanced, or the text has ended in a
comment up to the end of the line. -/
def LexMode.Jumped (mode : LexMode) (d : Nat) (w s : List UInt8) : Prop :=
  mode.Passes false w ∧ LexMode.code.Closes true d s ∨ s = [] ∧ d = 0 ∧ mode.Passes true w

/-- A comment up to the end of the line, from its first byte on. -/
theorem LexMode.Passes.lineComment {last : Bool} {c : UInt8} {w s : List UInt8}
    (h : LexMode.line.Passes last w) (hlast : last = true → s = [])
    (hc : c = hash ∨ c = slash ∧ (w ++ s).head? = some slash) : Gap last (c :: w) := by
  rcases hc with rfl | ⟨rfl, hhead⟩
  · rcases h with ⟨t, g, rfl, ht, hg⟩ | ⟨rfl, hw⟩
    · have hcomment := Gap.comment (.line (.inl rfl) ht) hg
      simpa using hcomment
    · exact .lastLine (.inl rfl) hw
  · rcases h with ⟨t, g, rfl, ht, hg⟩ | ⟨rfl, hw⟩
    · cases t with
      | nil => exact absurd (Option.some.inj hhead) (by decide)
      | cons e t =>
          obtain rfl : e = slash := Option.some.inj hhead
          rw [List.mem_cons, not_or] at ht
          have hcomment := Gap.comment (.line (.inr rfl) ht.2) hg
          simpa using hcomment
    · rw [hlast rfl, List.append_nil] at hhead
      obtain ⟨t, rfl⟩ := List.head?_eq_some_iff.1 hhead
      rw [List.mem_cons, not_or] at hw
      exact .lastLine (.inr rfl) hw.2

/-- A comment in `/*` and `*/`, from its slash on. -/
theorem LexMode.Passes.blockComment {last : Bool} {w s : List UInt8}
    (h : LexMode.opening.Passes last w) (hhead : (w ++ s).head? = some star) :
    Gap last (slash :: w) := by
  obtain ⟨c, t, g, rfl, ht, hg⟩ := h
  obtain rfl : c = star := Option.some.inj hhead
  have hcomment := Gap.comment (.block ht) hg
  simpa using hcomment

/-- A byte of a comment that does not close it. -/
theorem LexMode.Passes.blockByte {last : Bool} {c : UInt8} {w s : List UInt8}
    (h : LexMode.block.Passes last w) (hc : ¬(c = star ∧ (w ++ s).head? = some slash)) :
    LexMode.block.Passes last (c :: w) := by
  obtain ⟨t, g, rfl, ht, hg⟩ := h
  refine ⟨c :: t, g, rfl, ?_, hg⟩
  rw [List.infix_cons_iff, not_or]
  refine ⟨?_, ht⟩
  rintro ⟨t', ht'⟩
  simp only [List.cons_append, List.nil_append, List.cons.injEq] at ht'
  apply hc
  rw [← ht'.1, ← ht'.2]
  exact ⟨rfl, rfl⟩

theorem jump_of_closes {mode : JumpMode} {lexMode : LexMode} {d : Nat} {u : List UInt8}
    (hmode : mode.Scanned lexMode) (hu : nul ∉ u) (h : lexMode.Closes true d u) :
    ∃ w s, u = w ++ s ∧ (jumpToNonspace mode (u ++ nuls)).2 = s ++ nuls ∧
      lexMode.Jumped d w s := by
  induction u generalizing mode lexMode with
  | nil =>
      have hjump : (jumpToNonspace mode ([] ++ nuls)).2 = [] ++ nuls := by
        cases mode <;> rfl
      have hmodes : lexMode = .code ∨ lexMode = .line ∧ d = 0 := by
        rcases h with h | h <;> simp only [lex, Option.some.injEq, Prod.mk.injEq] at h
        · exact .inl h.1
        · exact .inr h
      refine ⟨[], [], rfl, hjump, ?_⟩
      rcases hmodes with rfl | ⟨rfl, hd⟩
      · exact .inl ⟨.nil, h⟩
      · exact .inr ⟨rfl, hd, .inr ⟨rfl, List.not_mem_nil⟩⟩
  | cons c m ih =>
      rw [List.mem_cons, not_or] at hu
      have hc : c ≠ nul := Ne.symm hu.1
      have hslash := head?_append_nuls (c := slash) (by decide) m
      have hstar := head?_append_nuls (c := star) (by decide) m
      -- one byte is passed, and the rest by induction
      have hstep : ∀ {mode' : JumpMode} {lexMode' : LexMode}, mode'.Scanned lexMode' →
          (jumpToNonspace mode (c :: m ++ nuls)).2 = (jumpToNonspace mode' (m ++ nuls)).2 →
          lex true lexMode d (c :: m) = lex true lexMode' d m →
          (∀ last w s, m = w ++ s → (last = true → s = []) → lexMode'.Passes last w →
            lexMode.Passes last (c :: w)) →
          ∃ w s, c :: m = w ++ s ∧ (jumpToNonspace mode (c :: m ++ nuls)).2 = s ++ nuls ∧
            lexMode.Jumped d w s := by
        intro mode' lexMode' hmode' hjump hlex hpass
        rw [LexMode.Closes, hlex] at h
        obtain ⟨w, s, hm, hrest, hjumped⟩ := ih hmode' hu.2 h
        refine ⟨c :: w, s, by rw [hm]; rfl, hjump.trans hrest, ?_⟩
        rcases hjumped with ⟨hw, hs⟩ | ⟨hs, hd, hw⟩
        · exact .inl ⟨hpass false w s hm (fun hlast => absurd hlast Bool.false_ne_true) hw, hs⟩
        · exact .inr ⟨hs, hd, hpass true w s hm (fun _ => hs) hw⟩
      cases hmode with
      | blank =>
          by_cases hline : c = hash ∨ c = slash ∧ m.head? = some slash
          · refine hstep .line ?_ ?_ ?_
            · rw [List.cons_append, jumpToNonspace, if_neg hc]
              simp only [hslash, if_pos hline]
            · simp only [lex, if_pos hline]
            · intro last w s hm hlast hw
              rw [hm] at hline
              exact hw.lineComment hlast hline
          · by_cases hblock : c = slash ∧ m.head? = some star
            · refine hstep .opening ?_ ?_ ?_
              · rw [List.cons_append, jumpToNonspace, if_neg hc]
                simp only [hslash, hstar, if_neg hline, if_pos hblock]
              · simp only [lex, if_neg hline, if_pos hblock]
              · intro last w s hm _ hw
                rw [hm] at hblock
                rw [hblock.1]
                exact hw.blockComment hblock.2
            · by_cases hblank : configBlank c = true
              · refine hstep .blank ?_ (lex_plain_cons (isPlain_of_blank hblank) m) ?_
                · rw [List.cons_append, jumpToNonspace, if_neg hc]
                  simp only [hslash, hstar, if_neg hline, if_neg hblock, if_pos hblank]
                · exact fun last w s _ _ hw => .blank hblank hw
              · refine ⟨[], c :: m, rfl, ?_, .inl ⟨.nil, h⟩⟩
                rw [List.cons_append, jumpToNonspace, if_neg hc]
                simp only [hslash, hstar, if_neg hline, if_neg hblock, hblank, if_false,
                  Bool.false_eq_true]
      | line =>
          by_cases hlf : c = lf
          · refine hstep .blank ?_ ?_ fun last w s _ _ hw =>
              .inl ⟨[], w, by rw [hlf]; rfl, List.not_mem_nil, hw⟩
            · rw [List.cons_append, jumpToNonspace, if_neg hc]
              simp only [if_pos hlf]
            · simp only [lex, if_pos hlf]
          · refine hstep .line ?_ ?_ fun last w s _ _ hw => ?_
            · rw [List.cons_append, jumpToNonspace, if_neg hc]
              simp only [if_neg hlf]
            · simp only [lex, if_neg hlf]
            · rcases hw with ⟨t, g, rfl, ht, hg⟩ | ⟨hlast, hw⟩
              · exact .inl ⟨c :: t, g, rfl, by simp [ht, Ne.symm hlf], hg⟩
              · exact .inr ⟨hlast, by simp [hw, Ne.symm hlf]⟩
      | opening =>
          have hopen : ¬m.head? = some slash := by
            intro hhead
            rcases h with h | h <;> simp [lex, hhead] at h
          refine hstep .block ?_ ?_ fun last w s _ _ hw => ?_
          · rw [List.cons_append, jumpToNonspace, if_neg hc]
            simp only [hslash, hopen, and_false, if_false]
          · simp only [lex, hopen, and_false, if_false]
          · obtain ⟨t, g, rfl, ht, hg⟩ := hw
            exact ⟨c, t, g, rfl, ht, hg⟩
      | block =>
          by_cases hclose : c = star ∧ m.head? = some slash
          · refine hstep .close ?_ ?_ fun last w s hm _ hw => ?_
            · rw [List.cons_append, jumpToNonspace, if_neg hc]
              simp only [hslash, if_pos hclose]
            · simp only [lex, if_pos hclose]
            · obtain ⟨e, g, rfl, hg⟩ := hw
              have he : e = slash := by
                rw [hm] at hclose
                exact Option.some.inj hclose.2
              rw [hclose.1, he]
              exact ⟨[], g, rfl, by simp, hg⟩
          · refine hstep .block ?_ ?_ fun last w s hm _ hw => ?_
            · rw [List.cons_append, jumpToNonspace, if_neg hc]
              simp only [hslash, if_neg hclose]
            · simp only [lex, if_neg hclose]
            · rw [hm] at hclose
              exact hw.blockByte hclose
      | close =>
          refine hstep .blank ?_ ?_ fun last w s _ _ hw => ⟨c, w, rfl, hw⟩
          · rw [List.cons_append, jumpToNonspace, if_neg hc]
          · simp only [lex]

/-! ## Items in a balanced text -/

section Items

variable {d : Nat} {b : List UInt8}

theorem afterBlanks_of_closes (hb : nul ∉ b) (h : LexMode.code.Closes true d b) :
    ∃ w s, b = w ++ s ∧ afterBlanks (b ++ nuls) = s ++ nuls ∧ LexMode.code.Jumped d w s :=
  jump_of_closes .blank hb h

theorem atItem_of_closes (hb : nul ∉ b) (h : LexMode.code.Closes true d b) :
    ∃ w s, b = w ++ s ∧ atItem (b ++ nuls) = s ++ nuls ∧ LexMode.code.Jumped d w s := by
  cases b with
  | nil => exact ⟨[], [], rfl, rfl, .inl ⟨.nil, h⟩⟩
  | cons c m =>
      rw [List.mem_cons, not_or] at hb
      have hhead : ¬(c :: m ++ nuls).head? = some nul := fun heq => hb.1 (Option.some.inj heq).symm
      rw [atItem, if_neg hhead]
      exact afterBlanks_of_closes (by rw [List.mem_cons, not_or]; exact hb) h

/-- Where something is found, the text has not ended in a comment. -/
theorem LexMode.Jumped.of_head {w s : List UInt8} {c : UInt8} {m : List UInt8}
    (h : LexMode.code.Jumped d w s) (hc : c ≠ nul) (hs : s ++ nuls = c :: m) :
    Gap false w ∧ LexMode.code.Closes true d s ∧ ∃ s', s = c :: s' ∧ m = s' ++ nuls := by
  cases s with
  | nil =>
      rw [List.nil_append, List.cons.injEq] at hs
      exact absurd hs.1.symm hc
  | cons e s =>
      rw [List.cons_append, List.cons.injEq] at hs
      obtain ⟨rfl, rfl⟩ := hs
      rcases h with ⟨hw, hs⟩ | ⟨hs, -, -⟩
      · exact ⟨hw, hs, s, rfl, rfl⟩
      · exact absurd hs (List.cons_ne_nil _ _)

theorem LexMode.Closes.plain {strict : Bool} {t r : List UInt8}
    (h : LexMode.code.Closes strict d (t ++ r)) (ht : ∀ c ∈ t, isPlain c = true) :
    LexMode.code.Closes strict d r := by
  rwa [LexMode.Closes, lex_plain ht] at h

theorem LexMode.Closes.plain_cons {strict : Bool} {c : UInt8} {r : List UInt8}
    (h : LexMode.code.Closes strict d (c :: r)) (hc : isPlain c = true) :
    LexMode.code.Closes strict d r := by
  rwa [LexMode.Closes, lex_plain_cons hc] at h

theorem nul_notMem_right {a b : List UInt8} (h : nul ∉ a ++ b) : nul ∉ b :=
  fun hmem => h (List.mem_append_right a hmem)

/-- The text of a name up to its value. -/
theorem ReadsName.settingHead {names : List (List UInt8)} {g name v : List UInt8}
    (hg : Gap false g) (hb : nul ∉ b) (h : LexMode.code.Closes true d b)
    (hname : ReadsName names (b ++ nuls) name v) {c : UInt8} {m : List UInt8} (hc : c ≠ nul)
    (hv : v = c :: m) :
    ∃ head s, g ++ b = head ++ c :: s ∧ m = s ++ nuls ∧ SettingHead name head ∧
      nul ∉ s ∧ LexMode.code.Closes true d (c :: s) := by
  obtain ⟨w, sep, m', hrest, hne, htake, -, hw, hsep, rfl⟩ := hname
  have hsymbols : ∀ c ∈ name, configValidNameSymbol c = true := by
    intro c hc
    rw [← htake] at hc
    exact List.mem_takeWhile_imp hc
  have hnul : nul ∉ name := fun hmem => absurd (hsymbols nul hmem) (by decide)
  obtain ⟨b₁, rfl, rfl⟩ := split_nuls hrest.symm hnul
  have hb₁ := nul_notMem_right hb
  have h₁ := h.plain fun c hc => isPlain_of_name (hsymbols c hc)
  obtain ⟨g₁, s₁, rfl, hs₁, hjump₁⟩ := afterBlanks_of_closes hb₁ h₁
  have hsepNul : sep ≠ nul := by rcases hsep with rfl | rfl <;> decide
  have hsepPlain : isPlain sep = true := by rcases hsep with rfl | rfl <;> decide
  obtain ⟨hg₁, hcloses₁, s₁, rfl, rfl⟩ := hjump₁.of_head hsepNul (hs₁.symm.trans hw)
  have hb₂ : nul ∉ s₁ := fun hmem => hb₁ (List.mem_append_right g₁ (List.mem_cons_of_mem sep hmem))
  obtain ⟨g₂, s₂, rfl, hs₂, hjump₂⟩ := afterBlanks_of_closes hb₂ (hcloses₁.plain_cons hsepPlain)
  obtain ⟨hg₂, hcloses₂, s₂, rfl, rfl⟩ := hjump₂.of_head hc (hs₂.symm.trans hv)
  refine ⟨g ++ (name ++ (g₁ ++ sep :: g₂)), s₂, by simp, rfl,
    ⟨g, g₁, sep, g₂, hg, hg₁, hg₂, ⟨hne, hsymbols⟩, hsep, rfl⟩, ?_, hcloses₂⟩
  exact fun hmem => hb₂ (List.mem_append_right g₂ (List.mem_cons_of_mem c hmem))

theorem ReadsScalar.head {v r : List UInt8} {value : DocValue} (h : ReadsScalar v value r) :
    ∃ c m, v = c :: m ∧ c ≠ nul := by
  cases h with
  | string ht => exact ⟨quote, _, rfl, by decide⟩
  | @number c m hc =>
      refine ⟨c, m, rfl, ?_⟩
      rintro rfl
      exact absurd hc (by decide)
  | @bool b word _ hb hs =>
      have hword : word ≠ [] ∧ nul ∉ word := by
        rcases hb with ⟨-, rfl⟩ | ⟨-, rfl⟩
        · exact ⟨(words_lower _ (by simp)).1, (words_lower _ (by simp)).2.1⟩
        · exact ⟨(words_lower _ (by simp)).1, (words_lower _ (by simp)).2.1⟩
      have hnul := nul_notMem_of_beginsWith hword.2 hs
      obtain ⟨e, word, rfl⟩ := List.exists_cons_of_ne_nil hword.1
      cases v with
      | nil => exact absurd hs (by simp [beginsWith])
      | cons c m =>
          refine ⟨c, m, rfl, ?_⟩
          rintro rfl
          exact hnul List.mem_cons_self

theorem ReadsScalar.valueText {value : DocValue} {r : List UInt8} (hb : nul ∉ b)
    (h : LexMode.code.Closes true d b) (hvalue : ReadsScalar (b ++ nuls) value r) :
    ∃ text s, b = text ++ s ∧ r = s ++ nuls ∧ ValueText value text ∧
      LexMode.code.Closes true d s := by
  generalize hv : b ++ nuls = v at hvalue
  cases hvalue with
  | @string t r ht =>
      have hquote : quote ∉ t := fun hmem => (ht quote hmem).2 rfl
      have hnul : nul ∉ quote :: (t ++ [quote]) := by
        simp only [List.mem_cons, List.mem_append, List.not_mem_nil, or_false]
        rintro (hmem | hmem | hmem)
        · exact absurd hmem (by decide)
        · exact (ht nul hmem).1 rfl
        · exact absurd hmem (by decide)
      have hsplit : quote :: (t ++ [quote]) ++ r = b ++ nuls := by rw [hv]; simp
      obtain ⟨s, rfl, rfl⟩ := split_nuls hsplit hnul
      refine ⟨_, s, rfl, rfl, .string hquote, ?_⟩
      have hlex := @lex_string true d _ hquote s
      rw [LexMode.Closes] at h
      simp only [List.cons_append, List.append_assoc, List.nil_append, hlex] at h
      exact h
  | @number c m hc =>
      obtain ⟨a, ha, hm⟩ := parseInt_digit (m := m) hc
      have hnul : nul ∉ c :: a := fun hmem => absurd (ha nul hmem) (by decide)
      obtain ⟨s, rfl, hs⟩ := split_nuls (a := c :: a) (hm.symm.trans hv.symm) hnul
      have hread : readNumber (c :: (a ++ (s ++ nuls))) =
          ((readNumber (c :: m)).1, s ++ nuls) := by
        rw [← hs, ← hm]
        rfl
      refine ⟨c :: a, s, rfl, hs, .number hc ha hread, ?_⟩
      exact h.plain fun e he => isPlain_of_number (ha e he)
  | @bool b' word v hb' hs =>
      subst hv
      have hword : nul ∉ word ∧ ∀ c ∈ word, isPlain c = true := by
        rcases hb' with ⟨-, rfl⟩ | ⟨-, rfl⟩
        · exact ⟨(words_lower _ (by simp)).2.1, isPlain_words _ (by simp)⟩
        · exact ⟨(words_lower _ (by simp)).2.1, isPlain_words _ (by simp)⟩
      have hnul := nul_notMem_of_beginsWith hword.1 hs
      obtain ⟨s, hb₁, hs₁⟩ := split_nuls (List.take_append_drop word.length (b ++ nuls)) hnul
      rw [beginsWith, decide_eq_true_eq] at hs
      refine ⟨_, s, hb₁, hs₁, .bool hb' hs, ?_⟩
      rw [hb₁] at h
      exact h.plain (isPlain_word hword.2 hs)

/-- What lies between a setting and the next item. -/
def Behind (last : Bool) (w inner : List UInt8) : Prop :=
  Tail w ∨ Gap false w ∨ last = true ∧ inner = [] ∧ Gap true w

theorem afterSemicolon_of_closes (hb : nul ∉ b) (h : LexMode.code.Closes true d b) :
    ∃ w s, b = w ++ s ∧ afterSemicolon (afterBlanks (b ++ nuls)) = s ++ nuls ∧
      LexMode.code.Closes true d s ∧
      ∀ inner, (d = 0 → inner = s) → Behind (d == 0) w inner := by
  obtain ⟨w, s, rfl, hs, hjumped⟩ := afterBlanks_of_closes hb h
  rw [hs]
  rcases hjumped with ⟨hw, hcloses⟩ | ⟨rfl, rfl, hw⟩
  · by_cases hsemi : s.head? = some semicolon
    · obtain ⟨s, rfl⟩ := List.head?_eq_some_iff.1 hsemi
      refine ⟨w ++ [semicolon], s, by simp, rfl, hcloses.plain_cons (by decide), ?_⟩
      exact fun _ _ => .inl (.semicolon hw .nil)
    · have hnot : ¬(s ++ nuls).head? = some semicolon := fun heq =>
        hsemi ((head?_append_nuls (by decide) s).1 heq)
      refine ⟨w, s, rfl, by rw [afterSemicolon, if_neg hnot], hcloses, ?_⟩
      exact fun _ _ => .inr (.inl hw)
  · exact ⟨w, [], rfl, rfl, .inl rfl, fun inner hinner => .inr (.inr ⟨rfl, hinner rfl, hw⟩)⟩

end Items

/-- Blanks before the first item. -/
theorem Written.gap {files : ConfigFiles} {last : Bool} {doc : ConfigDoc} {g w : List UInt8}
    (hg : Gap false g) (h : Written files last doc w) : Written files last doc (g ++ w) := by
  cases h with
  | nil hw => exact .nil (hg.append hw)
  | scalar hhead hvalue htail hnext =>
      obtain ⟨g₀, g₁, sep, g₂, hg₀, hg₁, hg₂, hname, hsep, rfl⟩ := hhead
      rw [← List.append_assoc, ← List.append_assoc g]
      exact .scalar ⟨g ++ g₀, g₁, sep, g₂, hg.append hg₀, hg₁, hg₂, hname, hsep, rfl⟩ hvalue htail
        hnext
  | group hhead hchilds htail hnext =>
      obtain ⟨g₀, g₁, sep, g₂, hg₀, hg₁, hg₂, hname, hsep, rfl⟩ := hhead
      rw [← List.append_assoc, ← List.append_assoc g]
      exact .group ⟨g ++ g₀, g₁, sep, g₂, hg.append hg₀, hg₁, hg₂, hname, hsep, rfl⟩ hchilds htail
        hnext
  | included hg₀ hword hg' hfile hload hchilds htail hnext =>
      rw [← List.append_assoc]
      exact .included (hg.append hg₀) hword hg' hfile hload hchilds htail hnext

/-- Nothing is written as the empty text but the empty document. -/
theorem Written.eq_nil {files : ConfigFiles} {last : Bool} {doc : ConfigDoc} {w : List UInt8}
    (h : Written files last doc w) (hw : w = []) : doc = .nil := by
  cases h with
  | nil _ => rfl
  | scalar hhead _ _ _ =>
      obtain ⟨g₀, g₁, sep, g₂, -, -, -, -, -, rfl⟩ := hhead
      exact absurd hw (by simp)
  | group _ _ _ _ => exact absurd hw (by simp)
  | included _ _ _ _ _ _ _ _ => exact absurd hw (by simp)

theorem Behind.written {files : ConfigFiles} {last : Bool} {doc : ConfigDoc}
    {w inner : List UInt8} (h : Behind last w inner) (hwritten : Written files last doc inner) :
    ∃ tail rest, Tail tail ∧ w ++ inner = tail ++ rest ∧ Written files last doc rest := by
  rcases h with hw | hw | ⟨rfl, rfl, hw⟩
  · exact ⟨w, inner, hw, rfl, hwritten⟩
  · exact ⟨[], w ++ inner, .nil, rfl, hwritten.gap hw⟩
  · obtain rfl := hwritten.eq_nil rfl
    exact ⟨[], w, .nil, by simp, .nil hw⟩

/-! ## What is accepted belongs to the grammar -/

variable {files : ConfigFiles} {doc : ConfigDoc} {d : Nat} {b t : List UInt8}

/-- What the loop has read of a balanced text: all of it if no brace was open, else up to
the brace that closes the group, with the semicolon behind it. -/
def LoopOutcome (files : ConfigFiles) (doc : ConfigDoc) (b t : List UInt8) : Nat → Prop
  | 0 => t = nuls ∧ Written files true doc b
  | k + 1 => ∃ inner semi rest, b = inner ++ rightBrace :: (semi ++ rest) ∧ t = rest ++ nuls ∧
      (semi = [] ∨ semi = [semicolon]) ∧ Written files false doc inner ∧
      LexMode.code.Closes true k rest

/-- An item is put before what was read. -/
theorem LoopOutcome.map (doc' : ConfigDoc) (pre : List UInt8) (h : LoopOutcome files doc b t d)
    (hw : ∀ inner, (d = 0 → inner = b) → Written files (d == 0) doc inner →
      Written files (d == 0) doc' (pre ++ inner)) : LoopOutcome files doc' (pre ++ b) t d := by
  cases d with
  | zero => exact ⟨h.1, hw b (fun _ => rfl) h.2⟩
  | succ k =>
      obtain ⟨inner, semi, rest, rfl, ht, hsemi, hinner, hrest⟩ := h
      exact ⟨pre ++ inner, semi, rest, by simp, ht, hsemi,
        hw inner (fun hd => absurd hd (Nat.succ_ne_zero k)) hinner, hrest⟩

theorem Balances.nul_notMem {file content : List UInt8}
    (h : quickValidate file content = none) : nul ∉ content := by
  obtain ⟨front, m, hspan, htake, -, hfront, -⟩ := Scan.exists_span configValidSymbol content
  simp only [quickValidate, htake] at h
  split_ifs at h with hlen
  have hm : m = [] := by
    have hlength := congrArg List.length hspan
    rw [List.length_append] at hlength
    exact List.length_eq_zero_iff.1 (by omega)
  rw [hspan, hm, List.append_nil]
  exact fun hmem => absurd (hfront nul hmem) (by decide)

theorem Reads.written {root : Bool} {chain names : List (List UInt8)} {s : List UInt8}
    (h : Reads files root chain names s doc t) (hs : s = b ++ nuls) (hb : nul ∉ b)
    (hcloses : LexMode.code.Closes true d b) (hroot : d ≠ 0 → root = false)
    (hfiles : ∀ file ∈ doc.files, ∀ text, files file = some text → Balances true text) :
    LoopOutcome files doc b t d := by
  induction h generalizing b d with
  | finish hend =>
      obtain ⟨w, s, rfl, hitem, hjumped⟩ := atItem_of_closes hb hcloses
      rw [hs, hitem] at hend ⊢
      have hs : s = [] := by
        cases s with
        | nil => rfl
        | cons c m =>
            rcases hend with hend | hend
            · exact absurd hend (by simp)
            · exact absurd (List.mem_append_right w ((Option.some.inj hend) ▸ List.mem_cons_self)) hb
      subst hs
      rw [List.append_nil]
      rcases hjumped with ⟨hw, hnone⟩ | ⟨-, rfl, hw⟩
      · have hd : d = 0 := by
          rcases hnone with hnone | hnone <;> simp [lex] at hnone
          exact hnone
        subst hd
        exact ⟨rfl, .nil (Gap.toLast hw)⟩
      · exact ⟨rfl, .nil hw⟩
  | @close chain names s m hclose =>
      obtain ⟨w, s, rfl, hitem, hjumped⟩ := atItem_of_closes hb hcloses
      rw [hs, hitem] at hclose
      obtain ⟨hw, hcloses', s, rfl, rfl⟩ := hjumped.of_head (by decide) hclose
      rw [LexMode.Closes, lex_rightBrace] at hcloses'
      cases d with
      | zero => exact absurd hcloses' (by simp)
      | succ k =>
          simp only [Nat.succ_ne_zero, if_false, Nat.add_sub_cancel] at hcloses'
          by_cases hsemi : s.head? = some semicolon
          · obtain ⟨s, rfl⟩ := List.head?_eq_some_iff.1 hsemi
            have hrest : LexMode.code.Closes true k (semicolon :: s) := hcloses'
            exact ⟨w, [semicolon], s, rfl, rfl, .inr rfl, .nil hw, hrest.plain_cons (by decide)⟩
          · have hnot : ¬(s ++ nuls).head? = some semicolon := fun heq =>
              hsemi ((head?_append_nuls (by decide) s).1 heq)
            exact ⟨w, [], s, rfl, by rw [afterSemicolon, if_neg hnot], .inl rfl, .nil hw, hcloses'⟩
  | @command root chain names s m file r content childs u next t hat hcommand hload hchilds hnext
      ihchilds ihnext =>
      obtain ⟨g, s, rfl, hitem, hjumped⟩ := atItem_of_closes hb hcloses
      rw [hs, hitem] at hat
      obtain ⟨hg, hcloses₀, s, rfl, rfl⟩ := hjumped.of_head (by decide) hat
      obtain ⟨hword, -, rest, hquote, hbytes, rfl⟩ := hcommand
      have hb₀ : nul ∉ s := fun hmem => hb (List.mem_append_right g (List.mem_cons_of_mem _ hmem))
      -- the word
      have hwordNul := nul_notMem_of_beginsWith (words_lower _ (by simp)).2.1 hword
      obtain ⟨s₁, hs₁, hdrop⟩ := split_nuls (List.take_append_drop 7 (s ++ nuls)) hwordNul
      have hlower : ((s ++ nuls).take 7).map toLower = ascii "include" := by
        rw [beginsWith, decide_eq_true_eq] at hword
        exact hword
      generalize (s ++ nuls).take 7 = word at hs₁ hlower
      subst hs₁
      have hcloses₁ := (hcloses₀.plain_cons (by decide)).plain
        (isPlain_word (isPlain_words _ (by simp)) hlower)
      -- the name of the file
      rw [hdrop] at hquote
      obtain ⟨g', s₂, rfl, hs₂, hjumped₂⟩ := afterBlanks_of_closes (nul_notMem_right hb₀) hcloses₁
      obtain ⟨hg', hcloses₂, s₂, rfl, hs₃⟩ := hjumped₂.of_head (by decide) (hs₂.symm.trans hquote)
      have hfileQuote : quote ∉ file := fun hmem => (hbytes quote hmem).2 rfl
      have hfileNul : nul ∉ file ++ [quote] := by
        rw [List.mem_append, List.mem_singleton]
        exact fun hmem => hmem.elim (fun hmem => (hbytes nul hmem).1 rfl) (by decide)
      have hsplit : file ++ [quote] ++ rest = s₂ ++ nuls := by rw [← hs₃]; simp
      obtain ⟨s₄, rfl, rfl⟩ := split_nuls hsplit hfileNul
      have hcloses₄ : LexMode.code.Closes true d s₄ := by
        have hlex := @lex_string true d _ hfileQuote s₄
        simp only [List.append_assoc, List.cons_append, List.nil_append] at hcloses₂
        rwa [LexMode.Closes, hlex] at hcloses₂
      have hb₄ : nul ∉ s₄ := by
        have hinner := nul_notMem_right (nul_notMem_right hb₀)
        exact fun hmem => hinner (List.mem_cons_of_mem _ (List.mem_append_right _ hmem))
      obtain ⟨w, s₅, rfl, hs₅, hcloses₅, hbehind⟩ := afterSemicolon_of_closes hb₄ hcloses₄
      -- the included file and the items behind the command
      obtain ⟨hopen, hvalid⟩ := loadIncluded_eq_ok hload
      have hcontent := hfiles file List.mem_cons_self content hopen
      have hchilds' := ihchilds rfl (Balances.nul_notMem hvalid) hcontent (fun h0 => absurd rfl h0)
        fun f hf => hfiles f (List.mem_cons_of_mem _ (List.mem_append_left _ hf))
      have hnext' := ihnext hs₅ (nul_notMem_right hb₄) hcloses₅ hroot
        fun f hf => hfiles f (List.mem_cons_of_mem _ (List.mem_append_right _ hf))
      have hmap := hnext'.map (.included file childs next)
        (g ++ atSign :: (word ++ (g' ++ quote :: (file ++ quote :: w)))) fun inner hd hinner => by
          obtain ⟨tail, rest, htail, hrest, hwritten⟩ := (hbehind inner hd).written hinner
          have hdone := Written.included hg hlower hg' hfileQuote hload hchilds'.2 htail hwritten
          rw [← hrest] at hdone
          simpa using hdone
      simpa using hmap
  | @group root chain names s name inner childs u next t hname hchilds hnext ihchilds ihnext =>
      obtain ⟨g, s, rfl, hitem, hjumped⟩ := atItem_of_closes hb hcloses
      rw [hs, hitem] at hname
      obtain ⟨c, m, hcm, hc⟩ := hname.head
      obtain ⟨hg, hcloses₀, -⟩ := hjumped.of_head (nameSymbol_ne hc).1 hcm
      obtain ⟨head, s₁, heq, rfl, hhead, hb₁, hcloses₁⟩ :=
        hname.settingHead hg (nul_notMem_right hb) hcloses₀ (by decide) rfl
      rw [LexMode.Closes, lex_leftBrace] at hcloses₁
      obtain ⟨inner, semi, rest, rfl, rfl, hsemi, hinner, hrest⟩ := ihchilds rfl hb₁ hcloses₁
        (fun _ => rfl) fun f hf => hfiles f (List.mem_append_left _ hf)
      have hb₂ : nul ∉ rest := by
        have hmore := nul_notMem_right hb₁
        exact fun hmem => hmore (List.mem_cons_of_mem _ (List.mem_append_right semi hmem))
      obtain ⟨w, s₃, rfl, hs₃, hcloses₃, hbehind⟩ := afterSemicolon_of_closes hb₂ hrest
      have hnext' := ihnext hs₃ (nul_notMem_right hb₂) hcloses₃ hroot
        fun f hf => hfiles f (List.mem_append_right _ hf)
      have hvalue : groupValue (inner ++ rightBrace :: (semi ++ (w ++ s₃)) ++ nuls) = .group := by
        rw [groupValue, if_neg]
        cases inner with
        | nil => exact fun heq => absurd (Option.some.inj heq) (by decide)
        | cons e inner =>
            exact fun heq => hb₁ (List.mem_append_left _ (Option.some.inj heq ▸ List.mem_cons_self))
      have hmap := hnext'.map (.setting name .group childs next)
        (head ++ leftBrace :: (inner ++ rightBrace :: (semi ++ w))) fun inner' hd hinner' => by
          obtain ⟨tail, rest, htail, hrest, hwritten⟩ := (hbehind inner' hd).written hinner'
          have htail' : Tail (semi ++ tail) := by
            rcases hsemi with rfl | rfl
            · exact htail
            · exact .semicolon .nil htail
          have hdone := Written.group hhead hinner htail' hwritten
          rw [List.append_assoc semi, ← hrest] at hdone
          simpa using hdone
      rw [heq, hvalue]
      simpa using hmap
  | @scalar root chain names s name v value u next t hname hvalue hnext ihnext =>
      obtain ⟨g, s, rfl, hitem, hjumped⟩ := atItem_of_closes hb hcloses
      rw [hs, hitem] at hname
      obtain ⟨c, m, hcm, hc⟩ := hname.head
      obtain ⟨hg, hcloses₀, -⟩ := hjumped.of_head (nameSymbol_ne hc).1 hcm
      obtain ⟨e, m', rfl, he⟩ := hvalue.head
      obtain ⟨head, s₁, heq, rfl, hhead, hb₁, hcloses₁⟩ :=
        hname.settingHead hg (nul_notMem_right hb) hcloses₀ he rfl
      have hb₁' : nul ∉ e :: s₁ := by
        rw [List.mem_cons, not_or]
        exact ⟨Ne.symm he, hb₁⟩
      obtain ⟨text, s₂, hs₂, rfl, htext, hcloses₂⟩ :=
        ReadsScalar.valueText (b := e :: s₁) hb₁' hcloses₁ hvalue
      rw [hs₂] at hb₁' heq
      obtain ⟨w, s₃, rfl, hs₃, hcloses₃, hbehind⟩ :=
        afterSemicolon_of_closes (nul_notMem_right hb₁') hcloses₂
      have hnext' := ihnext hs₃ (nul_notMem_right (nul_notMem_right hb₁')) hcloses₃ hroot
        fun f hf => hfiles f (by simpa [ConfigDoc.files] using hf)
      have hmap := hnext'.map (.setting name value .nil next) (head ++ (text ++ w))
        fun inner hd hinner => by
          obtain ⟨tail, rest, htail, hrest, hwritten⟩ := (hbehind inner hd).written hinner
          have hdone := Written.scalar hhead htext htail hwritten
          rw [← hrest] at hdone
          simpa using hdone
      rw [heq]
      simpa using hmap

/-- A property of the texts that were read for a document. -/
def OfTexts (P : List UInt8 → Prop) (files : ConfigFiles) (content : List UInt8)
    (doc : ConfigDoc) : Prop :=
  P content ∧ ∀ file ∈ doc.files, ∀ text, files file = some text → P text

/-- What `config_read` accepts belongs to the grammar, together with the files that were
read, and the tree shows its document. -/
def AcceptsGrammar (files : ConfigFiles) (steps : Nat) (file content : List UInt8) : Prop :=
  ∀ settings buffer, configRead files steps file content = .ok (settings, buffer) →
    Written files true (settings.doc buffer) content

/-- The texts of an accepted configuration belong to the grammar only if they are
balanced, and they do if besides no comment in them has a text that begins with a
slash. -/
theorem written_of_balances {steps : Nat} {file content buffer : List UInt8}
    {settings : ConfigSettings}
    (h : configRead files steps file content = .ok (settings, buffer)) :
    (Written files true (settings.doc buffer) content →
      OfTexts (Balances false) files content (settings.doc buffer)) ∧
    (OfTexts (Balances true) files content (settings.doc buffer) →
      Written files true (settings.doc buffer) content) := by
  obtain ⟨hvalid, t, hreads⟩ := reads_of_configRead h
  refine ⟨fun hwritten => ⟨hwritten.balances, hwritten.balances_files⟩, fun hbalances => ?_⟩
  exact (hreads.written rfl (Balances.nul_notMem hvalid) hbalances.1 (fun h0 => absurd rfl h0)
    hbalances.2).2

/-- A group in which a file is included, with a comment behind each of them. -/
def groupWithInclude : List UInt8 := ascii "a = \x7b @include \"mime.conf\"; \x7d /* c */\n"

/-- The included file. -/
def includedFile : ConfigFiles := fun file =>
  if file = ascii "mime.conf" then some (ascii "b = 1; // c") else none

/-- Both texts are balanced, so they belong to the grammar. -/
theorem written_groupWithInclude :
    ∃ settings buffer,
      configRead includedFile 4 (ascii "server.conf") groupWithInclude = .ok (settings, buffer) ∧
        Written includedFile true (settings.doc buffer) groupWithInclude := by
  obtain ⟨settings, buffer, hread, hdoc⟩ : ∃ settings buffer,
      configRead includedFile 4 (ascii "server.conf") groupWithInclude = .ok (settings, buffer) ∧
        (settings.doc buffer).files = [ascii "mime.conf"] := ⟨_, _, rfl, by decide +kernel⟩
  refine ⟨settings, buffer, hread, (written_of_balances hread).2 ⟨.inl (by decide +kernel), ?_⟩⟩
  rw [hdoc]
  intro file hfile text htext
  obtain rfl := List.mem_singleton.1 hfile
  have hopen : includedFile (ascii "mime.conf") = some (ascii "b = 1; // c") := by
    decide +kernel
  obtain rfl := Option.some.inj (hopen.symm.trans htext)
  exact .inr (by decide +kernel)

/-- A group that is left open at the end of the file is accepted. -/
theorem not_acceptsGrammar_openGroup :
    ¬AcceptsGrammar (fun _ => none) 2 (ascii "server.conf") (ascii "a = \x7b") := by
  intro h
  obtain ⟨settings, buffer, hread⟩ : ∃ settings buffer,
      configRead (fun _ => none) 2 (ascii "server.conf") (ascii "a = \x7b") =
        .ok (settings, buffer) := ⟨_, _, rfl⟩
  have hopen : ¬Balances false (ascii "a = \x7b") := by
    rintro (hlex | hlex)
    · exact absurd hlex (by decide +kernel)
    · exact absurd hlex (by decide +kernel)
  exact hopen (h settings buffer hread).balances

end OpenTube
