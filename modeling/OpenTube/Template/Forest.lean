import OpenTube.Template.Blocks

/-!
# The tree of the blocks that are found

The loop of `parse_blocks` refuses a block that overlaps one found before it, and the
commands of a block have no brace inside. So the blocks of a text for which
`parse_blocks` does not give up are those of a tree. Only a text of `2 ^ 32` bytes or
more can have blocks beside them, behind the length that fits a `uint`.
-/

namespace OpenTube

/-- The bytes between two places. -/
def between (s : List UInt8) (a b : Nat) : List UInt8 := (s.drop a).take (b - a)

theorem between_append {a b c : Nat} (s : List UInt8) (hab : a ≤ b) (hbc : b ≤ c) :
    between s a b ++ between s b c = between s a c := by
  have hlen : c - a = (b - a) + (c - b) := by omega
  have hplace : a + (b - a) = b := by omega
  rw [between, between, between, hlen, List.take_add, List.drop_drop, hplace]

theorem between_of_prefix {s pat : List UInt8} {a : Nat} (h : pat <+: s.drop a) :
    between s a (a + pat.length) = pat := by
  rw [between, Nat.add_sub_cancel_left, ← List.prefix_iff_eq_take.1 h]

theorem length_between {s : List UInt8} {a b : Nat} (hb : b ≤ s.length) :
    (between s a b).length = b - a := by
  rw [between, List.length_take, List.length_drop]
  omega

/-- The block has its commands in the text. -/
structure Placed.FitsIn (content : List UInt8) (x : Placed) : Prop where
  opening : x.tag.opening <+: content.drop x.start
  closing : x.tag.closing <+: content.drop x.bodyEnd
  bodyStart : x.bodyStart = x.start + x.tag.opening.length
  le : x.bodyStart ≤ x.bodyEnd

/-- The place behind a block. -/
def Placed.close (x : Placed) : Nat := x.bodyEnd + x.tag.closing.length

/-! ## Blocks that do not overlap -/

/-- A command ends in front of the next brace. -/
theorem IsCommand.length_le {cmd s : List UInt8} (h : IsCommand cmd) {p q : Nat}
    (hp : cmd <+: s.drop p) (hq : (s.drop q).head? = some leftBrace) (hlt : p < q) :
    p + cmd.length ≤ q := by
  by_contra hge
  obtain ⟨w, rfl, hw⟩ := h
  obtain ⟨z, hz⟩ := hp
  obtain ⟨k, rfl⟩ : ∃ k, q = p + (k + 1) := ⟨q - p - 1, by omega⟩
  have hk : k < w.length := by
    rw [List.length_cons] at hge
    omega
  rw [← List.drop_drop, ← hz, List.head?_drop, List.cons_append, List.getElem?_cons_succ,
    List.getElem?_append_left hk] at hq
  exact hw (List.mem_of_getElem? hq)

section Fits

variable {content : List UInt8} {x y : Placed}

theorem Placed.FitsIn.close_le (h : x.FitsIn content) : x.close ≤ content.length := by
  have hlen := h.closing.length_le
  have hpos := x.tag.length_closing_pos
  rw [List.length_drop] at hlen
  rw [close]
  omega

theorem Placed.FitsIn.head_bodyEnd (h : x.FitsIn content) :
    (content.drop x.bodyEnd).head? = some leftBrace := by
  obtain ⟨z, hz⟩ := h.closing
  rw [← hz]
  rfl

theorem Placed.FitsIn.head_start (h : x.FitsIn content) :
    (content.drop x.start).head? = some leftBrace := by
  obtain ⟨z, hz⟩ := h.opening
  rw [← hz]
  rfl

/-- A block inside another one ends in front of its second command. -/
theorem Placed.FitsIn.close_le_bodyEnd (hy : y.FitsIn content) (hx : x.FitsIn content)
    (hlt : y.bodyEnd < x.bodyEnd) : y.close ≤ x.bodyEnd :=
  y.tag.isCommand_closing.length_le hy.closing hx.head_bodyEnd hlt

/-- A block behind another one begins behind its second command. -/
theorem Placed.FitsIn.close_le_start (hx : x.FitsIn content) (hy : y.FitsIn content)
    (hlt : x.bodyEnd < y.bodyStart) : x.close ≤ y.start := by
  rcases Nat.lt_trichotomy y.start x.bodyEnd with hbefore | heq | hbehind
  · have hle := y.tag.isCommand_opening.length_le hy.opening hx.head_bodyEnd hbefore
    rw [← hy.bodyStart] at hle
    omega
  · exfalso
    have hopening := hy.opening
    rw [heq] at hopening
    exact not_cmdBlock_of_cmdEnd ((List.prefix_append _ _).trans hopening)
      ((List.prefix_append _ _).trans hx.closing)
  · exact x.tag.isCommand_closing.length_le hx.closing hy.head_start hbehind

end Fits

/-! ## The tree -/

/-- The block ends in front of a place. -/
def Placed.endsBefore (n : Nat) (x : Placed) : Bool := decide (x.bodyEnd < n)

/-- Of blocks that end before a place or begin behind it, those that do not end before it
come last. -/
theorem behind_of_mem_dropWhile {content : List UInt8} {xs : List Placed} {n : Nat}
    (hfits : ∀ x ∈ xs, x.FitsIn content) (hpair : xs.Pairwise Placed.Before)
    (hout : ∀ x ∈ xs, x.bodyEnd < n ∨ n < x.bodyStart) {y : Placed}
    (hy : y ∈ xs.dropWhile (Placed.endsBefore n)) : n < y.bodyStart := by
  have hsub : (xs.dropWhile (Placed.endsBefore n)).Sublist xs := List.dropWhile_sublist _
  cases hdrop : xs.dropWhile (Placed.endsBefore n) with
  | nil => simp [hdrop] at hy
  | cons z zs =>
      have hnot : ¬ z.bodyEnd < n := by
        have hhead := List.head?_dropWhile_not (Placed.endsBefore n) xs
        rw [hdrop] at hhead
        simpa [Placed.endsBefore] using hhead
      have hbehind : n < z.bodyStart :=
        (hout z (hsub.subset (hdrop ▸ List.mem_cons_self))).resolve_left hnot
      have hmem := hsub.subset hy
      rw [hdrop] at hy
      rcases List.mem_cons.1 hy with rfl | hy
      · exact hbehind
      · have hle := ((List.pairwise_cons.1 (hdrop ▸ hpair.sublist hsub)).1 y hy).1
        have hstart := (hfits y hmem).bodyStart
        omega

/-- Blocks that do not overlap are those of a tree. The blocks inside the first one come
first, and those behind it next. -/
theorem exists_body {content : List UInt8} {xs : List Placed} {a b : Nat} (hab : a ≤ b)
    (hb : b ≤ content.length) (hfits : ∀ x ∈ xs, x.FitsIn content)
    (hpair : xs.Pairwise Placed.Before) (hin : ∀ x ∈ xs, a ≤ x.start ∧ x.close ≤ b) :
    ∃ body : TplBody, body.print = between content a b ∧ body.placed a = xs := by
  induction hn : xs.length using Nat.strong_induction_on generalizing xs a b with
  | _ n ih =>
  subst hn
  cases xs with
  | nil => exact ⟨.last (between content a b), rfl, rfl⟩
  | cons x ys =>
      obtain ⟨hbefore, hpair⟩ := List.pairwise_cons.1 hpair
      obtain ⟨hfit, hfits⟩ := List.forall_mem_cons.1 hfits
      obtain ⟨⟨hax, hxb⟩, hin⟩ := List.forall_mem_cons.1 hin
      have hstart := hfit.bodyStart
      have hbody := hfit.le
      have hclose : x.close = x.bodyEnd + x.tag.closing.length := rfl
      have hinner : (ys.takeWhile (Placed.endsBefore x.bodyEnd)).Sublist ys :=
        List.takeWhile_sublist _
      have hrest : (ys.dropWhile (Placed.endsBefore x.bodyEnd)).Sublist ys :=
        List.dropWhile_sublist _
      obtain ⟨inner, hprint, hplaced⟩ : ∃ body : TplBody,
          body.print = between content x.bodyStart x.bodyEnd ∧
            body.placed x.bodyStart = ys.takeWhile (Placed.endsBefore x.bodyEnd) := by
        refine ih _ (Nat.lt_succ_of_le hinner.length_le) hbody (by omega)
          (fun y hy => hfits y (hinner.subset hy)) (hpair.sublist hinner) ?_ rfl
        intro y hy
        have htrue : y.endsBefore x.bodyEnd = true := List.mem_takeWhile_imp hy
        exact ⟨(hbefore y (hinner.subset hy)).1,
          (hfits y (hinner.subset hy)).close_le_bodyEnd hfit (of_decide_eq_true htrue)⟩
      obtain ⟨rest, hprint', hplaced'⟩ : ∃ body : TplBody,
          body.print = between content x.close b ∧
            body.placed x.close = ys.dropWhile (Placed.endsBefore x.bodyEnd) := by
        refine ih _ (Nat.lt_succ_of_le hrest.length_le) hxb hb
          (fun y hy => hfits y (hrest.subset hy)) (hpair.sublist hrest) ?_ rfl
        intro y hy
        refine ⟨?_, (hin y (hrest.subset hy)).2⟩
        exact hfit.close_le_start (hfits y (hrest.subset hy))
          (behind_of_mem_dropWhile hfits hpair (fun y hy => (hbefore y hy).2) hy)
      have htext : (between content a x.start).length = x.start - a := length_between (by omega)
      have hlenInner := congrArg List.length hprint
      rw [length_between (by omega)] at hlenInner
      refine ⟨.block (between content a x.start) x.tag inner rest, ?_, ?_⟩
      · have hopening := between_of_prefix hfit.opening
        have hclosing := between_of_prefix hfit.closing
        rw [← hstart] at hopening
        rw [TplBody.print, hprint, hprint', ← hopening, ← hclosing, ← hclose,
          between_append content (by omega) hxb, between_append content hbody (by omega),
          between_append content (by omega) (by omega), between_append content hax (by omega)]
      · have hplace : a + (between content a x.start).length = x.start := by omega
        have hend : x.bodyStart + inner.print.length = x.bodyEnd := by omega
        rw [TplBody.placed, hplace, ← hstart, hend, hplaced, ← hclose, hplaced',
          List.takeWhile_append_dropWhile]

/-! ## The blocks that are found -/

/-- What `pcre_exec` finds is the match that is documented. It may give up. -/
def FindsOnly (exec : PcreExec) (content : List UInt8) : Prop :=
  ∀ offset m, exec content offset = some m → Chosen content offset (some m)

/-- One space more in the name is one less behind it. -/
theorem command_space (word name : List UInt8) (k : Nat) :
    command word (name ++ [space]) k = command word name (k + 1) := by
  simp [command, List.replicate_succ]

/-- A match is a block in the text. The name is the longest one, so the spaces that both
commands have belong to it. -/
theorem exists_placed {content : List UInt8} {offset : Nat} {m : BlockMatch}
    (h : Chosen content offset (some m)) :
    ∃ x : Placed, offset ≤ x.start ∧ x.FitsIn content ∧ x.blockMatch = m := by
  obtain ⟨p, hp, ⟨name, k, body, l, hne, hvalid, hpre, rfl⟩, -, hbest⟩ := h
  have hpads : k = 0 ∨ l = 0 := by
    by_contra hboth
    obtain ⟨k, rfl⟩ : ∃ i, k = i + 1 := ⟨k - 1, by omega⟩
    obtain ⟨l, rfl⟩ : ∃ i, l = i + 1 := ⟨l - 1, by omega⟩
    have hvalid' : ∀ c ∈ name ++ [space], isValidTplVariableCharacter c = true := by
      intro c hc
      rcases List.mem_append.1 hc with hc | hc
      · exact hvalid c hc
      · obtain rfl := List.mem_singleton.1 hc
        decide +kernel
    have hlonger := (hbest _ ⟨name ++ [space], k, body, l, by simp, hvalid', by
      rw [command_space, command_space]
      exact hpre, rfl⟩).1
    simp only [List.length_append, List.length_singleton] at hlonger
    omega
  obtain ⟨z, hz⟩ := hpre
  rw [List.append_assoc, List.append_assoc] at hz
  refine ⟨⟨⟨name, k, l, hne, hvalid, hpads⟩, p, p + (command cmdBlock name k).length,
    p + (command cmdBlock name k).length + body.length⟩, hp, ⟨⟨_, hz⟩, ⟨z, ?_⟩, rfl,
    Nat.le_add_right _ _⟩, rfl⟩
  rw [← List.drop_drop, ← List.drop_drop, ← hz, List.drop_left, List.drop_left]
  rfl

theorem Placed.FitsIn.region_blockMatch {content : List UInt8} {x : Placed}
    (h : x.FitsIn content) : x.blockMatch.region content = x.region := by
  obtain ⟨z, hz⟩ := h.opening
  have hname : (content.drop (x.start + cmdBlock.length)).take x.tag.name.length =
      x.tag.name := by
    rw [← List.drop_drop, ← hz, BlockTag.opening, command, List.append_assoc, List.drop_left,
      List.append_assoc, List.take_left]
  simp only [BlockMatch.region, Placed.blockMatch, Placed.region, Nat.add_sub_cancel_left, hname]

/-- A block that is not refused ends inside the block before it or begins behind it, and
has another name. -/
theorem refuses_region {b : TplRegion} {y : Placed} (hle : y.bodyStart ≤ y.bodyEnd)
    (hstart : b.contentOffset ≤ y.bodyStart) (h : b.refuses y.region = false) :
    (y.bodyEnd < b.stop ∨ b.stop < y.bodyStart) ∧ b.blockChecksum ≠ adler32 y.tag.name := by
  have hstop : y.region.stop = y.bodyEnd := by
    simp only [Placed.region, TplRegion.stop]
    omega
  simp only [TplRegion.refuses, hstop, Bool.or_eq_false_iff, Bool.and_eq_false_iff,
    decide_eq_false_iff_not] at h
  refine ⟨?_, h.2⟩
  have hplace := h.1
  simp only [Placed.region] at hplace
  omega

/-- What the loop of `parse_blocks` adds to the vector: blocks in the text that do not
overlap and have different names, and none that is refused by what was there. -/
structure Collected (content : List UInt8) (offset : Nat) (vector : List TplRegion)
    (found : List Placed) : Prop where
  fits : ∀ x ∈ found, x.FitsIn content
  behind : ∀ x ∈ found, offset ≤ x.start
  before : found.Pairwise Placed.Before
  sums : (found.map fun x => adler32 x.tag.name).Nodup
  kept : ∀ b ∈ vector, ∀ x ∈ found, b.refuses x.region = false

theorem collected_of_findBlocks {exec : PcreExec} {content : List UInt8}
    (hexec : FindsOnly exec content) {n offset : Nat} {vector regions : List TplRegion}
    (h : findBlocks exec content n offset vector = some regions) :
    ∃ found, regions = vector ++ found.map Placed.region ∧
      Collected content offset vector found := by
  induction n generalizing offset vector with
  | zero => simp [findBlocks] at h
  | succ n ih =>
      rw [findBlocks] at h
      cases hm : exec content offset with
      | none =>
          simp only [hm] at h
          obtain rfl := Option.some.inj h
          exact ⟨[], by simp, by simp, by simp, List.Pairwise.nil, List.nodup_nil, by simp⟩
      | some m =>
          obtain ⟨x, hx, hfit, rfl⟩ := exists_placed (hexec offset m hm)
          simp only [hm, hfit.region_blockMatch] at h
          split at h
          · simp at h
          · rename_i hany
            obtain ⟨found, rfl, hfound⟩ := ih h
            have hstart := hfit.bodyStart
            have hnext : ∀ y ∈ found, x.bodyStart ≤ y.start := hfound.behind
            have hkept : ∀ y ∈ found, (y.bodyEnd < x.bodyEnd ∨ x.bodyEnd < y.bodyStart) ∧
                adler32 x.tag.name ≠ adler32 y.tag.name := by
              intro y hy
              have hfit' := hfound.fits y hy
              have hle := hnext y hy
              have hstop : x.region.stop = x.bodyEnd := Nat.add_sub_cancel' hfit.le
              rw [← hstop]
              refine refuses_region hfit'.le ?_ (hfound.kept x.region (by simp) y hy)
              change x.bodyStart ≤ y.bodyStart
              have hstart' := hfit'.bodyStart
              omega
            refine ⟨x :: found, by simp, List.forall_mem_cons.2 ⟨hfit, hfound.fits⟩,
              List.forall_mem_cons.2 ⟨hx, ?_⟩, List.pairwise_cons.2 ⟨?_, hfound.before⟩,
              List.nodup_cons.2 ⟨?_, hfound.sums⟩, ?_⟩
            · intro y hy
              have hle := hnext y hy
              omega
            · exact fun y hy => ⟨hnext y hy, (hkept y hy).1⟩
            · intro hmem
              obtain ⟨y, hy, heq⟩ := List.mem_map.1 hmem
              exact (hkept y hy).2 heq.symm
            · intro b hb
              refine List.forall_mem_cons.2
                ⟨?_, fun y hy => hfound.kept b (List.mem_append_left _ hb) y hy⟩
              have hnone := List.any_eq_false.1 (Bool.eq_false_iff.2 hany) b hb
              exact Bool.eq_false_iff.2 hnone

/-- The blocks that are found in a text are those of a tree, but for blocks behind the
length that fits a `uint`. -/
structure TreeOf (exec : PcreExec) (content : List UInt8) (body : TplBody)
    (others : List TplRegion) : Prop where
  print : body.print = content
  found : findBlocks exec content (content.length + 1) 0 [rootRegion content] =
    some (rootRegion content :: ((body.placed 0).map Placed.region ++ others))
  inside : ∀ x ∈ body.placed 0, x.bodyEnd < (rootRegion content).stop
  behind : ∀ r ∈ others, (rootRegion content).stop < r.contentOffset
  sums : body.sums.Nodup
  nonzero : 0 ∉ body.sums

theorem exists_tree {exec : PcreExec} {content : List UInt8} (hexec : FindsOnly exec content)
    {regions : List TplRegion}
    (h : findBlocks exec content (content.length + 1) 0 [rootRegion content] = some regions) :
    ∃ body others, TreeOf exec content body others := by
  obtain ⟨found, rfl, hfound⟩ := collected_of_findBlocks hexec h
  have hroot : ∀ x ∈ found, (x.bodyEnd < (rootRegion content).stop ∨
      (rootRegion content).stop < x.bodyStart) ∧ 0 ≠ adler32 x.tag.name := fun x hx =>
    refuses_region (hfound.fits x hx).le (Nat.zero_le _) (hfound.kept _ (by simp) x hx)
  have hinside : (found.takeWhile (Placed.endsBefore (rootRegion content).stop)).Sublist found :=
    List.takeWhile_sublist _
  obtain ⟨body, hprint, hplaced⟩ := exists_body (Nat.zero_le content.length) (le_refl _)
    (fun x hx => hfound.fits x (hinside.subset hx)) (hfound.before.sublist hinside)
    (fun x hx => ⟨Nat.zero_le _, (hfound.fits x (hinside.subset hx)).close_le⟩)
  have hsums : body.sums = (found.takeWhile (Placed.endsBefore (rootRegion content).stop)).map
      fun x => adler32 x.tag.name := by
    rw [← body.map_sum_placed 0, hplaced]
  refine ⟨body, (found.dropWhile (Placed.endsBefore (rootRegion content).stop)).map Placed.region,
    ?_, ?_, ?_, ?_, ?_, ?_⟩
  · rw [hprint, between, Nat.sub_zero, List.drop_zero, List.take_length]
  · rw [h, hplaced, ← List.map_append, List.takeWhile_append_dropWhile, List.singleton_append]
  · intro x hx
    rw [hplaced] at hx
    have htrue : x.endsBefore (rootRegion content).stop = true := List.mem_takeWhile_imp hx
    exact of_decide_eq_true htrue
  · intro r hr
    obtain ⟨x, hx, rfl⟩ := List.mem_map.1 hr
    exact behind_of_mem_dropWhile hfound.fits hfound.before (fun x hx => (hroot x hx).1) hx
  · rw [hsums]
    exact hfound.sums.sublist (hinside.map _)
  · rw [hsums]
    intro hmem
    obtain ⟨x, hx, heq⟩ := List.mem_map.1 hmem
    exact (hroot x (hinside.subset hx)).2 heq.symm

end OpenTube
