import OpenTube.Http.Serve

/-!
# Complete header blocks

A header block is complete when it ends with its first `CR LF CR LF`; before it
is parsed, the last carriage return is replaced by the byte `1`. On a block
marked in this way the parser can run past the end in one way only: the request
line has no space behind its URI. Every other scan stops in front of the mark.
-/

namespace OpenTube

open Scan

/-- A complete header block: its first `CR LF CR LF` is at its end. -/
def IsHeaderBlock (block : List UInt8) : Prop :=
  FirstAtEnd crlfcrlf block

/-- The end of a block after the last carriage return was replaced. -/
def mark : List UInt8 := [cr, lf, 1, lf]

/-- The block as `http_parse_headers` finds it. -/
def markEnd (block : List UInt8) : List UInt8 :=
  block.take (block.length - 4) ++ mark

/-- A request line that is not refused before its URI has a space behind it. -/
def UriEnds (block : List UInt8) : Prop :=
  ∀ (k : Method) (t : List UInt8), block = k.text ++ slash :: t → space ∈ t

theorem IsHeaderBlock.eq_append {block : List UInt8} (h : IsHeaderBlock block) :
    block = block.take (block.length - 4) ++ crlfcrlf := by
  obtain ⟨a, rfl⟩ := FirstAtEnd.suffix h
  simp [crlfcrlf]

theorem markEnd_length {block : List UInt8} (h : IsHeaderBlock block) :
    (markEnd block).length = block.length := by
  obtain ⟨a, rfl⟩ := FirstAtEnd.suffix h
  simp [markEnd, mark, crlfcrlf]

/-! ## The header lines -/

theorem scanKey_eq_overrun_iff (p : List UInt8) :
    scanKey p = .overrun ↔ ∀ c ∈ p, isSym c = true ∧ c ≠ colon := by
  induction p with
  | nil => simp [scanKey]
  | cons c p ih =>
      rw [scanKey]
      by_cases hc : c = colon
      · simp [hc]
      · by_cases hs : isSym c = true
        · cases hp : scanKey p <;> simp_all
        · simp [hc, hs]

/-- What is left of a marked block between two header lines. -/
def LinesEnd (p : List UInt8) : Prop :=
  p = [1, lf] ∨ mark <:+ p

theorem scanKey_ne_overrun {p : List UInt8} (h : cr ∈ p) : scanKey p ≠ .overrun := by
  intro ho
  have hcr := ((scanKey_eq_overrun_iff p).1 ho cr h).1
  revert hcr
  decide

/-- The value scanned to a line end leaves the end of the block behind it. -/
theorem linesEnd_of_append {value rest : List UInt8}
    (h : mark <:+ value ++ cr :: lf :: rest) : LinesEnd rest := by
  obtain ⟨w, hw⟩ := h
  rcases List.append_eq_append_iff.1 hw with ⟨a, rfl, ha⟩ | ⟨a, rfl, ha⟩
  · rcases a with _ | ⟨a₁, _ | ⟨a₂, _ | ⟨a₃, _ | ⟨a₄, a⟩⟩⟩⟩ <;> simp [mark, cr, lf] at ha
    exact .inl ha.symm
  · rcases a with _ | ⟨a₁, _ | ⟨a₂, a⟩⟩
    · simp only [mark, List.nil_append, List.cons.injEq] at ha
      exact .inl ha.2.2
    · simp [mark, cr, lf] at ha
    · simp only [List.cons_append, List.cons.injEq] at ha
      exact .inr ⟨a, ha.2.2.symm⟩

theorem parseLine_linesEnd {p rest : List UInt8} {l : Line} (h : mark <:+ p)
    (hl : parseLine p = .line l rest) : LinesEnd rest := by
  obtain ⟨k, rfl, -⟩ := parseLine_line hl
  have hmark : mark <:+
      (k ++ colon :: (List.replicate l.spaces space ++ l.value)) ++ cr :: lf :: rest := by
    simpa using h
  exact linesEnd_of_append hmark

/-- A line is parsed inside bytes that end with a line end, whatever `tail` the
line end is part of. -/
theorem parseLine_ne_overrun {p tail : List UInt8} (h : tail <:+ p) (hcrlf : crlf <:+: tail)
    (hcolon : colon ∉ tail) (hspace : space ∉ tail) : parseLine p ≠ .overrun := by
  unfold parseLine
  have hcr : cr ∈ tail := hcrlf.subset (by simp [crlf])
  cases hk : scanKey p with
  | overrun => exact absurd hk (scanKey_ne_overrun (h.subset hcr))
  | bad => simp
  | found key rest =>
      obtain ⟨k, t, rfl, rfl, -, -⟩ := scanKey_found hk
      have ht : tail <:+ t := suffix_of_suffix_append_cons h hcolon
      simp only [List.tail_cons]
      cases hsp : scanTo (fun c => c != space) t with
      | none =>
          have hcr := (scanTo_eq_none_iff _ _).1 hsp cr (ht.subset hcr)
          simp [cr, space] at hcr
      | some r =>
          obtain ⟨spaces, val⟩ := r
          obtain ⟨rfl, hspaces, -⟩ := (scanTo_eq_some_iff _ _ _ _).1 hsp
          have hval : tail <:+ val := by
            rcases List.eq_nil_or_concat spaces with rfl | ⟨s, c, rfl⟩
            · simpa using ht
            · have hc : c = space := by simpa using hspaces c (by simp)
              exact suffix_of_suffix_append_cons (a := s) (c := c) (by simpa using ht) (hc ▸ hspace)
          have hinfix : crlf <:+: val := hcrlf.trans hval.isInfix
          cases hv : scanToPat crlf val with
          | none => exact absurd hinfix ((scanToPat_eq_none_iff (by simp [crlf]) val).1 hv)
          | some r => simp [hv]

/-- The header lines of a marked block are parsed inside it. -/
theorem parseLines_ne_overrun :
    ∀ (n : Nat) (p : List UInt8), LinesEnd p → p.length < n → parseLines n p ≠ .overrun := by
  intro n
  induction n with
  | zero =>
      intro p _ hn
      omega
  | succ n ih =>
      intro p hp hn
      rcases hp with rfl | hp
      · simp [parseLines]
      · cases p with
        | nil => simp [mark] at hp
        | cons c p =>
            rw [parseLines]
            by_cases hc : c = 1
            · simp [hc]
            · simp only [hc, if_false]
              cases hl : parseLine (c :: p) with
              | overrun =>
                  exact absurd hl (parseLine_ne_overrun hp ⟨[], [1, lf], rfl⟩ (by decide)
                    (by decide))
              | bad => simp
              | line l rest =>
                  simp only [ne_eq, Lines.cons_eq_overrun_iff]
                  refine ih rest (parseLine_linesEnd hp hl) ?_
                  obtain ⟨k, hk, -⟩ := parseLine_line hl
                  have hlen := congrArg List.length hk
                  simp only [List.length_cons, List.length_append] at hlen hn
                  omega

theorem parseBlock_ne_overrun {method : Method} {uri version : List UInt8} {gap : UInt8}
    {p : List UInt8} (h : LinesEnd p ∨ p = [lf, 1, lf]) :
    parseBlock method uri version gap p ≠ .overrun := by
  unfold parseBlock
  rcases h with h | rfl
  · have hne := parseLines_ne_overrun (p.length + 1) p h (by omega)
    cases hs : parseLines (p.length + 1) p with
    | overrun => exact absurd hs hne
    | bad ls => simp
    | done ls rest => simp
  · have hbad : parseLines 4 [lf, 1, lf] = .bad [] := by decide
    simp [hbad]

/-! ## The request line -/

/-- Behind the version of a marked block the header lines begin, or the mark was
met at an odd place and the next byte is refused. -/
theorem version_end {v version tail : List UInt8} (h : mark <:+ v)
    (hv : scanTo (fun c => c == cr) v = some (version, tail)) :
    ∃ gap p, tail = cr :: gap :: p ∧ (LinesEnd p ∨ p = [lf, 1, lf]) := by
  obtain ⟨rfl, hver, c, t, rfl, hc⟩ := (scanTo_eq_some_iff _ _ _ _).1 hv
  obtain rfl : c = cr := by simpa using hc
  have hver : cr ∉ version := fun hmem => by simpa using hver cr hmem
  obtain ⟨w, hw⟩ := h
  rcases List.append_eq_append_iff.1 hw with ⟨a, rfl, ha⟩ | ⟨a, rfl, ha⟩
  · cases a with
    | nil =>
        simp only [mark, List.nil_append, List.cons.injEq, true_and] at ha
        exact ⟨lf, [1, lf], by rw [ha], .inl (.inl rfl)⟩
    | cons x a =>
        simp only [mark, List.cons_append, List.cons.injEq] at ha
        exact absurd (by simp [← ha.1]) hver
  · rcases a with _ | ⟨x, _ | ⟨gap, a⟩⟩
    · simp only [mark, List.nil_append, List.cons.injEq, true_and] at ha
      exact ⟨lf, [1, lf], by rw [ha], .inl (.inl rfl)⟩
    · simp only [mark, List.cons_append, List.nil_append, List.cons.injEq] at ha
      exact ⟨cr, [lf, 1, lf], by rw [ha.2], .inr rfl⟩
    · simp only [List.cons_append, List.cons.injEq] at ha
      exact ⟨gap, a ++ mark, by rw [ha.2], .inl (.inr ⟨a, rfl⟩)⟩

theorem parseRequestLine_eq_overrun_iff {method : Method} {p : List UInt8} (h : mark <:+ p) :
    parseRequestLine method p = .overrun ↔ ∃ t, p = slash :: t ∧ space ∉ t := by
  cases p with
  | nil => simp [mark] at h
  | cons c p =>
      rw [parseRequestLine]
      by_cases hc : c = slash
      · subst hc
        simp only [ne_eq, not_true_eq_false, if_false, List.cons.injEq, true_and,
          exists_eq_left']
        cases hu : scanTo (fun c => c == space) (slash :: p) with
        | none =>
            have hall := (scanTo_eq_none_iff _ _).1 hu
            simp only [true_iff]
            exact fun hmem => by simpa using hall space (by simp [hmem])
        | some r =>
            obtain ⟨uri, rest⟩ := r
            obtain ⟨hp, -, sp, t, rfl, hsp⟩ := (scanTo_eq_some_iff _ _ _ _).1 hu
            obtain rfl : sp = space := by simpa using hsp
            have hmem : space ∈ p := by
              have : space ∈ slash :: p := by rw [hp]; simp
              simpa [slash, space] using this
            simp only [hmem, not_true_eq_false, iff_false, List.tail_cons]
            have ht : mark <:+ t := suffix_of_suffix_append_cons (hp ▸ h) (by decide)
            have hlf : lf ∈ t := ht.subset (by simp [mark])
            cases hm : matchAt (ascii "HTTP/") t with
            | none => exact absurd hm (matchAt_ne_none hlf (by decide))
            | some o =>
                cases o with
                | none => simp
                | some v =>
                    obtain rfl := (matchAt_eq_some_some_iff _ _ _).1 hm
                    have hv : mark <:+ v := by
                      refine suffix_of_suffix_append_cons (a := ascii "HTTP") (c := slash) ?_
                        (by decide)
                      simpa [ascii] using ht
                    cases hs : scanTo (fun c => c == cr) v with
                    | none =>
                        have := (scanTo_eq_none_iff _ _).1 hs cr (hv.subset (by simp [mark]))
                        simp at this
                    | some r =>
                        obtain ⟨version, tail⟩ := r
                        obtain ⟨gap, p', rfl, hp'⟩ := version_end hv hs
                        simpa [hs] using parseBlock_ne_overrun hp'
      · simp [hc]

theorem parseMethod_text (k : Method) (p : List UInt8) :
    parseMethod (k.text ++ p) [.get, .post, .head] = some (some (k, p)) := by
  cases k <;> rfl

/-- A byte that is in no method ends the search for one. -/
theorem parseMethod_ne_none {m : List UInt8} {c : UInt8} (hm : c ∈ m) :
    ∀ ks : List Method, (∀ k ∈ ks, c ∉ k.text) → parseMethod m ks ≠ none
  | [], _ => by simp [parseMethod]
  | k :: ks, h => by
      have hk := matchAt_ne_none hm (h k (by simp))
      have ih := parseMethod_ne_none hm ks fun k' hk' => h k' (by simp [hk'])
      rw [parseMethod]
      split
      · rename_i hnone
        exact absurd hnone hk
      · simp
      · exact ih

/-- What follows the method of a marked block ends with the mark. -/
theorem mark_suffix_of_method {k : Method} {p : List UInt8} (h : mark <:+ k.text ++ p) :
    mark <:+ p := by
  obtain ⟨t, ht⟩ : ∃ t, k.text = t ++ [space] := by
    cases k with
    | get => exact ⟨ascii "GET", rfl⟩
    | post => exact ⟨ascii "POST", rfl⟩
    | head => exact ⟨ascii "HEAD", rfl⟩
  rw [ht, List.append_assoc, List.singleton_append] at h
  exact suffix_of_suffix_append_cons h (by decide)

/-- A block that begins with a method and a slash, before and after it is
marked. -/
theorem append_mark_eq_iff (w : List UInt8) (k : Method) :
    (∃ t, w ++ mark = k.text ++ slash :: t ∧ space ∉ t) ↔
      ∃ t, w ++ crlfcrlf = k.text ++ slash :: t ∧ space ∉ t := by
  constructor
  · rintro ⟨t, ht, hspace⟩
    obtain ⟨u, rfl⟩ : mark <:+ t :=
      suffix_of_suffix_append_cons ⟨w, ht⟩ (by decide)
    have hw : w ++ mark = (k.text ++ slash :: u) ++ mark := by simpa using ht
    obtain rfl := List.append_cancel_right hw
    refine ⟨u ++ crlfcrlf, by simp, ?_⟩
    simpa [mark, crlfcrlf, cr, lf, space] using hspace
  · rintro ⟨t, ht, hspace⟩
    obtain ⟨u, rfl⟩ : crlfcrlf <:+ t :=
      suffix_of_suffix_append_cons ⟨w, ht⟩ (by decide)
    have hw : w ++ crlfcrlf = (k.text ++ slash :: u) ++ crlfcrlf := by simpa using ht
    obtain rfl := List.append_cancel_right hw
    refine ⟨u ++ mark, by simp, ?_⟩
    simpa [mark, crlfcrlf, cr, lf, space] using hspace

/-- The parser runs past the end of bytes that end with the mark exactly when a
URI begins in them that has no space behind it. -/
theorem httpParseHeaders_mark_eq_overrun_iff {m : List UInt8} (hmark : mark <:+ m) :
    httpParseHeaders m = .overrun ↔ ∃ k : Method, ∃ t, m = k.text ++ slash :: t ∧ space ∉ t := by
  have hlf : lf ∈ m := hmark.subset (by simp [mark])
  have hnone : parseMethod m [.get, .post, .head] ≠ none :=
    parseMethod_ne_none hlf _ (by decide)
  constructor
  · intro hover
    unfold httpParseHeaders at hover
    split at hover
    · rename_i hn
      exact absurd hn hnone
    · simp at hover
    · rename_i k p hk
      have hp := parseMethod_some hk
      have hpmark : mark <:+ p := mark_suffix_of_method (hp ▸ hmark)
      obtain ⟨t, rfl, ht⟩ := (parseRequestLine_eq_overrun_iff hpmark).1 hover
      exact ⟨k, t, hp, ht⟩
  · rintro ⟨k, t, rfl, ht⟩
    have hpmark : mark <:+ slash :: t := mark_suffix_of_method hmark
    unfold httpParseHeaders
    rw [parseMethod_text]
    exact (parseRequestLine_eq_overrun_iff hpmark).2 ⟨t, rfl, ht⟩

/-- Marking the end of the bytes does not add or remove the space. -/
theorem httpParseHeaders_append_mark_eq_overrun_iff (w : List UInt8) :
    httpParseHeaders (w ++ mark) = .overrun ↔ ¬ UriEnds (w ++ crlfcrlf) := by
  rw [httpParseHeaders_mark_eq_overrun_iff ⟨w, rfl⟩]
  simp only [UriEnds, not_forall, exists_prop]
  constructor
  · rintro ⟨k, hk⟩
    exact ⟨k, (append_mark_eq_iff w k).1 hk⟩
  · rintro ⟨k, hk⟩
    exact ⟨k, (append_mark_eq_iff w k).2 hk⟩

/-- The parser runs past the end of a complete block exactly when the request
line has no space behind its URI. -/
theorem httpParseHeaders_markEnd_eq_overrun_iff {block : List UInt8} (h : IsHeaderBlock block) :
    httpParseHeaders (markEnd block) = .overrun ↔ ¬ UriEnds block := by
  have hiff := httpParseHeaders_append_mark_eq_overrun_iff (block.take (block.length - 4))
  rwa [← h.eq_append] at hiff

/-! ## Blocks that were not marked

If the mark is put somewhere behind the block instead, the parser meets the
carriage return of the block where it expects a header and refuses it. -/

/-- What a line is parsed to depends on the bytes of the line alone. -/
theorem parseLine_line_append {p rest : List UInt8} {l : Line} (h : parseLine p = .line l rest) :
    ∃ c front, p = c :: front ++ rest ∧ ∀ y, parseLine (c :: front ++ y) = .line l y := by
  obtain ⟨k, hp, -⟩ := parseLine_line h
  have hp' : p = (k ++ colon :: (List.replicate l.spaces space ++ l.value) ++ crlf) ++ rest := by
    simpa [crlf] using hp
  have hne : parseLine (k ++ colon :: (List.replicate l.spaces space ++ l.value) ++ crlf) ≠
      .overrun :=
    parseLine_ne_overrun (List.suffix_append _ _) (List.infix_refl _) (by decide) (by decide)
  obtain ⟨c, front, hfront⟩ : ∃ c front,
      k ++ colon :: (List.replicate l.spaces space ++ l.value) ++ crlf = c :: front := by
    cases k with
    | nil => exact ⟨_, _, rfl⟩
    | cons c k => exact ⟨_, _, rfl⟩
  rw [hfront] at hp' hne
  refine ⟨c, front, hp', fun y => ?_⟩
  have hrest := parseLine_append rest hne
  rw [← hp', h] at hrest
  have hl : parseLine (c :: front) = .line l [] := by
    cases hs : parseLine (c :: front) with
    | overrun => exact absurd hs hne
    | bad => simp [hs, OneLine.append] at hrest
    | line l' r' =>
        simp only [hs, OneLine.append, OneLine.line.injEq] at hrest
        obtain ⟨rfl, hr'⟩ := hrest
        obtain rfl : r' = [] := by simpa using hr'
        rfl
  rw [parseLine_append y hne, hl, OneLine.append, List.nil_append]

/-- A byte in the place of the mark that cannot be in a key is refused. -/
theorem parseLines_done_refused :
    ∀ (n : Nat) (p rest : List UInt8) (ls : List Line), parseLines n p = .done ls rest →
      ∃ front, p = front ++ rest ∧ ∀ (m : Nat) (c : UInt8) (y : List UInt8), n ≤ m → c ≠ 1 →
        c ≠ colon → isSym c = false → parseLines m (front ++ c :: y) = .bad ls := by
  intro n
  induction n with
  | zero =>
      intro p rest ls h
      simp [parseLines] at h
  | succ n ih =>
      intro p rest ls h
      cases p with
      | nil => simp [parseLines] at h
      | cons c₀ p =>
          rw [parseLines] at h
          by_cases hc₀ : c₀ = 1
          · simp only [hc₀, if_true, Lines.done.injEq] at h
            obtain ⟨rfl, rfl⟩ := h
            refine ⟨[], by simp [hc₀], fun m c y hm hc hcolon hsym => ?_⟩
            obtain ⟨m, rfl⟩ : ∃ m', m = m' + 1 := ⟨m - 1, by omega⟩
            have hbad : parseLine (c :: y) = .bad := by
              simp [parseLine, scanKey, hcolon, hsym]
            simp [parseLines, hc, hbad]
          · simp only [hc₀, if_false] at h
            cases hl : parseLine (c₀ :: p) with
            | overrun => simp [hl] at h
            | bad => simp [hl] at h
            | line l tail =>
                simp only [hl] at h
                cases hs : parseLines n tail with
                | overrun => simp [hs, Lines.cons] at h
                | bad ls => simp [hs, Lines.cons] at h
                | done ls' rest' =>
                    simp only [hs, Lines.cons, Lines.done.injEq] at h
                    obtain ⟨rfl, rfl⟩ := h
                    obtain ⟨front, rfl, hfront⟩ := ih tail rest' ls' hs
                    obtain ⟨c₁, first, hp, hfirst⟩ := parseLine_line_append hl
                    obtain ⟨rfl, rfl⟩ := List.cons_eq_cons.1 hp
                    refine ⟨c₀ :: first ++ front, by simp, fun m c y hm hc hcolon hsym => ?_⟩
                    obtain ⟨m, rfl⟩ : ∃ m', m = m' + 1 := ⟨m - 1, by omega⟩
                    have hline := hfirst (front ++ c :: y)
                    have hbad := hfront m c y (by omega) hc hcolon hsym
                    rw [List.append_assoc, List.cons_append, parseLines, if_neg hc₀,
                      ← List.cons_append, hline]
                    simp [hbad, Lines.cons]

/-- The request line is taken apart at the first space and the first carriage
return behind the version. -/
theorem parseRequestLine_parts {method : Method} {uri version p : List UInt8} {gap : UInt8}
    (hslash : uri.head? = some slash) (hspace : space ∉ uri) (hcr : cr ∉ version) :
    parseRequestLine method (uri ++ space :: (ascii "HTTP/" ++ (version ++ cr :: gap :: p))) =
      parseBlock method uri version gap p := by
  obtain ⟨t, rfl⟩ : ∃ t, uri = slash :: t := by
    cases uri with
    | nil => simp at hslash
    | cons c t =>
        obtain rfl : c = slash := by simpa using hslash
        exact ⟨t, rfl⟩
  have hscan : scanTo (fun c => c == space)
      ((slash :: t) ++ space :: (ascii "HTTP/" ++ (version ++ cr :: gap :: p))) =
        some (slash :: t, space :: (ascii "HTTP/" ++ (version ++ cr :: gap :: p))) :=
    scanTo_beq hspace _
  have hmatch : matchAt (ascii "HTTP/") (ascii "HTTP/" ++ (version ++ cr :: gap :: p)) =
      some (some (version ++ cr :: gap :: p)) := (matchAt_eq_some_some_iff _ _ _).2 rfl
  have hversion : scanTo (fun c => c == cr) (version ++ cr :: gap :: p) =
      some (version, cr :: gap :: p) := scanTo_beq hcr _
  rw [List.cons_append] at hscan ⊢
  rw [parseRequestLine]
  simp [hscan, hmatch, hversion]

/-- A block that is accepted with its mark is refused without it, whatever
follows. -/
theorem httpParseHeaders_unmarked {block : List UInt8} {q : ParsedRequest}
    (hblock : IsHeaderBlock block) (h : httpParseHeaders (markEnd block) = .ok q)
    (hrest : q.rest = [1, lf]) (y : List UInt8) :
    httpParseHeaders (block ++ y) = .error 400 q.lines := by
  obtain ⟨p, hm, hslash, hspace, hcr, hlines⟩ := httpParseHeaders_ok h
  obtain ⟨front, rfl, hfront⟩ := parseLines_done_refused _ _ _ _ hlines
  have hw : block = block.take (block.length - 4) ++ crlfcrlf := hblock.eq_append
  have hmark : markEnd block = block.take (block.length - 4) ++ mark := rfl
  generalize block.take (block.length - 4) = w at hw hmark
  have hsame : w ++ [cr, lf] = q.method.text ++ (q.uri ++ space :: (ascii "HTTP/" ++
      (q.version ++ cr :: q.gap :: front))) := by
    refine List.append_cancel_right (?_ : _ ++ [1, lf] = _ ++ [1, lf])
    rw [hmark, hrest] at hm
    simpa [mark] using hm
  have hbytes : block ++ y = q.method.text ++ (q.uri ++ space :: (ascii "HTTP/" ++
      (q.version ++ cr :: q.gap :: (front ++ cr :: lf :: y)))) := by
    have happ := congrArg (fun l => l ++ cr :: lf :: y) hsame
    rw [hw]
    simpa [crlfcrlf] using happ
  have hbad : parseLines ((front ++ cr :: lf :: y).length + 1) (front ++ cr :: lf :: y) =
      .bad q.lines := by
    refine hfront _ _ _ ?_ (by decide) (by decide) (by decide)
    simp only [hrest, List.length_append, List.length_cons, List.length_nil]
    omega
  rw [httpParseHeaders, hbytes, parseMethod_text]
  simp only
  rw [parseRequestLine_parts hslash hspace hcr, parseBlock, hbad]

/-! ## The terminator in the chunks -/

/-- A chunk that does not hold the terminator has none at index 4 or later. -/
theorem findTerminator_eq_none {chunk : List UInt8} (h : ¬ crlfcrlf <:+: chunk) :
    findTerminator chunk = none := by
  have htail : ¬ crlfcrlf <:+: chunk.tail :=
    fun hinf => h (hinf.trans (List.tail_suffix chunk).isInfix)
  simp [findTerminator, (scanToPat_eq_none_iff (by simp [crlfcrlf]) chunk.tail).2 htail]

/-- A chunk of less than five bytes is never searched. -/
theorem findTerminator_eq_none_of_length {chunk : List UInt8} (h : chunk.length < 5) :
    findTerminator chunk = none := by
  have htail : ¬ crlfcrlf <:+: chunk.tail := by
    intro hinf
    have hlen := hinf.length_le
    simp only [List.length_tail, crlfcrlf, List.length_cons, List.length_nil] at hlen
    omega
  simp [findTerminator, (scanToPat_eq_none_iff (by simp [crlfcrlf]) chunk.tail).2 htail]

/-- In the chunk that completes a block the terminator is found, provided one
more byte of the block stands in front of it; what follows the block does not
matter. -/
theorem findTerminator_of_isHeaderBlock {acc part extra : List UInt8}
    (h : IsHeaderBlock (acc ++ part)) (hlen : 5 ≤ part.length) :
    findTerminator (part ++ extra) = some (part.length - 1) := by
  obtain ⟨c, part, rfl⟩ : ∃ c p, part = c :: p := by
    cases part with
    | nil => simp at hlen
    | cons c p => exact ⟨c, p, rfl⟩
  have hpart : FirstAtEnd crlfcrlf part := by
    have hblock : FirstAtEnd crlfcrlf ((acc ++ [c]) ++ part) := by
      simpa [IsHeaderBlock] using h
    refine hblock.of_append ?_
    simp only [List.length_cons] at hlen
    simp only [crlfcrlf, List.length_cons, List.length_nil]
    omega
  obtain ⟨u, hu⟩ := hpart
  obtain ⟨rfl, -⟩ := (scanToPat_eq_some_iff _ _ _ _).1 hu
  rw [findTerminator, List.cons_append, List.tail_cons, scanToPat_append extra hu]
  simp [crlfcrlf]

end OpenTube
