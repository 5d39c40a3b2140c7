import OpenTube.Http.Handler

/-!
# Multipart forms

A form with files is sent as a sequence of parts, each behind a line with the
boundary and with its headers in front of its content. `encodeParts` writes a list
of parts in that format; `http_parse_post` reads the body back part by part, and a
part that is read contributes to `body.post` or to `body.files`.

The reader is not told the boundary. A content ends for it at the first line end
with two hyphens behind it, so a content that has such a place inside comes back
cut off there.
-/

namespace OpenTube

/-! ## Encodings -/

/-- A field of a form, or a file if there is a file name. -/
structure FormPart where
  name : List UInt8
  filename : Option (List UInt8)
  contentType : Option (List UInt8)
  content : List UInt8
deriving DecidableEq, Repr

/-- The `Content-Disposition` line of a part, without its name and its line end. -/
def FormPart.disposition (p : FormPart) : List UInt8 :=
  ascii "form-data;" ++ (ascii " name=\"" ++ (p.name ++ quote ::
    match p.filename with
    | none => []
    | some f => semicolon :: (ascii " filename=\"" ++ (f ++ [quote]))))

/-- The `Content-Type` line of a part. -/
def FormPart.typeLine (p : FormPart) : List UInt8 :=
  match p.contentType with
  | none => []
  | some t => ascii "Content-Type" ++ colon :: space :: (t ++ crlf)

/-- The headers of a part, with the empty line behind them. -/
def FormPart.headers (p : FormPart) : List UInt8 :=
  ascii "Content-Disposition" ++ colon :: space :: (p.disposition ++ (crlf ++ (p.typeLine ++ crlf)))

/-- One part, from the line with the boundary to the line end behind the content. -/
def FormPart.encode (boundary : List UInt8) (p : FormPart) : List UInt8 :=
  ascii "--" ++ (boundary ++ (crlf ++ (p.headers ++ (p.content ++ crlf))))

/-- A whole body. The closing line may have a line end of its own. -/
def encodeParts (boundary tail : List UInt8) (parts : List FormPart) : List UInt8 :=
  parts.flatMap (FormPart.encode boundary) ++ (ascii "--" ++ (boundary ++ (ascii "--" ++ tail)))

/-- What a part contributes to `body.post`. -/
def FormPart.field (p : FormPart) : Option Arg :=
  match p.filename with
  | none => some ⟨p.name, p.content⟩
  | some _ => none

/-- What a part contributes to `body.files`. -/
def FormPart.file (p : FormPart) : Option PostFile :=
  p.filename.map fun f =>
    ⟨p.content, p.name, f, p.contentType.getD (ascii "application/octet-stream")⟩

/-- A byte of a boundary or of a media type. -/
def isLineByte (c : UInt8) : Prop := c ≠ cr ∧ c ≠ lf ∧ c ≠ nul

/-- A byte of a name or of a file name. -/
def isParameterByte (c : UInt8) : Prop := isLineByte c ∧ c ≠ quote ∧ c ≠ ampersand

/-- A part that can be sent with the given boundary. -/
structure FormPart.WellFormed (boundary : List UInt8) (p : FormPart) : Prop where
  name_ne_nil : p.name ≠ []
  name_bytes : ∀ c ∈ p.name, isParameterByte c
  filename_ne_nil : ∀ f ∈ p.filename, f ≠ []
  filename_bytes : ∀ f ∈ p.filename, ∀ c ∈ f, isParameterByte c
  type_bytes : ∀ t ∈ p.contentType, ∀ c ∈ t, isLineByte c
  type_head : ∀ t ∈ p.contentType, t.head? ≠ some space
  content : ¬ crlf ++ ascii "--" ++ boundary <:+: p.content

/-- A form that can be sent with the given boundary and the given end of the
closing line. -/
structure WellFormedForm (boundary tail : List UInt8) (parts : List FormPart) : Prop where
  boundary_bytes : ∀ c ∈ boundary, isLineByte c
  tail_eq : tail = [] ∨ tail = crlf
  parts : ∀ p ∈ parts, p.WellFormed boundary

/-! ## The loops over the body -/

/-- A loop passes over bytes it does not stop at. -/
theorem scanBody_append {stop : UInt8 → List UInt8 → Bool} {write : UInt8 → UInt8}
    {s : List UInt8} (hs : ∀ c ∈ s, c ≠ nul ∧ ∀ rest, stop c rest = false)
    (done rest : List UInt8) :
    scanBody stop write done (s ++ rest) = scanBody stop write (done ++ s.map write) rest := by
  induction s generalizing done with
  | nil => simp
  | cons c s ih =>
      obtain ⟨⟨hnul, hstop⟩, hs⟩ := List.forall_mem_cons.1 hs
      rw [List.cons_append, scanBody, hstop, if_neg (by simp), if_neg hnul, ih hs,
        List.append_assoc,
        List.singleton_append, List.map_cons]

theorem toLineEnd_append {s : List UInt8} (hs : ∀ c ∈ s, isLineByte c) (done rest : List UInt8) :
    toLineEnd done (s ++ (crlf ++ rest)) = .found (done ++ s) (crlf ++ rest) := by
  rw [toLineEnd, scanBody_append, List.map_id, crlf, List.cons_append, scanBody, if_pos (by simp)]
  intro c hc
  exact ⟨(hs c hc).2.2, fun _ => by simp [(hs c hc).1]⟩

theorem toColon_append {s : List UInt8} (hs : ∀ c ∈ s, c ≠ nul ∧ c ≠ colon)
    (done rest : List UInt8) :
    toColon done (s ++ colon :: rest) = .found (done ++ s.map toLower) (colon :: rest) := by
  rw [toColon, scanBody_append, scanBody, if_pos (by simp)]
  intro c hc
  exact ⟨(hs c hc).1, fun _ => by simp [(hs c hc).2]⟩

theorem toQuote_append {s : List UInt8} (hs : ∀ c ∈ s, isParameterByte c)
    (done rest : List UInt8) :
    toQuote done (s ++ quote :: rest) = .found (done ++ s) (quote :: rest) := by
  rw [toQuote, scanBody_append, List.map_id, scanBody, if_pos (by simp)]
  intro c hc
  obtain ⟨hline, hquote, hamp⟩ := hs c hc
  exact ⟨hline.2.2, fun _ => by simp [hquote, hamp]⟩

/-- The place where the content of a part ends for the reader. -/
abbrev delimiter : List UInt8 := [cr, lf, hyphen, hyphen]

theorem toBoundary_cons (done : List UInt8) (c : UInt8) {rest : List UInt8} (h : 3 ≤ rest.length) :
    toBoundary done (c :: rest) =
      if delimiter <+: c :: rest then .found done (c :: rest)
      else toBoundary (done ++ [c]) rest := by
  match rest, h with
  | c₁ :: c₂ :: c₃ :: rest, _ =>
      rw [toBoundary]
      congr 1
      simp [eq_comm]

/-- A place before the end of `content` where the delimiter begins lies inside. -/
theorem delimiter_prefix_append {content rest : List UInt8} (hne : content ≠ [])
    (h : delimiter <+: content ++ (delimiter ++ rest)) : delimiter <+: content := by
  match content, hne, h with
  | [a], _, h => exact absurd (List.cons_prefix_cons.1 (List.cons_prefix_cons.1 h).2).1 (by decide)
  | [a, b], _, h =>
      have htail := (List.cons_prefix_cons.1 (List.cons_prefix_cons.1 h).2).2
      exact absurd (List.cons_prefix_cons.1 htail).1 (by decide)
  | [a, b, c], _, h =>
      have htail := (List.cons_prefix_cons.1 (List.cons_prefix_cons.1 h).2).2
      exact absurd (List.cons_prefix_cons.1 (List.cons_prefix_cons.1 htail).2).1 (by decide)
  | a :: b :: c :: d :: content, _, h => simpa using h

/-- The reader ends a content at the first delimiter: at its own end, or before it
if there is a delimiter inside. -/
theorem toBoundary_append (done content rest : List UInt8) :
    ∃ u r, toBoundary done (content ++ (delimiter ++ rest)) = .found (done ++ u) r ∧
      (¬ delimiter <:+: content → u = content ∧ r = delimiter ++ rest) ∧
      (delimiter <:+: content → u.length < content.length) := by
  induction content generalizing done with
  | nil =>
      refine ⟨[], delimiter ++ rest, ?_, fun _ => ⟨rfl, rfl⟩, fun h => absurd h (by simp)⟩
      simp [toBoundary]
  | cons c content ih =>
      rw [List.cons_append, toBoundary_cons done c (by simp; omega)]
      split_ifs with hprefix
      · have hhead : delimiter <+: c :: content := delimiter_prefix_append (by simp) hprefix
        exact ⟨[], _, by rw [List.append_nil], fun h => absurd hhead.isInfix h, fun _ => by simp⟩
      · have htail : delimiter <:+: c :: content → delimiter <:+: content := by
          intro h
          obtain h | h := List.infix_cons_iff.1 h
          · exact absurd (h.trans (List.prefix_append _ _)) hprefix
          · exact h
        obtain ⟨u, r, hfound, hclean, hcut⟩ := ih (done ++ [c])
        refine ⟨c :: u, r, by simpa using hfound, fun h => ?_, fun h => ?_⟩
        · obtain ⟨rfl, rfl⟩ := hclean fun h' => h (List.infix_cons h')
          exact ⟨rfl, rfl⟩
        · exact Nat.succ_lt_succ (hcut (htail h))

/-! ## The headers of a part -/

theorem readDisposition_append {s : List UInt8} (hs : ∀ c ∈ s, isLineByte c ∧ c ≠ space) (n : Nat)
    (done rest : List UInt8) (h : PartHeaders) :
    readDisposition (n + s.length) done (s ++ rest) h = readDisposition n (done ++ s) rest h := by
  induction s generalizing done with
  | nil => simp
  | cons c s ih =>
      obtain ⟨⟨hline, hspace⟩, hs⟩ := List.forall_mem_cons.1 hs
      have hname : ¬ ascii " name=" <+: c :: (s ++ rest) := fun h =>
        hspace (List.cons_prefix_cons.1 h).1.symm
      have hfilename : ¬ ascii " filename=" <+: c :: (s ++ rest) := fun h =>
        hspace (List.cons_prefix_cons.1 h).1.symm
      rw [List.length_cons, ← Nat.add_assoc, List.cons_append, readDisposition,
        if_neg (fun h => hline.1 h.1), if_neg hline.2.2, if_neg hname, if_neg hfilename, ih hs,
        List.append_assoc, List.singleton_append]

theorem readParameter_append {p s : List UInt8} (hs : ∀ c ∈ s, isParameterByte c)
    (done rest : List UInt8) :
    readParameter p.length done (p ++ quote :: (s ++ quote :: rest)) =
      (.found (done ++ (p ++ [quote]) ++ s ++ [nul]) rest, s) := by
  have hquote : (p ++ quote :: (s ++ quote :: rest))[p.length]? = some quote := by simp
  have htake : (p ++ quote :: (s ++ quote :: rest)).take (p.length + 1) = p ++ [quote] := by
    simp [List.take_append, List.take_of_length_le]
  have hdrop : (p ++ quote :: (s ++ quote :: rest)).drop (p.length + 1) = s ++ quote :: rest := by
    simp [List.drop_append]
  have hvalue : (done ++ (p ++ [quote]) ++ s).drop (done.length + (p.length + 1)) = s := by
    rw [List.drop_append_of_le_length (by simp), List.drop_eq_nil_of_le (by simp), List.nil_append]
  simp only [readParameter, if_pos hquote, htake, hdrop, toQuote_append hs, List.tail_cons, hvalue]

/-- A parameter with a space in front of it, as the loop comes to it. -/
theorem exists_parameter (p : List UInt8) {s : List UInt8} (hs : ∀ c ∈ s, isParameterByte c)
    (done rest : List UInt8) :
    ∃ t, t = p ++ quote :: (s ++ quote :: rest) ∧ space :: p <+: space :: t ∧
      readParameter (p.length + 1) done (space :: t) =
        (.found (done ++ (space :: p ++ [quote]) ++ s ++ [nul]) rest, s) := by
  refine ⟨_, rfl, ?_, ?_⟩
  · rw [List.prefix_cons_inj]
    exact List.prefix_append _ _
  · exact readParameter_append (p := space :: p) hs done rest

theorem readDisposition_name {s : List UInt8} (hs : ∀ c ∈ s, isParameterByte c) (n : Nat)
    (done rest : List UInt8) (h : PartHeaders) :
    ∃ done', readDisposition (n + 1) done (ascii " name=\"" ++ (s ++ quote :: rest)) h =
      readDisposition n done' rest { h with name := some s } := by
  obtain ⟨t, ht, hprefix, hread⟩ := exists_parameter (ascii "name=") hs done rest
  refine ⟨done ++ (ascii " name=" ++ [quote]) ++ s ++ [nul], ?_⟩
  have htext : ascii " name=\"" ++ (s ++ quote :: rest) = space :: t := by
    rw [ht]
    rfl
  have hlen : (ascii "name=").length + 1 = 6 := by decide
  have hfirst : ascii " name=" <+: space :: t := hprefix
  rw [hlen] at hread
  rw [htext, readDisposition, if_neg (fun h => absurd h.1 (by decide)), if_neg (by decide),
    if_pos hfirst]
  simp only [hread]
  rfl

theorem readDisposition_filename {s : List UInt8} (hs : ∀ c ∈ s, isParameterByte c) (n : Nat)
    (done rest : List UInt8) (h : PartHeaders) :
    ∃ done', readDisposition (n + 1) done (ascii " filename=\"" ++ (s ++ quote :: rest)) h =
      readDisposition n done' rest { h with filename := some s } := by
  obtain ⟨t, ht, hprefix, hread⟩ := exists_parameter (ascii "filename=") hs done rest
  refine ⟨done ++ (ascii " filename=" ++ [quote]) ++ s ++ [nul], ?_⟩
  have htext : ascii " filename=\"" ++ (s ++ quote :: rest) = space :: t := by
    rw [ht]
    rfl
  have hlen : (ascii "filename=").length + 1 = 10 := by decide
  have hfirst : ascii " filename=" <+: space :: t := hprefix
  have hname : ¬ ascii " name=" <+: space :: t := by
    rw [ht]
    intro h
    exact absurd (List.cons_prefix_cons.1 (List.cons_prefix_cons.1 h).2).1 (by decide)
  rw [hlen] at hread
  rw [htext, readDisposition, if_neg (fun h => absurd h.1 (by decide)), if_neg (by decide),
    if_neg hname, if_pos hfirst]
  simp only [hread]
  rfl

/-- The loop over a `Content-Disposition` header finds the parameters. -/
theorem readDisposition_disposition {p : FormPart} (hname : ∀ c ∈ p.name, isParameterByte c)
    (hfilename : ∀ f ∈ p.filename, ∀ c ∈ f, isParameterByte c) {n : Nat} (hn : 14 ≤ n)
    (done rest : List UInt8) (t : Option (List UInt8)) :
    ∃ done', readDisposition n done (p.disposition ++ (crlf ++ rest)) ⟨none, none, t⟩ =
      (.found done' (crlf ++ rest), ⟨some p.name, p.filename, t⟩) := by
  have hend : ∀ k done h, readDisposition (k + 1) done (crlf ++ rest) h =
      (.found done (crlf ++ rest), h) := by
    intro k done h
    rw [crlf, List.cons_append, readDisposition, if_pos ⟨rfl, rfl⟩]
  obtain ⟨k, rfl⟩ : ∃ k, n = k + 1 + 1 + 1 + 1 + (ascii "form-data;").length :=
    ⟨n - 14, by simp only [show (ascii "form-data;").length = 10 from by decide]; omega⟩
  have hform : ∀ c ∈ ascii "form-data;", isLineByte c ∧ c ≠ space := by
    simp only [isLineByte]
    decide +kernel
  unfold FormPart.disposition
  rw [List.append_assoc, List.append_assoc, List.append_assoc, List.cons_append,
    readDisposition_append hform]
  obtain ⟨done₁, h₁⟩ := readDisposition_name hname (k + 1 + 1 + 1) (done ++ ascii "form-data;")
    ((match p.filename with
      | none => []
      | some f => semicolon :: (ascii " filename=\"" ++ (f ++ [quote]))) ++ (crlf ++ rest))
    ⟨none, none, t⟩
  rw [h₁]
  cases hf : p.filename with
  | none => exact ⟨done₁, hend _ _ _⟩
  | some f =>
      have hsemi : ∀ c ∈ [semicolon], isLineByte c ∧ c ≠ space := by
        simp only [isLineByte]
        decide +kernel
      obtain ⟨done₂, h₂⟩ := readDisposition_filename (hfilename f hf) (k + 1) (done₁ ++ [semicolon])
        (crlf ++ rest) ⟨some p.name, none, t⟩
      refine ⟨done₂, ?_⟩
      have htext : semicolon :: (ascii " filename=\"" ++ (f ++ [quote])) ++ (crlf ++ rest) =
          [semicolon] ++ (ascii " filename=\"" ++ (f ++ quote :: (crlf ++ rest))) := by simp
      simp only [htext]
      rw [show k + 1 + 1 + 1 = k + 1 + 1 + [semicolon].length from rfl,
        readDisposition_append hsemi, h₂, hend]

/-- One line of the headers of a part. -/
theorem readPartHeaders_line {key v rest : List UInt8} {h h' : PartHeaders}
    (hkey : ∀ c ∈ key, c ≠ nul ∧ c ≠ colon) (hcr : key.head? ≠ some cr) (hne : key ≠ [])
    (hv : (v ++ (crlf ++ rest)).head? ≠ some space)
    (hline : ∀ done, ∃ done' rest', readPartHeader (key.map toLower) done (v ++ (crlf ++ rest)) h =
      (.found done' rest', h') ∧ rest'.drop 2 = rest) (n : Nat) (done : List UInt8) :
    ∃ done', readPartHeaders (n + 1) done (key ++ colon :: space :: (v ++ (crlf ++ rest))) h =
      readPartHeaders n done' rest h' := by
  obtain ⟨done', rest', hread, hrest⟩ := hline (done ++ key.map toLower ++ nul :: [space])
  refine ⟨done' ++ rest'.take 2, ?_⟩
  have hfirst : ¬ (key ++ colon :: space :: (v ++ (crlf ++ rest))).take 2 = [cr, lf] := by
    cases key with
    | nil => exact absurd rfl hne
    | cons c key =>
        intro htake
        refine hcr ?_
        rw [List.cons_append, List.take_succ_cons, List.cons_eq_cons] at htake
        rw [htake.1]
        rfl
  have hspaces : ((space :: (v ++ (crlf ++ rest))).takeWhile fun c => decide (c = space)) =
      [space] := by
    cases hw : v ++ (crlf ++ rest) with
    | nil => simp
    | cons c w =>
        have hc : c ≠ space := by
          rintro rfl
          exact hv (by rw [hw]; rfl)
        simp [hc]
  have hdrop : (done ++ key.map toLower).drop done.length = key.map toLower := by simp
  rw [readPartHeaders, if_neg hfirst, toColon_append hkey]
  simp only [List.tail_cons, hspaces, List.length_singleton, List.drop_succ_cons, List.drop_zero,
    hdrop, hread, hrest]

/-- The headers end at the empty line. -/
theorem readPartHeaders_end (n : Nat) (done rest : List UInt8) (h : PartHeaders) :
    readPartHeaders (n + 1) done (crlf ++ rest) h = (.found done (crlf ++ rest), h) := by
  rw [readPartHeaders, if_pos (by simp [crlf])]

theorem readPartHeaders_typeLine {boundary : List UInt8} {p : FormPart}
    (hp : p.WellFormed boundary) (n : Nat) (done rest : List UInt8) :
    ∃ done', readPartHeaders (n + 1 + 1) done (p.typeLine ++ (crlf ++ rest))
        ⟨some p.name, p.filename, none⟩ =
      (.found done' (crlf ++ rest), ⟨some p.name, p.filename, p.contentType⟩) := by
  cases ht : p.contentType with
  | none =>
      refine ⟨done, ?_⟩
      simp only [FormPart.typeLine, ht, List.nil_append]
      exact readPartHeaders_end (n + 1) done rest _
  | some t =>
      have hread : ∀ done, ∃ done' rest', readPartHeader ((ascii "Content-Type").map toLower) done
          (t ++ (crlf ++ (crlf ++ rest))) ⟨some p.name, p.filename, none⟩ =
          (.found done' rest', ⟨some p.name, p.filename, some t⟩) ∧
          rest'.drop 2 = crlf ++ rest := by
        intro done
        refine ⟨done ++ t, nul :: lf :: (crlf ++ rest), ?_, rfl⟩
        rw [readPartHeader, if_neg (by decide), if_pos (by decide),
          toLineEnd_append (hp.type_bytes t ht)]
        simp [crlf]
      have hhead : (t ++ (crlf ++ (crlf ++ rest))).head? ≠ some space := by
        have htype := hp.type_head t ht
        cases t with
        | nil => exact fun h => absurd (Option.some.inj h) (by decide)
        | cons c t => simpa using htype
      obtain ⟨done', h⟩ := readPartHeaders_line (by decide +kernel) (by decide)
        (by decide) hhead hread (n + 1) done
      refine ⟨done', ?_⟩
      have htext : p.typeLine ++ (crlf ++ rest) = ascii "Content-Type" ++
          colon :: space :: (t ++ (crlf ++ (crlf ++ rest))) := by
        simp [FormPart.typeLine, ht]
      rw [htext, h, readPartHeaders_end]

theorem disposition_length_le (p : FormPart) : 14 ≤ p.disposition.length := by
  have hform : (ascii "form-data;").length = 10 := by decide
  have hname : (ascii " name=\"").length = 7 := by decide
  simp only [FormPart.disposition, List.length_append, hform, hname]
  omega

/-- The headers of a part are read up to the empty line. -/
theorem readPartHeaders_headers {boundary : List UInt8} {p : FormPart} (hp : p.WellFormed boundary)
    {n : Nat} (hn : 3 ≤ n) (done rest : List UInt8) :
    ∃ done', readPartHeaders n done (p.headers ++ rest) ⟨none, none, none⟩ =
      (.found done' (crlf ++ rest), ⟨some p.name, p.filename, p.contentType⟩) := by
  obtain ⟨k, rfl⟩ : ∃ k, n = k + 1 + 1 + 1 := ⟨n - 3, by omega⟩
  have hdisposition : ∀ done, ∃ done' rest', readPartHeader
      ((ascii "Content-Disposition").map toLower) done
      (p.disposition ++ (crlf ++ (p.typeLine ++ (crlf ++ rest)))) ⟨none, none, none⟩ =
      (.found done' rest', ⟨some p.name, p.filename, none⟩) ∧
      rest'.drop 2 = p.typeLine ++ (crlf ++ rest) := by
    intro done
    have hlen : 14 ≤ (p.disposition ++ (crlf ++ (p.typeLine ++ (crlf ++ rest)))).length + 1 := by
      have := disposition_length_le p
      rw [List.length_append]
      omega
    obtain ⟨done', h⟩ := readDisposition_disposition hp.name_bytes hp.filename_bytes hlen done
      (p.typeLine ++ (crlf ++ rest)) none
    refine ⟨done', crlf ++ (p.typeLine ++ (crlf ++ rest)), ?_, by simp [crlf]⟩
    rw [readPartHeader, if_pos (by decide), h]
  have hhead : (p.disposition ++ (crlf ++ (p.typeLine ++ (crlf ++ rest)))).head? ≠ some space := by
    unfold FormPart.disposition
    exact fun h => absurd (Option.some.inj h) (by decide)
  obtain ⟨done₁, h₁⟩ := readPartHeaders_line (by decide +kernel) (by decide)
    (by decide) hhead hdisposition (k + 1 + 1) done
  obtain ⟨done₂, h₂⟩ := readPartHeaders_typeLine hp k done₁ rest
  refine ⟨done₂, ?_⟩
  have htext : p.headers ++ rest = ascii "Content-Disposition" ++ colon :: space ::
      (p.disposition ++ (crlf ++ (p.typeLine ++ (crlf ++ rest)))) := by
    simp [FormPart.headers]
  rw [htext, h₁, h₂]

/-! ## The parts -/

theorem lineBytes_boundaryLine {boundary : List UInt8} (hb : ∀ c ∈ boundary, isLineByte c) :
    ∀ c ∈ ascii "--" ++ boundary, isLineByte c := by
  intro c hc
  obtain hc | hc := List.mem_append.1 hc
  · have hyphens : ∀ c ∈ ascii "--", isLineByte c := by
      simp only [isLineByte]
      decide +kernel
    exact hyphens c hc
  · exact hb c hc

/-- One round of the loop reads one part, with its content up to the first
delimiter. -/
theorem readParts_part {boundary : List UInt8} (hb : ∀ c ∈ boundary, isLineByte c) {p : FormPart}
    (hp : p.WellFormed boundary) (n : Nat) (done rest : List UInt8) (post : List Arg)
    (files : List PostFile) :
    ∃ u done' rest', readParts (n + 1) done (p.encode boundary ++ (ascii "--" ++ rest)) post files =
        readParts n done' rest' (post ++ { p with content := u }.field.toList)
          (files ++ { p with content := u }.file.toList) ∧
      (¬ delimiter <:+: p.content → u = p.content ∧ rest' = ascii "--" ++ rest) ∧
      (delimiter <:+: p.content → u.length < p.content.length) := by
  have htext : p.encode boundary ++ (ascii "--" ++ rest) = (ascii "--" ++ boundary) ++
      (crlf ++ (p.headers ++ (p.content ++ (delimiter ++ rest)))) := by
    simp [FormPart.encode, crlf, show ascii "--" = [hyphen, hyphen] from by decide]
  have hdrop : ∀ t, (crlf ++ t).drop 2 = t := fun t => by simp [crlf]
  have hopen : ¬ (p.headers ++ (p.content ++ (delimiter ++ rest)) = [] ∨
      (p.headers ++ (p.content ++ (delimiter ++ rest))).head? = some nul) := by
    unfold FormPart.headers
    rintro (h | h)
    · exact absurd h (by simp)
    · exact absurd (Option.some.inj h) (by decide)
  obtain ⟨done₁, hheaders⟩ := readPartHeaders_headers hp
    (n := (crlf ++ (p.headers ++ (p.content ++ (delimiter ++ rest)))).length + 1)
    (by simp [crlf]) (done ++ (ascii "--" ++ boundary) ++ crlf)
    (p.content ++ (delimiter ++ rest))
  obtain ⟨u, r, hfound, hclean, hcut⟩ :=
    toBoundary_append (done₁ ++ crlf) p.content rest
  refine ⟨u, done₁ ++ crlf ++ u ++ nul :: (r.take 2).tail, r.drop 2, ?_, fun h => ?_, hcut⟩
  · rw [htext, readParts, toLineEnd_append (lineBytes_boundaryLine hb)]
    have htake : ∀ t, (crlf ++ t).take 2 = crlf := fun t => by simp [crlf]
    have hdata : (done₁ ++ crlf ++ u).drop (done₁ ++ crlf).length = u := by simp
    simp only [hdrop, if_neg hopen, htake, hheaders, hfound, hdata]
    cases p.filename with
    | none => simp [FormPart.field, FormPart.file]
    | some f => simp [FormPart.field, FormPart.file]
  · obtain ⟨rfl, rfl⟩ := hclean h
    exact ⟨rfl, rfl⟩

/-- The loop ends at the closing line. -/
theorem readParts_closing {boundary tail : List UInt8} (hb : ∀ c ∈ boundary, isLineByte c)
    (htail : tail = [] ∨ tail = crlf) (n : Nat) (done : List UInt8) (post : List Arg)
    (files : List PostFile) :
    ∃ text, readParts (n + 1) done (ascii "--" ++ (boundary ++ (ascii "--" ++ tail))) post files =
      ⟨post, files, text⟩ := by
  have hline : ∀ c ∈ ascii "--" ++ boundary ++ ascii "--", isLineByte c := by
    intro c hc
    obtain hc | hc := List.mem_append.1 hc
    · exact lineBytes_boundaryLine hb c hc
    · exact lineBytes_boundaryLine hb c (List.mem_append_left _ hc)
  have htext : ascii "--" ++ (boundary ++ (ascii "--" ++ tail)) =
      (ascii "--" ++ boundary ++ ascii "--") ++ tail := by simp
  rw [htext, readParts]
  obtain rfl | rfl := htail
  · refine ⟨done ++ (ascii "--" ++ boundary ++ ascii "--"), ?_⟩
    rw [toLineEnd, scanBody_append, List.map_id, scanBody]
    intro c hc
    exact ⟨(hline c hc).2.2, fun _ => by simp [(hline c hc).1]⟩
  · refine ⟨done ++ (ascii "--" ++ boundary ++ ascii "--") ++ crlf, ?_⟩
    have hend := toLineEnd_append hline done []
    rw [List.append_nil] at hend
    rw [hend]
    simp [crlf]

/-- What was read stays. -/
theorem readParts_prefix (n : Nat) (done rest : List UInt8) (post : List Arg)
    (files : List PostFile) :
    post <+: (readParts n done rest post files).post ∧
      files <+: (readParts n done rest post files).files := by
  induction n generalizing done rest post files with
  | zero => exact ⟨List.prefix_rfl, List.prefix_rfl⟩
  | succ n ih =>
      rw [readParts]
      split
      · exact ⟨List.prefix_rfl, List.prefix_rfl⟩
      · split_ifs
        · exact ⟨List.prefix_rfl, List.prefix_rfl⟩
        · split
          · exact ⟨List.prefix_rfl, List.prefix_rfl⟩
          · simp only
            split
            · exact ih _ _ _ _
            · split
              · exact ⟨List.prefix_rfl, List.prefix_rfl⟩
              · split
                · obtain ⟨hpost, hfiles⟩ := ih _ _ post _
                  exact ⟨hpost, (List.prefix_append _ _).trans hfiles⟩
                · obtain ⟨hpost, hfiles⟩ := ih _ _ _ files
                  exact ⟨(List.prefix_append _ _).trans hpost, hfiles⟩

/-- A part whose content was cut short is not the part that was sent. -/
theorem not_read_of_cut {p : FormPart} {u : List UInt8} (hu : u.length < p.content.length)
    {post post' : List Arg} {files files' : List PostFile} {r : PostResult}
    (hpost : post ++ { p with content := u }.field.toList <+: r.post)
    (hfiles : files ++ { p with content := u }.file.toList <+: r.files) :
    ¬ (r.post = post ++ (p.field.toList ++ post') ∧ r.files = files ++
      (p.file.toList ++ files')) := by
  have hne : u ≠ p.content := by
    rintro rfl
    exact Nat.lt_irrefl _ hu
  rintro ⟨h, h'⟩
  rw [h, List.prefix_append_right_inj] at hpost
  rw [h', List.prefix_append_right_inj] at hfiles
  cases hf : p.filename with
  | none => simp [FormPart.field, hf, hne] at hpost
  | some f => simp [FormPart.file, hf, hne] at hfiles

/-- The loop gives back the parts of a body if and only if no content has a
delimiter inside. -/
theorem readParts_encodeParts {boundary tail : List UInt8} (hb : ∀ c ∈ boundary, isLineByte c)
    (htail : tail = [] ∨ tail = crlf) {parts : List FormPart}
    (hparts : ∀ p ∈ parts, p.WellFormed boundary) {n : Nat} (hn : parts.length < n)
    (done : List UInt8) (post : List Arg) (files : List PostFile) :
    ((readParts n done (encodeParts boundary tail parts) post files).post =
          post ++ parts.filterMap FormPart.field ∧
        (readParts n done (encodeParts boundary tail parts) post files).files =
          files ++ parts.filterMap FormPart.file) ↔
      ∀ p ∈ parts, ¬ delimiter <:+: p.content := by
  induction parts generalizing n done post files with
  | nil =>
      obtain ⟨k, rfl⟩ : ∃ k, n = k + 1 := ⟨n - 1, by simp at hn; omega⟩
      obtain ⟨text, h⟩ := readParts_closing hb htail k done post files
      have htext : encodeParts boundary tail [] =
          ascii "--" ++ (boundary ++ (ascii "--" ++ tail)) := rfl
      simp [htext, h]
  | cons p parts ih =>
      obtain ⟨hp, hparts⟩ := List.forall_mem_cons.1 hparts
      obtain ⟨k, rfl⟩ : ∃ k, n = k + 1 := ⟨n - 1, by simp at hn; omega⟩
      obtain ⟨rest, hrest⟩ : ∃ rest, encodeParts boundary tail parts = ascii "--" ++ rest := by
        cases parts with
        | nil => exact ⟨_, rfl⟩
        | cons q parts =>
            rw [encodeParts, List.flatMap_cons, FormPart.encode, List.append_assoc,
              List.append_assoc]
            exact ⟨_, rfl⟩
      have htext : encodeParts boundary tail (p :: parts) =
          p.encode boundary ++ (ascii "--" ++ rest) := by
        rw [← hrest]
        simp [encodeParts]
      have hfields : ∀ {α : Type} (f : FormPart → Option α),
          (p :: parts).filterMap f = (f p).toList ++ parts.filterMap f := by
        intro α f
        cases hf : f p <;> simp [hf]
      obtain ⟨u, done', rest', hread, hclean, hcut⟩ := readParts_part hb hp k done rest post files
      rw [htext, hread, hfields, hfields, List.forall_mem_cons]
      by_cases hcontent : delimiter <:+: p.content
      · obtain ⟨hpost, hfiles⟩ := readParts_prefix k done' rest'
          (post ++ { p with content := u }.field.toList)
              (files ++ { p with content := u }.file.toList)
        simp only [hcontent, not_true_eq_false, false_and, iff_false]
        exact not_read_of_cut (hcut hcontent) hpost hfiles
      · obtain ⟨rfl, rfl⟩ := hclean hcontent
        simp only [hcontent, not_false_eq_true, true_and]
        have hnext := ih hparts (Nat.lt_of_succ_lt_succ hn) done' (post ++ p.field.toList)
          (files ++ p.file.toList)
        rw [hrest] at hnext
        simpa only [List.append_assoc] using hnext

/-! ## The round trip -/

/-- The request has the body where `http_parse_post` looks for it, and it is not a
URL-encoded form. -/
structure Request.HoldsForm (r : Request) (body : List UInt8) : Prop where
  urlenc : r.headersIn.urlenc = false
  dataLen : r.body.dataLen = body.length
  bodyFrom : ∃ x, r.bodyFrom = some (body ++ nul :: x)

/-- `http_parse_post` gives back the fields and the files of the form. -/
def Request.ParsesTo (r : Request) (parts : List FormPart) : Prop :=
  ∃ r', r.httpParsePost = some r' ∧
    r'.body.post.seen = ((parts.filterMap FormPart.field).length, parts.filterMap FormPart.field) ∧
    r'.body.files.seen = ((parts.filterMap FormPart.file).length, parts.filterMap FormPart.file)

theorem seen_replaced {α : Type} (l : List α) (entries : List α) :
    Table.seen ⟨l.length, l ++ entries⟩ = (l.length, l) := by
  simp [Table.seen, Table.visible]

theorem length_encodeParts_le (boundary tail : List UInt8) (parts : List FormPart) :
    parts.length * 12 ≤ (encodeParts boundary tail parts).length := by
  have hkey : (ascii "Content-Disposition").length = 19 := by decide
  induction parts with
  | nil => simp
  | cons p parts ih =>
      simp only [encodeParts, List.flatMap_cons, List.length_append, List.length_cons,
        FormPart.encode, FormPart.headers, hkey] at ih ⊢
      omega

/-- A form comes back as it was sent if and only if no content has a line end with
two hyphens behind it. -/
theorem parsesTo_iff {boundary tail : List UInt8} {parts : List FormPart}
    (hform : WellFormedForm boundary tail parts) {r : Request}
    (hr : r.HoldsForm (encodeParts boundary tail parts)) :
    r.ParsesTo parts ↔ ∀ p ∈ parts, ¬ delimiter <:+: p.content := by
  obtain ⟨x, hfrom⟩ := hr.bodyFrom
  have hlen := length_encodeParts_le boundary tail parts
  rw [Request.ParsesTo, Request.httpParsePost, hr.urlenc, if_neg (by simp), Request.parseParts,
    hr.dataLen]
  split_ifs with hshort
  · have hnil : parts = [] := List.eq_nil_of_length_eq_zero (by omega)
    subst hnil
    simp [Table.seen, Table.visible]
  · have hnul : (encodeParts boundary tail parts ++ nul :: x)[
        (encodeParts boundary tail parts).length]? = some nul := by simp
    have hloop := readParts_encodeParts hform.boundary_bytes hform.tail_eq hform.parts
      (n := (encodeParts boundary tail parts).length + 1) (by omega) [] [] []
    rw [List.nil_append, List.nil_append] at hloop
    simp only [hfrom, Option.bind_some, if_pos hnul, List.take_left', Option.some.injEq,
      exists_eq_left', seen_replaced, readMultipart]
    rw [← hloop]
    constructor
    · rintro ⟨hpost, hfiles⟩
      exact ⟨(Prod.mk.inj hpost).2, (Prod.mk.inj hfiles).2⟩
    · rintro ⟨hpost, hfiles⟩
      exact ⟨by rw [hpost], by rw [hfiles]⟩

/-- A request with the given body in its buffer. -/
def uploading (body : List UInt8) : Request :=
  { zeroed.holding (body ++ [nul]) with
    body := { zeroed.body with dataLen := body.length, dataStr := .heap 0 } }

theorem uploading_holdsForm (body : List UInt8) : (uploading body).HoldsForm body := by
  refine ⟨rfl, rfl, [], ?_⟩
  have hfrom : (uploading body).bodyFrom = Buf.from ⟨0, 0, 0, body ++ [nul]⟩ 0 := rfl
  rw [hfrom, Buf.from, if_pos ⟨by simp, by simp; omega⟩]
  rfl

/-- A field and a file, sent with the boundary `B`. -/
def sampleForm : List FormPart :=
  [⟨ascii "a", none, none, [nul, cr, lf]⟩, ⟨ascii "f", some (ascii "x y"), none, ascii "-"⟩]

/-- A field with a line of hyphens, sent with the boundary `B`. -/
def hyphenForm : List FormPart :=
  [⟨ascii "a", none, none, ascii "x" ++ crlf ++ ascii "--y"⟩]

theorem sampleForm_wellFormed : WellFormedForm (ascii "B") crlf sampleForm where
  boundary_bytes := by
    simp only [isLineByte]
    decide +kernel
  tail_eq := .inr rfl
  parts := by
    intro p hp
    obtain rfl | rfl : p = _ ∨ p = _ := by simpa [sampleForm] using hp
    all_goals
      constructor <;> simp only [isParameterByte, isLineByte] <;> decide +kernel

theorem hyphenForm_wellFormed : WellFormedForm (ascii "B") crlf hyphenForm where
  boundary_bytes := by
    simp only [isLineByte]
    decide +kernel
  tail_eq := .inr rfl
  parts := by
    intro p hp
    obtain rfl : p = _ := by simpa [hyphenForm] using hp
    constructor <;> simp only [isParameterByte, isLineByte] <;> decide +kernel

theorem parsesTo_sampleForm : WellFormedForm (ascii "B") crlf sampleForm ∧
    ((uploading (encodeParts (ascii "B") crlf sampleForm)).ParsesTo sampleForm ↔
      ∀ p ∈ sampleForm, ¬ delimiter <:+: p.content) :=
  ⟨sampleForm_wellFormed, parsesTo_iff sampleForm_wellFormed (uploading_holdsForm _)⟩

/-- A content with a line of hyphens inside comes back without it. -/
theorem not_parsesTo_hyphenForm : WellFormedForm (ascii "B") crlf hyphenForm ∧
    (uploading (encodeParts (ascii "B") crlf hyphenForm)).HoldsForm
      (encodeParts (ascii "B") crlf hyphenForm) ∧
    ¬ (uploading (encodeParts (ascii "B") crlf hyphenForm)).ParsesTo hyphenForm := by
  refine ⟨hyphenForm_wellFormed, uploading_holdsForm _, ?_⟩
  rintro ⟨r, hr, hpost, -⟩
  have hread : ((uploading (encodeParts (ascii "B") crlf hyphenForm)).httpParsePost.map
      fun r => r.body.post.seen) = some (1, [⟨ascii "a", ascii "x"⟩]) := by decide +kernel
  rw [hr, Option.map_some, hpost] at hread
  exact absurd hread (by decide +kernel)

end OpenTube
