import OpenTube.Http.Args

/-!
# The parts of a multipart body

The second half of `http_parse_post`. It walks over the body once, lower-cases
the names of the headers and cuts texts off with `NUL` bytes, all at the place it
has reached; so a place in the body is the pair of what lies before it, as it is
now, and what lies behind. The byte behind the body is a `NUL` the receiver put
there: a read at the end of the body finds it. Every loop ends at the place it
looks for or at a `NUL`, where the whole function returns.
-/

namespace OpenTube

/-- How a loop over the body ends: at a place, or with the return of the function,
which leaves the body as it is then. -/
inductive Scanned
  | found (done rest : List UInt8)
  | ended (text : List UInt8)
deriving DecidableEq, Repr

/-- The whole body. -/
def Scanned.text : Scanned → List UInt8
  | .found done rest => done ++ rest
  | .ended text => text

/-! ## The loops -/

/-- Up to the first place where `stop` holds; the bytes before it are rewritten
with `write`. -/
def scanBody (stop : UInt8 → List UInt8 → Bool) (write : UInt8 → UInt8) :
    List UInt8 → List UInt8 → Scanned
  | done, [] => .ended done
  | done, c :: rest =>
      if stop c rest then .found done (c :: rest)
      else if c = nul then .ended (done ++ c :: rest)
      else scanBody stop write (done ++ [write c]) rest

/-- Up to the next line end. -/
def toLineEnd : List UInt8 → List UInt8 → Scanned :=
  scanBody (fun c rest => c = cr && rest.head? = some lf) id

/-- Up to the next colon, in lower case. -/
def toColon : List UInt8 → List UInt8 → Scanned := scanBody (fun c _ => c = colon) toLower

/-- Up to the end of a parameter. -/
def toQuote : List UInt8 → List UInt8 → Scanned :=
  scanBody (fun c _ => c = quote || c = ampersand) id

/-- Up to the next boundary, as long as four bytes of the body are left. -/
def toBoundary : List UInt8 → List UInt8 → Scanned
  | done, c₀ :: c₁ :: c₂ :: c₃ :: rest =>
      if c₀ = cr ∧ c₁ = lf ∧ c₂ = hyphen ∧ c₃ = hyphen then
        .found done (c₀ :: c₁ :: c₂ :: c₃ :: rest)
      else toBoundary (done ++ [c₀]) (c₁ :: c₂ :: c₃ :: rest)
  | done, rest => .ended (done ++ rest)

/-! ## The headers of a part -/

/-- The headers of one part, as far as they are recorded. -/
structure PartHeaders where
  name : Option (List UInt8)
  filename : Option (List UInt8)
  contentType : Option (List UInt8)
deriving DecidableEq, Repr

/-- A parameter whose `n` first bytes, with the equals sign, were matched: its
value is cut off with a `NUL`. -/
def readParameter (n : Nat) (done rest : List UInt8) : Scanned × List UInt8 :=
  let n := if rest[n]? = some quote then n + 1 else n
  match toQuote (done ++ rest.take n) (rest.drop n) with
  | .ended text => (.ended text, [])
  | .found done' rest' =>
      (.found (done' ++ [nul]) rest'.tail, done'.drop (done.length + n))

/-- The loop over a `Content-Disposition` header. The first argument bounds the
number of passes; the number of bytes left is always enough. -/
def readDisposition : Nat → List UInt8 → List UInt8 → PartHeaders → Scanned × PartHeaders
  | 0, done, rest, h => (.ended (done ++ rest), h)
  | _ + 1, done, [], h => (.ended done, h)
  | n + 1, done, c :: rest, h =>
      if c = cr ∧ rest.head? = some lf then (.found done (c :: rest), h)
      else if c = nul then (.ended (done ++ c :: rest), h)
      else if ascii " name=" <+: c :: rest then
        match readParameter 6 done (c :: rest) with
        | (.ended text, _) => (.ended text, h)
        | (.found done' rest', value) => readDisposition n done' rest' { h with name := some value }
      else if ascii " filename=" <+: c :: rest then
        match readParameter 10 done (c :: rest) with
        | (.ended text, _) => (.ended text, h)
        | (.found done' rest', value) =>
            readDisposition n done' rest' { h with filename := some value }
      else readDisposition n (done ++ [c]) rest h

/-- The value of one header whose name is `key`; the place is its first byte. -/
def readPartHeader (key done rest : List UInt8) (h : PartHeaders) : Scanned × PartHeaders :=
  if key = ascii "content-disposition" then readDisposition (rest.length + 1) done rest h
  else if key = ascii "content-type" then
    match toLineEnd done rest with
    | .ended text => (.ended text, h)
    | .found done' rest' =>
        (.found done' (nul :: rest'.tail), { h with contentType := some (done'.drop done.length) })
  else (toLineEnd done rest, h)

/-- The headers of a part, up to the empty line. The first argument bounds the
number of headers. -/
def readPartHeaders : Nat → List UInt8 → List UInt8 → PartHeaders → Scanned × PartHeaders
  | 0, done, rest, h => (.ended (done ++ rest), h)
  | n + 1, done, rest, h =>
      if rest.take 2 = [cr, lf] then (.found done rest, h)
      else
        match toColon done rest with
        | .ended text => (.ended text, h)
        | .found done' rest' =>
            let spaces := rest'.tail.takeWhile fun c => c = space
            match readPartHeader (done'.drop done.length) (done' ++ nul :: spaces)
              (rest'.tail.drop spaces.length) h with
            | (.ended text, h) => (.ended text, h)
            | (.found done'' rest'', h) =>
                readPartHeaders n (done'' ++ rest''.take 2) (rest''.drop 2) h

/-! ## The parts -/

/-- The arguments and the files that were read, and the body that is left. -/
structure PostResult where
  post : List Arg
  files : List PostFile
  text : List UInt8
deriving DecidableEq, Repr

/-- The loop over the parts. The first argument bounds their number. -/
def readParts : Nat → List UInt8 → List UInt8 → List Arg → List PostFile → PostResult
  | 0, done, rest, post, files => ⟨post, files, done ++ rest⟩
  | n + 1, done, rest, post, files =>
      match toLineEnd done rest with
      | .ended text => ⟨post, files, text⟩
      | .found done rest =>
          if rest.drop 2 = [] ∨ (rest.drop 2).head? = some nul then ⟨post, files, done ++ rest⟩
          else
            match readPartHeaders (rest.length + 1) (done ++ rest.take 2) (rest.drop 2)
              ⟨none, none, none⟩ with
            | (.ended text, _) => ⟨post, files, text⟩
            | (.found done rest, h) =>
                let start := done ++ rest.take 2
                match h.name with
                | none => readParts n start (rest.drop 2) post files
                | some name =>
                    match toBoundary start (rest.drop 2) with
                    | .ended text => ⟨post, files, text⟩
                    | .found done rest =>
                        let data := done.drop start.length
                        let done := done ++ nul :: (rest.take 2).tail
                        match h.filename with
                        | some filename =>
                            let type := h.contentType.getD (ascii "application/octet-stream")
                            readParts n done (rest.drop 2) post
                              (files ++ [⟨data, name, filename, type⟩])
                        | none => readParts n done (rest.drop 2) (post ++ [⟨name, data⟩]) files

/-- The loop of `http_parse_post` over a multipart body. -/
def readMultipart (body : List UInt8) : PostResult :=
  readParts (body.length + 1) [] body [] []

/-! ## The body is edited in place -/

/-- The body is an edit of `text`, and the byte at a place that was found is not a
lower-case letter. -/
def Scanned.Edits (text : List UInt8) : Scanned → Prop
  | .found done rest => KeptAll text (done ++ rest) ∧ ∃ c r, rest = c :: r ∧ isLower c = false
  | .ended text' => KeptAll text text'

theorem Scanned.Edits.trans {text text' : List UInt8} (h : KeptAll text text') {s : Scanned}
    (hs : s.Edits text') : s.Edits text := by
  cases s with
  | found done rest => exact ⟨keptAll_trans h hs.1, hs.2⟩
  | ended text'' => exact keptAll_trans h hs

/-- The byte at a place that was found may be overwritten. -/
theorem Scanned.Edits.overwrite {text done rest : List UInt8}
    (h : (Scanned.found done rest).Edits text) (c : UInt8) :
    KeptAll text (done ++ c :: rest.tail) := by
  obtain ⟨hkept, d, r, rfl, hd⟩ := h
  exact keptAll_trans hkept (List.rel_append (keptAll_refl done)
    (.cons (kept_of_not_lower hd) (keptAll_refl r)))

theorem scanBody_edits {stop : UInt8 → List UInt8 → Bool} {write : UInt8 → UInt8}
    (hstop : ∀ c rest, stop c rest = true → isLower c = false) (hwrite : ∀ c, Kept c (write c))
    (done rest : List UInt8) : (scanBody stop write done rest).Edits (done ++ rest) := by
  fun_induction scanBody stop write done rest with
  | case1 done => simp [Scanned.Edits]
  | case2 done c rest h => exact ⟨keptAll_refl _, c, rest, rfl, hstop c rest h⟩
  | case3 done rest h => exact keptAll_refl _
  | case4 done c rest h hnul ih =>
      rw [List.append_assoc] at ih
      exact ih.trans (List.rel_append (keptAll_refl done) (.cons (hwrite c) (keptAll_refl rest)))

theorem toLineEnd_edits (done rest : List UInt8) : (toLineEnd done rest).Edits (done ++ rest) := by
  refine scanBody_edits (fun c rest h => ?_) kept_self done rest
  obtain ⟨rfl, -⟩ : c = cr ∧ rest.head? = some lf := by simpa using h
  decide

theorem toColon_edits (done rest : List UInt8) : (toColon done rest).Edits (done ++ rest) := by
  refine scanBody_edits (fun c rest h => ?_) kept_toLower done rest
  obtain rfl : c = colon := by simpa using h
  decide

theorem toQuote_edits (done rest : List UInt8) : (toQuote done rest).Edits (done ++ rest) := by
  refine scanBody_edits (fun c rest h => ?_) kept_self done rest
  obtain rfl | rfl : c = quote ∨ c = ampersand := by simpa using h
  · decide
  · decide

theorem toBoundary_edits (done rest : List UInt8) :
    (toBoundary done rest).Edits (done ++ rest) := by
  fun_induction toBoundary done rest with
  | case1 done c₀ c₁ c₂ c₃ rest h =>
      refine ⟨keptAll_refl _, c₀, _, rfl, ?_⟩
      rw [h.1]
      decide
  | case2 done c₀ c₁ c₂ c₃ rest h ih => rwa [List.append_assoc] at ih
  | case3 done rest h => exact keptAll_refl _

theorem readParameter_kept (n : Nat) (done rest : List UInt8) :
    KeptAll (done ++ rest) (readParameter n done rest).1.text := by
  unfold readParameter
  generalize (if rest[n]? = some quote then n + 1 else n) = k
  have hedits := toQuote_edits (done ++ rest.take k) (rest.drop k)
  rw [List.append_assoc, List.take_append_drop] at hedits
  simp only
  cases hscan : toQuote (done ++ rest.take k) (rest.drop k) with
  | ended text =>
      rw [hscan] at hedits
      exact hedits
  | found done' rest' =>
      rw [hscan] at hedits
      have hkept := hedits.overwrite nul
      rwa [← List.singleton_append, ← List.append_assoc] at hkept

theorem readDisposition_edits (n : Nat) (done rest : List UInt8) (h : PartHeaders) :
    (readDisposition n done rest h).1.Edits (done ++ rest) := by
  induction n generalizing done rest h with
  | zero => exact keptAll_refl _
  | succ n ih =>
      cases rest with
      | nil =>
          rw [readDisposition, List.append_nil]
          exact keptAll_refl _
      | cons c rest =>
          have hparameter : ∀ (k : Nat) (f : List UInt8 → PartHeaders),
              (match readParameter k done (c :: rest) with
                | (.ended text, _) => (Scanned.ended text, h)
                | (.found done' rest', value) => readDisposition n done' rest' (f value)).1.Edits
                (done ++ c :: rest) := by
            intro k f
            have hkept := readParameter_kept k done (c :: rest)
            split
            · rename_i text _ heq
              rw [heq] at hkept
              exact hkept
            · rename_i done' rest' value heq
              rw [heq] at hkept
              exact (ih _ _ _).trans hkept
          rw [readDisposition]
          split_ifs with hcrlf
          · refine ⟨keptAll_refl _, c, rest, rfl, ?_⟩
            rw [hcrlf.1]
            decide
          · exact keptAll_refl _
          · exact hparameter 6 fun value => { h with name := some value }
          · exact hparameter 10 fun value => { h with filename := some value }
          · have hnext := ih (done ++ [c]) rest h
            rwa [List.append_assoc, List.singleton_append] at hnext

theorem readPartHeader_edits (key done rest : List UInt8) (h : PartHeaders) :
    (readPartHeader key done rest h).1.Edits (done ++ rest) := by
  have hline := toLineEnd_edits done rest
  unfold readPartHeader
  split_ifs
  · exact readDisposition_edits _ _ _ _
  · split
    · rename_i text heq
      rwa [heq] at hline
    · rename_i done' rest' heq
      rw [heq] at hline
      exact ⟨hline.overwrite nul, nul, _, rfl, by decide⟩
  · exact hline

theorem readPartHeaders_edits (n : Nat) (done rest : List UInt8) (h : PartHeaders) :
    (readPartHeaders n done rest h).1.Edits (done ++ rest) := by
  induction n generalizing done rest h with
  | zero => exact keptAll_refl _
  | succ n ih =>
      have hcolon := toColon_edits done rest
      rw [readPartHeaders]
      split_ifs with hcrlf
      · refine ⟨keptAll_refl _, cr, rest.tail, ?_, by decide⟩
        cases rest with
        | nil => simp at hcrlf
        | cons c rest => simp_all
      · split
        · rename_i text heq
          rwa [heq] at hcolon
        · rename_i done' rest' heq
          rw [heq] at hcolon
          -- the colon is overwritten and the spaces behind it are passed
          have hname := hcolon.overwrite nul
          have hheader := readPartHeader_edits (done'.drop done.length)
            (done' ++ nul :: rest'.tail.takeWhile fun c => decide (c = space))
            (rest'.tail.drop (rest'.tail.takeWhile fun c => decide (c = space)).length) h
          rw [List.append_assoc, List.cons_append, List.prefix_iff_eq_append.1
            (List.takeWhile_prefix _)] at hheader
          simp only
          split
          · rename_i text h' heq'
            rw [heq'] at hheader
            exact hheader.trans hname
          · rename_i done'' rest'' h' heq'
            rw [heq'] at hheader
            have hnext := ih (done'' ++ rest''.take 2) (rest''.drop 2) h'
            rw [List.append_assoc, List.take_append_drop] at hnext
            exact hnext.trans (keptAll_trans hname hheader.1)

/-- The edits of the whole function. -/
theorem readParts_kept (n : Nat) (done rest : List UInt8) (post : List Arg)
    (files : List PostFile) :
    KeptAll (done ++ rest) (readParts n done rest post files).text := by
  induction n generalizing done rest post files with
  | zero => exact keptAll_refl _
  | succ n ih =>
      have hline := toLineEnd_edits done rest
      rw [readParts]
      split
      · rename_i text heq
        rwa [heq] at hline
      · rename_i done₁ rest₁ heq
        rw [heq] at hline
        split_ifs with hend
        · exact hline.1
        · have hheaders := readPartHeaders_edits (rest₁.length + 1) (done₁ ++ rest₁.take 2)
            (rest₁.drop 2) ⟨none, none, none⟩
          rw [List.append_assoc, List.take_append_drop] at hheaders
          have hall := hheaders.trans hline.1
          split
          · rename_i text h heq'
            rw [heq'] at hall
            exact hall
          · rename_i done₂ rest₂ h heq'
            rw [heq'] at hall
            have hstart : KeptAll (done ++ rest) (done₂ ++ rest₂.take 2 ++ rest₂.drop 2) := by
              rw [List.append_assoc, List.take_append_drop]
              exact hall.1
            simp only
            split
            · exact keptAll_trans hstart (ih _ _ _ _)
            · have hdata := (toBoundary_edits (done₂ ++ rest₂.take 2) (rest₂.drop 2)).trans hstart
              split
              · rename_i text heq''
                rw [heq''] at hdata
                exact hdata
              · rename_i done₃ rest₃ heq''
                rw [heq''] at hdata
                have hafter : KeptAll (done ++ rest)
                    (done₃ ++ nul :: (rest₃.take 2).tail ++ rest₃.drop 2) := by
                  have htail : (rest₃.take 2).tail ++ rest₃.drop 2 = rest₃.tail := by
                    rcases rest₃ with _ | ⟨_, _ | ⟨_, _⟩⟩ <;> rfl
                  rw [List.append_assoc, List.cons_append, htail]
                  exact hdata.overwrite nul
                split
                · exact keptAll_trans hafter (ih _ _ _ _)
                · exact keptAll_trans hafter (ih _ _ _ _)

theorem readMultipart_kept (body : List UInt8) : KeptAll body (readMultipart body).text :=
  readParts_kept _ [] body [] []

end OpenTube
