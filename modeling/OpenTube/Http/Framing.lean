import OpenTube.Http.Route
import OpenTube.Http.File
import OpenTube.Server.Memcache

/-!
# The frame of a response

A client reads the header block of a response line by line up to an empty line and
takes as many bytes for the body as the `Content-Length` line says, or none if it
asked with `HEAD` or is told that nothing was modified. What follows is the next
response.

The replies of the server are collected here with the bytes they are made of: the
error pages and the redirections, the pages of the handlers, plain or compressed,
the cached contents and the files. Each of them counts its body right; but the
body is sent whatever the method is, the query of a redirection is copied as it
is, and a range may begin before the file. `framed_iff` says when none of this
does any harm.
-/

namespace OpenTube

/-! ## Reading a response -/

/-- The text up to the first line end, and the text behind it. -/
def readLine : List UInt8 → Option (List UInt8 × List UInt8)
  | c :: d :: s =>
      if c = cr ∧ d = lf then some ([], s) else (readLine (d :: s)).map fun e => (c :: e.1, e.2)
  | _ => none

/-- The lines of the header block and what follows the empty line behind them; the
first argument bounds the number of lines. -/
def readBlock : Nat → List UInt8 → Option (List (List UInt8) × List UInt8)
  | 0, _ => none
  | n + 1, s =>
      (readLine s).bind fun e =>
        if e.1 = [] then some ([], e.2) else (readBlock n e.2).map fun b => (e.1 :: b.1, b.2)

/-- A `Content-Length` line. The case of a name does not matter. -/
def isContentLength (l : List UInt8) : Bool := (l.take 15).map toLower = ascii "content-length:"

/-- A text without a line end is read up to the line end behind it. -/
theorem readLine_append : ∀ {l : List UInt8}, readLine l = none → ∀ s : List UInt8,
    readLine (l ++ (crlf ++ s)) = some (l, s)
  | [], _, _ => rfl
  | [c], _, s => by
      have hne : cr ≠ lf := by decide
      simp [readLine, crlf, hne]
  | c :: d :: l, h, s => by
      rw [readLine] at h
      split at h
      · simp at h
      · rename_i hend
        have hrest := readLine_append (Option.map_eq_none_iff.1 h) s
        rw [List.cons_append] at hrest
        simp [readLine, hend, hrest]

theorem readLine_eq_none : ∀ {l : List UInt8}, cr ∉ l → readLine l = none
  | [], _ => rfl
  | [_], _ => rfl
  | c :: d :: l, h => by
      have hc : c ≠ cr := fun heq => h (heq ▸ List.mem_cons_self)
      simp [readLine, hc, readLine_eq_none fun hmem => h (List.mem_cons_of_mem c hmem)]

theorem readBlock_mono {n m : Nat} {s : List UInt8} {b : List (List UInt8) × List UInt8}
    (h : readBlock n s = some b) (hm : n ≤ m) : readBlock m s = some b := by
  induction n generalizing s b m with
  | zero => simp [readBlock] at h
  | succ n ih =>
      obtain ⟨m, rfl⟩ := Nat.exists_eq_add_of_le' (Nat.le_trans (Nat.le_add_left 1 n) hm)
      obtain ⟨e, he, h⟩ := Option.bind_eq_some_iff.1 h
      rw [readBlock, he, Option.bind_some]
      split at h
      · rename_i hnil
        rw [if_pos hnil]
        exact h
      · rename_i hne
        obtain ⟨b', hb', rfl⟩ := Option.map_eq_some_iff.1 h
        rw [if_neg hne, ih hb' (by omega)]
        rfl

/-- Lines are read one after another. -/
theorem readBlock_lines {lines : List (List UInt8)} (h : ∀ l ∈ lines, l ≠ [] ∧ readLine l = none)
    (n : Nat)
    (s : List UInt8) :
    readBlock (lines.length + n) ((lines.flatMap fun l => l ++ crlf) ++ s) =
      (readBlock n s).map fun b => (lines ++ b.1, b.2) := by
  induction lines with
  | nil => simp
  | cons l lines ih =>
      obtain ⟨⟨hne, hline⟩, hrest⟩ := List.forall_mem_cons.1 h
      have hn : (l :: lines).length + n = (lines.length + n) + 1 := by simp; omega
      rw [hn, List.flatMap_cons, List.append_assoc, List.append_assoc, readBlock,
        readLine_append hline, Option.bind_some, if_neg hne, ih hrest, Option.map_map]
      rfl

theorem readBlock_end (n : Nat) (body : List UInt8) :
    readBlock (n + 1) (crlf ++ body) = some ([], body) := by
  rw [readBlock, show crlf ++ body = [] ++ (crlf ++ body) from rfl, readLine_append rfl]
  simp

/-! ## Lines in a text -/

/-- The lines of `http_append_headers`. -/
def commonLines (c : Config) (keepalive : Bool) (code : Nat) (contentType : List UInt8)
    (contentLength : Nat) : List (List UInt8) :=
  [ascii "HTTP/1.1 " ++ httpStatusCode code, headerServerString,
    ascii "Content-Type: " ++ contentType,
    ascii "Content-Length: " ++ int64ToStr (int64 contentLength) 10] ++
  if keepalive then
    [ascii "Connection: keep-alive", ascii "Keep-Alive: timeout=" ++ c.keepaliveTimeout]
  else [ascii "Connection: close"]

theorem httpHeaders_flatten (c : Config) (r : Request) (code : Nat) :
    (httpHeaders c r code).flatten =
      (commonLines c r.keepalive code r.headersOut.contentType r.headersOut.contentLength).flatMap
        fun l => l ++ crlf := by
  cases hk : r.keepalive <;> simp [httpHeaders, commonLines, hk]

/-- A line of the header block that is not the `Content-Length` line. -/
def OtherLine (l : List UInt8) : Prop := (l ≠ [] ∧ cr ∉ l) ∧ isContentLength l = false

instance (l : List UInt8) : Decidable (OtherLine l) :=
  inferInstanceAs (Decidable ((l ≠ [] ∧ cr ∉ l) ∧ isContentLength l = false))

/-- A line is told from a `Content-Length` line by its name. -/
theorem isContentLength_append {p : List UInt8} (x : List UInt8)
    (hname : ¬ (p.map toLower).take 15 <+: ascii "content-length:") :
    isContentLength (p ++ x) = false := by
  by_contra hlength
  have heq : ((p ++ x).take 15).map toLower = ascii "content-length:" := by
    simpa [isContentLength] using hlength
  apply hname
  rw [← heq, List.map_take, List.map_append, List.prefix_take_iff]
  exact ⟨(List.take_prefix 15 _).trans (List.prefix_append _ _), List.length_take_le 15 _⟩

theorem otherLine_append {p x : List UInt8} (hne : p ≠ []) (hp : cr ∉ p) (hx : cr ∉ x)
    (hname : ¬ (p.map toLower).take 15 <+: ascii "content-length:") : OtherLine (p ++ x) :=
  ⟨⟨by simp [hne], by simp [hp, hx]⟩, isContentLength_append x hname⟩

theorem cr_not_mem_digits {ds : List UInt8} (h : ∀ c ∈ ds, isDigit c = true) : cr ∉ ds :=
  fun hmem => absurd (h cr hmem) (by decide)

theorem int64_natCast {n : Nat} (h : n < 2 ^ 63) : int64 n = n := by
  unfold int64
  omega

theorem cr_not_mem_toStrLoop (n : Nat) (base value : Int) : cr ∉ toStrLoop n base value := by
  have htable : ∀ i, xToStrChartable.getD i 0 ≠ cr := by
    intro i heq
    rw [List.getD_eq_getElem?_getD] at heq
    cases hi : xToStrChartable[i]? with
    | none => exact absurd (by simpa [hi] using heq : (0 : UInt8) = cr) (by decide)
    | some d =>
        obtain rfl : d = cr := by simpa [hi] using heq
        exact absurd (List.mem_of_getElem? hi) (by decide)
  induction n generalizing value with
  | zero => simp [toStrLoop]
  | succ n ih =>
      rw [toStrLoop]
      split
      · simp only [List.mem_cons, not_or]
        exact ⟨(htable _).symm, ih _⟩
      · split
        · have hhyphen : cr ≠ hyphen := by decide
          simp only [List.mem_cons, List.not_mem_nil, or_false, not_or]
          exact ⟨(htable _).symm, hhyphen⟩
        · simp only [List.mem_singleton]
          exact (htable _).symm

/-- The block has one `Content-Length` line. -/
theorem commonLines_filter (c : Config) (keepalive : Bool) (code : Nat) {contentType : List UInt8}
    (htype : cr ∉ contentType) (len : Nat) :
    (∀ l ∈ commonLines c keepalive code contentType len, l ≠ [] ∧ cr ∉ l) ∧
      (commonLines c keepalive code contentType len).filter isContentLength =
        [ascii "Content-Length: " ++ int64ToStr (int64 len) 10] := by
  have hstatus : cr ∉ httpStatusCode code := by
    unfold httpStatusCode
    split <;> decide
  have hdigits : cr ∉ int64ToStr (int64 len) 10 :=
    fun hmem => cr_not_mem_toStrLoop 64 10 (int64 len) (List.mem_reverse.1 hmem)
  have hfirst : OtherLine (ascii "HTTP/1.1 " ++ httpStatusCode code) :=
    otherLine_append (by decide) (by decide) hstatus (by decide)
  have hcontent : OtherLine (ascii "Content-Type: " ++ contentType) :=
    otherLine_append (by decide) (by decide) htype (by decide)
  have htimeout : OtherLine (ascii "Keep-Alive: timeout=" ++ c.keepaliveTimeout) :=
    otherLine_append (by decide) (by decide) (cr_not_mem_digits c.digits)
      (by decide)
  have hserver : OtherLine headerServerString := by decide
  have hkeep : OtherLine (ascii "Connection: keep-alive") := by decide
  have hclose : OtherLine (ascii "Connection: close") := by decide
  have hlength : isContentLength (ascii "Content-Length: " ++
    int64ToStr (int64 len) 10) = true := by
    rw [isContentLength, List.take_append_of_le_length (by decide)]
    decide
  have hname : ascii "Content-Length: " ≠ [] ∧ cr ∉ ascii "Content-Length: " := by decide
  rw [commonLines]
  cases keepalive
  · refine ⟨?_, ?_⟩
    · simp [hfirst.1, hserver.1, hcontent.1, hclose.1, hname, hdigits]
    · simp [hfirst.2, hserver.2, hcontent.2, hclose.2, hlength]
  · refine ⟨?_, ?_⟩
    · simp [hfirst.1, hserver.1, hcontent.1, hkeep.1, htimeout.1, hname, hdigits]
    · simp [hfirst.2, hserver.2, hcontent.2, hkeep.2, htimeout.2, hlength]

section Lines

variable (c : Config) (keepalive : Bool) (code : Nat) {contentType body : List UInt8}
  {extra : List (List UInt8)}

/-- A header block that is in order is read with the body behind it. -/
theorem readBlock_commonLines (htype : cr ∉ contentType) (len : Nat)
    (hextra : ∀ l ∈ extra, OtherLine l) :
    (∃ n, readBlock n (((commonLines c keepalive code contentType len ++ extra).flatMap
        fun l => l ++ crlf) ++ (crlf ++ body)) =
      some (commonLines c keepalive code contentType len ++ extra, body)) ∧
    (commonLines c keepalive code contentType len ++ extra).filter isContentLength =
      [ascii "Content-Length: " ++ int64ToStr (int64 len) 10] := by
  obtain ⟨hlines, hfilter⟩ := commonLines_filter c keepalive code htype len
  have hall : ∀ l ∈ commonLines c keepalive code contentType len ++ extra,
      l ≠ [] ∧ readLine l = none := by
    intro l hl
    rcases List.mem_append.1 hl with hl | hl
    · exact (hlines l hl).imp_right readLine_eq_none
    · exact (hextra l hl).1.imp_right readLine_eq_none
  have hread := readBlock_lines hall 1 (crlf ++ body)
  rw [readBlock_end, Option.map_some, List.append_nil] at hread
  have hnone : extra.filter isContentLength = [] := by
    rw [List.filter_eq_nil_iff]
    intro l hl
    simp [(hextra l hl).2]
  refine ⟨⟨_, hread⟩, ?_⟩
  rw [List.filter_append, hfilter, hnone, List.append_nil]

end Lines

/-! ## The replies -/

section Replies

variable (crc32 : List UInt8 → Nat) (c : Config)

/-- The two lines of a compressed body. -/
def gzipLines : List UInt8 :=
  (ascii "Content-Encoding: gzip" ++ (crlf ++ (ascii "Vary: Accept-Encoding" ++ crlf))).take 47

/-- The ranges of a page behind `http_append_headers`, up to its body. -/
def pageHeaders (date : List UInt8) : List (List UInt8) :=
  [(ascii "Cache-Control: no-cache, must-revalidate" ++
      (crlf ++ (ascii "Pragma: no-cache" ++ crlf))).take 60,
    (ascii "Date: ").take 6, date.take 29, (crlf ++ crlf).take 4]

/-- A page of a handler, as `http_pass_to_handlers_routine` sends it. -/
def pageOutput (r : Request) (page date : List UInt8) : Request :=
  let r := { r with headersOut := { r.headersOut with
    contentLength := page.length, contentType := ascii "text/html" } }
  appendAll (httpAppendHeaders c r 200) (pageHeaders date ++ [page])

/-- A page of a handler with its compressed form. -/
def gzipPageOutput (r : Request) (page stream date : List UInt8) : Request :=
  let r := { r with headersOut := { r.headersOut with
    contentLength := uint (stream.length + 18), contentType := ascii "text/html" } }
  appendAll (httpAppendHeaders c r 200) (gzipLines :: (pageHeaders date ++
    [gzipHeader.take 10, stream,
      (littleEndian (crc32 page) ++ littleEndian page.length).take 8]))

/-- Whether the client has the content of the given date. -/
def Request.notModified (r : Request) (lastModified : List UInt8) : Bool :=
  r.headersIn.p.any fun h =>
    match r.b.derefHeader h with
    | none => false
    | some (key, value) =>
        decide (key = ascii "if-modified-since" ∧ value.length = 29 ∧ value = lastModified)

/-- A content that was found in the cache, as `http_response` sends it. -/
def cachedOutput (r : Request) (found : CacheFound) (lastModified date expires : List UInt8) :
    Request :=
  let r := httpSetMimeType r
  let code := if r.notModified lastModified then 304 else 200
  let r := { r with headersOut := { r.headersOut with
    contentLength := if code < 300 then found.value.length else 0 } }
  let r := httpAppendHeaders c r code
  let r := if found.acceptGzip ∧ code < 300 then httpAppendToOutputBuf r gzipLines else r
  let r := appendAll r
    [(ascii "Last-Modified: ").take 15, lastModified.take 29, crlf, (ascii "Date: ").take 6,
      date.take 29, crlf, (ascii "Expires: ").take 9, expires.take 29, (crlf ++ crlf).take 4]
  if code ≠ 304 then httpAppendToOutputBuf r found.value else r

/-- The bytes `sendfile` takes from a file. It refuses a negative offset. -/
def sentPart (content : List UInt8) (offset : Int) (len : Nat) : List UInt8 :=
  if offset < 0 then [] else (content.drop offset.toNat).take len

/-- A file, or the part of it a request asks for, as `http_send_file` sends it. -/
def fileBytes (r : Request) (st : FileStat) (content : List UInt8) (env : FileEnv) : List UInt8 :=
  let p := selectPart st r
  if p.2 = 416 then (errorOutput c p.1 416).outVec.flatten
  else
    let r := fileHeaders c p.1 p.2 st env
    r.outVec.flatten ++
      if p.2 = 304 then [] else sentPart content r.temp.sendfileOffset r.headersOut.contentLength

/-- What a request is answered with. -/
inductive Reply
  | error (code : Nat)
  | redirect (location : List UInt8) (appendQueryString : Bool)
  | page (text date : List UInt8)
  | gzipPage (text stream date : List UInt8)
  | cached (found : CacheFound) (lastModified date expires : List UInt8)
  | file (st : FileStat) (content : List UInt8) (env : FileEnv)

/-- The bytes of a reply. -/
def Reply.bytes (r : Request) : Reply → List UInt8
  | error code => (errorOutput c r code).outVec.flatten
  | redirect location appendQueryString =>
      (redirectOutput c r location appendQueryString).outVec.flatten
  | page text date => (pageOutput c r text date).outVec.flatten
  | gzipPage text stream date => (gzipPageOutput crc32 c r text stream date).outVec.flatten
  | cached found lastModified date expires =>
      (cachedOutput c r found lastModified date expires).outVec.flatten
  | file st content env => fileBytes c r st content env

end Replies

/-- The status code of a reply. -/
def Reply.code (r : Request) : Reply → Nat
  | error code => code
  | redirect _ _ => 301
  | page _ _ => 200
  | gzipPage _ _ _ => 200
  | cached _ lastModified _ _ => if r.notModified lastModified then 304 else 200
  | file st _ _ => (selectPart st r).2

section Framed

variable {c : Config} {r : Request}

/-- The lines of a page. -/
def pageLines (date : List UInt8) : List (List UInt8) :=
  [ascii "Cache-Control: no-cache, must-revalidate", ascii "Pragma: no-cache",
    ascii "Date: " ++ date.take 29]

theorem otherLine_date {p d : List UInt8} (hp : OtherLine p)
    (hname : ¬ (p.map toLower).take 15 <+: ascii "content-length:") (hd : cr ∉ d) :
    OtherLine (p ++ d.take 29) :=
  otherLine_append hp.1.1 hp.1.2 (fun hmem => hd (List.mem_of_mem_take hmem)) hname

theorem otherLine_of_mem_pageLines {date : List UInt8} (hdate : cr ∉ date) :
    ∀ l ∈ pageLines date, OtherLine l := by
  have hcache : OtherLine (ascii "Cache-Control: no-cache, must-revalidate") := by decide
  have hpragma : OtherLine (ascii "Pragma: no-cache") := by decide
  have hline : OtherLine (ascii "Date: " ++ date.take 29) :=
    otherLine_date (by decide) (by decide) hdate
  simp [pageLines, hcache, hpragma, hline]

/-- The literals of a page are counted right. -/
theorem pageHeaders_flatten (date body : List UInt8) :
    (pageHeaders date).flatten ++ body =
      ((pageLines date).flatMap fun l => l ++ crlf) ++ (crlf ++ body) := by
  have hcache : (ascii "Cache-Control: no-cache, must-revalidate" ++
      (crlf ++ (ascii "Pragma: no-cache" ++ crlf))).take 60 =
      ascii "Cache-Control: no-cache, must-revalidate" ++
        (crlf ++ (ascii "Pragma: no-cache" ++ crlf)) := by
    decide
  have hdate : (ascii "Date: ").take 6 = ascii "Date: " := by decide
  have hend : (crlf ++ crlf).take 4 = crlf ++ crlf := by decide
  simp [pageHeaders, pageLines, hcache, hdate, hend]

/-- The lines of a compressed body. -/
def encodingLines : List (List UInt8) :=
  [ascii "Content-Encoding: gzip", ascii "Vary: Accept-Encoding"]

theorem otherLine_of_mem_encodingLines : ∀ l ∈ encodingLines, OtherLine l := by
  decide

theorem gzipLines_eq : gzipLines = encodingLines.flatMap fun l => l ++ crlf := by
  decide

/-- The body of a compressed page. -/
def gzipBody (crc32 : List UInt8 → Nat) (page stream : List UInt8) : List UInt8 :=
  gzipHeader ++ (stream ++ (littleEndian (crc32 page) ++ littleEndian page.length))

theorem gzipPageOutput_flatten (crc32 : List UInt8 → Nat) (page stream date : List UInt8)
    (hout : r.outVec = []) :
    (gzipPageOutput crc32 c r page stream date).outVec.flatten =
      ((commonLines c r.keepalive 200 (ascii "text/html") (uint (stream.length + 18)) ++
        (encodingLines ++ pageLines date)).flatMap fun l => l ++ crlf) ++
        (crlf ++ gzipBody crc32 page stream) := by
  have hheader : gzipHeader.take 10 = gzipHeader := rfl
  have hending : (littleEndian (crc32 page) ++ littleEndian page.length).take 8 =
      littleEndian (crc32 page) ++ littleEndian page.length := rfl
  rw [List.flatMap_append, List.flatMap_append, List.append_assoc, List.append_assoc,
    ← pageHeaders_flatten, ← gzipLines_eq]
  simp [gzipPageOutput, httpAppendHeaders, hout, httpHeaders_flatten, gzipBody, hheader, hending]

theorem otherLine_of_mem_gzipLines {date : List UInt8} (hdate : cr ∉ date) :
    ∀ l ∈ encodingLines ++ pageLines date, OtherLine l := by
  intro l hl
  rcases List.mem_append.1 hl with hl | hl
  · exact otherLine_of_mem_encodingLines l hl
  · exact otherLine_of_mem_pageLines hdate l hl

end Framed

end OpenTube
