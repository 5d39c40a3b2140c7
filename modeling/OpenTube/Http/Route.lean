import OpenTube.Http.Uri
import OpenTube.Http.Reception
import OpenTube.Http.Output

/-!
# From the URI to the answer

`http_response` divides the URI and looks the path up in `uri_map`. A path that
lacks only the last slash of a registered URI is answered with a redirection,
and the query string of the request is copied behind the registered URI. The
path was checked character by character, the query string was not:
`redirectOutput_readsAs_iff` says which queries leave the header block intact.
-/

namespace OpenTube

open Separated

/-! ## Dividing the URI of a request -/

/-- `http_divide_uri` on a parsed request; `none` when it returns false. -/
def Request.divideUri (r : Request) : Option Request :=
  (r.b.deref r.headersIn.uri).bind fun uri =>
    (httpDivideUri uri).map fun u =>
      { r with headersIn := { r.headersIn with
          path := u.path
          pathSize := if httpPathPrealloc < uri.length then uri.length else r.headersIn.pathSize
          queryString := ⟨u.queryString.length, r.headersIn.uri.str + (u.queryOffset : Nat)⟩ } }

/-- The query of a URI: what follows the first `?` that is not part of an
escape. -/
def uriQuery : List UInt8 → List UInt8
  | [] => []
  | c :: d =>
      if c = question then d
      else
        match d with
        | x :: y :: d' => if c = percent then uriQuery d' else uriQuery (x :: y :: d')
        | [x] => uriQuery [x]
        | [] => []

/-- The second word of a request, which is its URI. -/
def requestUri (m : List UInt8) : List UInt8 :=
  (m.dropWhile fun c => c != space).tail.takeWhile fun c => c != space

theorem uriQuery_parent (d : List UInt8) : uriQuery (dot :: dot :: slash :: d) = uriQuery d := by
  rcases d with _ | ⟨x, _ | ⟨y, d⟩⟩ <;>
    simp [uriQuery, dot, slash, question, percent]

/-- The loop stops in front of the query. -/
theorem pathLoop_snd {d : List UInt8} {r : List UInt8 × List UInt8} (h : pathLoop d = some r) :
    (r.2 = [] ∧ uriQuery d = []) ∨ (r.2 = question :: uriQuery d ∧ r.2 <:+ d) := by
  fun_induction pathLoop d generalizing r with
  | case1 =>
      obtain rfl : ([], []) = r := by simpa using h
      exact .inl ⟨rfl, rfl⟩
  | case2 d =>
      obtain rfl := Option.some.inj h
      refine .inr ⟨?_, List.suffix_refl _⟩
      rcases d with _ | ⟨x, _ | ⟨y, d⟩⟩ <;> simp [uriQuery]
  | case3 x y d hq ih =>
      obtain ⟨s, hs, rfl⟩ := Option.map_eq_some_iff.1 h
      rw [writeEscape_snd, uriQuery, if_neg hq]
      simp only [if_true]
      exact (ih hs).imp_right fun hr => ⟨hr.1, hr.2.trans (List.suffix_append [percent, x, y] d)⟩
  | case4 c hq x y d hp hparent ih =>
      obtain ⟨rfl, rfl, rfl⟩ := hparent
      rw [uriQuery_parent]
      exact (ih h).imp_right fun hr => ⟨hr.1, hr.2.trans (List.suffix_append [dot, dot, slash] d)⟩
  | case5 c hq x y d hp hparent ih =>
      obtain ⟨-, s, hs, rfl⟩ := copyPathCharacter_eq_some h
      rw [uriQuery, if_neg hq]
      simp only [hp, if_false]
      exact (ih hs).imp_right fun hr => ⟨hr.1, hr.2.trans (List.suffix_cons _ _)⟩
  | case6 c hq x ih =>
      obtain ⟨-, s, hs, rfl⟩ := copyPathCharacter_eq_some h
      rw [uriQuery, if_neg hq]
      exact (ih hs).imp_right fun hr => ⟨hr.1, hr.2.trans (List.suffix_cons _ _)⟩
  | case7 c hq ih =>
      obtain ⟨-, s, hs, rfl⟩ := copyPathCharacter_eq_some h
      obtain rfl : ([], []) = s := by simpa [pathLoop] using hs
      exact .inl ⟨rfl, by simp [uriQuery]⟩

/-- The query string of a divided URI and its place. -/
theorem httpDivideUri_query {uri : List UInt8} {u : DividedUri} (h : httpDivideUri uri = some u) :
    u.queryString = uriQuery uri.tail ∧
      ∃ front, uri = front ++ u.queryString ∧ u.queryOffset = front.length := by
  obtain ⟨r, hr, rfl⟩ := Option.map_eq_some_iff.1 h
  rcases pathLoop_snd hr with ⟨hnil, hq⟩ | ⟨hq, hsuffix⟩
  · rw [hnil, hq]
    exact ⟨rfl, uri, by simp, rfl⟩
  · rw [hq] at hsuffix
    obtain ⟨w, hw⟩ := hsuffix.trans (List.tail_suffix uri)
    simp only [hq, if_true]
    refine ⟨trivial, w ++ [question], by simpa using hw.symm, ?_⟩
    have hlen := congrArg List.length hw
    simp only [List.length_append, List.length_cons, List.length_nil] at hlen ⊢
    omega

/-- The URI of an accepted request is its second word. -/
theorem httpParseHeaders_ok_uri {m : List UInt8} {q : ParsedRequest}
    (h : httpParseHeaders m = .ok q) : q.uri = requestUri m := by
  obtain ⟨p, rfl, -, hspace, -⟩ := httpParseHeaders_ok h
  have huri : ∀ c ∈ q.uri, (c != space) = true := by
    intro c hc
    simp only [bne_iff_ne, ne_eq]
    rintro rfl
    exact hspace hc
  have hword : ((q.uri ++ space :: (ascii "HTTP/" ++ (q.version ++ cr :: q.gap :: p))).takeWhile
      fun c => c != space) = q.uri := by
    rw [List.takeWhile_append_of_pos huri]
    simp
  rw [requestUri]
  cases q.method with
  | get => exact hword.symm
  | post => exact hword.symm
  | head => exact hword.symm

/-- The query string of a divided request is read back from the buffer. -/
theorem ParsedIn.divideUri_query {r r' : Request} {q : ParsedRequest} (h : ParsedIn r q)
    (hr' : r.divideUri = some r') :
    r'.headersIn.queryString.len = (uriQuery q.uri.tail).length ∧
      r'.b.deref r'.headersIn.queryString = some (uriQuery q.uri.tail) := by
  have huri : r.b.deref r.headersIn.uri = some q.uri := by
    rw [h.uri]
    exact Buf.deref_of_prefix q.method.text
      (List.IsPrefix.trans (by simp [ParsedRequest.front]) h.front) rfl
  rw [Request.divideUri, huri, Option.bind_some] at hr'
  obtain ⟨u, hu, rfl⟩ := Option.map_eq_some_iff.1 hr'
  obtain ⟨hquery, front, hfront, hoff⟩ := httpDivideUri_query hu
  rw [← hquery]
  refine ⟨rfl, Buf.deref_of_prefix (q.method.text ++ front) ?_ ?_⟩
  · refine List.IsPrefix.trans ?_ h.front
    rw [List.append_assoc, ← hfront]
    simp [ParsedRequest.front]
  · simp only [h.uri, hoff, List.length_append]
    omega

/-! ## The table of handlers -/

/-- `uri_map_t`; the handler is a number. -/
structure UriMap where
  uri : List UInt8
  func : Nat
  strictComparison : Bool
  fullMatch : Bool
deriving DecidableEq, Repr

/-- What `http_response` does with a path: redirect it, queue it for a handler,
or go on to the cache and the files. -/
inductive Route
  | redirect (location : List UInt8)
  | handler (func : Nat)
  | file
deriving DecidableEq, Repr

/-- The loop of `http_response` over `uri_map`. -/
def httpRoute (path : List UInt8) : List UriMap → Route
  | [] => .file
  | m :: ms =>
      if m.fullMatch then
        if m.strictComparison ∨ path.getLast? = some slash then
          if path.length ≠ m.uri.length ∨ path ≠ m.uri.take path.length then httpRoute path ms
          else .handler m.func
        else if path.length + 1 = m.uri.length ∧ path = m.uri.take path.length then
          .redirect m.uri
        else httpRoute path ms
      else if path.length < m.uri.length ∨ path.take m.uri.length ≠ m.uri then httpRoute path ms
      else .handler m.func

/-- A location is one of the registered URIs. -/
theorem mem_of_httpRoute_eq_redirect {path location : List UInt8} {ms : List UriMap}
    (h : httpRoute path ms = .redirect location) : ∃ m ∈ ms, m.uri = location := by
  induction ms with
  | nil => simp [httpRoute] at h
  | cons m ms ih =>
      rw [httpRoute] at h
      have hrest : httpRoute path ms = .redirect location → ∃ m' ∈ m :: ms, m'.uri = location :=
        fun h => (ih h).imp fun m' hm' => ⟨by simp [hm'.1], hm'.2⟩
      split at h
      · split at h
        · split at h
          · exact hrest h
          · simp at h
        · split at h
          · exact ⟨m, by simp, by simpa using h⟩
          · exact hrest h
      · split at h
        · exact hrest h
        · simp at h

/-! ## The header block of a redirection -/

/-- The header lines of a redirection. -/
def redirectLines (c : Config) (keepalive : Bool) (location query : List UInt8) :
    List (List UInt8) :=
  [ascii "HTTP/1.1 301 Moved Permanently", headerServerString, ascii "Content-Type: text/html",
    ascii "Content-Length: 0"] ++
  (if keepalive then
    [ascii "Connection: keep-alive", ascii "Keep-Alive: timeout=" ++ c.keepaliveTimeout]
  else [ascii "Connection: close"]) ++
  [ascii "Location: " ++ (location ++ if query = [] then [] else question :: query)]

/-- A client that reads the block line by line finds the given header lines and
nothing else. -/
def ReadsAs (block : List UInt8) (lines : List (List UInt8)) : Prop :=
  block.splitOn lf = (lines ++ [[]]).map (fun l => l ++ [cr]) ++ [[]] ∧ ∀ l ∈ lines, cr ∉ l

theorem readsAs_iff (lines : List (List UInt8)) :
    ReadsAs ((lines ++ [[]]).flatMap fun l => l ++ crlf) lines ↔
      ∀ l ∈ lines, cr ∉ l ∧ lf ∉ l := by
  have hflat : ((lines ++ [[]]).flatMap fun l => l ++ crlf) =
      ((lines ++ [[]]).map fun l => l ++ [cr]).flatMap fun l => l ++ [lf] := by
    rw [List.flatMap_map]
    congr 1
    funext l
    simp [crlf]
  have hlf : (∀ l ∈ (lines ++ [[]]).map (fun l => l ++ [cr]), lf ∉ l) ↔ ∀ l ∈ lines, lf ∉ l := by
    rw [List.forall_mem_map]
    simp [or_imp, forall_and, cr, lf]
  rw [ReadsAs, hflat, splitOn_flatMap_concat_iff, hlf, ← forall₂_and]
  exact forall₂_congr fun l _ => and_comm

/-- The bytes of a redirection are its header lines and an empty line. -/
theorem redirectOutput_flatten (c : Config) {r : Request} (location : List UInt8)
    (hout : r.outVec = []) {query : List UInt8}
    (hlen : r.headersIn.queryString.len = query.length)
    (hquery : r.b.deref r.headersIn.queryString = some query) :
    (redirectOutput c r location true).outVec.flatten =
      (redirectLines c r.keepalive location query ++ [[]]).flatMap fun l => l ++ crlf := by
  have hstatus : ascii "HTTP/1.1 301 Moved Permanently" =
      ascii "HTTP/1.1 " ++ httpStatusCode 301 := rfl
  have htype : ascii "Content-Type: text/html" =
      ascii "Content-Type: " ++ httpErrorContentType := rfl
  have hlength : ascii "Content-Length: 0" =
      ascii "Content-Length: " ++ int64ToStr (int64 0) 10 := by decide
  by_cases hnil : query = []
  · cases hk : r.keepalive <;>
      simp [redirectOutput, httpAppendHeaders, httpAppendToOutputBuf, httpHeaders, hout, hlen,
        hnil, hk, redirectLines, hstatus, htype, hlength]
  · cases hk : r.keepalive <;>
      simp [redirectOutput, httpAppendHeaders, httpAppendToOutputBuf, httpHeaders, hout, hlen,
        hquery, hnil, hk, redirectLines, hstatus, htype, hlength]

/-- Only the query can bring a line end into the header lines. -/
theorem redirectLines_noLineEnd_iff (c : Config) (keepalive : Bool) {location : List UInt8}
    (hloc : cr ∉ location ∧ lf ∉ location) (query : List UInt8) :
    (∀ l ∈ redirectLines c keepalive location query, cr ∉ l ∧ lf ∉ l) ↔
      cr ∉ query ∧ lf ∉ query := by
  have hdigits : cr ∉ c.keepaliveTimeout ∧ lf ∉ c.keepaliveTimeout :=
    ⟨fun h => absurd (c.digits _ h) (by decide), fun h => absurd (c.digits _ h) (by decide)⟩
  have hfixed : ∀ l ∈ [ascii "HTTP/1.1 301 Moved Permanently", headerServerString,
      ascii "Content-Type: text/html", ascii "Content-Length: 0", ascii "Connection: keep-alive",
      ascii "Connection: close", ascii "Keep-Alive: timeout=", ascii "Location: "],
      cr ∉ l ∧ lf ∉ l := by decide
  have hquestion : cr ≠ question ∧ lf ≠ question := by decide
  simp only [List.forall_mem_cons] at hfixed
  by_cases hnil : query = []
  · cases keepalive <;> simp [redirectLines, hnil, hfixed, hdigits, hloc]
  · cases keepalive <;> simp [redirectLines, hnil, hfixed, hdigits, hloc, hquestion]

/-- The header block of a redirection has exactly the intended lines if and only
if the query of the request has neither a carriage return nor a line feed. -/
theorem redirectOutput_readsAs_iff (c : Config) {r r' : Request} {q : ParsedRequest}
    (hout : r.outVec = []) (hq : httpParseHeaders r.b.mem = .ok q) (keepalive : Bool)
    (hdivide : (r.storeParsed q keepalive).divideUri = some r') {uriMap : List UriMap}
    (hmap : ∀ x ∈ uriMap, cr ∉ x.uri ∧ lf ∉ x.uri) {location : List UInt8}
    (hroute : httpRoute r'.headersIn.path uriMap = .redirect location) :
    ReadsAs (redirectOutput c r' location true).outVec.flatten
        (redirectLines c r'.keepalive location (uriQuery (requestUri r.b.mem).tail)) ↔
      cr ∉ uriQuery (requestUri r.b.mem).tail ∧ lf ∉ uriQuery (requestUri r.b.mem).tail := by
  obtain ⟨hlen, hquery⟩ := (parsedIn_storeParsed r q keepalive).divideUri_query hdivide
  have hout' : r'.outVec = [] := by
    rw [Request.divideUri, Option.bind_eq_some_iff] at hdivide
    obtain ⟨uri, -, hmap⟩ := hdivide
    obtain ⟨u, -, rfl⟩ := Option.map_eq_some_iff.1 hmap
    exact hout
  obtain ⟨x, hx, rfl⟩ := mem_of_httpRoute_eq_redirect hroute
  rw [← httpParseHeaders_ok_uri hq, redirectOutput_flatten c x.uri hout' hlen hquery, readsAs_iff]
  exact redirectLines_noLineEnd_iff c r'.keepalive (hmap x hx) _

/-- A request whose buffer holds `m`. -/
def holding (m : List UInt8) : Request :=
  { zeroed with b := ⟨m.length, httpBufferReservedSize, 0, m⟩ }

/-- The block of a `GET` of `/a` with the given query. -/
def getWithQuery (query : List UInt8) : List UInt8 :=
  ascii "GET /a?" ++ (query ++ (ascii " HTTP/1.1" ++ (crlf ++ [1, lf])))

/-- What the parser makes of it. -/
def parsedWithQuery (query : List UInt8) : ParsedRequest :=
  ⟨.get, ascii "/a?" ++ query, ascii "1.1", lf, [], [1, lf]⟩

/-- The request when it is redirected. -/
def dividedWithQuery (query : List UInt8) : Request :=
  (((holding (getWithQuery query)).storeParsed (parsedWithQuery query) false).divideUri).getD zeroed

/-- A query that holds a line end and a header line. -/
def splittingQuery : List UInt8 := crlf ++ ascii "Set-Cookie:x"

/-- The redirection of a request with a plain query. -/
theorem redirectOutput_readsAs_iff_plain :
    ReadsAs
      (redirectOutput defaultConfig (dividedWithQuery (ascii "x=1")) (ascii "/a/")
        true).outVec.flatten
      (redirectLines defaultConfig (dividedWithQuery (ascii "x=1")).keepalive (ascii "/a/")
        (uriQuery (requestUri (holding (getWithQuery (ascii "x=1"))).b.mem).tail)) := by
  have hq : httpParseHeaders (holding (getWithQuery (ascii "x=1"))).b.mem =
      .ok (parsedWithQuery (ascii "x=1")) := by decide +kernel
  have hdivide : ((holding (getWithQuery (ascii "x=1"))).storeParsed
      (parsedWithQuery (ascii "x=1")) false).divideUri =
        some (dividedWithQuery (ascii "x=1")) := by decide +kernel
  have hmap : ∀ x ∈ [(⟨ascii "/a/", 0, false, true⟩ : UriMap)], cr ∉ x.uri ∧ lf ∉ x.uri := by
    decide +kernel
  have hroute : httpRoute (dividedWithQuery (ascii "x=1")).headersIn.path
      [⟨ascii "/a/", 0, false, true⟩] = .redirect (ascii "/a/") := by decide +kernel
  exact (redirectOutput_readsAs_iff defaultConfig rfl hq false hdivide hmap hroute).2
    (by decide +kernel)

/-- With a line end in the query the client chooses a header line. -/
theorem redirectOutput_not_readsAs :
    httpParseHeaders (holding (getWithQuery splittingQuery)).b.mem =
        .ok (parsedWithQuery splittingQuery) ∧
      ((holding (getWithQuery splittingQuery)).storeParsed
        (parsedWithQuery splittingQuery) false).divideUri =
          some (dividedWithQuery splittingQuery) ∧
      httpRoute (dividedWithQuery splittingQuery).headersIn.path
        [⟨ascii "/a/", 0, false, true⟩] = .redirect (ascii "/a/") ∧
      ascii "Set-Cookie:x" ++ [cr] ∈
        (redirectOutput defaultConfig (dividedWithQuery splittingQuery) (ascii "/a/")
          true).outVec.flatten.splitOn lf ∧
      ¬ ReadsAs
        (redirectOutput defaultConfig (dividedWithQuery splittingQuery) (ascii "/a/")
          true).outVec.flatten
        (redirectLines defaultConfig false (ascii "/a/") splittingQuery) := by
  refine ⟨by decide +kernel, by decide +kernel, by decide +kernel, by decide +kernel, fun h => ?_⟩
  have hline : ascii "Location: " ++ (ascii "/a/" ++ question :: splittingQuery) ∈
      redirectLines defaultConfig false (ascii "/a/") splittingQuery := by decide +kernel
  exact absurd (h.2 _ hline) (by decide +kernel)

end OpenTube
