import OpenTube.Lib.Scan
import OpenTube.Common.Types

/-!
# Parsing the header block

`http_parse_headers` walks a pointer over the received bytes, in which the last
carriage return of the block was replaced by the byte `1`. The pointer is the
rest of the bytes from it on; `overrun` is the result of a read past what was
received. The parser edits the buffer in place, always at the pointer, so the
buffer it leaves behind is the concatenation of what each part writes back:
`ParsedRequest.mem`. The texts it records are slices of that buffer, given by
their offset and length.
-/

namespace OpenTube

open Scan

/-- The request method, as the three flags of `headers_in_t` record it. -/
inductive Method
  | get
  | post
  | head
deriving DecidableEq, Repr

/-- The bytes of the method and the space behind it. -/
def Method.text : Method → List UInt8
  | .get => ascii "GET "
  | .post => ascii "POST "
  | .head => ascii "HEAD "

/-- One header line: the lower-cased key, the number of spaces skipped after the
colon, and the value. -/
structure Line where
  key : List UInt8
  spaces : Nat
  value : List UInt8
deriving DecidableEq, Repr

/-- What the parser leaves in the buffer in place of the line. -/
def Line.written (l : Line) : List UInt8 :=
  l.key ++ nul :: (List.replicate l.spaces space ++ (l.value ++ [nul, lf]))

/-- The value of a connection header that asks for keep-alive: only its length,
its first and its tenth character are looked at. -/
def Line.isKeepAlive (l : Line) : Bool :=
  l.key = ascii "connection" && 9 < l.value.length &&
    (l.value[0]? = some 107 || l.value[0]? = some 75) &&
    (l.value[9]? = some 101 || l.value[9]? = some 69)

/-- The result of scanning a header key. -/
inductive KeyScan
  | overrun
  | bad
  | found (key rest : List UInt8)
deriving DecidableEq, Repr

/-- `for (key = p; *p != ':'; p++)`: every character has to be printable and is
lower-cased in place. -/
def scanKey : List UInt8 → KeyScan
  | [] => .overrun
  | c :: p =>
      if c = colon then .found [] (c :: p)
      else if isSym c then
        match scanKey p with
        | .found key rest => .found (toLower c :: key) rest
        | .bad => .bad
        | .overrun => .overrun
      else .bad

/-- The result of parsing header lines up to the byte `1`. -/
inductive Lines
  | overrun
  | bad (lines : List Line)
  | done (lines : List Line) (rest : List UInt8)
deriving DecidableEq, Repr

/-- Put a line in front of the lines behind it. -/
def Lines.cons (l : Line) : Lines → Lines
  | .overrun => .overrun
  | .bad ls => .bad (l :: ls)
  | .done ls rest => .done (l :: ls) rest

/-- The bytes of a line end. -/
def crlf : List UInt8 := [cr, lf]

/-- The result of parsing one header line. -/
inductive OneLine
  | overrun
  | bad
  | line (l : Line) (rest : List UInt8)
deriving DecidableEq, Repr

/-- The body of `while (*p != 1)`. -/
def parseLine (p : List UInt8) : OneLine :=
  match scanKey p with
  | .overrun => .overrun
  | .bad => .bad
  | .found key rest =>
      match scanTo (fun c => c != space) rest.tail with
      | none => .overrun
      | some (spaces, val) =>
          match scanToPat crlf val with
          | none => .overrun
          | some (value, rest) => .line ⟨key, spaces.length, value⟩ (rest.drop 2)

/-- The loop `while (*p != 1)`. The first argument bounds the number of lines;
the number of bytes left is always enough. -/
def parseLines : Nat → List UInt8 → Lines
  | 0, _ => .overrun
  | _ + 1, [] => .overrun
  | n + 1, c :: p =>
      if c = 1 then .done [] (c :: p)
      else
        match parseLine (c :: p) with
        | .overrun => .overrun
        | .bad => .bad []
        | .line l rest => (parseLines n rest).cons l

/-- An accepted header block. `gap` is the byte behind the carriage return that
ends the version, which is skipped unseen, and `rest` is what follows the last
line, from the byte `1` on. -/
structure ParsedRequest where
  method : Method
  uri : List UInt8
  version : List UInt8
  gap : UInt8
  lines : List Line
  rest : List UInt8
deriving DecidableEq, Repr

/-- The buffer as the parser leaves it. -/
def ParsedRequest.mem (q : ParsedRequest) : List UInt8 :=
  q.method.text ++ (q.uri ++ nul :: (ascii "HTTP/" ++ (q.version ++ nul :: q.gap ::
    (q.lines.flatMap Line.written ++ q.rest))))

/-- The result of `http_parse_headers`: an error comes with the header lines that
were parsed before it. -/
inductive HeadersResult
  | overrun
  | error (code : Nat) (lines : List Line)
  | ok (q : ParsedRequest)
deriving DecidableEq, Repr

/-- The part of `http_parse_headers` behind the version. -/
def parseBlock (method : Method) (uri version : List UInt8) (gap : UInt8)
    (p : List UInt8) : HeadersResult :=
  match parseLines (p.length + 1) p with
  | .overrun => .overrun
  | .bad ls => .error 400 ls
  | .done ls rest => .ok ⟨method, uri, version, gap, ls, rest⟩

/-- The part of `http_parse_headers` behind the method. -/
def parseRequestLine (method : Method) (p : List UInt8) : HeadersResult :=
  match p with
  | [] => .overrun
  | c :: _ =>
      if c ≠ slash then .error 400 []
      else
        match scanTo (fun c => c == space) p with
        | none => .overrun
        | some (uri, rest) =>
            match matchAt (ascii "HTTP/") rest.tail with
            | none => .overrun
            | some none => .error 400 []
            | some (some v) =>
                match scanTo (fun c => c == cr) v with
                | some (version, _ :: gap :: p) => parseBlock method uri version gap p
                | _ => .overrun

/-- The chain of tests for the method: the first of the given methods the bytes
begin with, and what follows it. -/
def parseMethod (m : List UInt8) : List Method → Option (Option (Method × List UInt8))
  | [] => some none
  | k :: ks =>
      match matchAt k.text m with
      | none => none
      | some (some p) => some (some (k, p))
      | some none => parseMethod m ks

/-- `http_parse_headers` on the received bytes. -/
def httpParseHeaders (m : List UInt8) : HeadersResult :=
  match parseMethod m [.get, .post, .head] with
  | none => .overrun
  | some none => .error 501 []
  | some (some (method, p)) => parseRequestLine method p

/-! ## Continuing the received bytes

A result that was reached inside the received bytes does not change when more
bytes follow them. -/

/-- The same result with more bytes behind the rest. -/
def KeyScan.append (x : List UInt8) : KeyScan → KeyScan
  | .found key rest => .found key (rest ++ x)
  | s => s

/-- The same result with more bytes behind the rest. -/
def OneLine.append (x : List UInt8) : OneLine → OneLine
  | .line l rest => .line l (rest ++ x)
  | s => s

/-- The same result with more bytes behind the rest. -/
def Lines.append (x : List UInt8) : Lines → Lines
  | .done ls rest => .done ls (rest ++ x)
  | s => s

/-- The same result with more bytes behind the rest. -/
def HeadersResult.append (x : List UInt8) : HeadersResult → HeadersResult
  | .ok q => .ok { q with rest := q.rest ++ x }
  | s => s

theorem scanKey_append (x : List UInt8) {p : List UInt8} (h : scanKey p ≠ .overrun) :
    scanKey (p ++ x) = (scanKey p).append x := by
  induction p with
  | nil => simp [scanKey] at h
  | cons c p ih =>
      rw [List.cons_append, scanKey, scanKey]
      rw [scanKey] at h
      by_cases hc : c = colon
      · simp [hc, KeyScan.append]
      · by_cases hs : isSym c = true
        · have hp : scanKey p ≠ .overrun := by
            intro hp
            simp [hc, hs, hp] at h
          rw [ih hp]
          simp only [hc, hs, if_true, if_false]
          cases hk : scanKey p <;> simp [KeyScan.append]
        · simp [hc, hs, KeyScan.append]

/-- The key ends at the colon it was scanned to. -/
theorem scanKey_found {p key rest : List UInt8} (h : scanKey p = .found key rest) :
    ∃ k t, p = k ++ colon :: t ∧ rest = colon :: t ∧ key = k.map toLower ∧
      ∀ c ∈ k, isSym c = true ∧ c ≠ colon := by
  induction p generalizing key with
  | nil => simp [scanKey] at h
  | cons c p ih =>
      rw [scanKey] at h
      by_cases hc : c = colon
      · simp only [hc, if_true, KeyScan.found.injEq] at h
        obtain ⟨rfl, rfl⟩ := h
        exact ⟨[], p, by simp [hc], rfl, rfl, by simp⟩
      · by_cases hs : isSym c = true
        · cases hk : scanKey p with
          | overrun => simp [hc, hs, hk] at h
          | bad => simp [hc, hs, hk] at h
          | found key' rest' =>
              simp only [hc, hs, hk, if_true, if_false, KeyScan.found.injEq] at h
              obtain ⟨rfl, rfl⟩ := h
              obtain ⟨k, t, rfl, rfl, rfl, hk'⟩ := ih hk
              exact ⟨c :: k, t, rfl, rfl, rfl, by simpa [hc, hs] using hk'⟩
        · simp [hc, hs] at h

/-- A parsed line is a key, a colon, spaces, a value and a line end. -/
theorem parseLine_line {p rest : List UInt8} {l : Line} (h : parseLine p = .line l rest) :
    ∃ k, p = k ++ colon :: (List.replicate l.spaces space ++ (l.value ++ cr :: lf :: rest)) ∧
      l.key = k.map toLower := by
  unfold parseLine at h
  split at h
  · simp at h
  · simp at h
  rename_i key r hkey
  obtain ⟨k, t, rfl, rfl, rfl, -⟩ := scanKey_found hkey
  split at h
  · simp at h
  rename_i spaces val hsp
  split at h
  · simp at h
  rename_i value tail hval
  simp only [OneLine.line.injEq] at h
  obtain ⟨rfl, rfl⟩ := h
  obtain ⟨rfl, hspaces, -⟩ := (scanTo_eq_some_iff _ _ _ _).1 hsp
  obtain ⟨rfl, -, ⟨u, rfl⟩, -⟩ := (scanToPat_eq_some_iff _ _ _ _).1 hval
  have hrep : spaces = List.replicate spaces.length space :=
    List.eq_replicate_iff.2 ⟨rfl, fun c hc => by simpa using hspaces c hc⟩
  refine ⟨k, ?_, rfl⟩
  rw [← hrep]
  simp [crlf]

theorem parseLine_append (x : List UInt8) {p : List UInt8} (h : parseLine p ≠ .overrun) :
    parseLine (p ++ x) = (parseLine p).append x := by
  unfold parseLine at h ⊢
  have hk : scanKey p ≠ .overrun := by
    intro hk
    simp [hk] at h
  rw [scanKey_append x hk]
  cases hs : scanKey p with
  | overrun => exact absurd hs hk
  | bad => rfl
  | found key rest =>
      obtain ⟨k, t, -, rfl, -, -⟩ := scanKey_found hs
      simp only [hs, KeyScan.append, List.cons_append, List.tail_cons] at h ⊢
      cases hsp : scanTo (fun c => c != space) t with
      | none => simp [hsp] at h
      | some r =>
          obtain ⟨spaces, val⟩ := r
          rw [scanTo_append x hsp]
          simp only [hsp] at h ⊢
          cases hv : scanToPat crlf val with
          | none => simp [hv] at h
          | some r =>
              obtain ⟨value, tail⟩ := r
              obtain ⟨-, -, ⟨u, rfl⟩, -⟩ := (scanToPat_eq_some_iff _ _ _ _).1 hv
              rw [scanToPat_append x hv]
              simp [OneLine.append, crlf]

theorem Lines.cons_append (x : List UInt8) (l : Line) (ls : Lines) :
    (ls.append x).cons l = (ls.cons l).append x := by
  cases ls <;> rfl

theorem Lines.cons_eq_overrun_iff (l : Line) (ls : Lines) :
    ls.cons l = .overrun ↔ ls = .overrun := by
  cases ls <;> simp [Lines.cons]

theorem parseLines_append (x : List UInt8) :
    ∀ (n k : Nat) (p : List UInt8), parseLines n p ≠ .overrun → n ≤ k →
      parseLines k (p ++ x) = (parseLines n p).append x := by
  intro n
  induction n with
  | zero =>
      intro k p h
      simp [parseLines] at h
  | succ n ih =>
      intro k p h hk
      obtain ⟨k, rfl⟩ : ∃ k', k = k' + 1 := ⟨k - 1, by omega⟩
      cases p with
      | nil => simp [parseLines] at h
      | cons c p =>
          simp only [List.cons_append, parseLines] at h ⊢
          by_cases hc : c = 1
          · simp [hc, Lines.append]
          · simp only [hc, if_false] at h ⊢
            have hl : parseLine (c :: p) ≠ .overrun := by
              intro hl
              simp [hl] at h
            rw [← List.cons_append, parseLine_append x hl]
            cases hline : parseLine (c :: p) with
            | overrun => exact absurd hline hl
            | bad => rfl
            | line l rest =>
                simp only [hline, OneLine.append, ne_eq, Lines.cons_eq_overrun_iff] at h ⊢
                rw [ih k rest h (by omega), Lines.cons_append]

theorem parseBlock_append (x : List UInt8) {method : Method} {uri version : List UInt8}
    {gap : UInt8} {p : List UInt8} (h : parseBlock method uri version gap p ≠ .overrun) :
    parseBlock method uri version gap (p ++ x) =
      (parseBlock method uri version gap p).append x := by
  unfold parseBlock at h ⊢
  have hl : parseLines (p.length + 1) p ≠ .overrun := by
    intro hl
    simp [hl] at h
  rw [parseLines_append x _ ((p ++ x).length + 1) p hl (by simp)]
  cases hs : parseLines (p.length + 1) p with
  | overrun => exact absurd hs hl
  | bad ls => rfl
  | done ls rest => rfl

theorem parseRequestLine_append (x : List UInt8) {method : Method} {p : List UInt8}
    (h : parseRequestLine method p ≠ .overrun) :
    parseRequestLine method (p ++ x) = (parseRequestLine method p).append x := by
  cases p with
  | nil => simp [parseRequestLine] at h
  | cons c p =>
      simp only [parseRequestLine, List.cons_append] at h ⊢
      by_cases hc : c = slash
      · simp only [hc, ne_eq, not_true_eq_false, if_false] at h ⊢
        cases hu : scanTo (fun c => c == space) (slash :: p) with
        | none => simp [hu] at h
        | some r =>
            obtain ⟨uri, rest⟩ := r
            obtain ⟨-, -, sp, t, rfl, -⟩ := (scanTo_eq_some_iff _ _ _ _).1 hu
            rw [← List.cons_append, scanTo_append x hu]
            simp only [hu, List.cons_append, List.tail_cons] at h ⊢
            cases hm : matchAt (ascii "HTTP/") t with
            | none => simp [hm] at h
            | some o =>
                rw [matchAt_append x hm]
                cases o with
                | none => rfl
                | some v =>
                    simp only [hm, Option.map_some] at h ⊢
                    cases hv : scanTo (fun c => c == cr) v with
                    | none => simp [hv] at h
                    | some r =>
                        rw [scanTo_append x hv]
                        obtain ⟨version, tail⟩ := r
                        rcases tail with _ | ⟨a, _ | ⟨gap, tail⟩⟩
                        · simp [hv] at h
                        · simp [hv] at h
                        · simp only [hv, List.cons_append] at h ⊢
                          exact parseBlock_append x h
      · simp [hc, HeadersResult.append]

theorem parseMethod_append (x : List UInt8) {m : List UInt8} {ks : List Method}
    {o : Option (Method × List UInt8)} (h : parseMethod m ks = some o) :
    parseMethod (m ++ x) ks = some (o.map fun kp => (kp.1, kp.2 ++ x)) := by
  induction ks with
  | nil =>
      obtain rfl := Option.some.inj h
      rfl
  | cons k ks ih =>
      rw [parseMethod] at h ⊢
      cases hk : matchAt k.text m with
      | none => simp [hk] at h
      | some p =>
          rw [matchAt_append x hk]
          cases p with
          | none =>
              simp only [hk] at h
              exact ih h
          | some p =>
              simp only [hk, Option.some.injEq] at h
              subst h
              rfl

/-- A header block that is parsed inside the received bytes is parsed alike when
more bytes follow. -/
theorem httpParseHeaders_append (x : List UInt8) {m : List UInt8}
    (h : httpParseHeaders m ≠ .overrun) :
    httpParseHeaders (m ++ x) = (httpParseHeaders m).append x := by
  unfold httpParseHeaders at h ⊢
  cases hm : parseMethod m [.get, .post, .head] with
  | none => simp [hm] at h
  | some o =>
      rw [parseMethod_append x hm]
      cases o with
      | none => rfl
      | some kp =>
          simp only [hm, Option.map_some] at h ⊢
          exact parseRequestLine_append x h

/-! ## The parsed parts and the received bytes -/

theorem parseMethod_some {m p : List UInt8} {k : Method} {ks : List Method}
    (h : parseMethod m ks = some (some (k, p))) : m = k.text ++ p := by
  induction ks with
  | nil => simp [parseMethod] at h
  | cons k' ks ih =>
      rw [parseMethod] at h
      cases hk : matchAt k'.text m with
      | none => simp [hk] at h
      | some o =>
          cases o with
          | none =>
              simp only [hk] at h
              exact ih h
          | some p' =>
              simp only [hk, Option.some.injEq, Prod.mk.injEq] at h
              obtain ⟨rfl, rfl⟩ := h
              exact (matchAt_eq_some_some_iff _ _ _).1 hk

/-- The lines are written back over the bytes they were read from. -/
theorem parseLines_done_length :
    ∀ (n : Nat) (p rest : List UInt8) (ls : List Line), parseLines n p = .done ls rest →
      p.length = (ls.flatMap Line.written).length + rest.length := by
  intro n
  induction n with
  | zero =>
      intro p rest ls h
      simp [parseLines] at h
  | succ n ih =>
      intro p rest ls h
      cases p with
      | nil => simp [parseLines] at h
      | cons c p =>
          rw [parseLines] at h
          by_cases hc : c = 1
          · simp only [hc, if_true, Lines.done.injEq] at h
            obtain ⟨rfl, rfl⟩ := h
            simp
          · simp only [hc, if_false] at h
            cases hl : parseLine (c :: p) with
            | overrun => simp [hl] at h
            | bad => simp [hl] at h
            | line l tail =>
                simp only [hl] at h
                cases hs : parseLines n tail with
                | overrun => simp [hs, Lines.cons] at h
                | bad ls => simp [hs, Lines.cons] at h
                | done ls' rest' =>
                    simp only [hs, Lines.cons, Lines.done.injEq] at h
                    obtain ⟨rfl, rfl⟩ := h
                    have htail := ih tail rest' ls' hs
                    obtain ⟨k, hk, hkey⟩ := parseLine_line hl
                    rw [hk]
                    simp only [List.length_append, List.length_cons, List.length_replicate,
                      List.flatMap_cons, Line.written, hkey, List.length_map,
                      List.length_nil] at htail ⊢
                    omega

/-- The parts of an accepted block, in the order they were received. -/
theorem httpParseHeaders_ok {m : List UInt8} {q : ParsedRequest}
    (h : httpParseHeaders m = .ok q) :
    ∃ p, m = q.method.text ++ (q.uri ++ space ::
      (ascii "HTTP/" ++ (q.version ++ cr :: q.gap :: p))) ∧
      q.uri.head? = some slash ∧ space ∉ q.uri ∧ cr ∉ q.version ∧
      parseLines (p.length + 1) p = .done q.lines q.rest := by
  unfold httpParseHeaders at h
  split at h
  · simp at h
  · simp at h
  rename_i method p hmethod
  have hm := parseMethod_some hmethod
  cases p with
  | nil => simp [parseRequestLine] at h
  | cons c p =>
      rw [parseRequestLine] at h
      by_cases hc : c = slash
      · simp only [hc, ne_eq, not_true_eq_false, if_false] at h hm
        split at h
        · simp at h
        rename_i uri rest hu
        obtain ⟨hp, hspace, sp, t, rfl, hsp⟩ := (scanTo_eq_some_iff _ _ _ _).1 hu
        obtain rfl : sp = space := by simpa using hsp
        rw [List.tail_cons] at h
        split at h
        · simp at h
        · simp at h
        rename_i v hv
        obtain rfl := (matchAt_eq_some_some_iff _ _ _).1 hv
        split at h
        · rename_i version cr' gap p' hver
          obtain ⟨rfl, hcr, c', t', htail, hc'⟩ := (scanTo_eq_some_iff _ _ _ _).1 hver
          obtain ⟨rfl, rfl⟩ := List.cons_eq_cons.1 htail
          obtain rfl : cr' = cr := by simpa using hc'
          unfold parseBlock at h
          split at h
          · simp at h
          · simp at h
          rename_i ls rest' hls
          obtain rfl : ParsedRequest.mk method uri version gap ls rest' = q := by
            simpa using h
          refine ⟨p', by rw [hm, hp], ?_, ?_, ?_, hls⟩
          · cases uri with
            | nil => simp [slash, space] at hp
            | cons u uri => simpa using (List.cons_eq_cons.1 hp).1.symm
          · exact fun hmem => by simpa using hspace space hmem
          · exact fun hmem => by simpa using hcr cr hmem
        · simp at h
      · simp [hc] at h

/-- The parser edits the buffer in place, so its length stays. -/
theorem httpParseHeaders_ok_length {m : List UInt8} {q : ParsedRequest}
    (h : httpParseHeaders m = .ok q) : q.mem.length = m.length := by
  obtain ⟨p, hm, -, -, -, hls⟩ := httpParseHeaders_ok h
  have hlen := parseLines_done_length _ p q.rest q.lines hls
  rw [hm]
  simp only [ParsedRequest.mem, List.length_append, List.length_cons, hlen]

theorem httpParseHeaders_ok_uri_ne_nil {m : List UInt8} {q : ParsedRequest}
    (h : httpParseHeaders m = .ok q) : q.uri ≠ [] := by
  obtain ⟨p, -, huri, -⟩ := httpParseHeaders_ok h
  intro hnil
  simp [hnil] at huri

end OpenTube
