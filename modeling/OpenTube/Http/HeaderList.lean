import Mathlib.Data.List.TakeWhile
import OpenTube.Http.Accept

/-!
# Header lines one behind the other

The loop of `http_parse_headers` over the header lines, on texts of lines. A line
is cut at its first colon and its value at the first line end; a key with a
character that is not printable is refused, and the byte `1` in the place of a
key ends the list. The terminator of the block is marked with this byte, but a
line of the client may begin with it as well.

`LinesStop` is the grammar of the texts the loop stops in. With it
`staysInside_iff` says in which received bytes the whole parser stops, and
`listExact_iff` for which lines the list of headers is the list of lines.
-/

namespace OpenTube

open Scan

/-! ## One line -/

/-- What stands in front of the first colon. -/
def lineKey (l : List UInt8) : List UInt8 := l.takeWhile fun c => c != colon

/-- What stands behind the first colon, without the spaces at its front. -/
def lineValue (l : List UInt8) : List UInt8 :=
  (l.drop ((lineKey l).length + 1)).dropWhile fun c => c == space

/-- A line with a colon and a key of printable characters. -/
def WellFormedLine (l : List UInt8) : Prop :=
  colon ∈ l ∧ ∀ c ∈ lineKey l, isSym c = true

instance (l : List UInt8) : Decidable (WellFormedLine l) :=
  inferInstanceAs (Decidable (_ ∧ _))

/-- A key as the scan passes over it. -/
def KeyText (k : List UInt8) : Prop := ∀ c ∈ k, isSym c = true ∧ c ≠ colon

theorem isSym_colon : isSym colon = true := by decide

theorem isSym_one : isSym 1 = false := by decide

theorem isSym_cr : isSym cr = false := by decide

theorem scanKey_colon {k : List UInt8} (hk : KeyText k) (t : List UInt8) :
    scanKey (k ++ colon :: t) = .found (k.map toLower) (colon :: t) := by
  induction k with
  | nil => simp [scanKey]
  | cons c k ih =>
      obtain ⟨hsym, hcolon⟩ := hk c List.mem_cons_self
      have hrest := ih fun d hd => hk d (List.mem_cons_of_mem c hd)
      simp [scanKey, hsym, hcolon, hrest]

theorem scanKey_refused {k : List UInt8} (hk : KeyText k) {c : UInt8} (hc : isSym c = false)
    (t : List UInt8) : scanKey (k ++ c :: t) = .bad := by
  have hcolon : c ≠ colon := by
    rintro rfl
    rw [isSym_colon] at hc
    cases hc
  induction k with
  | nil => simp [scanKey, hc, hcolon]
  | cons d k ih =>
      obtain ⟨hsym, hne⟩ := hk d List.mem_cons_self
      have hrest := ih fun x hx => hk x (List.mem_cons_of_mem d hx)
      simp [scanKey, hsym, hne, hrest]

/-- A scan that is refused met a character that is not printable. -/
theorem scanKey_eq_bad {p : List UInt8} (h : scanKey p = .bad) :
    ∃ k c t, p = k ++ c :: t ∧ KeyText k ∧ isSym c = false := by
  induction p with
  | nil => simp [scanKey] at h
  | cons c p ih =>
      rw [scanKey] at h
      by_cases hc : c = colon
      · simp [hc] at h
      · by_cases hs : isSym c = true
        · cases hp : scanKey p with
          | overrun => simp [hc, hs, hp] at h
          | found key rest => simp [hc, hs, hp] at h
          | bad =>
              obtain ⟨k, d, t, rfl, hk, hd⟩ := ih hp
              refine ⟨c :: k, d, t, rfl, ?_, hd⟩
              intro x hx
              rcases List.mem_cons.1 hx with rfl | hx
              · exact ⟨hs, hc⟩
              · exact hk x hx
        · exact ⟨[], c, p, rfl, by simp [KeyText], by simpa using hs⟩

/-- A text without a line end is passed over up to the line end behind it. -/
theorem scanToPat_lineEnd {v : List UInt8} (hv : ¬ crlf <:+: v) (x : List UInt8) :
    scanToPat crlf (v ++ cr :: lf :: x) = some (v, cr :: lf :: x) := by
  refine (scanToPat_eq_some_iff _ _ _ _).2 ⟨rfl, by simp, ⟨x, rfl⟩, ?_⟩
  rintro a b rfl hb hpre
  rcases b with _ | ⟨c, _ | ⟨d, b⟩⟩
  · exact hb rfl
  · simp [crlf, cr, lf] at hpre
  · refine hv ⟨a, b, ?_⟩
    simp only [crlf, List.cons_append, List.cons_prefix_cons, List.nil_prefix, and_true] at hpre
    simp [crlf, hpre]

/-- The spaces in front of a value are passed over. -/
theorem scanTo_value (v x : List UInt8) :
    scanTo (fun c => c != space) (v ++ cr :: x) =
      some (v.takeWhile (fun c => c == space), v.dropWhile (fun c => c == space) ++ cr :: x) := by
  induction v with
  | nil => simp [scanTo, cr, space]
  | cons c v ih =>
      by_cases hc : c = space
      · simp [scanTo, hc, ih]
      · simp [scanTo, hc]

theorem not_infix_dropWhile {v : List UInt8} (hv : ¬ crlf <:+: v) (p : UInt8 → Bool) :
    ¬ crlf <:+: v.dropWhile p :=
  fun h => hv (h.trans (List.dropWhile_suffix p).isInfix)

/-- A key, a colon and a value make a line. -/
theorem parseLine_text {k v : List UInt8} (hk : KeyText k) (hv : ¬ crlf <:+: v) (x : List UInt8) :
    parseLine (k ++ colon :: (v ++ cr :: lf :: x)) =
      .line ⟨k.map toLower, (v.takeWhile fun c => c == space).length,
        v.dropWhile fun c => c == space⟩ x := by
  have hvalue := scanToPat_lineEnd (not_infix_dropWhile hv fun c => c == space) x
  simp [parseLine, scanKey_colon hk, scanTo_value, hvalue]

theorem parseLine_refused {k : List UInt8} (hk : KeyText k) {c : UInt8} (hc : isSym c = false)
    (t : List UInt8) : parseLine (k ++ c :: t) = .bad := by
  rw [parseLine, scanKey_refused hk hc]

/-- A line is taken from a key, a colon and a value without a line end. -/
theorem parseLine_line_text {p rest : List UInt8} {l : Line} (h : parseLine p = .line l rest) :
    ∃ k v, p = k ++ colon :: (v ++ cr :: lf :: rest) ∧ KeyText k ∧ ¬ crlf <:+: v := by
  unfold parseLine at h
  split at h
  · simp at h
  · simp at h
  rename_i key r hkey
  obtain ⟨k, t, rfl, rfl, -, hk⟩ := scanKey_found hkey
  simp only [List.tail_cons] at h
  split at h
  · simp at h
  rename_i spaces val hsp
  split at h
  · simp at h
  rename_i value tail hval
  simp only [OneLine.line.injEq] at h
  obtain ⟨-, rfl⟩ := h
  obtain ⟨rfl, hspaces, -⟩ := (scanTo_eq_some_iff _ _ _ _).1 hsp
  obtain ⟨rfl, -, ⟨u, rfl⟩, hfirst⟩ := (scanToPat_eq_some_iff _ _ _ _).1 hval
  refine ⟨k, spaces ++ value, by simp [crlf], hk, ?_⟩
  rintro ⟨a, b, hab⟩
  -- the carriage return of a line end is not one of the spaces, so it lies in the value
  have hcr : cr ∉ spaces := fun hmem => by simpa [cr, space] using hspaces cr hmem
  rw [List.append_assoc] at hab
  rcases List.append_eq_append_iff.1 hab with ⟨c, rfl, hc⟩ | ⟨c, rfl, hc⟩
  · rcases c with _ | ⟨d, c⟩
    · exact hfirst [] value rfl (by rintro rfl; simp [crlf] at hc)
        ⟨b ++ (crlf ++ u), by simp only [List.nil_append] at hc; simp [← hc]⟩
    · simp only [crlf, List.cons_append, List.cons.injEq] at hc
      exact hcr (by simp [hc.1])
  · exact hfirst c (crlf ++ b) hc (by simp [crlf]) ⟨b ++ (crlf ++ u), by simp⟩

/-! ## Where the loop stops -/

/-- The loop over the lines stops in a text: complete lines, and behind them the
byte `1` or a key with a character that is not printable. -/
inductive LinesStop : List UInt8 → Prop
  | mark (x : List UInt8) : LinesStop (1 :: x)
  | refused {k : List UInt8} (hk : KeyText k) {c : UInt8} (hc : isSym c = false) (x : List UInt8) :
      LinesStop (k ++ c :: x)
  | line {k v x : List UInt8} (hk : KeyText k) (hv : ¬ crlf <:+: v) (hx : LinesStop x) :
      LinesStop (k ++ colon :: (v ++ cr :: lf :: x))

theorem linesStop_of_parseLines :
    ∀ (n : Nat) (p : List UInt8), parseLines n p ≠ .overrun → LinesStop p
  | 0, _, h => absurd rfl h
  | _ + 1, [], h => absurd rfl h
  | n + 1, c :: p, h => by
      rw [parseLines] at h
      by_cases hc : c = 1
      · rw [hc]
        exact .mark p
      · rw [if_neg hc] at h
        cases hl : parseLine (c :: p) with
        | overrun => simp [hl] at h
        | bad =>
            have hkey : scanKey (c :: p) = .bad := by
              unfold parseLine at hl
              split at hl
              · simp at hl
              · assumption
              · split at hl
                · simp at hl
                · split at hl <;> simp at hl
            obtain ⟨k, d, t, hp, hk, hd⟩ := scanKey_eq_bad hkey
            rw [hp]
            exact .refused hk hd t
        | line l rest =>
            obtain ⟨k, v, hp, hk, hv⟩ := parseLine_line_text hl
            simp only [hl, ne_eq, Lines.cons_eq_overrun_iff] at h
            rw [hp]
            exact .line hk hv (linesStop_of_parseLines n rest h)

/-- A key does not begin with the mark. -/
theorem head?_ne_mark {k : List UInt8} (hk : KeyText k) {c : UInt8} (hc : c ≠ 1) (t : List UInt8) :
    (k ++ c :: t).head? ≠ some 1 := by
  cases k with
  | nil => simpa using hc
  | cons d k =>
      have hsym := (hk d List.mem_cons_self).1
      have hd : d ≠ 1 := by
        rintro rfl
        rw [isSym_one] at hsym
        cases hsym
      simpa using hd

theorem parseLines_mark (n : Nat) (x : List UInt8) :
    parseLines (n + 1) (1 :: x) = .done [] (1 :: x) := by
  simp [parseLines]

theorem parseLines_of_bad {p : List UInt8} (hp : p.head? ≠ some 1) (h : parseLine p = .bad)
    (n : Nat) : parseLines (n + 1) p = .bad [] := by
  cases p with
  | nil => simp [parseLine, scanKey] at h
  | cons c p =>
      have hc : c ≠ 1 := by simpa using hp
      simp [parseLines, hc, h]

theorem parseLines_of_line {p rest : List UInt8} {l : Line} (hp : p.head? ≠ some 1)
    (h : parseLine p = .line l rest) (n : Nat) :
    parseLines (n + 1) p = (parseLines n rest).cons l := by
  cases p with
  | nil => simp [parseLine, scanKey] at h
  | cons c p =>
      have hc : c ≠ 1 := by simpa using hp
      simp [parseLines, hc, h]

theorem LinesStop.parseLines_ne_overrun {p : List UInt8} (h : LinesStop p) :
    ∀ n, p.length < n → parseLines n p ≠ .overrun := by
  induction h with
  | mark x =>
      rintro (_ | n) hn
      · omega
      · simp [parseLines_mark]
  | @refused k hk c hc x =>
      rintro (_ | n) hn
      · omega
      · by_cases hmark : (k ++ c :: x).head? = some 1
        · obtain ⟨t, ht⟩ := List.head?_eq_some_iff.1 hmark
          simp [ht, parseLines_mark]
        · simp [parseLines_of_bad hmark (parseLine_refused hk hc x)]
  | @line k v x hk hv hx ih =>
      rintro (_ | n) hn
      · omega
      · simp only [List.length_append, List.length_cons] at hn
        rw [parseLines_of_line (head?_ne_mark hk (by decide) _) (parseLine_text hk hv x)]
        simp only [ne_eq, Lines.cons_eq_overrun_iff]
        exact ih n (by omega)

theorem parseBlock_ne_overrun_iff (method : Method) (uri version : List UInt8) (gap : UInt8)
    (p : List UInt8) : parseBlock method uri version gap p ≠ .overrun ↔ LinesStop p := by
  have hlines : parseBlock method uri version gap p ≠ .overrun ↔
      parseLines (p.length + 1) p ≠ .overrun := by
    unfold parseBlock
    cases parseLines (p.length + 1) p <;> simp
  rw [hlines]
  exact ⟨linesStop_of_parseLines _ p, fun h => h.parseLines_ne_overrun _ (by omega)⟩

/-! ## Where the parser stops -/

/-- Behind the URI the parser stops: at a byte that differs from `HTTP/`, or in
the lines behind a version that is ended by a carriage return. -/
def VersionStops (v : List UInt8) : Prop :=
  (¬ v <+: ascii "HTTP/" ∧ ¬ ascii "HTTP/" <+: v) ∨
    ∃ version gap p, v = ascii "HTTP/" ++ (version ++ cr :: gap :: p) ∧ cr ∉ version ∧ LinesStop p

/-- The URI is ended by a space, and the parser stops behind it. -/
def UriStops (t : List UInt8) : Prop :=
  ∃ u v, t = u ++ space :: v ∧ space ∉ u ∧ VersionStops v

theorem uriStops_append {u : List UInt8} (hu : space ∉ u) (v : List UInt8) :
    UriStops (u ++ space :: v) ↔ VersionStops v := by
  constructor
  · rintro ⟨u', v', heq, hu', hv'⟩
    obtain ⟨-, rfl⟩ := append_cons_inj hu hu' heq
    exact hv'
  · intro hv
    exact ⟨u, v, rfl, hu, hv⟩

/-- Bytes without a space in front do not matter. -/
theorem uriStops_of_not_mem {t : List UInt8} (ht : space ∉ t) (x : List UInt8) :
    UriStops (t ++ x) ↔ UriStops x := by
  by_cases hx : space ∈ x
  · obtain ⟨u, v, rfl, hu⟩ := List.eq_append_cons_of_mem hx
    have htu : space ∉ t ++ u := by simp [ht, hu]
    rw [← List.append_assoc, uriStops_append htu, uriStops_append hu]
  · have hnot : ∀ y : List UInt8, space ∉ y → ¬ UriStops y := by
      rintro y hy ⟨u, v, rfl, -⟩
      simp at hy
    exact iff_of_false (hnot _ (by simp [ht, hx])) (hnot x hx)

theorem parseRequestLine_slash_ne_overrun_iff (method : Method) (t : List UInt8) :
    parseRequestLine method (slash :: t) ≠ .overrun ↔ UriStops t := by
  by_cases ht : space ∈ t
  · obtain ⟨u, v, rfl, hu⟩ := List.eq_append_cons_of_mem ht
    have hscan : scanTo (fun c => c == space) (slash :: (u ++ space :: v)) =
        some (slash :: u, space :: v) :=
      scanTo_beq (a := slash :: u) (by simpa [slash, space] using hu) v
    rw [uriStops_append hu, parseRequestLine]
    simp only [ne_eq, not_true_eq_false, if_false, hscan, List.tail_cons]
    cases hm : matchAt (ascii "HTTP/") v with
    | none =>
        obtain ⟨hpre, hne⟩ := (matchAt_eq_none_iff _ _).1 hm
        simp only [not_true_eq_false, false_iff]
        rintro (⟨hnot, -⟩ | ⟨version, gap, p, rfl, -, -⟩)
        · exact hnot hpre
        · have hlen := hpre.length_le
          simp only [List.length_append, List.length_cons] at hlen
          omega
    | some o =>
        cases o with
        | none => simpa using .inl ((matchAt_eq_some_none_iff _ _).1 hm)
        | some w =>
            obtain rfl := (matchAt_eq_some_some_iff _ _ _).1 hm
            simp only [VersionStops, List.prefix_append, not_true_eq_false, and_false, false_or,
              List.append_cancel_left_eq]
            by_cases hw : cr ∈ w
            · obtain ⟨version, tail, rfl, hversion⟩ := List.eq_append_cons_of_mem hw
              rw [scanTo_beq hversion]
              cases tail with
              | nil =>
                  simp only [not_true_eq_false, false_iff]
                  rintro ⟨version', gap, p, heq, hversion', -⟩
                  have hnil := (append_cons_inj hversion hversion' heq).2
                  simp at hnil
              | cons gap p =>
                  refine (parseBlock_ne_overrun_iff method _ version gap p).trans ?_
                  constructor
                  · intro hp
                    exact ⟨version, gap, p, rfl, hversion, hp⟩
                  · rintro ⟨version', gap', p', heq, hversion', hp'⟩
                    obtain ⟨-, htail⟩ := append_cons_inj hversion hversion' heq
                    obtain ⟨-, rfl⟩ := List.cons_eq_cons.1 htail
                    exact hp'
            · have hnone : scanTo (fun c => c == cr) w = none := by
                refine (scanTo_eq_none_iff _ _).2 fun x hx => ?_
                have hne : x ≠ cr := fun heq => hw (heq ▸ hx)
                simpa using hne
              simp only [hnone, not_true_eq_false, false_iff]
              rintro ⟨version, gap, p, rfl, -⟩
              simp at hw
  · have hnone : scanTo (fun c => c == space) (slash :: t) = none := by
      refine (scanTo_eq_none_iff _ _).2 fun x hx => ?_
      have hne : x ≠ space := by
        rintro rfl
        simp [slash, space] at hx
        exact ht hx
      simpa using hne
    have hnot : ¬ UriStops t := by
      rintro ⟨u, v, rfl, -⟩
      simp at ht
    simp [parseRequestLine, hnone, hnot]

/-- The parser stops in the bytes `m`, and what lies behind them does not
matter. -/
def StaysInside (m : List UInt8) : Prop :=
  httpParseHeaders m ≠ .overrun ∧
    ∀ x, httpParseHeaders (m ++ x) = (httpParseHeaders m).append x

theorem staysInside_iff_ne_overrun (m : List UInt8) :
    StaysInside m ↔ httpParseHeaders m ≠ .overrun :=
  ⟨fun h => h.1, fun h => ⟨h, fun x => httpParseHeaders_append x h⟩⟩

/-- On received bytes whose terminator was marked the parser stops inside them if
and only if the URI is ended in front of the terminator, or the bytes behind the
terminator go on with the request line. -/
theorem staysInside_mark_iff (w extra : List UInt8) :
    StaysInside (w ++ mark ++ extra) ↔ UriEnds (w ++ crlfcrlf) ∨ UriStops extra := by
  rw [staysInside_iff_ne_overrun]
  by_cases hover : httpParseHeaders (w ++ mark) = .overrun
  · have hnot := (httpParseHeaders_append_mark_eq_overrun_iff w).1 hover
    obtain ⟨k, t, ht, hspace⟩ := (httpParseHeaders_mark_eq_overrun_iff ⟨w, rfl⟩).1 hover
    have hparse : httpParseHeaders (w ++ mark ++ extra) =
        parseRequestLine k (slash :: (t ++ extra)) := by
      rw [ht, httpParseHeaders, List.append_assoc, parseMethod_text]
      rfl
    rw [hparse, parseRequestLine_slash_ne_overrun_iff, uriStops_of_not_mem hspace]
    simp [hnot]
  · have hends : UriEnds (w ++ crlfcrlf) := by
      by_contra hnot
      exact hover ((httpParseHeaders_append_mark_eq_overrun_iff w).2 hnot)
    have hne : httpParseHeaders (w ++ mark ++ extra) ≠ .overrun := by
      rw [httpParseHeaders_append extra hover]
      cases hm : httpParseHeaders (w ++ mark) with
      | overrun => exact absurd hm hover
      | error code ls => simp [HeadersResult.append]
      | ok q => simp [HeadersResult.append]
    exact iff_of_true hne (.inl hends)

/-- A terminator that was found, with what lies around it in the chunk. -/
theorem findTerminator_split {chunk : List UInt8} {i : Nat} (h : findTerminator chunk = some i) :
    ∃ pre post, chunk = pre ++ (crlfcrlf ++ post) ∧ i = pre.length + 3 := by
  obtain ⟨⟨a, b⟩, hscan, rfl⟩ := Option.map_eq_some_iff.1 h
  obtain ⟨htail, -, ⟨post, rfl⟩, -⟩ := (scanToPat_eq_some_iff _ _ _ _).1 hscan
  cases chunk with
  | nil => simp [crlfcrlf] at htail
  | cons c chunk =>
      rw [List.tail_cons] at htail
      exact ⟨c :: a, post, by rw [htail, List.cons_append], by simp⟩

theorem servePostHeaders_ne_overrun (r : Request) (q : ParsedRequest) (extra : List UInt8)
    (a bodyAddr : Int) : (servePostHeaders r q extra a bodyAddr).2 ≠ .overrun := by
  have hpost : ∀ r : Request, (servePost r).2 ≠ .overrun := by
    intro r
    unfold servePost
    split <;> simp
  cases hinfo : q.postInfo with
  | error code => simp [servePostHeaders_error hinfo]
  | ok k =>
      rw [servePostHeaders_ok hinfo]
      exact hpost _

/-- The pass that finds the terminator at the index `i` of its chunk parses the
block inside the bytes received so far, whatever lies behind them, if and only if
the URI of the request line is ended in front of the terminator, or the bytes
behind the terminator go on with the request line and its header lines come to an
end there. -/
theorem staysInside_iff {r : Request} {acc chunk : List UInt8} {e : RecvEvent} {i : Nat}
    (h : HeaderPhase r acc) (hchunk : chunk.length ≤ httpRecvBuffer) (he : e.res = .data chunk)
    (hi : findTerminator chunk = some i) (hmax : (acc ++ chunk).length ≤ httpMaxHeadersSize) :
    ((serveRecv r e).2 ≠ .overrun ∧ StaysInside (markAt (acc ++ chunk) (acc.length + i - 1))) ↔
      UriEnds (acc ++ chunk.take (i + 1)) ∨ UriStops (chunk.drop (i + 1)) := by
  have hacc : acc.length ≤ httpMaxHeadersSize := by
    rw [List.length_append] at hmax
    omega
  have hserve := (h.received hacc hchunk e.addr).serveHeader_found hi hmax rfl e
  rw [← h.serveRecv_data hacc hchunk he] at hserve
  have hinside : StaysInside (markAt (acc ++ chunk) (acc.length + i - 1)) ↔
      UriEnds (acc ++ chunk.take (i + 1)) ∨ UriStops (chunk.drop (i + 1)) := by
    obtain ⟨pre, post, rfl, rfl⟩ := findTerminator_split hi
    have htake : (pre ++ (crlfcrlf ++ post)).take (pre.length + 3 + 1) = pre ++ crlfcrlf := by
      rw [← List.append_assoc, List.take_left' (by simp [crlfcrlf])]
    have hdrop : (pre ++ (crlfcrlf ++ post)).drop (pre.length + 3 + 1) = post := by
      rw [← List.append_assoc, List.drop_left' (by simp [crlfcrlf])]
    have hmarked : markAt (acc ++ (pre ++ (crlfcrlf ++ post))) (acc.length + (pre.length + 3) - 1) =
        acc ++ pre ++ mark ++ post := by
      have hfront : acc ++ (pre ++ (crlfcrlf ++ post)) = (acc ++ pre ++ [cr, lf]) ++
        cr :: lf :: post := by
        simp [crlfcrlf]
      have hpos : acc.length + (pre.length + 3) - 1 = (acc ++ pre ++ [cr, lf]).length := by
        simp only [List.length_append, List.length_cons, List.length_nil]
        omega
      rw [hpos, hfront, markAt, List.take_left, List.drop_append]
      simp [mark]
    rw [hmarked, htake, hdrop, ← List.append_assoc]
    exact staysInside_mark_iff (acc ++ pre) post
  rw [← hinside]
  constructor
  · exact fun hboth => hboth.2
  · intro hm
    refine ⟨?_, hm⟩
    rw [hserve]
    cases hparse : httpParseHeaders (markAt (acc ++ chunk) (acc.length + i - 1)) with
    | overrun => exact absurd hparse hm.1
    | error code ls => simp
    | ok q =>
        simp only
        split
        · exact servePostHeaders_ne_overrun _ _ _ _ _
        · simp

/-- A `recv` that returns the bytes `chunk`. -/
def received (chunk : List UInt8) : RecvEvent := ⟨.data chunk, 0, 0, false⟩

theorem headerPhase_zeroed : HeaderPhase zeroed [] := ⟨rfl, rfl, rfl, rfl⟩

/-- A plain request is parsed inside its bytes. -/
theorem staysInside_getRoot :
    findTerminator (ascii "GET / HTTP/1.1" ++ crlfcrlf) = some 17 ∧
      (serveRecv zeroed (received (ascii "GET / HTTP/1.1" ++ crlfcrlf))).2 ≠ .overrun ∧
      StaysInside (markAt ([] ++ (ascii "GET / HTTP/1.1" ++ crlfcrlf)) (0 + 17 - 1)) := by
  have hfound : findTerminator (ascii "GET / HTTP/1.1" ++ crlfcrlf) = some 17 := by decide +kernel
  have hends : UriEnds (ascii "GET / HTTP/1.1" ++ crlfcrlf) := by
    by_contra hnot
    exact absurd ((httpParseHeaders_append_mark_eq_overrun_iff _).2 hnot) (by decide +kernel)
  exact ⟨hfound, (staysInside_iff headerPhase_zeroed (by decide +kernel) rfl hfound
    (by decide +kernel)).2 (.inl hends)⟩

/-- Without a space behind the URI the parser reads past the received bytes. -/
theorem not_staysInside_noVersion :
    findTerminator (ascii "GET /" ++ crlfcrlf) = some 8 ∧
      ¬ ((serveRecv zeroed (received (ascii "GET /" ++ crlfcrlf))).2 ≠ .overrun ∧
        StaysInside (markAt ([] ++ (ascii "GET /" ++ crlfcrlf)) (0 + 8 - 1))) := by
  refine ⟨by decide +kernel, fun h => h.1 ?_⟩
  decide +kernel

/-! ## The list of a text of lines -/

/-- The line the loop makes of a well-formed line. -/
def lineOf (l : List UInt8) : Line :=
  let v := l.drop ((lineKey l).length + 1)
  ⟨(lineKey l).map toLower, (v.takeWhile fun c => c == space).length, lineValue l⟩

/-- The lines with their line ends. -/
def linesText (ls : List (List UInt8)) : List UInt8 := ls.flatMap fun l => l ++ crlf

/-- Lines in front of the lines behind them. -/
def Lines.prepend (ls : List Line) : Lines → Lines
  | .overrun => .overrun
  | .bad ls' => .bad (ls ++ ls')
  | .done ls' rest => .done (ls ++ ls') rest

/-- A line is its key, and a colon and a value if there is a colon. -/
theorem eq_lineKey_append {l : List UInt8} (h : colon ∈ l) :
    l = lineKey l ++ colon :: l.drop ((lineKey l).length + 1) := by
  induction l with
  | nil => simp at h
  | cons c l ih =>
      by_cases hc : c = colon
      · simp [lineKey, hc]
      · have hmem : colon ∈ l := by simpa [Ne.symm hc] using h
        have hrest := ih hmem
        simp only [lineKey] at hrest ⊢
        simpa [hc] using hrest

theorem colon_not_mem_lineKey (l : List UInt8) : colon ∉ lineKey l := by
  intro h
  simpa using List.mem_takeWhile_imp h

theorem parseLine_wellFormed {l : List UInt8} (h : WellFormedLine l) (hl : ¬ crlf <:+: l)
    (x : List UInt8) : parseLine (l ++ (crlf ++ x)) = .line (lineOf l) x := by
  have hk : KeyText (lineKey l) :=
    fun c hc => ⟨h.2 c hc, fun heq => colon_not_mem_lineKey l (heq ▸ hc)⟩
  have hv : ¬ crlf <:+: l.drop ((lineKey l).length + 1) :=
    fun hinf => hl (hinf.trans (List.drop_suffix _ _).isInfix)
  have htext := parseLine_text hk hv x
  have hsplit : l ++ (crlf ++ x) =
      lineKey l ++ colon :: (l.drop ((lineKey l).length + 1) ++ cr :: lf :: x) := by
    conv_lhs => rw [eq_lineKey_append h.1]
    simp [crlf]
  rw [hsplit, htext]
  rfl

theorem wellFormedLine_cons_iff {c : UInt8} (hc : c ≠ colon) (l : List UInt8) :
    WellFormedLine (c :: l) ↔ isSym c = true ∧ WellFormedLine l := by
  have hkey : lineKey (c :: l) = c :: lineKey l := by simp [lineKey, hc]
  simp only [WellFormedLine, hkey, List.mem_cons, forall_eq_or_imp, Ne.symm hc, false_or]
  tauto

/-- A line that is not well formed is refused, at its line end at the latest. -/
theorem scanKey_not_wellFormed {l : List UInt8} (h : ¬ WellFormedLine l) (x : List UInt8) :
    scanKey (l ++ cr :: x) = .bad := by
  induction l with
  | nil => exact scanKey_refused (k := []) (by simp [KeyText]) isSym_cr x
  | cons c l ih =>
      by_cases hc : c = colon
      · exact absurd (by simp [WellFormedLine, lineKey, hc]) h
      · by_cases hsym : isSym c = true
        · have hl : ¬ WellFormedLine l :=
            fun hl => h ((wellFormedLine_cons_iff hc l).2 ⟨hsym, hl⟩)
          simp [scanKey, hc, hsym, ih hl]
        · simp [scanKey, hc, hsym]

theorem parseLine_not_wellFormed {l : List UInt8} (h : ¬ WellFormedLine l) (x : List UInt8) :
    parseLine (l ++ (crlf ++ x)) = .bad := by
  have hkey := scanKey_not_wellFormed h (lf :: x)
  simp [parseLine, crlf, hkey]

/-- Well-formed lines are taken one after the other. -/
theorem parseLines_linesText {ls : List (List UInt8)} (hwf : ∀ l ∈ ls, WellFormedLine l)
    (hcrlf : ∀ l ∈ ls, ¬ crlf <:+: l) (n : Nat) (x : List UInt8) :
    parseLines (n + ls.length) (linesText ls ++ x) = (parseLines n x).prepend (ls.map lineOf) := by
  induction ls with
  | nil =>
      simp only [linesText, List.flatMap_nil, List.nil_append, List.length_nil, Nat.add_zero,
        List.map_nil]
      cases parseLines n x <;> rfl
  | cons l ls ih =>
      have hl := hwf l List.mem_cons_self
      have hmark : (l ++ (crlf ++ (linesText ls ++ x))).head? ≠ some 1 := by
        rw [eq_lineKey_append hl.1, List.append_assoc, List.cons_append]
        refine head?_ne_mark (fun c hc => ⟨hl.2 c hc, ?_⟩) (by decide) _
        exact fun heq => colon_not_mem_lineKey l (heq ▸ hc)
      have hline := parseLine_wellFormed hl (hcrlf l List.mem_cons_self) (linesText ls ++ x)
      have hrest := ih (fun y hy => hwf y (List.mem_cons_of_mem l hy))
        fun y hy => hcrlf y (List.mem_cons_of_mem l hy)
      have htext : linesText (l :: ls) ++ x = l ++ (crlf ++ (linesText ls ++ x)) := by
        simp [linesText]
      rw [htext, List.length_cons, ← Nat.add_assoc, parseLines_of_line hmark hline, hrest]
      cases parseLines n x <;> rfl

/-- The lines up to the first one that is not well formed. -/
theorem exists_first_not_wellFormed :
    ∀ {ls : List (List UInt8)}, (¬ ∀ l ∈ ls, WellFormedLine l) →
      ∃ pre l post, ls = pre ++ l :: post ∧ (∀ x ∈ pre, WellFormedLine x) ∧ ¬ WellFormedLine l
  | [], h => absurd (by simp) h
  | l :: ls, h => by
      by_cases hl : WellFormedLine l
      · have hls : ¬ ∀ l ∈ ls, WellFormedLine l := fun hall => h (by simpa [hl] using hall)
        obtain ⟨pre, l', post, rfl, hpre, hl'⟩ := exists_first_not_wellFormed hls
        exact ⟨l :: pre, l', post, rfl, by simpa [hl] using hpre, hl'⟩
      · exact ⟨[], l, ls, rfl, by simp, hl⟩

/-! ## Blocks made of a request line and lines -/

/-- The parts of a header block: the lines are arbitrary byte strings without a
line end. -/
structure BlockParts where
  method : Method
  uri : List UInt8
  version : List UInt8
  lines : List (List UInt8)
  slash : uri.head? = some slash
  uriBytes : space ∉ uri ∧ cr ∉ uri ∧ lf ∉ uri
  versionBytes : cr ∉ version ∧ lf ∉ version
  noLineEnd : ∀ l ∈ lines, ¬ crlf <:+: l

/-- The block up to its final line end. -/
def BlockParts.front (b : BlockParts) : List UInt8 :=
  b.method.text ++ (b.uri ++ space :: (ascii "HTTP/" ++ (b.version ++ (crlf ++ linesText b.lines))))

/-- The bytes of the block. -/
def BlockParts.text (b : BlockParts) : List UInt8 := b.front ++ crlf

/-- What `http_parse_headers` finds: the marked block and the bytes received
behind it. -/
def BlockParts.received (b : BlockParts) (extra : List UInt8) : List UInt8 :=
  markEnd b.text ++ extra

theorem BlockParts.markEnd_text (b : BlockParts) : markEnd b.text = b.front ++ [1, lf] := by
  obtain ⟨w, hw⟩ : ∃ w, b.front = w ++ crlf := by
    rcases List.eq_nil_or_concat b.lines with hnil | ⟨ls, l, hls⟩
    · exact ⟨b.method.text ++ (b.uri ++ space :: (ascii "HTTP/" ++ b.version)), by
        simp [BlockParts.front, hnil, linesText]⟩
    · exact ⟨b.method.text ++ (b.uri ++ space :: (ascii "HTTP/" ++ (b.version ++ (crlf ++
        (linesText ls ++ l))))), by simp [BlockParts.front, hls, linesText]⟩
  rw [BlockParts.text, hw]
  simp [markEnd, mark, crlf]

theorem BlockParts.httpParseHeaders_eq (b : BlockParts) (extra : List UInt8) :
    httpParseHeaders (b.received extra) =
      parseBlock b.method b.uri b.version lf (linesText b.lines ++ 1 :: lf :: extra) := by
  have hbytes : b.received extra = b.method.text ++ (b.uri ++ space :: (ascii "HTTP/" ++
      (b.version ++ cr :: lf :: (linesText b.lines ++ 1 :: lf :: extra)))) := by
    simp [BlockParts.received, b.markEnd_text, BlockParts.front, crlf]
  rw [hbytes, httpParseHeaders, parseMethod_text]
  exact parseRequestLine_parts b.slash b.uriBytes.1 b.versionBytes.1

/-- The loop over the lines of a block. -/
theorem BlockParts.parseLines_of_split {b : BlockParts} {pre rest : List (List UInt8)}
    (hlines : b.lines = pre ++ rest) (hpre : ∀ l ∈ pre, WellFormedLine l) (extra : List UInt8) :
    ∃ n, parseLines ((linesText b.lines ++ 1 :: lf :: extra).length + 1)
        (linesText b.lines ++ 1 :: lf :: extra) =
      (parseLines (n + 1) (linesText rest ++ 1 :: lf :: extra)).prepend (pre.map lineOf) := by
  have hcrlf : ∀ l ∈ pre, ¬ crlf <:+: l := fun l hl => b.noLineEnd l (by simp [hlines, hl])
  have htext : linesText b.lines = linesText pre ++ linesText rest := by simp [linesText, hlines]
  have hlen : pre.length ≤ (linesText pre).length := by
    clear hlines hpre hcrlf htext
    induction pre with
    | nil => simp
    | cons l pre ih =>
        simp only [linesText, List.flatMap_cons, List.length_append, List.length_cons, crlf] at ih ⊢
        omega
  obtain ⟨n, hn⟩ : ∃ n, (linesText b.lines ++ 1 :: lf :: extra).length + 1 =
      n + 1 + pre.length := by
    refine ⟨(linesText b.lines ++ 1 :: lf :: extra).length - pre.length, ?_⟩
    rw [htext]
    simp only [List.length_append, List.length_cons]
    omega
  refine ⟨n, ?_⟩
  rw [hn, htext, List.append_assoc]
  exact parseLines_linesText hpre hcrlf (n + 1) _

section Lines

variable (b : BlockParts) (extra : List UInt8)

theorem BlockParts.httpParseHeaders_wellFormed (hall : ∀ l ∈ b.lines, WellFormedLine l) :
    httpParseHeaders (b.received extra) =
      .ok ⟨b.method, b.uri, b.version, lf, b.lines.map lineOf, 1 :: lf :: extra⟩ := by
  obtain ⟨n, hn⟩ := b.parseLines_of_split (List.append_nil _).symm hall extra
  rw [b.httpParseHeaders_eq, parseBlock, hn]
  simp [linesText, parseLines_mark, Lines.prepend]

/-- The first line that is not well formed is refused unless it begins with the
byte `1`. -/
theorem BlockParts.httpParseHeaders_refused {pre post : List (List UInt8)} {l : List UInt8}
    (hsplit : b.lines = pre ++ l :: post) (hpre : ∀ x ∈ pre, WellFormedLine x)
    (hl : ¬ WellFormedLine l) (hhead : l.head? ≠ some 1) :
    httpParseHeaders (b.received extra) = .error 400 (pre.map lineOf) := by
  obtain ⟨n, hn⟩ := b.parseLines_of_split hsplit hpre extra
  have htext : linesText (l :: post) ++ 1 :: lf :: extra =
      l ++ (crlf ++ (linesText post ++ 1 :: lf :: extra)) := by simp [linesText]
  have hmark : (l ++ (crlf ++ (linesText post ++ 1 :: lf :: extra))).head? ≠ some 1 := by
    cases l with
    | nil => simp [crlf, cr]
    | cons c l => simpa using hhead
  rw [b.httpParseHeaders_eq, parseBlock, hn, htext,
    parseLines_of_bad hmark (parseLine_not_wellFormed hl _)]
  simp [Lines.prepend]

/-- A line that begins with the byte `1` ends the list, and the lines in front of
it are accepted. -/
theorem BlockParts.httpParseHeaders_cut {pre post : List (List UInt8)} {l : List UInt8}
    (hsplit : b.lines = pre ++ (1 :: l) :: post) (hpre : ∀ x ∈ pre, WellFormedLine x) :
    ∃ q, httpParseHeaders (b.received extra) = .ok q := by
  obtain ⟨n, hn⟩ := b.parseLines_of_split hsplit hpre extra
  have htext : linesText ((1 :: l) :: post) ++ 1 :: lf :: extra =
      1 :: (l ++ (crlf ++ (linesText post ++ 1 :: lf :: extra))) := by simp [linesText]
  rw [b.httpParseHeaders_eq, parseBlock, hn, htext, parseLines_mark]
  exact ⟨_, rfl⟩

end Lines

/-- The parser accepts the block if and only if every line is well formed, and
then the pool denotes the key in lower case and the value of every line, in
order; otherwise it returns `400`. -/
def BlockParts.ListExact (b : BlockParts) (extra : List UInt8) (r : Request) (keepalive : Bool) :
    Prop :=
  if ∀ l ∈ b.lines, WellFormedLine l then
    ∃ q, httpParseHeaders (b.received extra) = .ok q ∧
      (r.storeParsed q keepalive).b.derefHeaders (r.storeParsed q keepalive).headersIn.p =
        some (b.lines.map fun l => ((lineKey l).map toLower, lineValue l))
  else ∃ ls, httpParseHeaders (b.received extra) = .error 400 ls

theorem Request.derefHeaders_storeParsed (r : Request) (q : ParsedRequest) (keepalive : Bool) :
    (r.storeParsed q keepalive).b.derefHeaders (r.storeParsed q keepalive).headersIn.p =
      some (q.lines.map fun l => (l.key, l.value)) := by
  have hview := (parsedIn_storeParsed r q keepalive).view_eq
  simp only [Request.view, ParsedRequest.view, Option.bind_eq_some_iff, Option.map_eq_some_iff,
    RequestView.mk.injEq] at hview
  obtain ⟨uri, -, version, -, headers, hheaders, -, -, -, rfl⟩ := hview
  exact hheaders

theorem not_wellFormedLine_mark (l : List UInt8) : ¬ WellFormedLine (1 :: l) := by
  intro hl
  have hsym := ((wellFormedLine_cons_iff (by decide) l).1 hl).1
  rw [isSym_one] at hsym
  cases hsym

/-- The list of headers is the list of lines if and only if the first line that is
not well formed does not begin with the byte `1`. -/
theorem listExact_iff (b : BlockParts) (extra : List UInt8) (r : Request) (keepalive : Bool) :
    b.ListExact extra r keepalive ↔
      ∀ pre l post, b.lines = pre ++ (1 :: l) :: post → ∃ x ∈ pre, ¬ WellFormedLine x := by
  rw [BlockParts.ListExact]
  split
  · rename_i hall
    refine iff_of_true ?_ fun pre l post hsplit => ?_
    · refine ⟨_, b.httpParseHeaders_wellFormed extra hall, ?_⟩
      rw [Request.derefHeaders_storeParsed]
      simp [lineOf, Function.comp_def]
    · exact absurd (hall (1 :: l) (by simp [hsplit])) (not_wellFormedLine_mark l)
  · rename_i hnot
    constructor
    · rintro ⟨ls, hls⟩ pre l post hsplit
      by_contra hpre
      push Not at hpre
      obtain ⟨q, hq⟩ := b.httpParseHeaders_cut extra hsplit hpre
      rw [hq] at hls
      cases hls
    · intro hhidden
      obtain ⟨pre, l, post, hsplit, hpre, hl⟩ := exists_first_not_wellFormed hnot
      refine ⟨_, b.httpParseHeaders_refused extra hsplit hpre hl fun hhead => ?_⟩
      obtain ⟨l', rfl⟩ := List.head?_eq_some_iff.1 hhead
      obtain ⟨x, hx, hnx⟩ := hhidden pre l' post hsplit
      exact hnx (hpre x hx)

/-- A block whose only line begins with the byte `1`. -/
def markedLine : BlockParts where
  method := .get
  uri := ascii "/"
  version := ascii "1.1"
  lines := [1 :: ascii "a: b"]
  slash := by decide
  uriBytes := by decide
  versionBytes := by decide
  noLineEnd := by decide

/-- The line is taken for the end of the list, and the block is accepted. -/
theorem not_listExact_markedLine : ¬ markedLine.ListExact [] zeroed false := by
  intro h
  rw [BlockParts.ListExact, if_neg (by decide +kernel)] at h
  obtain ⟨ls, hls⟩ := h
  obtain ⟨q, hq⟩ := @BlockParts.httpParseHeaders_cut markedLine [] [] [] _ rfl (by simp)
  rw [hq] at hls
  cases hls

end OpenTube
