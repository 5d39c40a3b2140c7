import OpenTube.Lib.Calendar
import OpenTube.Http.Range
import OpenTube.Http.Framing

/-!
# The scratch buffers of a response

The texts that are made for one response are written into small buffers of the
request: the decimal length into `temp.content_length`, two dates into
`temp.dates`, and the `Content-Range` line and the `Expires` date into the one
allocation of `http_prepare`, which is split at 64. The output vector holds their
addresses, so the buffers have to last until the response is sent.

`sprintf` ends each text with a `'\0'`. The sizes leave room for it except for the
`Expires` date, which has 29 characters in 29 bytes: `scratchFits_iff` says that
only the responses that do not get so far stay in their buffers. The room for the
`Content-Range` line is not enough either when its three numbers have more than
38 digits.
-/

namespace OpenTube

open Calendar

/-! ## Dates -/

/-- `days_three_sym`. -/
def daysThreeSym : List (List UInt8) :=
  [ascii "Sun", ascii "Mon", ascii "Tue", ascii "Wed", ascii "Thu", ascii "Fri", ascii "Sat"]

/-- `months_three_sym`. -/
def monthsThreeSym : List (List UInt8) :=
  [ascii "Jan", ascii "Feb", ascii "Mar", ascii "Apr", ascii "May", ascii "Jun", ascii "Jul",
    ascii "Aug", ascii "Sep", ascii "Oct", ascii "Nov", ascii "Dec"]

/-- `%0*d` of `sprintf`: the sign, then zeros up to the width. -/
def zeroPadded (width : Nat) (n : Int) : List UInt8 :=
  let digits := xToStr n.natAbs 10
  if n < 0 then hyphen :: (List.replicate (width - (digits.length + 1)) 48 ++ digits)
  else List.replicate (width - digits.length) 48 ++ digits

/-- `http_rfc822_date`. -/
def httpRfc822Date (t : Tm) : List UInt8 :=
  daysThreeSym.getD t.wday [] ++ (ascii ", " ++ (zeroPadded 2 t.mday ++ (ascii " " ++
    (monthsThreeSym.getD t.mon [] ++ (ascii " " ++ (zeroPadded 4 t.year ++ (ascii " " ++
      (zeroPadded 2 t.hour ++ (ascii ":" ++ (zeroPadded 2 t.min ++ (ascii ":" ++
        (zeroPadded 2 t.sec ++ ascii " GMT"))))))))))))

theorem le_length_zeroPadded (width : Nat) (n : Int) : width ≤ (zeroPadded width n).length := by
  unfold zeroPadded
  split <;> simp only [List.length_cons, List.length_append, List.length_replicate] <;> omega

/-- A number that is narrow enough is padded to the width. -/
theorem length_zeroPadded {k : Nat} {n : Int} (h : 0 ≤ n) (hlt : n < 10 ^ (k + 1))
    (h64 : n < 2 ^ 64) : (zeroPadded (k + 1) n).length = k + 1 := by
  have habs : (n.natAbs : Int) = n := Int.natAbs_of_nonneg h
  have hdigits := (length_xToStr_le_iff h h64 k).2 hlt
  rw [zeroPadded, if_neg (by omega), habs]
  simp only [List.length_append, List.length_replicate]
  omega

theorem length_daysThreeSym : ∀ i : Fin 7, (daysThreeSym.getD i []).length = 3 := by
  decide

theorem length_monthsThreeSym : ∀ i : Fin 12, (monthsThreeSym.getD i []).length = 3 := by
  decide

/-- Only the year of a date has no fixed width. -/
theorem length_httpRfc822Date (t : Tm) :
    (httpRfc822Date t).length = 25 + (zeroPadded 4 t.year).length := by
  have hmday := t.mday_le
  have htwo : ∀ n : Nat, n < 100 → (zeroPadded 2 n).length = 2 := by
    intro n hn
    exact length_zeroPadded (k := 1) (Int.natCast_nonneg n) (by omega) (by omega)
  have hdays := length_daysThreeSym t.wday
  have hmonths := length_monthsThreeSym t.mon
  rw [httpRfc822Date]
  simp only [List.length_append, hdays, hmonths, htwo t.mday (by omega),
    htwo t.hour (by omega), htwo t.min (by omega), htwo t.sec (by omega),
    show (ascii ", ").length = 2 from rfl, show (ascii " ").length = 1 from rfl,
    show (ascii ":").length = 1 from rfl, show (ascii " GMT").length = 4 from rfl]
  omega

theorem le_length_httpRfc822Date (t : Tm) : 29 ≤ (httpRfc822Date t).length := by
  have hyear := le_length_zeroPadded 4 t.year
  have hlength := length_httpRfc822Date t
  omega

/-- The year has four digits. -/
def FourDigits (time : Int) : Prop := 1000 ≤ (gmtime time).year ∧ (gmtime time).year ≤ 9999

instance (time : Int) : Decidable (FourDigits time) :=
  inferInstanceAs (Decidable (1000 ≤ (gmtime time).year ∧ (gmtime time).year ≤ 9999))

theorem FourDigits.length_httpRfc822Date {time : Int} (h : FourDigits time) :
    (httpRfc822Date (gmtime time)).length = 29 := by
  obtain ⟨hlow, hhigh⟩ := h
  have hyear := length_zeroPadded (k := 3) (n := (gmtime time).year) (by omega)
    (by omega) (by omega)
  rw [OpenTube.length_httpRfc822Date, hyear]

example : httpRfc822Date (gmtime 784111777) = ascii "Sun, 06 Nov 1994 08:49:37 GMT" := by
  decide

/-! ## The buffers -/

/-- The texts that are made for a response. -/
inductive ScratchField
  | contentLength
  | lastModified
  | date
  | contentRange
  | expires
deriving DecidableEq, Repr

/-- Where a text begins in its buffer. -/
def ScratchField.start : ScratchField → Nat
  | contentLength => 0
  | lastModified => 0
  | date => 30
  | contentRange => 0
  | expires => 64

/-- Where the storage of a text ends: at the end of the buffer, which has 24, 60 or
93 bytes, or where the next text begins. -/
def ScratchField.stop : ScratchField → Nat
  | contentLength => 24
  | lastModified => 30
  | date => 60
  | contentRange => 64
  | expires => 93

/-- A text that is written, without its `'\0'`. -/
structure ScratchWrite where
  field : ScratchField
  text : List UInt8
deriving DecidableEq, Repr

/-- The text and its `'\0'` stay in their storage. -/
def ScratchWrite.Fits (w : ScratchWrite) : Prop :=
  w.field.start + (w.text.length + 1) ≤ w.field.stop

instance (w : ScratchWrite) : Decidable w.Fits :=
  inferInstanceAs (Decidable (w.field.start + (w.text.length + 1) ≤ w.field.stop))

/-- `http_append_headers` prints the length. -/
def headersWrite (contentLength : Nat) : ScratchWrite :=
  ⟨.contentLength, int64ToStr (int64 contentLength) 10⟩

/-- `http_error`. -/
def errorWrites (code : Nat) : List ScratchWrite :=
  [headersWrite (httpErrorMessage code).length]

/-- `http_send_file` from the loop over the headers on, the file being a regular
one. -/
def partWrites (r : Request) (code : Nat) (st : FileStat) (env : FileEnv) : List ScratchWrite :=
  ⟨.lastModified, st.lastModified⟩ ::
    if code = 416 then errorWrites 416
    else
      [headersWrite (uint64 (r.temp.sendfileLast - r.temp.sendfileOffset)), ⟨.date, env.date⟩,
        ⟨.expires, env.expires⟩] ++
      if code = 206 then
        [⟨.contentRange, contentRange (uint64 r.temp.sendfileOffset)
          (uint64 (r.temp.sendfileLast - 1)) (uint64 st.size)⟩]
      else []

/-- `http_send_file`. -/
def fileWrites (r : Request) (filepath : List UInt8) (env : FileEnv) : List ScratchWrite :=
  if filepath = [] then errorWrites 403
  else
    match env.openRes with
    | .notFound => errorWrites 404
    | .denied => errorWrites 403
    | .failed => errorWrites 500
    | .ok _ =>
        match env.stat with
        | none => errorWrites 500
        | some st =>
            if st.isReg = false then errorWrites 403
            else partWrites (selectPart st r).1 (selectPart st r).2 st env

/-- `http_response` for a content that was found in the cache. -/
def cachedWrites (r : Request) (found : CacheFound) (lastModified date expires : List UInt8) :
    List ScratchWrite :=
  [⟨.lastModified, lastModified⟩,
    headersWrite (if (httpSetMimeType r).notModified lastModified then 0 else found.value.length),
    ⟨.date, date⟩, ⟨.expires, expires⟩]

/-- `HTTP_STATIC_EXPIRES`. -/
def httpStaticExpires : Int := 172800

/-- The dates of a file that was modified at `mtime` and is sent at `now`. -/
def FileEnv.dated (env : FileEnv) (mtime now : Int) : FileEnv :=
  { env with
    stat := env.stat.map fun st => { st with lastModified := httpRfc822Date (gmtime mtime) }
    date := httpRfc822Date (gmtime now)
    expires := httpRfc822Date (gmtime (now + httpStaticExpires)) }

/-- What a response is made from: a file with the time of its last modification, or
a content of the cache. -/
inductive Source
  | file (filepath : List UInt8) (mtime : Int) (env : FileEnv)
  | cached (found : CacheFound)

/-- The time of the last modification. -/
def Source.mtime : Source → Int
  | file _ mtime _ => mtime
  | cached found => found.time

/-- The texts that are written while the response is built, in order. -/
def Source.writes (r : Request) (now : Int) : Source → List ScratchWrite
  | file filepath mtime env => fileWrites r filepath (env.dated mtime now)
  | cached found =>
      cachedWrites r found (httpRfc822Date (gmtime found.time)) (httpRfc822Date (gmtime now))
        (httpRfc822Date (gmtime (now + httpStaticExpires)))

/-- Every text that is written for a response stays in its storage. -/
def ScratchFits (r : Request) (now : Int) (x : Source) : Prop := ∀ w ∈ x.writes r now, w.Fits

instance (r : Request) (now : Int) (x : Source) : Decidable (ScratchFits r now x) :=
  inferInstanceAs (Decidable (∀ w ∈ x.writes r now, w.Fits))

/-- The texts of a file that is sent are ranges of its header block. -/
theorem text_mem_outVec (c : Config) (r : Request) {code : Nat} (hcode : code ≠ 416) (st : FileStat)
    (env : FileEnv) {w : ScratchWrite} (hw : w ∈ partWrites r code st env) :
    w.text ∈ (fileHeaders c r code st env).outVec := by
  rw [partWrites, if_neg hcode] at hw
  by_cases h206 : code = 206
  · subst h206
    simp only [if_pos, List.mem_cons, List.mem_append, List.not_mem_nil, or_false] at hw
    rcases hw with rfl | (rfl | rfl | rfl) | rfl <;>
      simp [fileHeaders, httpAppendToOutputBuf, httpAppendHeaders, httpHeaders, headersWrite,
        contentRange]
  · simp only [if_neg h206, List.append_nil, List.mem_cons, List.not_mem_nil, or_false] at hw
    rcases hw with rfl | rfl | rfl | rfl <;>
      simp [fileHeaders, httpAppendToOutputBuf, httpAppendHeaders, httpHeaders, headersWrite, h206]

/-! ## What fits -/

theorem fits_headersWrite (contentLength : Nat) : (headersWrite contentLength).Fits := by
  have hlength := length_int64ToStr_le contentLength
  simp only [headersWrite, ScratchWrite.Fits, ScratchField.start, ScratchField.stop]
  omega

/-- The room for the `Content-Range` line is enough for 38 digits. -/
theorem fits_contentRange_iff (x y s : Nat) :
    (ScratchWrite.mk .contentRange (contentRange x y s)).Fits ↔
      (xToStr x 10).length + (xToStr y 10).length + (xToStr s 10).length ≤ 38 := by
  simp only [ScratchWrite.Fits, ScratchField.start, ScratchField.stop, contentRange,
    List.length_append, show (ascii "Content-Range: bytes ").length = 21 from rfl,
    show (ascii "-").length = 1 from rfl, show (ascii "/").length = 1 from rfl,
    show crlf.length = 2 from rfl]
  omega

/-- No date fits behind the `Content-Range` line. -/
theorem not_fits_expires (t : Tm) : ¬ (ScratchWrite.mk .expires (httpRfc822Date t)).Fits := by
  have hlength := le_length_httpRfc822Date t
  simp only [ScratchWrite.Fits, ScratchField.start, ScratchField.stop]
  omega

/-- The texts with room for their `'\0'`. -/
def ScratchWrite.IsRoomy (now mtime : Int) (w : ScratchWrite) : Prop :=
  (∃ n, w = headersWrite n) ∨ w = ⟨.lastModified, httpRfc822Date (gmtime mtime)⟩ ∨
    w = ⟨.date, httpRfc822Date (gmtime now)⟩

theorem ScratchWrite.IsRoomy.fits {now mtime : Int} (hnow : FourDigits now)
    (hmtime : FourDigits mtime) {w : ScratchWrite} (h : w.IsRoomy now mtime) : w.Fits := by
  rcases h with ⟨n, rfl⟩ | rfl | rfl
  · exact fits_headersWrite n
  · simp only [ScratchWrite.Fits, ScratchField.start, ScratchField.stop,
      hmtime.length_httpRfc822Date]
    omega
  · simp only [ScratchWrite.Fits, ScratchField.start, ScratchField.stop,
      hnow.length_httpRfc822Date]
    omega

/-! ## The responses that stay in their buffers -/

/-- A `Range` header that begins at or behind the end of the file comes before
every header that says the file is known. -/
def Overshoots (size : Int) (hs : List FileHeader) : Prop :=
  ∃ rs b rest, hs = (rs ++ [b]).map FileHeader.range ++ rest ∧ size ≤ b.first

/-- Such a header is what leads to `416`. -/
theorem selectLoop_code_iff {size : Int} {hs : List FileHeader} {s : Selection}
    (hs416 : s.code ≠ 416) : (selectLoop size hs s).code = 416 ↔ Overshoots size hs := by
  induction hs generalizing s with
  | nil =>
      simp only [selectLoop, hs416, false_iff]
      rintro ⟨rs, b, rest, hnil, -⟩
      simp at hnil
  | cons x hs ih =>
      cases x with
      | notModified =>
          simp only [selectLoop, show (304 : Nat) ≠ 416 by decide, false_iff]
          rintro ⟨rs, b, rest, hcons, -⟩
          cases rs <;> simp at hcons
      | range b =>
          rw [selectLoop]
          by_cases hb : size ≤ b.first
          · rw [if_pos hb]
            exact iff_of_true rfl ⟨[], b, hs, rfl, hb⟩
          · rw [if_neg hb, ih (show (206 : Nat) ≠ 416 by decide)]
            constructor
            · rintro ⟨rs, b', rest, rfl, hb'⟩
              exact ⟨b :: rs, b', rest, rfl, hb'⟩
            · rintro ⟨rs, b', rest, hcons, hb'⟩
              cases rs with
              | nil =>
                  simp only [List.nil_append, List.map_cons, List.map_nil, List.cons_append,
                    List.cons.injEq, FileHeader.range.injEq] at hcons
                  exact absurd (hcons.1 ▸ hb') hb
              | cons b'' rs =>
                  simp only [List.cons_append, List.map_cons, List.cons.injEq] at hcons
                  exact ⟨rs, b', rest, hcons.2, hb'⟩

/-- The request is answered with an error page: the file cannot be opened, is not a
regular file, or has no byte where a range begins. -/
def Source.Refused (q : ParsedRequest) : Source → Prop
  | cached _ => False
  | file filepath mtime env =>
      filepath = [] ∨ (∀ fd, env.openRes ≠ .ok fd) ∨
        ∀ st, env.stat = some st → st.isReg = true →
          Overshoots st.size (q.lines.filterMap (Line.fileHeader (httpRfc822Date (gmtime mtime))))

theorem selectPart_code_iff {r : Request} {q : ParsedRequest} (h : ParsedIn r q) (st : FileStat) :
    (selectPart st r).2 = 416 ↔
      Overshoots st.size (q.lines.filterMap (Line.fileHeader st.lastModified)) := by
  have hcode := congrArg Selection.code (h.selection_selectPart st)
  simp only [Request.selection] at hcode
  rw [hcode]
  exact selectLoop_code_iff (show (200 : Nat) ≠ 416 by decide)

/-- An error page needs the length only, and `416` is found out behind the date of
the last modification. -/
theorem isRoomy_of_refused {r : Request} {q : ParsedRequest} (h : ParsedIn r q) {now : Int}
    {x : Source} (hx : x.Refused q) : ∀ w ∈ x.writes r now, w.IsRoomy now x.mtime := by
  have herror : ∀ code, ∀ w ∈ errorWrites code, w.IsRoomy now x.mtime := by
    intro code w hw
    exact .inl ⟨_, List.mem_singleton.1 hw⟩
  cases x with
  | cached found => exact hx.elim
  | file filepath mtime env =>
      rw [Source.writes, fileWrites]
      split
      · exact herror 403
      · rename_i hpath
        split
        · exact herror 404
        · exact herror 403
        · exact herror 500
        · rename_i fd hopen
          split
          · exact herror 500
          · rename_i st hst
            split
            · exact herror 403
            · rename_i hreg
              simp only [FileEnv.dated, Option.map_eq_some_iff] at hst hopen
              obtain ⟨st', hst', rfl⟩ := hst
              simp only [Bool.not_eq_false] at hreg
              rcases hx with hnil | hfail | hover
              · exact absurd hnil hpath
              · exact absurd hopen (hfail fd)
              · have h416 := (selectPart_code_iff h { st' with
                  lastModified := httpRfc822Date (gmtime mtime) }).2 (hover st' hst' hreg)
                rw [partWrites, if_pos h416]
                intro w hw
                rcases List.mem_cons.1 hw with rfl | hw
                · exact .inr (.inl rfl)
                · exact herror 416 w hw

/-- Every other response has an `Expires` date. -/
theorem expires_mem_writes {r : Request} {q : ParsedRequest} (h : ParsedIn r q) (now : Int)
    {x : Source} (hx : ¬ x.Refused q) :
    ⟨.expires, httpRfc822Date (gmtime (now + httpStaticExpires))⟩ ∈ x.writes r now := by
  cases x with
  | cached found => simp [Source.writes, cachedWrites]
  | file filepath mtime env =>
      simp only [Source.Refused, not_or, not_forall, ne_eq, not_not] at hx
      obtain ⟨hpath, ⟨fd, hopen⟩, st, hst, hreg, hover⟩ := hx
      have h416 : (selectPart
          { st with lastModified := httpRfc822Date (gmtime mtime) } r).2 ≠ 416 :=
        fun hcode => hover ((selectPart_code_iff h _).1 hcode)
      rw [Source.writes, fileWrites, if_neg hpath]
      simp only [FileEnv.dated, hopen, hst, Option.map_some, hreg, Bool.true_eq_false, if_false]
      rw [hreg] at h416
      rw [partWrites, if_neg h416]
      simp

/-- For every request, every file or cached content and all times with four-digit
years, the texts that are written stay in their buffers with their `'\0'` if and
only if the answer is an error page. -/
theorem scratchFits_iff {r : Request} {q : ParsedRequest} (h : ParsedIn r q) {now : Int}
    (hnow : FourDigits now) (x : Source) (hx : FourDigits x.mtime) :
    ScratchFits r now x ↔ x.Refused q := by
  constructor
  · intro hfits
    by_contra hrefused
    exact not_fits_expires _ (hfits _ (expires_mem_writes h now hrefused))
  · intro hrefused w hw
    exact (isRoomy_of_refused h hrefused w hw).fits hnow hx

/-- A file of ten bytes, and a range that begins behind it. -/
theorem scratchFits_behindEnd :
    ScratchFits (zeroed.storeParsed (requestWith (ascii "range") (ascii "bytes=10-")) false)
      784111777 (.file (ascii "a") 784111777 sentAtOnce) := by
  refine (scratchFits_iff (parsedIn_storeParsed _ _ _) (by decide +kernel) _
    (by decide +kernel)).2 (.inr (.inr ?_))
  intro st hst _
  obtain rfl : tenBytes = st := Option.some.inj hst
  refine ⟨[], ⟨10, none⟩, [], ?_, by decide⟩
  decide +kernel

/-- The whole of a file of ten bytes. -/
theorem not_scratchFits_tenBytes :
    ¬ ScratchFits (zeroed.storeParsed (requestWith (ascii "host") (ascii "a")) false)
      784111777 (.file (ascii "a") 784111777 sentAtOnce) := by
  decide +kernel

end OpenTube
