import OpenTube.Http.Reception
import OpenTube.Http.Send

/-!
# Sending a file

`http_send_file` opens the file, selects the part of it the `Range` header asks
for, sends the header block and then the file itself with `sendfile`. What the
kernel answers is collected in `FileEnv`; the dates are texts, since only their
bytes matter.
-/

namespace OpenTube

/-! ## The content type -/

/-- `http_mime_types` without its last entry. -/
def httpMimeTypes : List (List UInt8 × List UInt8) :=
  [(ascii ".html", ascii "text/html"),
    (ascii ".htm", ascii "text/html"),
    (ascii ".shtml", ascii "text/html"),
    (ascii ".css", ascii "text/css"),
    (ascii ".js", ascii "application/x-javascript"),
    (ascii ".png", ascii "image/png"),
    (ascii ".gif", ascii "image/gif"),
    (ascii ".jpg", ascii "image/jpeg"),
    (ascii ".jpeg", ascii "image/jpeg"),
    (ascii ".ico", ascii "image/x-icon"),
    (ascii ".txt", ascii "text/plain"),
    (ascii ".svg", ascii "image/svg+xml"),
    (ascii ".xml", ascii "text/xml"),
    (ascii ".swf", ascii "application/x-shockwave-flash"),
    (ascii ".flv", ascii "video/x-flv"),
    (ascii ".mp4", ascii "video/mp4"),
    (ascii ".webm", ascii "video/webm"),
    (ascii ".ogv", ascii "video/ogg"),
    (ascii ".mp3", ascii "audio/mpeg")]

/-- The C string from the last dot of the path on, the first character not being
looked at. -/
def fileExt (path : List UInt8) : List UInt8 :=
  if dot ∈ path.tail then
    (dot :: (path.tail.reverse.takeWhile fun c => c != dot).reverse).takeWhile fun c => c != nul
  else []

/-- `http_set_mime_type`. -/
def httpSetMimeType (r : Request) : Request :=
  { r with headersOut := { r.headersOut with
      contentType := (httpMimeTypes.lookup (fileExt r.headersIn.path)).getD
        (ascii "application/octet-stream") } }

/-! ## The part of the file -/

/-- What `fstat` says about the file; `lastModified` is the date of its last
change in the form of a header. -/
structure FileStat where
  isReg : Bool
  size : Int
  lastModified : List UInt8
deriving DecidableEq, Repr

/-- The two numbers of a `Range` header behind `bytes=`, if they are there: the
text in front of the hyphen and the text behind it. -/
def rangeParts (value : List UInt8) : List UInt8 × Option (List UInt8) :=
  let s := value.drop 6
  let first := s.takeWhile fun c => c != hyphen
  (first, if hyphen ∈ s then some (s.drop (first.length + 1)) else none)

/-- The branch of a `Range` header up to the test of the offset. The hyphen is
overwritten in the buffer. -/
def selectRange (st : FileStat) (r : Request) (h : Header) (value : List UInt8) : Request :=
  match rangeParts value with
  | (first, none) => { r with temp := { r.temp with sendfileOffset := atoi first } }
  | (first, some rest) =>
      let last :=
        if rest.head? = none ∨ rest.head? = some nul then r.temp.sendfileLast
        else min st.size (max 0 (atoi rest) + 1)
      { r with
        b := r.b.write (h.value.str + (6 + first.length : Nat)) [nul]
        temp := { r.temp with sendfileLast := last, sendfileOffset := atoi first } }

/-- The loop over the headers: the request and the status code, which is `416`
when the part does not lie in the file. -/
def rangeLoop (st : FileStat) : List Header → Request → Nat → Request × Nat
  | [], r, code => (r, code)
  | h :: hs, r, code =>
      match r.b.derefHeader h with
      | none => rangeLoop st hs r code
      | some (key, value) =>
          if key = ascii "if-modified-since" ∧ value.length = 29 ∧ value = st.lastModified then
            (r, 304)
          else if key = ascii "range" ∧ 6 < value.length ∧ value.take 6 = ascii "bytes=" then
            let r := selectRange st r h value
            if st.size ≤ r.temp.sendfileOffset then (r, 416)
            else if r.temp.sendfileLast < r.temp.sendfileOffset then
              rangeLoop st hs { r with temp := { r.temp with
                sendfileLast := r.temp.sendfileOffset + 1 } } 206
            else rangeLoop st hs r 206
          else rangeLoop st hs r code

/-- A part that would end before it begins is one byte long. -/
def Request.narrow (r : Request) : Request :=
  if r.temp.sendfileLast < r.temp.sendfileOffset then
    { r with temp := { r.temp with sendfileLast := r.temp.sendfileOffset + 1 } }
  else r

/-- What holds of the request before the loop and is kept by every `Range` header
holds behind it, unless the last such header leaves the file. -/
theorem rangeLoop_invariant (st : FileStat) (inv out : Request → Prop)
    (hstep : ∀ r h value, inv r → (selectRange st r h value).temp.sendfileOffset < st.size →
      inv (selectRange st r h value).narrow)
    (hout : ∀ r h value, inv r → out (selectRange st r h value)) (hs : List Header) (r : Request)
    (code : Nat) (hr : inv r) :
    (rangeLoop st hs r code).2 = 416 ∧ out (rangeLoop st hs r code).1 ∨
      inv (rangeLoop st hs r code).1 := by
  induction hs generalizing r code with
  | nil => exact .inr hr
  | cons h hs ih =>
      rw [rangeLoop]
      split
      · exact ih r code hr
      · rename_i key value _
        split
        · exact .inr hr
        · split
          · simp only
            split
            · exact .inl ⟨rfl, hout r h value hr⟩
            · rename_i hsize
              have hnext := hstep r h value hr (by omega)
              rw [Request.narrow] at hnext
              split <;> rename_i hback
              · exact ih _ 206 (by simpa [hback] using hnext)
              · exact ih _ 206 (by simpa [hback] using hnext)
          · exact ih r code hr

/-- The content type, and the part of the file the headers select. -/
def selectPart (st : FileStat) (r : Request) : Request × Nat :=
  let r := httpSetMimeType r
  let r := { r with temp := { r.temp with sendfileLast := st.size, sendfileOffset := 0 } }
  rangeLoop st r.headersIn.p r 200

/-! ## Sending -/

/-- The result of `open`: a descriptor, or an error by the kind the answer
depends on. -/
inductive OpenRes
  | ok (fd : Fd)
  | notFound
  | denied
  | failed
deriving DecidableEq, Repr

/-- The answers of the kernel to `http_send_file`, and the two dates of the
header block. -/
structure FileEnv where
  openRes : OpenRes
  stat : Option FileStat
  date : List UInt8
  expires : List UInt8
  write : IoRes
  sendfile : IoRes
deriving DecidableEq, Repr

/-- Arithmetic of a 64-bit `uint64`. -/
def uint64 (n : Int) : Nat := (n % 2 ^ 64).toNat

/-- The header block of a file. -/
def fileHeaders (c : Config) (r : Request) (code : Nat) (st : FileStat) (env : FileEnv) : Request :=
  let r := { r with headersOut := { r.headersOut with
    contentLength := uint64 (r.temp.sendfileLast - r.temp.sendfileOffset) } }
  let r := appendAll (httpAppendHeaders c r code)
    [ascii "Last-Modified: ", st.lastModified, crlf, ascii "Date: ", env.date, crlf,
      ascii "Expires: ", env.expires, crlf]
  let r :=
    if code = 206 then
      httpAppendToOutputBuf r (ascii "Content-Range: bytes " ++
        (xToStr (uint64 r.temp.sendfileOffset) 10 ++ (ascii "-" ++
          (xToStr (uint64 (r.temp.sendfileLast - 1)) 10 ++ (ascii "/" ++
            (xToStr (uint64 st.size) 10 ++ crlf))))))
    else r
  httpAppendToOutputBuf r (ascii "Accept-Ranges: bytes" ++ (crlf ++ crlf))

/-- The first `sendfile`, once the header block is sent. Its result is compared
with the length as an unsigned number. -/
def sendFileBody (r : Request) (fd : Fd) (res : IoRes) : Request × Bool × List Effect :=
  if res = .error then (r, true, [])
  else
    let sent := Effect.sent fd r.temp.sendfileOffset (max 0 res.value).toNat
    let r := { r with temp := { r.temp with
      sendfileOffset := r.temp.sendfileOffset + max 0 res.value } }
    if uint64 res.value < r.headersOut.contentLength then
      ({ r with temp := { r.temp with sendfileFd := some fd } }, false, [sent])
    else (r, true, [sent, .closed fd])

/-- An error page for a file that was not opened, or was opened and is closed
again. -/
def fileError (c : Config) (r : Request) (code : Nat) (env : FileEnv) :
    Request × Bool × List Effect :=
  let s := httpError c r code env.write
  (s.1, s.2, [.wrote (env.write.bytes (errorOutput c r code).outVec)])

/-- The part of `http_send_file` behind the loop over the headers. -/
def sendPart (c : Config) (r : Request) (code : Nat) (fd : Fd) (st : FileStat) (env : FileEnv) :
    Request × Bool × List Effect :=
  if code = 416 then
    let e := fileError c r 416 env
    (e.1, e.2.1, e.2.2 ++ [.closed fd])
  else
    let r := fileHeaders c r code st env
    let wrote := Effect.wrote (env.write.bytes r.outVec)
    let sent := httpSend r env.write
    if code = 304 then (sent.1, sent.2, [wrote, .closed fd])
    else if sent.2 = false then
      ({ sent.1 with temp := { sent.1.temp with sendfileFd := some fd } }, false, [wrote])
    else
      let b := sendFileBody sent.1 fd env.sendfile
      (b.1, b.2.1, wrote :: b.2.2)

/-- `http_send_file`: the request, the value returned and the effects. -/
def httpSendFile (c : Config) (r : Request) (filepath : List UInt8) (env : FileEnv) :
    Request × Bool × List Effect :=
  if filepath = [] then fileError c r 403 env
  else
    match env.openRes with
    | .notFound => fileError c r 404 env
    | .denied => fileError c r 403 env
    | .failed => fileError c r 500 env
    | .ok fd =>
        match env.stat with
        | none =>
            let e := fileError c r 500 env
            (e.1, e.2.1, .opened fd :: (e.2.2 ++ [.closed fd]))
        | some st =>
            if st.isReg = false then
              let e := fileError c r 403 env
              (e.1, e.2.1, .opened fd :: (e.2.2 ++ [.closed fd]))
            else
              let s := selectPart st r
              let e := sendPart c s.1 s.2 fd st env
              (e.1, e.2.1, .opened fd :: e.2.2)

/-! ## Delivering the part -/

/-- The run of one file response from its first `sendfile` on. -/
structure BodyRun where
  r : Request
  progress : Progress
  effects : List Effect
deriving DecidableEq, Repr

/-- The first `sendfile`; `http_send_file` returning true ends the request. -/
def firstSendfile (r : Request) (fd : Fd) (res : IoRes) : BodyRun :=
  let s := sendFileBody r fd res
  ⟨s.1, if s.2.1 then .ended else .pending, s.2.2⟩

/-- The further calls of `events_out_data`, as long as the request is pending. -/
def furtherSendfiles : BodyRun → List IoRes → BodyRun
  | s, [] => s
  | s, res :: rest =>
      if s.progress = .pending then
        let t := eventsOutData s.r res 0
        furtherSendfiles ⟨t.1, t.2.1, s.effects ++ t.2.2⟩ rest
      else s

/-- The `n` positions of a file from `a` on. -/
def positions (a : Int) (n : Nat) : List Int :=
  (List.range n).map fun (i : Nat) => a + i

/-- The positions an effect sends. -/
def Effect.positions : Effect → List Int
  | .sent _ offset count => OpenTube.positions offset count
  | _ => []

/-- `sendfile` would block, or sends at most the bytes asked for. -/
def IoRes.atMost (n : Int) : IoRes → Prop
  | .wouldBlock => True
  | .error => False
  | .count m => (m : Int) ≤ n

/-- The results of `sendfile` along the further run. -/
def Sendfiles : BodyRun → List IoRes → Prop
  | _, [] => True
  | s, res :: rest =>
      s.progress = .pending →
        res.atMost (s.r.temp.sendfileLast - s.r.temp.sendfileOffset) ∧
          Sendfiles (furtherSendfiles s [res]) rest

/-- A request about to send the part `[offset, last)` of a file. -/
structure AtBody (r : Request) (offset last : Int) : Prop where
  writevTotal : r.temp.writevTotal = 0
  sendfileOffset : r.temp.sendfileOffset = offset
  sendfileLast : r.temp.sendfileLast = last
  contentLength : (r.headersOut.contentLength : Int) = last - offset
  pos : offset < last
  bound : last - offset < 2 ^ 63

/-- The invariant of the run: the positions sent are those up to the recorded
offset, and those of the whole part when the request is ended. -/
structure PartSent (fd : Fd) (offset last : Int) (s : BodyRun) : Prop where
  notFailed : s.progress ≠ .failed
  pending : s.progress = .pending →
    s.r.temp.writevTotal = 0 ∧ s.r.temp.sendfileFd = some fd ∧ s.r.temp.sendfileLast = last ∧
      offset ≤ s.r.temp.sendfileOffset ∧ s.r.temp.sendfileOffset < last ∧
      s.effects.flatMap Effect.positions =
        positions offset (s.r.temp.sendfileOffset - offset).toNat
  ended : s.progress = .ended →
    s.effects.flatMap Effect.positions = positions offset (last - offset).toNat

theorem positions_append (a : Int) (m n : Nat) :
    positions a m ++ positions (a + m) n = positions a (m + n) := by
  simp only [positions, List.range_add, List.map_append, List.map_map]
  congr 1
  refine List.map_congr_left fun i _ => ?_
  simp only [Function.comp_apply]
  omega

theorem partSent_firstSendfile {r : Request} {offset last : Int}
    (h : AtBody r offset last) (fd : Fd)
    {n : Nat} (hn : (n : Int) ≤ last - offset) :
    PartSent fd offset last (firstSendfile r fd (.count n)) := by
  have hpos := h.pos
  have hbound := h.bound
  have hlength := h.contentLength
  have huint : uint64 n = n := by
    unfold uint64
    omega
  by_cases hlt : n < r.headersOut.contentLength
  · have hstart : firstSendfile r fd (.count n) =
        ⟨{ r with temp := { r.temp with
            sendfileOffset := r.temp.sendfileOffset + n, sendfileFd := some fd } },
          .pending, [.sent fd r.temp.sendfileOffset n]⟩ := by
      simp [firstSendfile, sendFileBody, IoRes.value, huint, hlt]
    rw [hstart]
    refine ⟨by simp, fun _ => ⟨h.writevTotal, rfl, h.sendfileLast, ?_, ?_, ?_⟩, by simp⟩
    · simp only [h.sendfileOffset]
      omega
    · simp only [h.sendfileOffset]
      omega
    · have hcount : (offset + n - offset).toNat = n := by omega
      simp [Effect.positions, h.sendfileOffset, hcount]
  · have hstart : firstSendfile r fd (.count n) =
        ⟨{ r with temp := { r.temp with sendfileOffset := r.temp.sendfileOffset + n } },
          .ended, [.sent fd r.temp.sendfileOffset n, .closed fd]⟩ := by
      simp [firstSendfile, sendFileBody, IoRes.value, huint, hlt]
    rw [hstart]
    refine ⟨by simp, by simp, fun _ => ?_⟩
    have hall : (last - offset).toNat = n := by omega
    simp [Effect.positions, h.sendfileOffset, hall]

/-- One more `sendfile` keeps the invariant. -/
theorem PartSent.step {fd : Fd} {offset last : Int} {s : BodyRun} (h : PartSent fd offset last s)
    (hpending : s.progress = .pending) {res : IoRes}
    (hres : res.atMost (s.r.temp.sendfileLast - s.r.temp.sendfileOffset)) :
    PartSent fd offset last (furtherSendfiles s [res]) := by
  obtain ⟨htotal, hfd, hlast, hle, hlt, hsent⟩ := h.pending hpending
  obtain ⟨n, hvalue, hn, hne⟩ : ∃ n : Nat, max 0 res.value = n ∧
      (n : Int) ≤ last - s.r.temp.sendfileOffset ∧ res ≠ .error := by
    cases res with
    | wouldBlock => exact ⟨0, rfl, by omega, by simp⟩
    | error => exact absurd hres (by simp [IoRes.atMost])
    | count n =>
        refine ⟨n, by simp [IoRes.value], ?_, by simp⟩
        simpa [IoRes.atMost, hlast] using hres
  have hmore : (s.effects ++ [Effect.sent fd s.r.temp.sendfileOffset n]).flatMap
      Effect.positions = positions offset (s.r.temp.sendfileOffset + n - offset).toNat := by
    have hoffset : s.r.temp.sendfileOffset =
        offset + ((s.r.temp.sendfileOffset - offset).toNat : Nat) := by omega
    have hcount : (s.r.temp.sendfileOffset + n - offset).toNat =
        (s.r.temp.sendfileOffset - offset).toNat + n := by omega
    rw [List.flatMap_append, hsent, hcount, ← positions_append, ← hoffset]
    simp [Effect.positions]
  by_cases hdone : s.r.temp.sendfileOffset + n < last
  · have hstep : furtherSendfiles s [res] =
        ⟨{ s.r with temp := { s.r.temp with sendfileOffset := s.r.temp.sendfileOffset + n } },
          .pending, s.effects ++ [.sent fd s.r.temp.sendfileOffset n]⟩ := by
      simp [furtherSendfiles, hpending, eventsOutData, htotal, hfd, hne, hvalue, hlast, hdone]
    rw [hstep]
    refine ⟨by simp, fun _ => ⟨htotal, hfd, hlast, ?_, hdone, hmore⟩, by simp⟩
    simp only
    omega
  · have hstep : furtherSendfiles s [res] =
        ⟨httpCleanup s.r 0, .ended,
          s.effects ++ [.sent fd s.r.temp.sendfileOffset n, .closed fd]⟩ := by
      simp [furtherSendfiles, hpending, eventsOutData, htotal, hfd, hne, hvalue, hlast, hdone]
    rw [hstep]
    refine ⟨by simp, by simp, fun _ => ?_⟩
    have hall : s.r.temp.sendfileOffset + n = last := by omega
    have hclosed : s.effects ++ [Effect.sent fd s.r.temp.sendfileOffset n, Effect.closed fd] =
        (s.effects ++ [Effect.sent fd s.r.temp.sendfileOffset n]) ++ [Effect.closed fd] := by simp
    rw [hclosed, List.flatMap_append, hmore, hall]
    simp [Effect.positions]

theorem PartSent.run {fd : Fd} {offset last : Int} {rest : List IoRes} :
    ∀ {s : BodyRun}, PartSent fd offset last s → Sendfiles s rest →
      PartSent fd offset last (furtherSendfiles s rest) := by
  induction rest with
  | nil =>
      intro s h _
      exact h
  | cons res rest ih =>
      intro s h hrest
      by_cases hpending : s.progress = .pending
      · obtain ⟨hres, hnext⟩ := hrest hpending
        have hsplit : furtherSendfiles s (res :: rest) =
          furtherSendfiles (furtherSendfiles s [res]) rest := by
          simp [furtherSendfiles, hpending]
        rw [hsplit]
        exact ih (h.step hpending hres) hnext
      · have hstop : furtherSendfiles s (res :: rest) = s := by simp [furtherSendfiles, hpending]
        rw [hstop]
        exact h

/-- The request is ended only after exactly the positions of the part were sent,
each once and in order, if and only if the first `sendfile` does not block. -/
theorem body_ended_only_when_sent_iff {r : Request} {offset last : Int}
    (h : AtBody r offset last) (fd : Fd) {first : IoRes} (hfirst : first.atMost (last - offset))
    {rest : List IoRes} (hrest : Sendfiles (firstSendfile r fd first) rest) :
    ((furtherSendfiles (firstSendfile r fd first) rest).progress = .ended →
        (furtherSendfiles (firstSendfile r fd first) rest).effects.flatMap Effect.positions =
          positions offset (last - offset).toNat) ↔
      first ≠ .wouldBlock := by
  constructor
  · rintro hsent rfl
    have hlt : ¬ uint64 (-1) < r.headersOut.contentLength := by
      have hbound := h.bound
      have hlength := h.contentLength
      have huint : uint64 (-1) = 2 ^ 64 - 1 := by decide
      omega
    have hstart : firstSendfile r fd .wouldBlock =
        ⟨{ r with temp := { r.temp with sendfileOffset := r.temp.sendfileOffset + 0 } }, .ended,
          [.sent fd r.temp.sendfileOffset 0, .closed fd]⟩ := by
      have hmax : max (0 : Int) (-1) = 0 := rfl
      simp [firstSendfile, sendFileBody, IoRes.value, hlt, hmax]
    have hstop : furtherSendfiles (firstSendfile r fd .wouldBlock) rest =
      firstSendfile r fd .wouldBlock := by
      cases rest with
      | nil => rfl
      | cons res rest => simp [furtherSendfiles, hstart]
    rw [hstop, hstart] at hsent
    have hnone := hsent rfl
    have hlen := congrArg List.length hnone
    have hpos := h.pos
    simp [Effect.positions, positions] at hlen
    omega
  · intro hne
    obtain ⟨n, rfl, hn⟩ : ∃ n, first = .count n ∧ (n : Int) ≤ last - offset := by
      cases first with
      | wouldBlock => exact absurd rfl hne
      | error => exact absurd hfirst (by simp [IoRes.atMost])
      | count n => exact ⟨n, rfl, hfirst⟩
    exact ((partSent_firstSendfile h fd hn).run hrest).ended

/-- A request that is about to send the six bytes of a file. -/
def sixBytes : Request :=
  { zeroed with
    headersOut := ⟨6, []⟩
    temp := { zeroed.temp with sendfileLast := 6 } }

/-- Two bytes, then nothing, then four. -/
theorem body_ended_only_when_sent_iff_sixBytes :
    (furtherSendfiles (firstSendfile sixBytes 7 (.count 2)) [.wouldBlock, .count 4]).effects.flatMap
      Effect.positions = positions 0 6 := by
  have hrest : Sendfiles (firstSendfile sixBytes 7 (.count 2)) [.wouldBlock, .count 4] := by
    refine fun _ => ⟨trivial, fun _ => ⟨?_, trivial⟩⟩
    change (4 : Int) ≤ _
    decide +kernel
  have hfirst : (IoRes.count 2).atMost (6 - 0) := by
    change (2 : Int) ≤ 6 - 0
    decide
  exact (body_ended_only_when_sent_iff
    ⟨rfl, rfl, rfl, rfl, by decide, by decide⟩ 7 hfirst hrest).2 (by simp) (by decide +kernel)

/-- A first `sendfile` that would block ends the request with nothing sent. -/
theorem body_ended_unsent :
    AtBody sixBytes 0 6 ∧ (firstSendfile sixBytes 7 .wouldBlock).progress = .ended ∧
      (firstSendfile sixBytes 7 .wouldBlock).effects.flatMap Effect.positions ≠ positions 0 6 :=
  ⟨⟨rfl, rfl, rfl, rfl, by decide, by decide⟩, by decide +kernel, by decide +kernel⟩

end OpenTube
