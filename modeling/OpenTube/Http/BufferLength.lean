import OpenTube.Http.PostBody
import OpenTube.Lib.Run

/-!
# The length of the request buffer

`http_serve_client` raises `cur_len` before a `recv` and lowers it again when it
knows how many bytes arrived, or that none did. `Reception` is a request with what
was received for it: the number of bytes, and the length of the header block once
its terminator was found. `Accounted` says what `cur_len` has to be, and `keeps` what
a pass of the loop has to do to it.

The exit for a `recv` that would block is shared by both phases, but only while the
block is received `cur_len` was raised before. As long as no `recv` would block while
the body is received the account is right.
-/

namespace OpenTube

open Machine

/-! ## Passes of the loop -/

/-- The bytes a `recv` returned. -/
def Recv.bytes : Recv → List UInt8
  | .data chunk => chunk
  | _ => []

/-- A request and what was received for it. -/
structure Reception where
  request : Request
  received : Nat
  header : Option Nat
deriving DecidableEq, Repr

/-- One pass of the loop, unless it answers the request or closes the connection. -/
def Reception.step (s : Reception) (e : RecvEvent) : Option Reception :=
  let x := serveRecv s.request e
  if x.2 = .more ∨ x.2 = .waiting then
    some ⟨x.1, s.received + e.res.bytes.length,
      match s.header with
      | some h => some h
      | none => (findTerminator e.res.bytes).map fun i => s.received + i + 1⟩
  else none

/-- A request before the first `recv`. -/
def Reception.start (r : Request) (fd : Fd) : Reception := ⟨r.assign fd, 0, none⟩

/-- The length of the buffer is the number of bytes received, and behind the block
that of the block with a body in memory and its `NUL`. -/
structure Reception.Accounted (s : Reception) : Prop where
  header : s.header = none → s.request.b.curLen = s.received
  body : ∀ h ∈ s.header, ∀ a, s.request.body.dataStr = .heap a →
    s.request.b.curLen = h + s.request.headersIn.contentLengthVal + 1

/-- The length that is lowered in a pass is not below what it is lowered by. -/
def NeverBelow (r : Request) (e : RecvEvent) : Prop :=
  match e.res with
  | .data chunk =>
      r.headersIn.methodPost = false →
        httpRecvBuffer - chunk.length ≤ (r.expand httpRecvBuffer e.addr).b.curLen
  | .wouldBlock =>
      httpRecvBuffer ≤
        (if r.headersIn.methodPost then r else r.expand httpRecvBuffer e.addr).b.curLen
  | .closed => True

/-- What a pass does to the length: it is right before, it is not lowered below zero,
and a `recv` that would block leaves it as it is. -/
structure Reception.Keeps (s : Reception) (e : RecvEvent) : Prop where
  accounted : s.Accounted
  neverBelow : NeverBelow s.request e
  wouldBlock : e.res = .wouldBlock → (serveRecv s.request e).1.b.curLen = s.request.b.curLen

/-- A `recv` returns at least one byte and at most as many as were asked for, or it
would block while the header block is received. -/
def Reception.Allowed (s : Reception) : Recv → Prop
  | .data chunk => chunk ≠ [] ∧ chunk.length ≤ recvRoom s.request
  | .wouldBlock => s.request.headersIn.methodPost = false
  | .closed => False

instance Reception.Allowed.decidable (s : Reception) : ∀ res : Recv, Decidable (s.Allowed res)
  | .data chunk => inferInstanceAs (Decidable (chunk ≠ [] ∧ chunk.length ≤ recvRoom s.request))
  | .wouldBlock => inferInstanceAs (Decidable (s.request.headersIn.methodPost = false))
  | .closed => inferInstanceAs (Decidable False)

/-! ## The invariant -/

/-- The two phases of a reception. -/
inductive Reception.Phase (s : Reception) : Prop
  | header {acc : List UInt8} (phase : HeaderPhase s.request acc) (header : s.header = none)
      (length : acc.length = s.received) (max : acc.length ≤ httpMaxHeadersSize)
  | body {h : Nat} (header : s.header = some h) (methodPost : s.request.headersIn.methodPost = true)
      (uri : s.request.headersIn.uri.len ≠ 0)
      (curLen : ∀ a, s.request.body.dataStr = .heap a →
        s.request.b.curLen = h + s.request.headersIn.contentLengthVal + 1)

theorem Reception.Phase.accounted {s : Reception} (h : s.Phase) : s.Accounted := by
  cases h with
  | header phase header length max =>
      refine ⟨fun _ => by rw [phase.curLen, length], fun h hh => ?_⟩
      rw [header] at hh
      simp at hh
  | @body h header methodPost uri curLen =>
      refine ⟨fun hnone => ?_, fun h' hh => ?_⟩
      · rw [header] at hnone
        simp at hnone
      · rw [header] at hh
        obtain rfl := Option.some.inj hh
        exact curLen

theorem Reception.Phase.start {r : Request} (h : Idle r) (fd : Fd) : (Reception.start r fd).Phase :=
  .header (h.headerPhase fd) rfl rfl (Nat.zero_le _)

/-- An allowed pass keeps the account. -/
theorem Reception.Phase.keeps {s : Reception} (h : s.Phase) {e : RecvEvent}
    (he : s.Allowed e.res) : s.Keeps e := by
  refine ⟨h.accounted, ?_, ?_⟩
  · cases h with
    | @header acc phase header length max =>
        have hroom := (phase.expand_b max e.addr).2
        unfold NeverBelow
        rw [phase.methodPost, Request.expand_b, hroom]
        cases hres : e.res with
        | data chunk =>
            intro _
            omega
        | wouldBlock =>
            simp only [Bool.false_eq_true, if_false, Request.expand_b, hroom]
            omega
        | closed => trivial
    | body header methodPost uri curLen =>
        unfold NeverBelow
        cases hres : e.res with
        | data chunk => simp [methodPost]
        | wouldBlock =>
            rw [hres] at he
            exact absurd (methodPost.symm.trans he) (by decide)
        | closed => trivial
  · intro hblock
    rw [hblock] at he
    cases h with
    | @header acc phase header length max =>
        rw [phase.serveRecv_wouldBlock hblock, (phase.noData max e.addr).1.curLen, phase.curLen]
    | body header methodPost uri curLen =>
        exact absurd (methodPost.symm.trans he) (by decide)

/-- The room for a body in memory is made behind the block. -/
theorem startBody_curLen {r : Request} {k : PostInfo} (hk : k.length ≤ httpMaxRequestBodySize)
    {h : Nat} {extra : List UInt8} (hcur : r.b.curLen = h + extra.length)
    (hmax : r.b.curLen ≤ httpMaxHeadersSize) (a bodyAddr a' : Int)
    (hheap : (r.startBody k extra a bodyAddr).body.dataStr = .heap a') :
    (r.startBody k extra a bodyAddr).b.curLen = h + k.length + 1 := by
  have hsizes : httpMaxHeadersSize + httpMaxRequestBodySize + 1 < 2 ^ 32 := by decide
  unfold Request.startBody at hheap ⊢
  split at hheap
  · simp at hheap
  · rename_i hsmall
    rw [if_neg hsmall, Request.expand_b, Buf.expand_curLen]
    simp only [Request.storePostInfo]
    unfold uint
    omega

theorem Reception.step_eq_some {s t : Reception} {e : RecvEvent} (h : s.step e = some t) :
    ((serveRecv s.request e).2 = .more ∨ (serveRecv s.request e).2 = .waiting) ∧
      t = ⟨(serveRecv s.request e).1, s.received + e.res.bytes.length,
        match s.header with
        | some h => some h
        | none => (findTerminator e.res.bytes).map fun i => s.received + i + 1⟩ := by
  simp only [Reception.step] at h
  split at h
  · exact ⟨‹_›, (Option.some.inj h).symm⟩
  · simp at h

/-- A pass that finds the terminator and does not answer has begun with the body. -/
theorem HeaderPhase.found_waiting {r : Request} {acc chunk : List UInt8}
    (h : HeaderPhase r (acc ++ chunk)) {i : Nat} (hi : findTerminator chunk = some i)
    (hmax : (acc ++ chunk).length ≤ httpMaxHeadersSize) {e : RecvEvent}
    (hwait : (serveHeader r chunk e).2 = .more ∨ (serveHeader r chunk e).2 = .waiting) :
    ∃ (r' : Request) (k : PostInfo) (extra : List UInt8) (a : Int),
      k.length ≤ httpMaxRequestBodySize ∧
      r'.headersIn.methodPost = true ∧ r'.headersIn.uri.len ≠ 0 ∧ r'.b.curLen = r.b.curLen ∧
      r.b.curLen = acc.length + i + 1 + extra.length ∧
      (serveHeader r chunk e).1 = r'.startBody k extra a e.bodyAddr := by
  obtain ⟨-, hlt⟩ := findTerminator_lt hi
  rw [h.serveHeader_found hi hmax rfl e] at hwait ⊢
  obtain ⟨m, hm⟩ : ∃ m, m = markAt (acc ++ chunk) (acc.length + i - 1) := ⟨_, rfl⟩
  rw [← hm] at hwait ⊢
  cases hparse : httpParseHeaders m with
  | overrun => simp [hparse] at hwait
  | error code lines => simp [hparse] at hwait
  | ok q =>
      simp only [hparse] at hwait ⊢
      by_cases hpost : q.method = .post
      · rw [if_pos hpost] at hwait ⊢
        cases hk : q.postInfo with
        | error code =>
            rw [servePostHeaders_error hk] at hwait
            simp at hwait
        | ok k =>
            rw [servePostHeaders_ok hk, servePost] at hwait ⊢
            split at hwait
            · simp at hwait
            · rename_i hshort
              rw [if_neg hshort]
              refine ⟨_, k, _, _, q.postInfo_length hk, ?_, ?_, ?_, ?_, rfl⟩
              · simp [Request.storeParsed, hpost]
              · simpa [Request.storeParsed] using httpParseHeaders_ok_uri_ne_nil hparse
              · rfl
              · rw [List.length_drop, httpParseHeaders_ok_length hparse, hm, markAt_length,
                  h.curLen]
                · rw [List.length_append]
                  omega
                · rw [List.length_append]
                  omega
      · rw [if_neg hpost] at hwait
        simp at hwait

/-- A chunk of the block: the block goes on, or the body has begun. -/
theorem Reception.Phase.header_data {s t : Reception} {acc chunk : List UInt8}
    (phase : HeaderPhase s.request acc) (header : s.header = none)
    (length : acc.length = s.received) (max : acc.length ≤ httpMaxHeadersSize) {e : RecvEvent}
    (he : e.res = .data chunk) (hchunk : chunk.length ≤ httpRecvBuffer)
    (hstep : s.step e = some t) : t.Phase := by
  obtain ⟨hwait, rfl⟩ := Reception.step_eq_some hstep
  have hreceived := phase.received max hchunk e.addr
  have hmax : (acc ++ chunk).length ≤ httpMaxHeadersSize := by
    by_contra hlong
    rw [phase.serveRecv_tooLong max he hchunk (by omega)] at hwait
    simp at hwait
  have hlen : (acc ++ chunk).length = s.received + e.res.bytes.length := by
    rw [he, List.length_append, length]
    rfl
  rw [phase.serveRecv_data max hchunk he] at hwait ⊢
  simp only [header]
  cases hi : findTerminator chunk with
  | none =>
      have hsame : (serveHeader (s.request.received chunk e.addr) chunk e).1 =
          s.request.received chunk e.addr := by
        simp only [serveHeader, hi]
        split_ifs <;> rfl
      rw [hsame]
      refine .header hreceived ?_ hlen hmax
      simp [he, Recv.bytes, hi]
  | some i =>
      obtain ⟨r', k, extra, a, hk, hpost, huri, hcur, hsplit, heq⟩ :=
        hreceived.found_waiting hi hmax hwait
      obtain ⟨hpost', huri'⟩ := Request.startBody_keeps_post r' k extra a e.bodyAddr
      rw [heq]
      refine .body (h := s.received + i + 1) ?_ (hpost'.trans hpost)
        (fun hzero => ?_) fun a' ha => ?_
      · simp [he, Recv.bytes, hi]
      · exact huri (huri'.symm.trans hzero)
      · rw [startBody_curLen hk (h := s.received + i + 1) (by omega)
          (by rw [hcur, hreceived.curLen]; exact hmax) a e.bodyAddr a' ha,
          Request.startBody_contentLengthVal]

theorem writeBody_curLen (r : Request) (o : Nat) (bytes : List UInt8) :
    (r.writeBody o bytes).b.curLen = r.b.curLen := by
  unfold Request.writeBody
  cases r.body.dataStr with
  | heap a => exact Buf.write_curLen _ _ _
  | mapped p => rfl

/-- A chunk of the body leaves the length as it is. -/
theorem Reception.Phase.body_data {s t : Reception} {h : Nat} (header : s.header = some h)
    (methodPost : s.request.headersIn.methodPost = true) (uri : s.request.headersIn.uri.len ≠ 0)
    (curLen : ∀ a, s.request.body.dataStr = .heap a →
      s.request.b.curLen = h + s.request.headersIn.contentLengthVal + 1) {e : RecvEvent}
    {chunk : List UInt8} (he : e.res = .data chunk) (hstep : s.step e = some t) : t.Phase := by
  obtain ⟨hwait, rfl⟩ := Reception.step_eq_some hstep
  have hrecv : serveRecv s.request e = servePost
      { s.request.writeBody s.request.body.dataLen chunk with
        body := { s.request.body with dataLen := s.request.body.dataLen + chunk.length } } := by
    simp [serveRecv, methodPost, he, serveData, uri]
  rw [hrecv, servePost] at hwait ⊢
  split at hwait
  · simp at hwait
  · rename_i hshort
    rw [if_neg hshort]
    refine .body (h := h) (by simp only [header]) (by simpa using methodPost) (by simpa using uri)
      fun a ha => ?_
    simpa [writeBody_curLen] using curLen a ha

/-- What an allowed pass that does not answer leads to. -/
theorem Reception.Phase.step {s t : Reception} (h : s.Phase) {e : RecvEvent}
    (he : s.Allowed e.res) (hstep : s.step e = some t) : t.Phase := by
  cases hres : e.res with
  | data chunk =>
      rw [hres] at he
      cases h with
      | header phase header length max =>
          rw [Reception.Allowed, phase.recvRoom_eq] at he
          exact header_data phase header length max hres he.2 hstep
      | body header methodPost uri curLen =>
          exact body_data header methodPost uri curLen hres hstep
  | wouldBlock =>
      rw [hres] at he
      cases h with
      | @header acc phase header length max =>
          obtain ⟨-, rfl⟩ := Reception.step_eq_some hstep
          rw [phase.serveRecv_wouldBlock hres]
          refine .header (phase.noData max e.addr).1 ?_ ?_ max
          · simp [header, hres, Recv.bytes, findTerminator, Scan.scanToPat]
          · simp [length, hres, Recv.bytes]
      | body header methodPost uri curLen => exact absurd (methodPost.symm.trans he) (by decide)
  | closed =>
      rw [hres] at he
      exact he.elim

/-! ## Whole runs -/

/-- As long as no `recv` would block while the body is received, every pass keeps the
account and it is right in every state that is reached. -/
theorem accounted_run {r : Request} (hr : Idle r) (fd : Fd) {es : List RecvEvent}
    (hes : Meets Reception.step (fun s e => s.Allowed e.res) (Reception.start r fd) es) :
    Meets Reception.step Reception.Keeps (Reception.start r fd) es ∧
      ∀ s, run Reception.step (Reception.start r fd) es = some s → s.Accounted := by
  have hstart := Reception.Phase.start hr fd
  refine ⟨?_, fun s hrun => ?_⟩
  · exact Meets.of_invariant (fun _ _ _ hs he => hs.step he) (fun _ _ hs he => hs.keeps he) es _
      hstart hes
  · exact (run_invariant (fun _ _ _ hs he => hs.step he) es _ s hstart hes hrun).accounted

/-- A `recv` that would block, the block of a form with the first byte of its body,
and the second byte: 88 bytes of the block, three of the body and the `NUL`. -/
theorem accounted_form :
    Meets Reception.step (fun s e => s.Allowed e.res)
      (Reception.start (httpPrepare zeroed true 64) 5)
        [⟨.wouldBlock, 96, 0, false⟩, ⟨.data (formBlock ++ ascii "a"), 4096, 9000, false⟩,
          ⟨.data (ascii "="), 0, 0, false⟩] ∧
      Meets Reception.step Reception.Keeps (Reception.start (httpPrepare zeroed true 64) 5)
        [⟨.wouldBlock, 96, 0, false⟩, ⟨.data (formBlock ++ ascii "a"), 4096, 9000, false⟩,
          ⟨.data (ascii "="), 0, 0, false⟩] := by
  have hes : Meets Reception.step (fun s e => s.Allowed e.res)
      (Reception.start (httpPrepare zeroed true 64) 5)
      [⟨.wouldBlock, 96, 0, false⟩, ⟨.data (formBlock ++ ascii "a"), 4096, 9000, false⟩,
        ⟨.data (ascii "="), 0, 0, false⟩] := by decide +kernel
  exact ⟨hes, (accounted_run (idle_httpPrepare zeroed true 64) 5 hes).1⟩

/-- A `recv` that would block while the body is received takes 8192 bytes off a
length of 92. -/
theorem not_accounted_blocked :
    (run Reception.step (Reception.start (httpPrepare zeroed true 64) 5)
        [⟨.data (formBlock ++ ascii "a"), 4096, 9000, false⟩, ⟨.wouldBlock, 0, 0, false⟩]).map
      (fun s => (s.header, s.request.headersIn.contentLengthVal, s.request.body.dataStr,
        s.request.b.curLen)) = some (some 88, 3, .heap 9088, 92 + 2 ^ 32 - 8192) ∧
    ¬ ∀ s, run Reception.step (Reception.start (httpPrepare zeroed true 64) 5)
        [⟨.data (formBlock ++ ascii "a"), 4096, 9000, false⟩, ⟨.wouldBlock, 0, 0, false⟩] = some s →
      s.Accounted := by
  have hrun : (run Reception.step (Reception.start (httpPrepare zeroed true 64) 5)
        [⟨.data (formBlock ++ ascii "a"), 4096, 9000, false⟩, ⟨.wouldBlock, 0, 0, false⟩]).map
      (fun s => (s.header, s.request.headersIn.contentLengthVal, s.request.body.dataStr,
        s.request.b.curLen)) = some (some 88, 3, .heap 9088, 92 + 2 ^ 32 - 8192) := by
    decide +kernel
  refine ⟨hrun, fun hall => ?_⟩
  obtain ⟨s, hs, hfields⟩ := Option.map_eq_some_iff.1 hrun
  obtain ⟨hheader, hlength, hdata, hcur⟩ : s.header = some 88 ∧
      s.request.headersIn.contentLengthVal = 3 ∧ s.request.body.dataStr = .heap 9088 ∧
      s.request.b.curLen = 92 + 2 ^ 32 - 8192 := by simpa using hfields
  have haccount := (hall s hs).body 88 hheader 9088 hdata
  omega

end OpenTube
