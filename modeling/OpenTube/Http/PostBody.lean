import OpenTube.Http.Segmentation

/-!
# Assembling the body of a POST

Once its block is accepted, a `POST` waits until as many bytes have arrived as
its `Content-Length` says. `BodyPhase` is the invariant of that wait: the bytes
received so far are stored behind the block or in the mapped file, and the
parsed block is intact. The response is reached at the first moment enough bytes
are there.
-/

namespace OpenTube

open Scan

/-! ## What the kernel may return -/

/-- The number of bytes the next `recv` asks for. -/
def recvRoom (r : Request) : Nat :=
  if r.headersIn.methodPost then r.headersIn.contentLengthVal - r.body.dataLen else httpRecvBuffer

/-- Every `recv` of the run would block or returns at least one byte and at most
as many as were asked for. -/
def Honoured : Request → List RecvEvent → Prop
  | _, [] => True
  | r, e :: es =>
      (e.res = .wouldBlock ∨
        ∃ chunk, e.res = .data chunk ∧ chunk ≠ [] ∧ chunk.length ≤ recvRoom r) ∧
      ((serveRecv r e).2 = .more ∨ (serveRecv r e).2 = .waiting → Honoured (serveRecv r e).1 es)

/-- The bytes received. -/
def receivedBytes (es : List RecvEvent) : List UInt8 := (chunks es).flatten

@[simp] theorem receivedBytes_nil : receivedBytes [] = [] := rfl

theorem receivedBytes_cons_data {e : RecvEvent} {chunk : List UInt8} (h : e.res = .data chunk)
    (es : List RecvEvent) : receivedBytes (e :: es) = chunk ++ receivedBytes es := by
  simp [receivedBytes, h]

theorem receivedBytes_cons_wouldBlock {e : RecvEvent} (h : e.res = .wouldBlock)
    (es : List RecvEvent) : receivedBytes (e :: es) = receivedBytes es := by
  simp [receivedBytes, h]

@[simp] theorem receivedBytes_append (es₁ es₂ : List RecvEvent) :
    receivedBytes (es₁ ++ es₂) = receivedBytes es₁ ++ receivedBytes es₂ := by
  simp [receivedBytes, chunks]

/-! ## The specification -/

/-- `s` is the end of a run over `es` that answered the request as soon as `n`
bytes had been received, and not before. -/
def AnsweredAt (s : Request × Served × List RecvEvent) (es : List RecvEvent) (n : Nat) : Prop :=
  s.2.1 = .response ∧ ∃ used, es = used ++ s.2.2 ∧ n ≤ (receivedBytes used).length ∧
    ∀ front e, used = front ++ [e] → (receivedBytes front).length < n

/-- The body is its first `n` bytes and a `NUL`, and the pointers into the block
still denote its parts. -/
structure BodyReady (r : Request) (q : ParsedRequest) (n : Nat) (body : List UInt8) : Prop where
  view : r.view = some q.view
  dataLen : r.body.dataLen = n
  bodyText : r.bodyText = some (body.take n ++ [nul])

/-- The run over `es` answers the request `q` whose block is `block` and whose
body has `n` bytes when the last of them arrives, and otherwise goes on
waiting. -/
structure Assembles (r : Request) (es : List RecvEvent) (q : ParsedRequest) (block : List UInt8)
    (n : Nat) : Prop where
  answered : block.length + n ≤ (receivedBytes es).length →
    AnsweredAt (serveAll r es) es (block.length + n) ∧
      BodyReady (serveAll r es).1 q n ((receivedBytes es).drop block.length)
  waits : (receivedBytes es).length < block.length + n →
    (serveAll r es).2.1 = .waiting ∧ (serveAll r es).2.2 = []

/-! ## While the body is incomplete -/

/-- The body received so far is `body`, and more of it is expected. -/
structure BodyPhase (r : Request) (q : ParsedRequest) (n : Nat) (body : List UInt8) : Prop where
  inBody : InBody r q body
  method : q.method = .post
  uri : q.uri ≠ []
  contentLength : r.headersIn.contentLengthVal = n
  dataLen : r.body.dataLen = body.length
  short : body.length < n

theorem BodyPhase.recvRoom_eq {r : Request} {q : ParsedRequest} {n : Nat} {body : List UInt8}
    (h : BodyPhase r q n body) : recvRoom r = n - body.length := by
  simp [recvRoom, h.inBody.parsed.methodPost, h.method, h.contentLength, h.dataLen]

/-- A `recv` that would block leaves the body as it is. -/
theorem BodyPhase.wouldBlock {r : Request} {q : ParsedRequest} {n : Nat} {body : List UInt8}
    (h : BodyPhase r q n body) {e : RecvEvent} (he : e.res = .wouldBlock) :
    (serveRecv r e).2 = .waiting ∧ BodyPhase (serveRecv r e).1 q n body := by
  have hp := h.inBody.parsed
  have hrecv : serveRecv r e = serveNoData r .wouldBlock := by
    simp [serveRecv, hp.methodPost, h.method, he]
  rw [hrecv]
  exact ⟨rfl, ⟨⟨⟨hp.front, hp.methodGet, hp.methodPost, hp.methodHead, hp.uri, hp.httpVersion,
    hp.p⟩, h.inBody.stored⟩, h.method, h.uri, h.contentLength, h.dataLen, h.short⟩⟩

/-- A chunk of the body is appended to it. -/
theorem BodyPhase.serveRecv_data {r : Request} {q : ParsedRequest} {n : Nat}
    {body chunk : List UInt8} (h : BodyPhase r q n body) {e : RecvEvent}
    (he : e.res = .data chunk) :
    ∃ r', serveRecv r e = servePost r' ∧ InBody r' q (body ++ chunk) ∧
      r'.headersIn.contentLengthVal = n ∧ r'.body.dataLen = (body ++ chunk).length := by
  have hp := h.inBody.parsed
  have hwrite := h.inBody.writeBody (o := r.body.dataLen) (Nat.le_of_eq h.dataLen) chunk
  have hbody : body.take r.body.dataLen ++ (chunk ++ body.drop (r.body.dataLen + chunk.length)) =
      body ++ chunk := by
    rw [h.dataLen]
    simp [List.drop_eq_nil_of_le]
  rw [hbody] at hwrite
  have huri : r.headersIn.uri.len ≠ 0 := by simpa [hp.uri] using h.uri
  have hpost : r.headersIn.methodPost = true := by simp [hp.methodPost, h.method]
  have hrecv : serveRecv r e = servePost { r.writeBody r.body.dataLen chunk with
      body := { r.body with dataLen := r.body.dataLen + chunk.length } } := by
    simp [serveRecv, hpost, he, serveData, huri]
  have hp' := hwrite.parsed
  have hstored := hwrite.stored
  rw [Request.writeBody_body] at hstored
  refine ⟨_, hrecv, ⟨⟨hp'.front, hp'.methodGet, hp'.methodPost, hp'.methodHead, hp'.uri,
    hp'.httpVersion, hp'.p⟩, hstored⟩, ?_, ?_⟩
  · simpa using h.contentLength
  · simp [h.dataLen]

theorem BodyReady.append {r : Request} {q : ParsedRequest} {n : Nat} {body : List UInt8}
    (h : BodyReady r q n body) (hlen : n ≤ body.length) (more : List UInt8) :
    BodyReady r q n (body ++ more) :=
  ⟨h.view, h.dataLen, by rw [List.take_append_of_le_length hlen, h.bodyText]⟩

/-- The last bytes of the body have arrived. -/
theorem InBody.bodyReady {r : Request} {q : ParsedRequest} {n : Nat} {body : List UInt8}
    (h : InBody r q body) (hcl : r.headersIn.contentLengthVal = n) (hlen : n ≤ r.body.dataLen)
    (hbody : n ≤ body.length) :
    ∃ r', servePost r = (r', .response) ∧ BodyReady r' q n body := by
  subst hcl
  obtain ⟨r', hserve, hparsed, hdata, htext⟩ := h.servePost_response hlen hbody
  exact ⟨r', hserve, hparsed.view_eq, hdata, htext⟩

/-- A run that follows other events of which none answered. -/
theorem AnsweredAt.append {s : Request × Served × List RecvEvent} {es : List RecvEvent} {m : Nat}
    (h : AnsweredAt s es m) (hm : 0 < m) (front : List RecvEvent) :
    AnsweredAt s (front ++ es) ((receivedBytes front).length + m) := by
  obtain ⟨hres, used, hes, hle, hfirst⟩ := h
  refine ⟨hres, front ++ used, by rw [List.append_assoc, ← hes], ?_, ?_⟩
  · rw [receivedBytes_append, List.length_append]
    omega
  · intro front' e hused
    rcases List.eq_nil_or_concat used with rfl | ⟨u, e', rfl⟩
    · simp at hle
      omega
    · rw [List.concat_eq_append, ← List.append_assoc] at hused
      obtain ⟨rfl, -⟩ := List.append_inj' hused rfl
      have hu := hfirst u e' (by simp)
      rw [receivedBytes_append, List.length_append]
      omega

/-- The rest of a run whose request waits for the rest of its body. -/
theorem BodyPhase.assembles {es : List RecvEvent} :
    ∀ {r : Request} {q : ParsedRequest} {n : Nat} {body : List UInt8},
      BodyPhase r q n body → Honoured r es →
      (n ≤ (body ++ receivedBytes es).length →
        AnsweredAt (serveAll r es) es (n - body.length) ∧
          BodyReady (serveAll r es).1 q n (body ++ receivedBytes es)) ∧
      ((body ++ receivedBytes es).length < n →
        (serveAll r es).2.1 = .waiting ∧ (serveAll r es).2.2 = []) := by
  induction es with
  | nil =>
      intro r q n body h _
      have hshort := h.short
      refine ⟨fun hle => ?_, fun _ => ⟨rfl, rfl⟩⟩
      simp at hle
      omega
  | cons e es ih =>
      intro r q n body h hes
      obtain ⟨hres, hnext⟩ := hes
      have hshort := h.short
      rcases hres with hwb | ⟨chunk, hdata, hne, hroom⟩
      · obtain ⟨hwait, hphase⟩ := h.wouldBlock hwb
        obtain ⟨hans, hwaits⟩ := ih hphase (hnext (.inr hwait))
        have hall : serveAll r (e :: es) = serveAll (serveRecv r e).1 es := by
          rw [serveAll, if_pos (.inr hwait)]
        rw [hall, receivedBytes_cons_wouldBlock hwb]
        refine ⟨fun hle => ⟨?_, (hans hle).2⟩, hwaits⟩
        have happ := (hans hle).1.append (by omega) [e]
        simpa [receivedBytes_cons_wouldBlock hwb] using happ
      · obtain ⟨r', hserve, hbody, hcl, hlen⟩ := h.serveRecv_data hdata
        rw [h.recvRoom_eq] at hroom
        have hpos : 0 < chunk.length := List.length_pos_iff.2 hne
        rw [receivedBytes_cons_data hdata, ← List.append_assoc]
        by_cases henough : n ≤ (body ++ chunk).length
        · obtain ⟨r'', hpost, hready⟩ := hbody.bodyReady hcl (hlen ▸ henough) henough
          have hall : serveAll r (e :: es) = (r'', .response, es) := by
            simp [serveAll, hserve, hpost]
          rw [hall]
          refine ⟨fun _ => ⟨⟨rfl, [e], rfl, ?_, ?_⟩, hready.append henough _⟩, fun hlt => ?_⟩
          · rw [receivedBytes_cons_data hdata, receivedBytes_nil, List.append_nil]
            rw [List.length_append] at henough
            omega
          · intro front e' hfront
            obtain rfl : front = [] := by
              cases front with
              | nil => rfl
              | cons a t => simp at hfront
            rw [receivedBytes_nil, List.length_nil]
            omega
          · rw [List.length_append] at hlt
            omega
        · have hwait : servePost r' = (r', .waiting) := by
            refine if_neg ?_
            rw [hcl, hlen]
            exact henough
          have hphase : BodyPhase r' q n (body ++ chunk) :=
            ⟨hbody, h.method, h.uri, hcl, hlen, by omega⟩
          rw [hserve, hwait] at hnext
          obtain ⟨hans, hwaits⟩ := ih hphase (hnext (.inr rfl))
          have hall : serveAll r (e :: es) = serveAll r' es := by
            simp [serveAll, hserve, hwait]
          rw [hall]
          refine ⟨fun hle => ⟨?_, (hans hle).2⟩, hwaits⟩
          rw [List.length_append] at henough
          have happ := (hans hle).1.append (by rw [List.length_append]; omega) [e]
          rw [receivedBytes_cons_data hdata, receivedBytes_nil, List.append_nil, List.length_append,
            show chunk.length + (n - (body.length + chunk.length)) = n - body.length by omega]
            at happ
          exact happ

/-! ## The whole run -/

theorem HeaderPhase.recvRoom_eq {r : Request} {acc : List UInt8} (h : HeaderPhase r acc) :
    recvRoom r = httpRecvBuffer := by
  simp [recvRoom, h.methodPost]

/-- A chunk that makes the received bytes too long for a block is refused. -/
theorem HeaderPhase.serveRecv_tooLong {r : Request} {acc chunk : List UInt8} {e : RecvEvent}
    (h : HeaderPhase r acc) (hacc : acc.length ≤ httpMaxHeadersSize) (he : e.res = .data chunk)
    (hchunk : chunk.length ≤ httpRecvBuffer) (hmax : httpMaxHeadersSize < (acc ++ chunk).length) :
    (serveRecv r e).2 = .error 414 := by
  have hcur : httpMaxHeadersSize < (r.received chunk e.addr).b.curLen := by
    rwa [(h.received hacc hchunk e.addr).curLen]
  rw [h.serveRecv_data hacc hchunk he, serveHeader]
  cases findTerminator chunk with
  | none => simp [hcur]
  | some i => simp [hcur]

/-- The events in front of the end of the block leave the request waiting for
it, unless they are too long. -/
theorem HeaderPhase.serveAll_append {es₁ : List RecvEvent} :
    ∀ {r : Request} {acc : List UInt8} {es₂ : List RecvEvent}, HeaderPhase r acc →
      Honoured r (es₁ ++ es₂) → acc.length ≤ httpMaxHeadersSize →
      ¬ crlfcrlf <:+: acc ++ receivedBytes es₁ →
      ((acc ++ receivedBytes es₁).length ≤ httpMaxHeadersSize ∧
        ∃ r', HeaderPhase r' (acc ++ receivedBytes es₁) ∧ Honoured r' es₂ ∧
          serveAll r (es₁ ++ es₂) = serveAll r' es₂) ∨
      (httpMaxHeadersSize < (acc ++ receivedBytes es₁).length ∧
        (serveAll r (es₁ ++ es₂)).2.1 = .error 414) := by
  induction es₁ with
  | nil =>
      intro r acc es₂ h hes hacc _
      exact .inl ⟨by simpa using hacc, r, by simpa using h, hes, rfl⟩
  | cons e es₁ ih =>
      intro r acc es₂ h hes hacc hinfix
      obtain ⟨hres, hnext⟩ := hes
      rcases hres with hwb | ⟨chunk, hdata, -, hroom⟩
      · have hrecv := h.serveRecv_wouldBlock hwb
        obtain ⟨hphase, hwait⟩ := h.noData hacc e.addr
        rw [receivedBytes_cons_wouldBlock hwb] at hinfix ⊢
        rw [hrecv] at hnext
        rw [List.cons_append, serveAll, hrecv, if_pos (.inr hwait)]
        exact ih hphase (hnext (.inr hwait)) hacc hinfix
      · rw [h.recvRoom_eq] at hroom
        rw [receivedBytes_cons_data hdata, ← List.append_assoc] at hinfix ⊢
        by_cases hmax : (acc ++ chunk).length ≤ httpMaxHeadersSize
        · have hfind : findTerminator chunk = none := by
            refine findTerminator_eq_none fun hinf => hinfix ?_
            exact (hinf.trans (List.suffix_append _ _).isInfix).trans
              (List.prefix_append _ _).isInfix
          obtain ⟨hr, hmore⟩ := h.serveRecv_noTerminator hdata hroom hmax hfind
          have hes' := hnext hmore
          rw [hr] at hes'
          rw [List.cons_append, h.serveAll_noTerminator hdata hroom hmax hfind]
          exact ih (h.received hacc hroom e.addr) hes' hmax hinfix
        · refine .inr ⟨?_, ?_⟩
          · rw [List.length_append]
            omega
          · have herr := h.serveRecv_tooLong hacc hdata hroom (by omega)
            simp [serveAll, herr]

/-- A `POST` with the block `block` and the headers `k` of its body: the calls
`es₁` return the beginning of the block, and one chunk returns its end `part`,
with the terminator, and the beginning `extra` of the body. -/
structure PostRun (r : Request) (es₁ : List RecvEvent) (e : RecvEvent) (es₂ : List RecvEvent)
    (block part extra : List UInt8) (q : ParsedRequest) (k : PostInfo) : Prop where
  isHeaderBlock : IsHeaderBlock block
  block_eq : block = receivedBytes es₁ ++ part
  terminator : crlfcrlf <:+ part
  chunk : e.res = .data (part ++ extra)
  parsed : httpParseHeaders (markEnd block) = .ok q
  method : q.method = .post
  postInfo : q.postInfo = .ok k
  honoured : Honoured r (es₁ ++ e :: es₂)

theorem PostRun.part_ne_nil {r : Request} {es₁ : List RecvEvent} {e : RecvEvent}
    {es₂ : List RecvEvent} {block part extra : List UInt8} {q : ParsedRequest} {k : PostInfo}
    (h : PostRun r es₁ e es₂ block part extra q k) : part ≠ [] := by
  rintro rfl
  simpa [crlfcrlf] using h.terminator.length_le

theorem PostRun.receivedBytes_eq {r : Request} {es₁ : List RecvEvent} {e : RecvEvent}
    {es₂ : List RecvEvent} {block part extra : List UInt8} {q : ParsedRequest} {k : PostInfo}
    (h : PostRun r es₁ e es₂ block part extra q k) :
    receivedBytes (es₁ ++ e :: es₂) = block ++ (extra ++ receivedBytes es₂) := by
  rw [receivedBytes_append, receivedBytes_cons_data h.chunk, h.block_eq]
  simp

theorem PostRun.not_infix {r : Request} {es₁ : List RecvEvent} {e : RecvEvent}
    {es₂ : List RecvEvent} {block part extra : List UInt8} {q : ParsedRequest} {k : PostInfo}
    (h : PostRun r es₁ e es₂ block part extra q k) :
    ¬ crlfcrlf <:+: [] ++ receivedBytes es₁ :=
  FirstAtEnd.not_infix (h.block_eq ▸ h.isHeaderBlock) h.part_ne_nil

/-- A body whose block is recognised is assembled. -/
theorem PostRun.assembles {r : Request} {es₁ : List RecvEvent} {e : RecvEvent}
    {es₂ : List RecvEvent} {block part extra : List UInt8} {q : ParsedRequest} {k : PostInfo}
    (h : PostRun r es₁ e es₂ block part extra q k) (hphase : HeaderPhase r [])
    (hlen : 5 ≤ part.length) (hmax : (block ++ extra).length ≤ httpMaxHeadersSize) :
    Assembles r (es₁ ++ e :: es₂) q block k.length := by
  have hbytes := h.receivedBytes_eq
  have hblock := h.block_eq
  have hmax₁ : (receivedBytes es₁).length ≤ httpMaxHeadersSize := by
    simp only [hblock, List.length_append] at hmax
    omega
  obtain ⟨-, r', hphase', hes, hall⟩ :=
    (hphase.serveAll_append h.honoured (by simp) h.not_infix).resolve_right
      (fun hlong => by simpa using absurd hlong.1 (by simpa using hmax₁))
  rw [List.nil_append] at hphase'
  obtain ⟨hres, hnext⟩ := hes
  have hroom : (part ++ extra).length ≤ httpRecvBuffer := by
    rcases hres with hwb | ⟨chunk, hdata, -, hroom⟩
    · simp [h.chunk] at hwb
    · rw [hphase'.recvRoom_eq] at hroom
      obtain rfl : part ++ extra = chunk := by simpa [h.chunk] using hdata
      exact hroom
  have hrecv : HeaderPhase (r'.received (part ++ extra) e.addr)
      (receivedBytes es₁ ++ part ++ extra) := by
    simpa using hphase'.received hmax₁ hroom e.addr
  obtain ⟨r'', body, hserve, hbody, htake, hle, hdata, hcl⟩ := hrecv.serveHeader_post
    (hblock ▸ h.isHeaderBlock) hlen (hblock ▸ hmax) e (hblock ▸ h.parsed) h.method h.postInfo
  have hstep : serveRecv r' e = servePost r'' := by
    rw [hphase'.serveRecv_data hmax₁ hroom h.chunk, hserve]
  by_cases henough : k.length ≤ extra.length
  · -- the chunk that ends the block holds the whole body
    have hbodylen : k.length ≤ body.length := by
      have := htake.length_le
      rw [List.length_take] at this
      omega
    obtain ⟨r₃, hpost, hready⟩ := hbody.bodyReady hcl (hdata ▸ henough) hbodylen
    have hrun : serveAll r (es₁ ++ e :: es₂) = (r₃, .response, es₂) := by
      rw [hall, serveAll, hstep, hpost]
      simp
    obtain ⟨more, rfl⟩ := hle
    refine ⟨fun _ => ⟨⟨by rw [hrun], es₁ ++ [e], by rw [hrun]; simp, ?_, ?_⟩, ?_⟩, fun hlt => ?_⟩
    · rw [receivedBytes_append, receivedBytes_cons_data h.chunk, hblock]
      simp only [List.length_append]
      simp only [List.length_append] at henough
      omega
    · intro front e' hfront
      obtain ⟨rfl, -⟩ := List.append_inj' hfront rfl
      have hpos := List.length_pos_iff.2 h.part_ne_nil
      rw [hblock, List.length_append]
      omega
    · rw [hrun, hbytes, List.drop_left, List.append_assoc]
      exact hready.append hbodylen _
    · rw [hbytes] at hlt
      simp only [List.length_append] at hlt henough
      omega
  · have hbody' : body = extra := by
      have htake' : extra.take (k.length + 1) = extra := List.take_of_length_le (by omega)
      rw [htake'] at htake
      exact List.IsPrefix.eq_of_length hle (Nat.le_antisymm hle.length_le htake.length_le)
    subst hbody'
    have hwait : servePost r'' = (r'', .waiting) := by
      refine if_neg ?_
      rw [hcl, hdata]
      exact henough
    have hbphase : BodyPhase r'' q k.length body :=
      ⟨hbody, h.method, httpParseHeaders_ok_uri_ne_nil h.parsed, hcl, hdata, by omega⟩
    rw [hstep, hwait] at hnext
    obtain ⟨hans, hwaits⟩ := hbphase.assembles (hnext (.inr rfl))
    have hrun : serveAll r (es₁ ++ e :: es₂) = serveAll r'' es₂ := by
      rw [hall, serveAll, hstep, hwait]
      simp
    refine ⟨fun hn => ?_, fun hn => ?_⟩
    · rw [hbytes, List.length_append] at hn
      obtain ⟨hat, hready⟩ := hans (by omega)
      rw [hrun, hbytes, List.drop_left]
      refine ⟨?_, hready⟩
      have happ := hat.append (by omega) (es₁ ++ [e])
      rw [List.append_assoc, List.singleton_append] at happ
      rw [receivedBytes_append, receivedBytes_cons_data h.chunk, receivedBytes_nil,
        List.append_nil, ← List.append_assoc, ← hblock, List.length_append,
        show block.length + body.length + (k.length - body.length) = block.length + k.length by
          omega] at happ
      exact happ
    · rw [hbytes, List.length_append] at hn
      rw [hrun]
      exact hwaits (by omega)

/-! ## Blocks that are not recognised -/

/-- A write behind a part of the buffer keeps it. -/
theorem Buf.write_prefix {b : Buf} {front : List UInt8} (h : front <+: b.mem) {a : Int}
    (ha : b.data + (front.length : Nat) ≤ a) (bytes : List UInt8) :
    front <+: (b.write a bytes).mem := by
  simp only [Buf.write]
  split
  · refine (List.prefix_of_prefix_length_le h (List.take_prefix _ _) ?_).trans
      (List.prefix_append _ _)
    rw [List.length_take]
    omega
  · exact h

/-- A pass whose mark lies behind an unmarked block does not answer. -/
theorem HeaderPhase.serveHeader_refused {r : Request} {acc block : List UInt8}
    (h : HeaderPhase r acc) (chunk : List UInt8) (hblock : block <+: acc)
    (hchunk : chunk.length ≤ acc.length)
    (hrefused : ∀ y, ∃ lines, httpParseHeaders (block ++ y) = .error 400 lines)
    (hmark : ∀ i, findTerminator chunk = some i →
      block.length + 1 ≤ acc.length - chunk.length + i) (e : RecvEvent) :
    (serveHeader r chunk e).2 ≠ .response ∧
      ((serveHeader r chunk e).2 = .more ∨ (serveHeader r chunk e).2 = .waiting →
        (serveHeader r chunk e).1 = r ∧ acc.length ≤ httpMaxHeadersSize) := by
  unfold serveHeader
  cases hfind : findTerminator chunk with
  | none =>
      by_cases hmax : httpMaxHeadersSize < r.b.curLen
      · simp [hmax]
      · have hmax' : acc.length ≤ httpMaxHeadersSize := by
          rw [← h.curLen]
          omega
        by_cases hfull : chunk.length < httpRecvBuffer
        · simp [hmax, hfull, hmax']
        · simp [hmax, hfull, hmax']
  | some i =>
      by_cases hmax : httpMaxHeadersSize < r.b.curLen
      · simp [hmax]
      · have hi := hmark i hfind
        have hkept : block <+: (r.b.write
            (r.b.data + r.b.curLen - (chunk.length : Nat) + (i : Nat) - 1) [1]).mem := by
          refine Buf.write_prefix (h.mem ▸ hblock) ?_ _
          rw [h.curLen]
          omega
        obtain ⟨y, hy⟩ := hkept
        obtain ⟨lines, hlines⟩ := hrefused y
        rw [hy] at hlines
        simp [hmax, hlines]

/-- A run that goes on behind an unmarked block never answers. -/
theorem HeaderPhase.serveAll_refused {block : List UInt8} {es : List RecvEvent}
    (hrefused : ∀ y, ∃ lines, httpParseHeaders (block ++ y) = .error 400 lines) :
    ∀ {r : Request} {acc : List UInt8}, HeaderPhase r acc → acc.length ≤ httpMaxHeadersSize →
      block <+: acc → Honoured r es → (serveAll r es).2.1 ≠ .response := by
  induction es with
  | nil =>
      intro r acc _ _ _ _
      simp [serveAll]
  | cons e es ih =>
      intro r acc h hacc hblock hes
      obtain ⟨hres, hnext⟩ := hes
      rw [serveAll]
      rcases hres with hwb | ⟨chunk, hdata, -, hroom⟩
      · have hrecv := h.serveRecv_wouldBlock hwb
        obtain ⟨hphase, hwait⟩ := h.noData hacc e.addr
        rw [hrecv] at hnext ⊢
        rw [if_pos (.inr hwait)]
        exact ih hphase hacc hblock (hnext (.inr hwait))
      · rw [h.recvRoom_eq] at hroom
        have hphase := h.received hacc hroom e.addr
        obtain ⟨hne, hmore⟩ := hphase.serveHeader_refused chunk
          (hblock.trans (List.prefix_append _ _)) (by simp) hrefused
          (fun i hi => by
            have hlen := hblock.length_le
            obtain ⟨w, -, rfl⟩ := Option.map_eq_some_iff.1 hi
            rw [List.length_append]
            omega) e
        rw [h.serveRecv_data hacc hroom hdata] at hnext ⊢
        split
        · rename_i hgo
          obtain ⟨hr, hmax⟩ := hmore hgo
          have hes' := hnext hgo
          rw [hr] at hes' ⊢
          exact ih hphase hmax (hblock.trans (List.prefix_append _ _)) hes'
        · exact hne

/-- A body whose block is not recognised is never answered. The parser would have
to stop in front of the mark, at a header line that begins with the byte `1`. -/
theorem PostRun.not_answered {r : Request} {es₁ : List RecvEvent} {e : RecvEvent}
    {es₂ : List RecvEvent} {block part extra : List UInt8} {q : ParsedRequest} {k : PostInfo}
    (h : PostRun r es₁ e es₂ block part extra q k) (hphase : HeaderPhase r [])
    (hrest : q.rest = [1, lf])
    (hnot : ¬ (5 ≤ part.length ∧ (block ++ extra).length ≤ httpMaxHeadersSize)) :
    (serveAll r (es₁ ++ e :: es₂)).2.1 ≠ .response := by
  have hblock := h.block_eq
  have hrefused : ∀ y, ∃ lines, httpParseHeaders (block ++ y) = .error 400 lines :=
    fun y => ⟨_, httpParseHeaders_unmarked h.isHeaderBlock h.parsed hrest y⟩
  rcases hphase.serveAll_append h.honoured (by simp) h.not_infix with
    ⟨hmax₁, r', hphase', hes, hall⟩ | ⟨-, herr⟩
  · rw [List.nil_append] at hphase' hmax₁
    obtain ⟨hres, hnext⟩ := hes
    have hroom := hphase'.recvRoom_eq
    rcases hres with hwb | ⟨chunk, hdata, -, hle⟩
    · simp [h.chunk] at hwb
    · obtain rfl : part ++ extra = chunk := by simpa [h.chunk] using hdata
      rw [hroom] at hle
      rw [hall, serveAll]
      by_cases hmax : (block ++ extra).length ≤ httpMaxHeadersSize
      · -- the terminator is the beginning of its chunk
        have hpart : part = crlfcrlf := by
          refine (h.terminator.eq_of_length ?_).symm
          have hlen := h.terminator.length_le
          simp only [crlfcrlf, List.length_cons, List.length_nil] at hlen ⊢
          omega
        have hbytes : receivedBytes es₁ ++ (part ++ extra) = block ++ extra := by
          rw [hblock, List.append_assoc]
        have hrecv := hphase'.received hmax₁ hle e.addr
        rw [hbytes] at hrecv
        obtain ⟨hne, hmore⟩ := hrecv.serveHeader_refused (part ++ extra)
          (List.prefix_append _ _) (by rw [← hbytes]; simp) hrefused
          (fun i hi => by
            obtain ⟨w, hw, rfl⟩ := Option.map_eq_some_iff.1 hi
            have hw' : w.1 ≠ [] := by
              intro hnil
              obtain ⟨heq, -, hpre, -⟩ := (scanToPat_eq_some_iff _ _ _ _).1 hw
              rw [hnil, List.nil_append] at heq
              rw [← heq, hpart] at hpre
              simp [crlfcrlf, cr, lf] at hpre
            have hpos := List.length_pos_iff.2 hw'
            rw [hpart, hblock, hpart]
            simp only [List.length_append, crlfcrlf, List.length_cons, List.length_nil]
            omega) e
        rw [hphase'.serveRecv_data hmax₁ hle h.chunk] at hnext ⊢
        split
        · rename_i hgo
          obtain ⟨hr, -⟩ := hmore hgo
          have hes' := hnext hgo
          rw [hr] at hes' ⊢
          exact hrecv.serveAll_refused hrefused hmax (List.prefix_append _ _) hes'
        · exact hne
      · have herr := hphase'.serveRecv_tooLong hmax₁ h.chunk hle (by
          rw [← List.append_assoc, ← hblock]
          omega)
        simp [herr]
  · simp [herr]

/-- The body of a `POST` whose block ends inside one chunk is assembled when a
byte of the block stands in front of the terminator in that chunk and the bytes
received with it are not too many for a header block. Otherwise a request whose
header lines reach up to the terminator is not answered. -/
theorem serveAll_assembles {r : Request} (hr : Idle r) (fd : Fd) {es₁ : List RecvEvent}
    {e : RecvEvent} {es₂ : List RecvEvent} {block part extra : List UInt8} {q : ParsedRequest}
    {k : PostInfo} (h : PostRun (r.assign fd) es₁ e es₂ block part extra q k) :
    (5 ≤ part.length ∧ (block ++ extra).length ≤ httpMaxHeadersSize →
      Assembles (r.assign fd) (es₁ ++ e :: es₂) q block k.length) ∧
    (q.rest = [1, lf] → block.length + k.length ≤ (receivedBytes (es₁ ++ e :: es₂)).length →
      Assembles (r.assign fd) (es₁ ++ e :: es₂) q block k.length →
      5 ≤ part.length ∧ (block ++ extra).length ≤ httpMaxHeadersSize) := by
  have hphase := hr.headerPhase fd
  refine ⟨fun hcond => h.assembles hphase hcond.1 hcond.2, fun hrest hall hass => ?_⟩
  by_contra hnot
  exact h.not_answered hphase hrest hnot (hass.answered hall).1.1

/-- The header block of a form with a body of three bytes. -/
def formBlock : List UInt8 :=
  ascii "POST /f HTTP/1.1" ++ (crlf ++ (ascii "Content-Type: application/x-www-form-urlencoded" ++
    (crlf ++ (ascii "Content-Length: 3" ++ crlfcrlf))))

/-- What the parser makes of it. -/
def formRequest : ParsedRequest :=
  { method := .post
    uri := ascii "/f"
    version := ascii "1.1"
    gap := lf
    lines := [⟨ascii "content-type", 1, ascii "application/x-www-form-urlencoded"⟩,
      ⟨ascii "content-length", 1, ascii "3"⟩]
    rest := [1, lf] }

/-- The whole block and two bytes of the body in the first chunk, the last byte
after a `recv` that would block; the buffer is moved twice. -/
theorem serveAll_assembles_form :
    Assembles ((httpPrepare zeroed true 64).assign 5)
      ([] ++ ⟨.data (formBlock ++ ascii "a="), 4096, 9000, false⟩ ::
        [⟨.wouldBlock, 0, 0, false⟩, ⟨.data (ascii "b"), 0, 0, false⟩])
      formRequest formBlock 3 := by
  refine (serveAll_assembles (k := ⟨0, 1, false, true, 3⟩) (idle_httpPrepare zeroed true 64) 5
    { isHeaderBlock := ⟨formBlock.take (formBlock.length - 4), by decide +kernel⟩
      block_eq := rfl
      terminator := by decide +kernel
      chunk := rfl
      parsed := by decide +kernel
      method := rfl
      postInfo := by decide +kernel
      honoured := ?_ }).1 (by decide +kernel)
  exact ⟨.inr ⟨_, rfl, by decide +kernel, by decide +kernel⟩, fun _ =>
    ⟨.inl rfl, fun _ => ⟨.inr ⟨_, rfl, by decide +kernel, by decide +kernel⟩, fun _ => trivial⟩⟩⟩

/-- The same request with the terminator at the beginning of its chunk is not
answered. -/
theorem serveAll_not_assembles :
    PostRun ((httpPrepare zeroed true 64).assign 5)
      [⟨.data (formBlock.take (formBlock.length - 4)), 4096, 9000, false⟩]
      ⟨.data (crlfcrlf ++ ascii "a=b"), 4096, 9000, false⟩ [] formBlock crlfcrlf (ascii "a=b")
      formRequest ⟨0, 1, false, true, 3⟩ ∧
    ¬ Assembles ((httpPrepare zeroed true 64).assign 5)
      ([⟨.data (formBlock.take (formBlock.length - 4)), 4096, 9000, false⟩] ++
        ⟨.data (crlfcrlf ++ ascii "a=b"), 4096, 9000, false⟩ :: [])
      formRequest formBlock 3 := by
  refine ⟨{ isHeaderBlock := ⟨formBlock.take (formBlock.length - 4), by decide +kernel⟩
            block_eq := by decide +kernel
            terminator := by decide +kernel
            chunk := rfl
            parsed := by decide +kernel
            method := rfl
            postInfo := by decide +kernel
            honoured := ?_ }, fun h => ?_⟩
  · exact ⟨.inr ⟨_, rfl, by decide +kernel, by decide +kernel⟩, fun _ =>
      ⟨.inr ⟨_, rfl, by decide +kernel, by decide +kernel⟩, fun _ => trivial⟩⟩
  · exact absurd (h.answered (by decide +kernel)).1.1 (by decide +kernel)

end OpenTube
