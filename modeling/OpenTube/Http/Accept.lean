import OpenTube.Http.Reception

/-!
# Accepting a complete block

The pass of the loop that receives the last byte of a header block parses the
block and, for a `POST`, checks the headers of the body. Both depend on the
block alone, and the request they leave behind is described by `ParsedIn`.
-/

namespace OpenTube

open Scan

/-! ## The headers of a body -/

/-- What the headers of an accepted `POST` say about its body. -/
structure PostInfo where
  contentType : Nat
  contentLength : Nat
  multipart : Bool
  urlenc : Bool
  length : Nat
deriving DecidableEq, Repr

/-- The checks of the headers of a `POST`: the error code, or what they say. -/
def ParsedRequest.postInfo (q : ParsedRequest) : Except Nat PostInfo :=
  match q.lines.findIdx? fun l => l.key = ascii "content-type",
    q.lines.findIdx? fun l => l.key = ascii "content-length" with
  | none, _ => .error 400
  | some _, none => .error 411
  | some i, some j =>
      match bodyKind ((q.lines[i]?.map Line.value).getD []) with
      | none => .error 415
      | some (multipart, urlenc) =>
          if httpMaxRequestBodySize < uint (atoi ((q.lines[j]?.map Line.value).getD [])) then
            .error 413
          else .ok ⟨i, j, multipart, urlenc, uint (atoi ((q.lines[j]?.map Line.value).getD []))⟩

/-- The request with the fields the headers of the body determine. -/
def Request.storePostInfo (r : Request) (k : PostInfo) (extra : List UInt8) (a : Int) : Request :=
  { r with
    headersIn := { r.headersIn with
      contentType := some k.contentType
      contentLength := some k.contentLength
      multipart := k.multipart
      urlenc := k.urlenc
      contentLengthVal := k.length }
    body := { r.body with dataStr := .heap a, dataLen := extra.length } }

/-- The request that is ready to receive the rest of its body. -/
def Request.startBody (r : Request) (k : PostInfo) (extra : List UInt8) (a bodyAddr : Int) :
    Request :=
  if httpRequestBodySizeStoreInFile < k.length then
    { r.storePostInfo k extra a with
      body := { r.body with dataStr := .mapped 0, dataLen := extra.length }
      temp := { r.temp with file := some extra } }
  else (r.storePostInfo k extra a).expand ((k.length : Int) - extra.length + 1) bodyAddr

/-- The body of a `POST` leaves what the header block has set. -/
theorem Request.startBody_keeps_post (r : Request) (k : PostInfo) (extra : List UInt8)
    (a bodyAddr : Int) :
    (r.startBody k extra a bodyAddr).headersIn.methodPost = r.headersIn.methodPost ∧
      (r.startBody k extra a bodyAddr).headersIn.uri.len = r.headersIn.uri.len := by
  unfold Request.startBody
  split
  · exact ⟨rfl, rfl⟩
  · rw [Request.expand_eq]
    exact ⟨rfl, rfl⟩

theorem servePostHeaders_error {q : ParsedRequest} {code : Nat} (h : q.postInfo = .error code)
    (r : Request) (extra : List UInt8) (a bodyAddr : Int) :
    (servePostHeaders r q extra a bodyAddr).2 = .error code := by
  unfold ParsedRequest.postInfo at h
  unfold servePostHeaders
  cases hi : q.lines.findIdx? fun l => l.key = ascii "content-type" with
  | none =>
      obtain rfl : 400 = code := by simpa only [hi, Except.error.injEq] using h
      rfl
  | some i =>
      cases hj : q.lines.findIdx? fun l => l.key = ascii "content-length" with
      | none =>
          obtain rfl : 411 = code := by simpa only [hi, hj, Except.error.injEq] using h
          rfl
      | some j =>
          simp only [hi, hj] at h ⊢
          cases hkind : bodyKind ((q.lines[i]?.map Line.value).getD []) with
          | none =>
              obtain rfl : 415 = code := by simpa only [hkind, Except.error.injEq] using h
              rfl
          | some kind =>
              simp only [hkind] at h ⊢
              split at h
              · rename_i hlong
                rw [if_pos hlong]
                obtain rfl : 413 = code := by simpa only [Except.error.injEq] using h
                rfl
              · simp only [reduceCtorEq] at h

theorem servePostHeaders_ok {q : ParsedRequest} {k : PostInfo} (h : q.postInfo = .ok k)
    (r : Request) (extra : List UInt8) (a bodyAddr : Int) :
    servePostHeaders r q extra a bodyAddr = servePost (r.startBody k extra a bodyAddr) := by
  unfold ParsedRequest.postInfo at h
  unfold servePostHeaders
  cases hi : q.lines.findIdx? fun l => l.key = ascii "content-type" with
  | none => simp only [hi, reduceCtorEq] at h
  | some i =>
      cases hj : q.lines.findIdx? fun l => l.key = ascii "content-length" with
      | none => simp only [hi, hj, reduceCtorEq] at h
      | some j =>
          simp only [hi, hj] at h ⊢
          cases hkind : bodyKind ((q.lines[i]?.map Line.value).getD []) with
          | none => simp only [hkind, reduceCtorEq] at h
          | some kind =>
              simp only [hkind] at h ⊢
              split at h
              · simp only [reduceCtorEq] at h
              · rename_i hlong
                rw [if_neg hlong]
                simp only [Except.ok.injEq] at h
                subst h
                simp only [Request.startBody, Request.storePostInfo]
                split <;> rfl

/-- An accepted body is not longer than allowed. -/
theorem ParsedRequest.postInfo_length {q : ParsedRequest} {k : PostInfo}
    (h : q.postInfo = .ok k) : k.length ≤ httpMaxRequestBodySize := by
  unfold ParsedRequest.postInfo at h
  split at h <;> try simp at h
  split at h <;> try simp at h
  split at h <;> simp at h
  subst h
  simp only
  omega

/-! ## The pass that completes the block -/

/-- The request with the bytes `m` in its buffer. -/
def Request.holding (r : Request) (m : List UInt8) : Request :=
  { r with b := { r.b with mem := m } }

/-- The byte at `j` replaced by the byte `1`. -/
def markAt (m : List UInt8) (j : Nat) : List UInt8 :=
  m.take j ++ 1 :: m.drop (j + 1)

theorem findTerminator_lt {chunk : List UInt8} {i : Nat} (h : findTerminator chunk = some i) :
    4 ≤ i ∧ i < chunk.length := by
  obtain ⟨w, hw, rfl⟩ := Option.map_eq_some_iff.1 h
  obtain ⟨htail, -, hpat, -⟩ := (scanToPat_eq_some_iff _ _ _ _).1 hw
  have hlen := congrArg List.length htail
  have hle := hpat.length_le
  rw [List.length_append, List.length_tail] at hlen
  simp only [crlfcrlf, List.length_cons, List.length_nil] at hle
  omega

theorem markAt_length {m : List UInt8} {j : Nat} (h : j < m.length) :
    (markAt m j).length = m.length := by
  simp only [markAt, List.length_append, List.length_take, List.length_cons, List.length_drop]
  omega

/-- The carriage return in front of the last byte of the terminator is
replaced. -/
theorem HeaderPhase.write_mark {r : Request} {acc chunk : List UInt8}
    (h : HeaderPhase r (acc ++ chunk)) {i : Nat} (hi : findTerminator chunk = some i) :
    r.b.write (r.b.data + r.b.curLen - (chunk.length : Nat) + (i : Nat) - 1) [1] =
      (r.holding (markAt (acc ++ chunk) (acc.length + i - 1))).b := by
  obtain ⟨hfour, hlt⟩ := findTerminator_lt hi
  have hmem : r.b.mem = (acc ++ chunk).take (acc.length + i - 1) ++
      (acc ++ chunk).drop (acc.length + i - 1) := by
    rw [List.take_append_drop, h.mem]
  have haddr : r.b.data + r.b.curLen - (chunk.length : Nat) + (i : Nat) - 1 =
      r.b.data + (((acc ++ chunk).take (acc.length + i - 1)).length : Nat) := by
    rw [h.curLen, List.length_take, List.length_append]
    omega
  rw [Buf.write_at hmem haddr]
  simp [Request.holding, markAt]

/-- The pass of the loop that finds a terminator. -/
theorem HeaderPhase.serveHeader_found {r : Request} {acc chunk : List UInt8}
    (h : HeaderPhase r (acc ++ chunk)) {i : Nat} (hi : findTerminator chunk = some i)
    (hmax : (acc ++ chunk).length ≤ httpMaxHeadersSize) {m : List UInt8}
    (hm : m = markAt (acc ++ chunk) (acc.length + i - 1)) (e : RecvEvent) :
    serveHeader r chunk e =
      match httpParseHeaders m with
      | .overrun => (r.holding m, .overrun)
      | .error code lines =>
          ({ r.holding m with
              keepalive := if lines.any Line.isKeepAlive then e.keepalive else r.keepalive },
            .error code)
      | .ok q =>
          if q.method = .post then
            servePostHeaders ((r.holding m).storeParsed q e.keepalive) q
              (q.mem.drop (acc.length + i + 1)) (r.b.data + (acc.length + i + 1 : Nat)) e.bodyAddr
          else ((r.holding m).storeParsed q e.keepalive, .response) := by
  have hcur : ¬ httpMaxHeadersSize < r.b.curLen := by
    rw [h.curLen]
    omega
  obtain ⟨-, hlt⟩ := findTerminator_lt hi
  have haddr : r.b.data + r.b.curLen - (chunk.length : Nat) + (i : Nat) + 1 =
      r.b.data + (acc.length + i + 1 : Nat) := by
    rw [h.curLen, List.length_append]
    omega
  have hwrite := h.write_mark hi
  rw [← hm] at hwrite
  have hheld : { r with b := (r.holding m).b } = r.holding m := rfl
  unfold serveHeader
  simp only [hi, hcur, if_false, hwrite, hheld, haddr]
  rw [show (r.holding m).b.mem = m from rfl]
  cases hq : httpParseHeaders m with
  | overrun => rfl
  | error code lines => rfl
  | ok q =>
      have hlen : acc.length + i + 1 ≤ q.mem.length := by
        rw [httpParseHeaders_ok_length hq, hm, markAt_length] <;>
          rw [List.length_append] <;> omega
      have hfrom : ((r.holding m).storeParsed q e.keepalive).b.from
          (r.b.data + (acc.length + i + 1 : Nat)) = some (q.mem.drop (acc.length + i + 1)) := by
        have hoff : r.b.data + (acc.length + i + 1 : Nat) - r.b.data =
            (acc.length + i + 1 : Nat) := by omega
        rw [Buf.from, show ((r.holding m).storeParsed q e.keepalive).b.data = r.b.data from rfl,
          hoff, if_pos ⟨by omega, by exact_mod_cast hlen⟩]
        rfl
      simp only [hfrom, Option.getD_some]

/-- A complete block is marked at its end. -/
theorem markAt_block {acc part : List UInt8} (hblock : IsHeaderBlock (acc ++ part))
    (hlen : 5 ≤ part.length) (extra : List UInt8) :
    markAt (acc ++ (part ++ extra)) (acc.length + (part.length - 1) - 1) =
      markEnd (acc ++ part) ++ extra := by
  obtain ⟨w, hw⟩ : ∃ w, acc ++ part = w ++ crlfcrlf := ⟨_, hblock.eq_append⟩
  have hlength := congrArg List.length hw
  simp only [List.length_append, crlfcrlf, List.length_cons, List.length_nil] at hlength
  have hpos : acc.length + (part.length - 1) - 1 = (w ++ [cr, lf]).length := by
    simp only [List.length_append, List.length_cons, List.length_nil]
    omega
  have hmem : acc ++ (part ++ extra) = (w ++ [cr, lf]) ++ (cr :: lf :: extra) := by
    rw [← List.append_assoc, hw]
    simp [crlfcrlf]
  rw [hpos, hmem, markAt, List.take_left, List.drop_append]
  simp [markEnd, hw, mark, crlfcrlf]

/-- The pass of the loop that completes a block. -/
theorem HeaderPhase.serveHeader_block {r : Request} {acc part extra : List UInt8}
    (h : HeaderPhase r (acc ++ part ++ extra)) (hblock : IsHeaderBlock (acc ++ part))
    (hlen : 5 ≤ part.length) (hmax : (acc ++ part ++ extra).length ≤ httpMaxHeadersSize)
    {m : List UInt8} (hm : m = markEnd (acc ++ part) ++ extra) (e : RecvEvent) :
    serveHeader r (part ++ extra) e =
      match httpParseHeaders m with
      | .overrun => (r.holding m, .overrun)
      | .error code lines =>
          ({ r.holding m with
              keepalive := if lines.any Line.isKeepAlive then e.keepalive else r.keepalive },
            .error code)
      | .ok q =>
          if q.method = .post then
            servePostHeaders ((r.holding m).storeParsed q e.keepalive) q
              (q.mem.drop (acc ++ part).length) (r.b.data + ((acc ++ part).length : Nat)) e.bodyAddr
          else ((r.holding m).storeParsed q e.keepalive, .response) := by
  rw [List.append_assoc] at h hmax
  have hend : acc.length + (part.length - 1) + 1 = (acc ++ part).length := by
    rw [List.length_append]
    omega
  have hfound := h.serveHeader_found (findTerminator_of_isHeaderBlock hblock hlen) hmax
    (hm.trans (markAt_block hblock hlen extra).symm) e
  rwa [hend] at hfound

/-! ## The body behind the block -/

/-- A parsed `POST` whose body, as far as it is stored, is `body`: in the buffer
behind the block, or in the mapped file. -/
structure InBody (r : Request) (q : ParsedRequest) (body : List UInt8) : Prop where
  parsed : ParsedIn r q
  stored :
    (∃ block, q.front <+: block ∧ r.b.mem = block ++ body ∧
        r.body.dataStr = .heap (r.b.data + (block.length : Nat))) ∨
      (r.body.dataStr = .mapped 0 ∧ r.temp.file = some body)

/-- The bytes `body.data` denotes, with the byte behind them. -/
def Request.bodyText (r : Request) : Option (List UInt8) :=
  match r.body.dataStr with
  | .heap a => r.b.deref ⟨r.body.dataLen + 1, a⟩
  | .mapped o =>
      r.temp.file.bind fun m =>
        if o + (r.body.dataLen + 1) ≤ m.length then some ((m.drop o).take (r.body.dataLen + 1))
        else none

theorem InBody.bodyText {r : Request} {q : ParsedRequest} {body : List UInt8}
    (h : InBody r q body) (hlen : r.body.dataLen + 1 ≤ body.length) :
    r.bodyText = some (body.take (r.body.dataLen + 1)) := by
  unfold Request.bodyText
  rcases h.stored with ⟨block, -, hmem, hdata⟩ | ⟨hdata, hfile⟩
  · have htext : (body.take (r.body.dataLen + 1)).length = r.body.dataLen + 1 := by
      rw [List.length_take]
      omega
    have hfront : block ++ body.take (r.body.dataLen + 1) <+: r.b.mem := by
      rw [hmem]
      exact (List.prefix_append_right_inj block).2 (List.take_prefix _ _)
    simp only [hdata]
    have hderef := Buf.deref_of_prefix block hfront rfl
    rwa [htext] at hderef
  · simp only [hdata, hfile, Option.bind_some, List.drop_zero]
    rw [if_pos (by omega)]

/-- A write inside the stored body or at its end. -/
theorem InBody.writeBody {r : Request} {q : ParsedRequest} {body : List UInt8}
    (h : InBody r q body) {o : Nat} (ho : o ≤ body.length) (bytes : List UInt8) :
    InBody (r.writeBody o bytes) q (body.take o ++ (bytes ++ body.drop (o + bytes.length))) := by
  obtain ⟨hparsed, ⟨block, hfront, hmem, hdata⟩ | ⟨hdata, hfile⟩⟩ := h
  · have hmem' : r.b.mem = (block ++ body.take o) ++ body.drop o := by
      rw [hmem, List.append_assoc, List.take_append_drop]
    have haddr : r.b.data + (block.length : Nat) + o =
        r.b.data + ((block ++ body.take o).length : Nat) := by
      rw [List.length_append, List.length_take]
      omega
    have hwrite := Buf.write_at hmem' haddr bytes
    have hr : r.writeBody o bytes = { r with b := { r.b with
        mem := block ++ (body.take o ++ (bytes ++ body.drop (o + bytes.length))) } } := by
      simp only [Request.writeBody, hdata, hwrite, List.drop_drop, List.append_assoc]
    rw [hr]
    exact ⟨⟨hfront.trans (List.prefix_append _ _), hparsed.methodGet, hparsed.methodPost,
      hparsed.methodHead, hparsed.uri, hparsed.httpVersion, hparsed.p⟩,
      .inl ⟨block, hfront, rfl, hdata⟩⟩
  · have hr : r.writeBody o bytes = { r with temp := { r.temp with
        file := some (body.take o ++ (bytes ++ body.drop (o + bytes.length))) } } := by
      simp only [Request.writeBody, hdata, hfile, Option.map_some, Nat.zero_add]
    rw [hr]
    exact ⟨⟨hparsed.front, hparsed.methodGet, hparsed.methodPost, hparsed.methodHead,
      hparsed.uri, hparsed.httpVersion, hparsed.p⟩, .inr ⟨hdata, rfl⟩⟩

@[simp] theorem Request.writeBody_body (r : Request) (o : Nat) (bytes : List UInt8) :
    (r.writeBody o bytes).body = r.body := by
  unfold Request.writeBody
  split <;> rfl

@[simp] theorem Request.writeBody_headersIn (r : Request) (o : Nat) (bytes : List UInt8) :
    (r.writeBody o bytes).headersIn = r.headersIn := by
  unfold Request.writeBody
  split <;> rfl

/-- The whole body has arrived: it is followed by a `NUL` and the request is
answered. -/
theorem InBody.servePost_response {r : Request} {q : ParsedRequest} {body : List UInt8}
    (h : InBody r q body) (hlen : r.headersIn.contentLengthVal ≤ r.body.dataLen)
    (hbody : r.headersIn.contentLengthVal ≤ body.length) :
    ∃ r', servePost r = (r', .response) ∧ ParsedIn r' q ∧
      r'.body.dataLen = r.headersIn.contentLengthVal ∧
      r'.bodyText = some (body.take r.headersIn.contentLengthVal ++ [nul]) := by
  have hset : InBody { r with body := { r.body with dataLen := r.headersIn.contentLengthVal } }
      q body := ⟨⟨h.parsed.front, h.parsed.methodGet, h.parsed.methodPost, h.parsed.methodHead,
        h.parsed.uri, h.parsed.httpVersion, h.parsed.p⟩, h.stored⟩
  have hwrite := hset.writeBody hbody [nul]
  refine ⟨_, if_pos hlen, hwrite.parsed, by simp, ?_⟩
  rw [hwrite.bodyText]
  · have htake : (body.take r.headersIn.contentLengthVal).length =
        r.headersIn.contentLengthVal := by
      rw [List.length_take]
      omega
    simp only [Request.writeBody_body, List.take_append, htake]
    simp [List.take_take]
  · simp only [Request.writeBody_body, List.length_append, List.length_take, List.length_cons]
    omega

theorem Request.startBody_dataLen (r : Request) (k : PostInfo) (extra : List UInt8)
    (a bodyAddr : Int) : (r.startBody k extra a bodyAddr).body.dataLen = extra.length := by
  unfold Request.startBody
  split
  · rfl
  · rw [Request.expand_eq]
    rfl

theorem Request.startBody_contentLengthVal (r : Request) (k : PostInfo) (extra : List UInt8)
    (a bodyAddr : Int) :
    (r.startBody k extra a bodyAddr).headersIn.contentLengthVal = k.length := by
  unfold Request.startBody
  split
  · rfl
  · rw [Request.expand_eq]
    rfl

/-- The bytes received behind the block are the first ones of the body, whether
the buffer has to be moved to make room for the rest or not. Of bytes beyond the
body all but one may be cut off. -/
theorem ParsedIn.startBody {r : Request} {q : ParsedRequest} {k : PostInfo}
    {block extra : List UInt8} {a : Int} (h : ParsedIn r q) (hfront : q.front <+: block)
    (hmem : r.b.mem = block ++ extra) (hcur : r.b.curLen = (block ++ extra).length)
    (ha : a = r.b.data + (block.length : Nat)) (hblock : block.length ≤ httpMaxHeadersSize)
    (hk : k.length ≤ httpMaxRequestBodySize) (bodyAddr : Int) :
    ∃ body, InBody (r.startBody k extra a bodyAddr) q body ∧
      extra.take (k.length + 1) <+: body ∧ body <+: extra := by
  unfold Request.startBody
  by_cases hfile : httpRequestBodySizeStoreInFile < k.length
  · rw [if_pos hfile]
    exact ⟨extra, ⟨⟨h.front, h.methodGet, h.methodPost, h.methodHead, h.uri, h.httpVersion, h.p⟩,
      .inr ⟨rfl, rfl⟩⟩, List.take_prefix _ _, List.prefix_refl _⟩
  · rw [if_neg hfile]
    have hparsed : ParsedIn (r.storePostInfo k extra a) q :=
      ⟨h.front, h.methodGet, h.methodPost, h.methodHead, h.uri, h.httpVersion, h.p⟩
    have hroom : uint (r.b.curLen + ((k.length : Int) - extra.length + 1)) =
        block.length + (k.length + 1) := by
      have hsizes : httpMaxHeadersSize + httpMaxRequestBodySize + 1 < 2 ^ 32 := by decide
      rw [hcur, List.length_append]
      unfold uint
      omega
    -- a moved buffer keeps what fits into its new length
    have hexpand : ∃ body, (r.b.expand ((k.length : Int) - extra.length + 1) bodyAddr).1.mem =
        block ++ body ∧ extra.take (k.length + 1) <+: body ∧ body <+: extra := by
      by_cases hmove : r.b.reservedLen < block.length + (k.length + 1)
      · refine ⟨extra.take (k.length + 1), ?_, List.prefix_refl _, List.take_prefix _ _⟩
        simp [Buf.expand, hroom, hmove, hmem, List.take_length_add_append]
      · refine ⟨extra, ?_, List.take_prefix _ _, List.prefix_refl _⟩
        simp [Buf.expand, hroom, hmove, hmem]
    obtain ⟨body, hbody, htake, hle⟩ := hexpand
    refine ⟨body, ⟨hparsed.expand _ _ ?_, .inl ⟨block, hfront, ?_, ?_⟩⟩, htake, hle⟩
    · exact hbody ▸ hfront.trans (List.prefix_append _ _)
    · rw [Request.expand_b]
      exact hbody
    · have hdata := r.b.expand_data ((k.length : Int) - extra.length + 1) bodyAddr
      rw [Request.expand_eq]
      simp only [httpBufferMoved, Request.storePostInfo, Ptr.shift, Ptr.heap.injEq]
      omega

/-! ## The request behind an accepted block -/

theorem parsedIn_append (r : Request) (q : ParsedRequest) (extra : List UInt8)
    (keepalive : Bool) :
    ParsedIn (r.storeParsed { q with rest := q.rest ++ extra } keepalive) q := by
  have h := parsedIn_storeParsed r { q with rest := q.rest ++ extra } keepalive
  exact ⟨h.front, h.methodGet, h.methodPost, h.methodHead, h.uri, h.httpVersion, h.p⟩

/-- The pass that completes a block without a body ends in the response. -/
theorem HeaderPhase.serveHeader_response {r : Request} {acc part extra : List UInt8}
    (h : HeaderPhase r (acc ++ part ++ extra)) (hblock : IsHeaderBlock (acc ++ part))
    (hlen : 5 ≤ part.length) (hmax : (acc ++ part ++ extra).length ≤ httpMaxHeadersSize)
    (e : RecvEvent) {q : ParsedRequest} (hq : httpParseHeaders (markEnd (acc ++ part)) = .ok q)
    (hmethod : q.method ≠ .post) :
    ∃ r', serveHeader r (part ++ extra) e = (r', .response) ∧ ParsedIn r' q := by
  have happend := httpParseHeaders_append extra (m := markEnd (acc ++ part)) (by simp [hq])
  rw [h.serveHeader_block hblock hlen hmax rfl, happend, hq]
  simp only [HeadersResult.append, hmethod, if_false]
  exact ⟨_, rfl, parsedIn_append _ q extra _⟩

/-- The pass that completes the block of a `POST` goes on with the bytes of the
body that came with it. -/
theorem HeaderPhase.serveHeader_post {r : Request} {acc part extra : List UInt8}
    (h : HeaderPhase r (acc ++ part ++ extra)) (hblock : IsHeaderBlock (acc ++ part))
    (hlen : 5 ≤ part.length) (hmax : (acc ++ part ++ extra).length ≤ httpMaxHeadersSize)
    (e : RecvEvent) {q : ParsedRequest} (hq : httpParseHeaders (markEnd (acc ++ part)) = .ok q)
    (hmethod : q.method = .post) {k : PostInfo} (hk : q.postInfo = .ok k) :
    ∃ r' body, serveHeader r (part ++ extra) e = servePost r' ∧ InBody r' q body ∧
      extra.take (k.length + 1) <+: body ∧ body <+: extra ∧
      r'.body.dataLen = extra.length ∧ r'.headersIn.contentLengthVal = k.length := by
  have happend := httpParseHeaders_append extra (m := markEnd (acc ++ part)) (by simp [hq])
  have hk' : ({ q with rest := q.rest ++ extra } : ParsedRequest).postInfo = .ok k := hk
  have hqlen : q.mem.length = (acc ++ part).length := by
    rw [httpParseHeaders_ok_length hq, markEnd_length hblock]
  have hcur : r.b.curLen = (q.mem ++ extra).length := by
    rw [h.curLen]
    simp only [List.length_append] at hqlen ⊢
    omega
  have hqmax : q.mem.length ≤ httpMaxHeadersSize := by
    rw [hqlen]
    rw [List.length_append] at hmax
    omega
  have hqmem : ({ q with rest := q.rest ++ extra } : ParsedRequest).mem = q.mem ++ extra := by
    simp [ParsedRequest.mem]
  rw [h.serveHeader_block hblock hlen hmax rfl, happend, hq, HeadersResult.append]
  simp only [if_pos hmethod]
  rw [hqmem, ← hqlen, List.drop_left, servePostHeaders_ok hk']
  have hparsed := parsedIn_append (r.holding (markEnd (acc ++ part) ++ extra)) q extra e.keepalive
  have hmem : ((r.holding (markEnd (acc ++ part) ++ extra)).storeParsed
      { q with rest := q.rest ++ extra } e.keepalive).b.mem = q.mem ++ extra := hqmem
  obtain ⟨body, hbody, htake, hle⟩ := hparsed.startBody (q.mem_eq ▸ List.prefix_append _ _)
    hmem hcur rfl hqmax (q.postInfo_length hk) e.bodyAddr
  exact ⟨_, body, rfl, hbody, htake, hle, Request.startBody_dataLen ..,
    Request.startBody_contentLengthVal ..⟩

end OpenTube
