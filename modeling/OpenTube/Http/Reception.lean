import OpenTube.Http.HeaderBlock
import OpenTube.Http.Lifecycle

/-!
# From the chunks to the parsed request

While the header block is incomplete the request buffer holds exactly the bytes
received so far, however they were cut into chunks and wherever the buffer was
moved to: `HeaderPhase`. After the block was parsed the pointers of the request
denote the parts of the block, which is `ParsedIn`; they are described relative
to the buffer, so that moving both together changes nothing.
-/

namespace OpenTube

open Scan

/-! ## The parts of a parsed block in the buffer -/

/-- What the parser leaves in front of the rest. -/
def ParsedRequest.front (q : ParsedRequest) : List UInt8 :=
  q.method.text ++ (q.uri ++ nul :: (ascii "HTTP/" ++ (q.version ++ nul :: q.gap ::
    q.lines.flatMap Line.written)))

theorem ParsedRequest.mem_eq (q : ParsedRequest) : q.mem = q.front ++ q.rest := by
  simp [ParsedRequest.mem, ParsedRequest.front]

/-- The method flags and the texts of a request, read through its pointers. -/
structure RequestView where
  methods : Bool × Bool × Bool
  uri : List UInt8
  version : List UInt8
  headers : List (List UInt8 × List UInt8)
deriving DecidableEq, Repr

/-- The key and the value a header denotes. -/
def Buf.derefHeader (b : Buf) (h : Header) : Option (List UInt8 × List UInt8) :=
  (b.deref h.key).bind fun k => (b.deref h.value).map fun v => (k, v)

/-- The headers of a request, read through their pointers. -/
def Buf.derefHeaders (b : Buf) : List Header → Option (List (List UInt8 × List UInt8))
  | [] => some []
  | h :: hs =>
      (b.derefHeader h).bind fun kv => (b.derefHeaders hs).map fun rest => kv :: rest

/-- The parsed request as the rest of the program sees it. -/
def Request.view (r : Request) : Option RequestView :=
  (r.b.deref r.headersIn.uri).bind fun uri =>
    (r.b.deref r.headersIn.httpVersion).bind fun version =>
      (r.b.derefHeaders r.headersIn.p).map fun headers =>
        ⟨(r.headersIn.methodGet, r.headersIn.methodPost, r.headersIn.methodHead),
          uri, version, headers⟩

/-- The view of an accepted block. -/
def ParsedRequest.view (q : ParsedRequest) : RequestView :=
  ⟨(q.method = .get, q.method = .post, q.method = .head), q.uri, q.version,
    q.lines.map fun l => (l.key, l.value)⟩

/-- The fields of the request describe the block `q`, whose bytes are at the
start of the buffer. -/
structure ParsedIn (r : Request) (q : ParsedRequest) : Prop where
  front : q.front <+: r.b.mem
  methodGet : r.headersIn.methodGet = decide (q.method = .get)
  methodPost : r.headersIn.methodPost = decide (q.method = .post)
  methodHead : r.headersIn.methodHead = decide (q.method = .head)
  uri : r.headersIn.uri = ⟨q.uri.length, r.b.data + (q.method.text.length : Nat)⟩
  httpVersion : r.headersIn.httpVersion = ⟨q.version.length, q.versionAddr r.b.data⟩
  p : r.headersIn.p =
    lineHeaders (q.versionAddr r.b.data + (q.version.length + 2 : Nat)) q.lines

/-- A text of the buffer is read back from its place. -/
theorem Buf.deref_of_prefix {b : Buf} (pre : List UInt8) {s : List UInt8} {a : Int}
    (hmem : pre ++ s <+: b.mem) (ha : a = b.data + (pre.length : Nat)) :
    b.deref ⟨s.length, a⟩ = some s := by
  obtain ⟨post, hpost⟩ := hmem
  have hoff : a - b.data = (pre.length : Nat) := by omega
  have hrange : 0 ≤ a - b.data ∧ a - b.data ≤ b.mem.length := by
    rw [hoff, ← hpost]
    simp only [List.length_append]
    omega
  rw [Buf.deref, Buf.from, if_pos hrange, hoff, ← hpost]
  simp

/-- The headers of lines that follow one another in the buffer. -/
theorem Buf.derefHeaders_lineHeaders {b : Buf} :
    ∀ (ls : List Line) (pre : List UInt8) (a : Int),
      pre ++ ls.flatMap Line.written <+: b.mem → a = b.data + (pre.length : Nat) →
      b.derefHeaders (lineHeaders a ls) = some (ls.map fun l => (l.key, l.value))
  | [], _, _, _, _ => rfl
  | l :: ls, pre, a, hmem, ha => by
      rw [List.flatMap_cons] at hmem
      have hkey : b.deref ⟨l.key.length, a⟩ = some l.key := by
        refine b.deref_of_prefix pre (List.IsPrefix.trans ?_ hmem) ha
        simp [Line.written]
      have hvalue : b.deref
          ⟨l.value.length, a + (l.key.length + 1 + l.spaces : Nat)⟩ = some l.value := by
        refine b.deref_of_prefix (pre ++ (l.key ++ nul :: List.replicate l.spaces space))
          (List.IsPrefix.trans ?_ hmem) ?_
        · simp [Line.written]
        · rw [ha]
          simp only [List.length_append, List.length_cons, List.length_replicate]
          omega
      have htail := b.derefHeaders_lineHeaders ls (pre ++ l.written)
        (a + (l.written.length : Nat)) (by rwa [List.append_assoc])
        (by rw [ha]; simp only [List.length_append]; omega)
      rw [lineHeaders, Buf.derefHeaders, Buf.derefHeader, hkey, hvalue, htail]
      rfl

/-- The header lines lie behind the request line. -/
theorem ParsedIn.lines_at {r : Request} {q : ParsedRequest} (h : ParsedIn r q) :
    ∃ pre, pre ++ q.lines.flatMap Line.written <+: r.b.mem ∧
      q.versionAddr r.b.data + (q.version.length + 2 : Nat) = r.b.data + (pre.length : Nat) := by
  refine ⟨q.method.text ++ (q.uri ++ nul :: (ascii "HTTP/" ++ (q.version ++ [nul, q.gap]))),
    List.IsPrefix.trans ?_ h.front, ?_⟩
  · simp [ParsedRequest.front]
  · simp only [ParsedRequest.versionAddr, List.length_append, List.length_cons,
      List.length_nil, show (ascii "HTTP/").length = 5 from rfl]
    omega

/-- The pointers of a parsed request denote the parts of its block. -/
theorem ParsedIn.view_eq {r : Request} {q : ParsedRequest} (h : ParsedIn r q) :
    r.view = some q.view := by
  have huri : r.b.deref r.headersIn.uri = some q.uri := by
    rw [h.uri]
    refine Buf.deref_of_prefix q.method.text (List.IsPrefix.trans ?_ h.front) rfl
    simp [ParsedRequest.front]
  have hversion : r.b.deref r.headersIn.httpVersion = some q.version := by
    rw [h.httpVersion]
    refine Buf.deref_of_prefix (q.method.text ++ (q.uri ++ nul :: ascii "HTTP/"))
      (List.IsPrefix.trans ?_ h.front) ?_
    · simp [ParsedRequest.front]
    · simp only [ParsedRequest.versionAddr, List.length_append, List.length_cons,
        show (ascii "HTTP/").length = 5 from rfl]
      omega
  have hheaders : r.b.derefHeaders r.headersIn.p =
      some (q.lines.map fun l => (l.key, l.value)) := by
    obtain ⟨pre, hpre, haddr⟩ := h.lines_at
    rw [h.p]
    exact Buf.derefHeaders_lineHeaders q.lines pre _ hpre haddr
  simp [Request.view, huri, hversion, hheaders, ParsedRequest.view, h.methodGet, h.methodPost,
    h.methodHead]

theorem parsedIn_storeParsed (r : Request) (q : ParsedRequest) (keepalive : Bool) :
    ParsedIn (r.storeParsed q keepalive) q :=
  { front := by
      rw [show (r.storeParsed q keepalive).b.mem = q.mem from rfl, q.mem_eq]
      exact List.prefix_append _ _
    methodGet := rfl
    methodPost := rfl
    methodHead := rfl
    uri := rfl
    httpVersion := rfl
    p := rfl }

/-! ## Moving the buffer -/

@[simp] theorem httpBufferMoved_zero (r : Request) : httpBufferMoved r 0 = r := by
  have hshift : ∀ h : Header, h.shift 0 = h := fun h => by simp [Header.shift, UStr.shift]
  have hp : r.headersIn.p.map (fun h => h.shift 0) = r.headersIn.p := by simp [hshift]
  have hptr : r.body.dataStr.shift 0 = r.body.dataStr := by
    cases r.body.dataStr <;> simp [Ptr.shift]
  simp [httpBufferMoved, UStr.shift, hp, hptr]

/-- Whether the buffer moved or not, the pointers follow it. -/
theorem Request.expand_eq (r : Request) (add addr : Int) :
    r.expand add addr =
      httpBufferMoved { r with b := (r.b.expand add addr).1 } (r.b.expand add addr).2 := by
  unfold Request.expand
  by_cases h : (r.b.expand add addr).2 = 0
  · simp [h]
  · simp [h]

theorem Buf.expand_data (b : Buf) (add addr : Int) :
    (b.expand add addr).1.data = b.data + (b.expand add addr).2 := by
  unfold Buf.expand
  by_cases h : b.reservedLen < uint (b.curLen + add)
  · simp only [h, if_true]
    omega
  · simp [h]

theorem Buf.expand_curLen (b : Buf) (add addr : Int) :
    (b.expand add addr).1.curLen = uint (b.curLen + add) := by
  unfold Buf.expand
  by_cases h : b.reservedLen < uint (b.curLen + add)
  · simp [h]
  · simp [h]

/-- Expansion keeps what fits into the new length. -/
theorem Buf.expand_mem {b : Buf} {add addr : Int}
    (h : b.mem.length ≤ uint (b.curLen + add)) : (b.expand add addr).1.mem = b.mem := by
  unfold Buf.expand
  by_cases hr : b.reservedLen < uint (b.curLen + add)
  · simp [hr, List.take_of_length_le h]
  · simp [hr]

@[simp] theorem Buf.write_curLen (b : Buf) (a : Int) (bytes : List UInt8) :
    (b.write a bytes).curLen = b.curLen := by
  simp only [Buf.write]
  split <;> rfl

@[simp] theorem Buf.write_data (b : Buf) (a : Int) (bytes : List UInt8) :
    (b.write a bytes).data = b.data := by
  simp only [Buf.write]
  split <;> rfl

/-- A write replaces as many bytes as it stores, or what is left of them. -/
theorem Buf.write_at {b : Buf} {a : Int} {front rest : List UInt8} (hmem : b.mem = front ++ rest)
    (ha : a = b.data + (front.length : Nat)) (bytes : List UInt8) :
    b.write a bytes = { b with mem := front ++ (bytes ++ rest.drop bytes.length) } := by
  have ho : (a - b.data).toNat = front.length := by omega
  have hrange : 0 ≤ a - b.data ∧ front.length ≤ b.mem.length := by
    refine ⟨by omega, ?_⟩
    rw [hmem]
    simp
  rw [Buf.write, ho, if_pos hrange, hmem]
  simp [List.drop_append]

theorem Buf.write_end {b : Buf} {a : Int} (ha : a = b.data + (b.mem.length : Nat))
    (bytes : List UInt8) : b.write a bytes = { b with mem := b.mem ++ bytes } := by
  rw [Buf.write_at (List.append_nil b.mem).symm ha]
  simp

theorem lineHeaders_shift (offset : Int) :
    ∀ (a : Int) (ls : List Line),
      (lineHeaders a ls).map (fun h => h.shift offset) = lineHeaders (a + offset) ls
  | _, [] => rfl
  | a, l :: ls => by
      have ih := lineHeaders_shift offset (a + (l.written.length : Nat)) ls
      rw [lineHeaders, lineHeaders, List.map_cons, ih,
        show a + (l.written.length : Nat) + offset = a + offset + (l.written.length : Nat) by omega]
      simp only [Header.shift, UStr.shift, List.cons.injEq, Header.mk.injEq, UStr.mk.injEq,
        true_and, and_true]
      omega

/-- A parsed request stays parsed when its buffer is expanded, as long as the
block is kept. -/
theorem ParsedIn.expand {r : Request} {q : ParsedRequest} (h : ParsedIn r q) (add addr : Int)
    (hfront : q.front <+: (r.b.expand add addr).1.mem) : ParsedIn (r.expand add addr) q := by
  have hdata := r.b.expand_data add addr
  rw [Request.expand_eq]
  refine
    { front := hfront
      methodGet := h.methodGet
      methodPost := h.methodPost
      methodHead := h.methodHead
      uri := ?_
      httpVersion := ?_
      p := ?_ }
  · simp only [httpBufferMoved, h.uri, UStr.shift, hdata, UStr.mk.injEq, true_and]
    omega
  · simp only [httpBufferMoved, h.httpVersion, UStr.shift, hdata, ParsedRequest.versionAddr,
      UStr.mk.injEq, true_and]
    omega
  · simp only [httpBufferMoved, h.p, lineHeaders_shift, hdata, ParsedRequest.versionAddr]
    congr 1
    omega

/-! ## Before the block is complete -/

/-- The header block is incomplete and the buffer holds the bytes received. -/
structure HeaderPhase (r : Request) (acc : List UInt8) : Prop where
  methodPost : r.headersIn.methodPost = false
  uriLen : r.headersIn.uri.len = 0
  mem : r.b.mem = acc
  curLen : r.b.curLen = acc.length

theorem Idle.headerPhase {r : Request} (h : Idle r) (fd : Fd) : HeaderPhase (r.assign fd) [] :=
  ⟨h.methodPost, h.uriLen, h.mem, h.curLen⟩

@[simp] theorem Request.expand_b (r : Request) (add addr : Int) :
    (r.expand add addr).b = (r.b.expand add addr).1 := by
  rw [Request.expand_eq]
  rfl

@[simp] theorem Request.expand_methodPost (r : Request) (add addr : Int) :
    (r.expand add addr).headersIn.methodPost = r.headersIn.methodPost := by
  rw [Request.expand_eq]
  rfl

@[simp] theorem Request.expand_uri_len (r : Request) (add addr : Int) :
    (r.expand add addr).headersIn.uri.len = r.headersIn.uri.len := by
  rw [Request.expand_eq]
  rfl

/-- Expanding the buffer for a `recv` loses nothing. -/
theorem HeaderPhase.expand_b {r : Request} {acc : List UInt8} (h : HeaderPhase r acc)
    (hacc : acc.length ≤ httpMaxHeadersSize) (addr : Int) :
    (r.b.expand httpRecvBuffer addr).1.mem = acc ∧
      (r.b.expand httpRecvBuffer addr).1.curLen = acc.length + httpRecvBuffer := by
  have hroom := httpMaxHeadersSize_add_lt
  have huint : uint (r.b.curLen + (httpRecvBuffer : Nat)) = acc.length + httpRecvBuffer := by
    rw [h.curLen]
    exact uint_natCast (by omega)
  refine ⟨?_, ?_⟩
  · rw [Buf.expand_mem, h.mem]
    rw [huint, h.mem]
    omega
  · rw [Buf.expand_curLen, huint]

/-- A chunk is appended to the bytes received. -/
theorem HeaderPhase.received {r : Request} {acc chunk : List UInt8} (h : HeaderPhase r acc)
    (hacc : acc.length ≤ httpMaxHeadersSize) (hchunk : chunk.length ≤ httpRecvBuffer)
    (addr : Int) : HeaderPhase (r.received chunk addr) (acc ++ chunk) := by
  have hroom := httpMaxHeadersSize_add_lt
  obtain ⟨hmem, hcur⟩ := h.expand_b hacc addr
  have hend : (r.b.expand httpRecvBuffer addr).1.data +
      (r.b.expand httpRecvBuffer addr).1.curLen - httpRecvBuffer =
      (r.b.expand httpRecvBuffer addr).1.data +
        ((r.b.expand httpRecvBuffer addr).1.mem.length : Nat) := by
    rw [hmem, hcur]
    omega
  refine ⟨?_, ?_, ?_, ?_⟩
  · simpa only [Request.received, Request.expand_methodPost] using h.methodPost
  · simpa only [Request.received, Request.expand_uri_len] using h.uriLen
  · simp only [Request.received, Request.expand_b, Buf.write_end hend, hmem]
  · simp only [Request.received, Request.expand_b, Buf.write_curLen, hcur, List.length_append]
    unfold uint
    omega

/-- A `recv` that would block changes nothing. -/
theorem HeaderPhase.noData {r : Request} {acc : List UInt8} (h : HeaderPhase r acc)
    (hacc : acc.length ≤ httpMaxHeadersSize) (addr : Int) :
    HeaderPhase (serveNoData (r.expand httpRecvBuffer addr) .wouldBlock).1 acc ∧
      (serveNoData (r.expand httpRecvBuffer addr) .wouldBlock).2 = .waiting := by
  have hroom := httpMaxHeadersSize_add_lt
  obtain ⟨hmem, hcur⟩ := h.expand_b hacc addr
  refine ⟨⟨?_, ?_, ?_, ?_⟩, rfl⟩
  · simpa only [serveNoData, if_true, Request.expand_methodPost] using h.methodPost
  · simpa only [serveNoData, if_true, Request.expand_uri_len] using h.uriLen
  · simp only [serveNoData, if_true, Request.expand_b, hmem]
  · simp only [serveNoData, if_true, Request.expand_b, hcur]
    unfold uint
    omega

/-- The pass for a `recv` that would block while the block is received. -/
theorem HeaderPhase.serveRecv_wouldBlock {r : Request} {acc : List UInt8} (h : HeaderPhase r acc)
    {e : RecvEvent} (he : e.res = .wouldBlock) :
    serveRecv r e = serveNoData (r.expand httpRecvBuffer e.addr) .wouldBlock := by
  simp [serveRecv, h.methodPost, he]

/-- The pass of the loop for a chunk of the header block. -/
theorem HeaderPhase.serveRecv_data {r : Request} {acc chunk : List UInt8} {e : RecvEvent}
    (h : HeaderPhase r acc) (hacc : acc.length ≤ httpMaxHeadersSize)
    (hchunk : chunk.length ≤ httpRecvBuffer) (he : e.res = .data chunk) :
    serveRecv r e = serveHeader (r.received chunk e.addr) chunk e := by
  have hr := h.received hacc hchunk e.addr
  simp [serveRecv, h.methodPost, he, serveData, hr.uriLen]

end OpenTube
