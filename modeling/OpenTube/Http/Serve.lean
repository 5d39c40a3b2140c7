import OpenTube.Http.Headers
import OpenTube.Common.Numbers

/-!
# Receiving a request

`http_serve_client` receives into the request buffer until the header block is
complete, parses it, and for a `POST` goes on receiving the body. Every call of
`recv` is one `RecvEvent`: what the call returned, the addresses at which
`realloc` would place the buffer, and the answer of the keep-alive registry.
`serveRecv` is one pass of the `for` loop, `httpServeClient` one call of the
function, and `serveAll` the calls the event loop makes as long as the function
asks for more.
-/

namespace OpenTube

open Scan

/-! ## The request buffer -/

/-- `buf_expand` and `buf_expand_i`: the buffer and the displacement of its data.
A moved buffer is placed at `addr`. -/
def Buf.expand (b : Buf) (add addr : Int) : Buf × Int :=
  let curLen := uint (b.curLen + add)
  if b.reservedLen < curLen then
    (⟨curLen, b.reservedLen, addr, b.mem.take curLen⟩, addr - b.data)
  else ({ b with curLen := curLen }, 0)

/-- `buf_free`. -/
def Buf.free (b : Buf) (addr : Int) : Buf :=
  ⟨0, b.reservedLen, if b.reservedLen < b.curLen then addr else b.data, []⟩

/-- Store `bytes` at the address `a`, which lies inside what was written or at
its end. -/
def Buf.write (b : Buf) (a : Int) (bytes : List UInt8) : Buf :=
  let o := (a - b.data).toNat
  if 0 ≤ a - b.data ∧ o ≤ b.mem.length then
    { b with mem := b.mem.take o ++ (bytes ++ b.mem.drop (o + bytes.length)) }
  else b

/-- Add a displacement to an address. -/
def UStr.shift (u : UStr) (offset : Int) : UStr := { u with str := u.str + offset }

/-- Add a displacement to both addresses of a header. -/
def Header.shift (h : Header) (offset : Int) : Header :=
  ⟨h.key.shift offset, h.value.shift offset⟩

/-- Add a displacement to the address of the body. -/
def Ptr.shift (p : Ptr) (offset : Int) : Ptr :=
  match p with
  | .heap a => .heap (a + offset)
  | .mapped o => .mapped (o + offset).toNat

/-- `http_buffer_moved`. -/
def httpBufferMoved (r : Request) (offset : Int) : Request :=
  { r with
    headersIn := { r.headersIn with
      uri := r.headersIn.uri.shift offset
      httpVersion := r.headersIn.httpVersion.shift offset
      p := r.headersIn.p.map fun h => h.shift offset }
    body := { r.body with dataStr := r.body.dataStr.shift offset } }

/-- Expand the request buffer and move the pointers along. -/
def Request.expand (r : Request) (add addr : Int) : Request :=
  let e := r.b.expand add addr
  if e.2 ≠ 0 then httpBufferMoved { r with b := e.1 } e.2 else { r with b := e.1 }

/-- Make room for one `recv`, store the bytes it returned and give back the room
that is left. -/
def Request.received (r : Request) (chunk : List UInt8) (addr : Int) : Request :=
  let r := r.expand httpRecvBuffer addr
  let b := r.b.write (r.b.data + r.b.curLen - httpRecvBuffer) chunk
  { r with b := { b with curLen := uint (b.curLen - (httpRecvBuffer - chunk.length)) } }

/-! ## What `recv` returns -/

/-- The result of one `recv`. -/
inductive Recv
  | data (bytes : List UInt8)
  | wouldBlock
  | closed
deriving DecidableEq, Repr

/-- One `recv` and the choices of the environment around it: where `realloc`
places the buffer before it and after the header block, and what
`new_keepalive_socket` answers. -/
structure RecvEvent where
  res : Recv
  addr : Int
  bodyAddr : Int
  keepalive : Bool
deriving DecidableEq, Repr

/-- What one pass of the loop ends in. `response` is the call of
`http_response`, `more` the next pass, `waiting` and `closed` the plain returns
of false and true. -/
inductive Served
  | more
  | waiting
  | error (code : Nat)
  | response
  | closed
  | overrun
deriving DecidableEq, Repr

/-- The two line ends that close the header block. -/
def crlfcrlf : List UInt8 := [cr, lf, cr, lf]

/-- The search for the terminator, which starts at index 4: the index of its
last byte in the chunk. -/
def findTerminator (chunk : List UInt8) : Option Nat :=
  (scanToPat crlfcrlf chunk.tail).map fun r => r.1.length + 4

/-! ## The parsed block in the request -/

/-- The headers of the lines, the first key at the address `a`. -/
def lineHeaders : Int → List Line → List Header
  | _, [] => []
  | a, l :: ls =>
      ⟨⟨l.key.length, a⟩, ⟨l.value.length, a + (l.key.length + 1 + l.spaces : Nat)⟩⟩ ::
        lineHeaders (a + (l.written.length : Nat)) ls

/-- The address of the version, the buffer being at `a`. -/
def ParsedRequest.versionAddr (q : ParsedRequest) (a : Int) : Int :=
  a + (q.method.text.length + q.uri.length + 6 : Nat)

/-- The fields `http_parse_headers` sets, and the buffer it leaves behind. -/
def Request.storeParsed (r : Request) (q : ParsedRequest) (keepalive : Bool) : Request :=
  { r with
    b := { r.b with mem := q.mem }
    headersIn := { r.headersIn with
      methodGet := q.method = .get
      methodPost := q.method = .post
      methodHead := q.method = .head
      uri := ⟨q.uri.length, r.b.data + (q.method.text.length : Nat)⟩
      httpVersion := ⟨q.version.length, q.versionAddr r.b.data⟩
      p := lineHeaders (q.versionAddr r.b.data + (q.version.length + 2 : Nat)) q.lines }
    keepalive := if q.lines.any Line.isKeepAlive then keepalive else r.keepalive }

/-! ## The body of a `POST` -/

/-- The value of the content type that is accepted, if any: `multipart` first
component, `urlenc` second. -/
def bodyKind (contentType : List UInt8) : Option (Bool × Bool) :=
  if contentType = ascii "application/x-www-form-urlencoded" then some (false, true)
  else if 18 < contentType.length ∧ contentType.take 19 = ascii "multipart/form-data" then
    some (true, false)
  else none

/-- Write to the body at the offset `o` from its start. -/
def Request.writeBody (r : Request) (o : Nat) (bytes : List UInt8) : Request :=
  match r.body.dataStr with
  | .heap a => { r with b := r.b.write (a + o) bytes }
  | .mapped p =>
      { r with temp := { r.temp with
          file := r.temp.file.map fun m => m.take (p + o) ++
            (bytes ++ m.drop (p + o + bytes.length)) } }

/-- The label `_post_`: the response once the whole body has arrived. -/
def servePost (r : Request) : Request × Served :=
  if r.headersIn.contentLengthVal ≤ r.body.dataLen then
    let n := r.headersIn.contentLengthVal
    ({ r with body := { r.body with dataLen := n } }.writeBody n [nul], .response)
  else (r, .waiting)

/-- The part of `http_serve_client` behind the header block of a `POST`; `extra`
is what the buffer holds behind the block and `a` is its address. -/
def servePostHeaders (r : Request) (q : ParsedRequest) (extra : List UInt8) (a bodyAddr : Int) :
    Request × Served :=
  let r := { r with body := { r.body with dataStr := .heap a, dataLen := extra.length } }
  match q.lines.findIdx? fun l => l.key = ascii "content-type",
    q.lines.findIdx? fun l => l.key = ascii "content-length" with
  | none, _ => (r, .error 400)
  | some _, none => (r, .error 411)
  | some i, some j =>
      let r := { r with headersIn := { r.headersIn with
        contentType := some i, contentLength := some j, multipart := false, urlenc := false } }
      match bodyKind ((q.lines[i]?.map Line.value).getD []) with
      | none => (r, .error 415)
      | some (multipart, urlenc) =>
          let n := uint (atoi ((q.lines[j]?.map Line.value).getD []))
          let r := { r with headersIn := { r.headersIn with
            multipart := multipart, urlenc := urlenc, contentLengthVal := n } }
          if httpMaxRequestBodySize < n then (r, .error 413)
          else if httpRequestBodySizeStoreInFile < n then
            servePost { r with
              body := { r.body with dataStr := .mapped 0 }
              temp := { r.temp with file := some extra } }
          else servePost (r.expand ((n : Int) - r.body.dataLen + 1) bodyAddr)

/-! ## One pass of the loop -/

/-- The part of the loop behind a `recv` that returned the bytes `chunk` while
the header block is still incomplete. -/
def serveHeader (r : Request) (chunk : List UInt8) (e : RecvEvent) : Request × Served :=
  match findTerminator chunk with
  | some i =>
      if httpMaxHeadersSize < r.b.curLen then (r, .error 414)
      else
        let a := r.b.data + r.b.curLen - chunk.length
        let r := { r with b := r.b.write (a + i - 1) [1] }
        match httpParseHeaders r.b.mem with
        | .overrun => (r, .overrun)
        | .error code lines =>
            ({ r with keepalive :=
                if lines.any Line.isKeepAlive then e.keepalive else r.keepalive },
              .error code)
        | .ok q =>
            let r := r.storeParsed q e.keepalive
            if q.method = .post then
              servePostHeaders r q ((r.b.from (a + i + 1)).getD []) (a + i + 1) e.bodyAddr
            else (r, .response)
  | none =>
      if httpMaxHeadersSize < r.b.curLen then (r, .error 414)
      else if chunk.length < httpRecvBuffer then (r, .waiting)
      else (r, .more)

/-- The part of the loop behind a `recv` that returned the bytes `chunk`. -/
def serveData (r : Request) (chunk : List UInt8) (e : RecvEvent) : Request × Served :=
  if r.headersIn.uri.len = 0 then serveHeader r chunk e
  else if r.headersIn.methodPost = false then (r, .waiting)
  else servePost { r with body := { r.body with dataLen := r.body.dataLen + chunk.length } }

/-- The part behind the loop, for a `recv` that returned no data. -/
def serveNoData (r : Request) (res : Recv) : Request × Served :=
  if res = .wouldBlock then
    ({ r with b := { r.b with curLen := uint (r.b.curLen - httpRecvBuffer) } }, .waiting)
  else ({ r with keepalive := false }, .closed)

/-- One pass of the `for` loop of `http_serve_client`. -/
def serveRecv (r : Request) (e : RecvEvent) : Request × Served :=
  if r.headersIn.methodPost then
    match e.res with
    | .data chunk => serveData (r.writeBody r.body.dataLen chunk) chunk e
    | res => serveNoData r res
  else
    match e.res with
    | .data chunk => serveData (r.received chunk e.addr) chunk e
    | res => serveNoData (r.expand httpRecvBuffer e.addr) res

/-- One call of `http_serve_client`, given the results of the following `recv`
calls; those the call does not make are returned. It ends in `more` when the
results end in the middle of the call. -/
def httpServeClient : Request → List RecvEvent → Request × Served × List RecvEvent
  | r, [] => (r, .more, [])
  | r, e :: es =>
      let s := serveRecv r e
      if s.2 = .more then httpServeClient s.1 es else (s.1, s.2, es)

/-- The event loop calls `http_serve_client` again for every new event as long as
it returns false without having answered. A pass that goes on within the call and
one that waits for the next call are followed by the same `recv`. -/
def serveAll : Request → List RecvEvent → Request × Served × List RecvEvent
  | r, [] => (r, .waiting, [])
  | r, e :: es =>
      let s := serveRecv r e
      if s.2 = .more ∨ s.2 = .waiting then serveAll s.1 es else (s.1, s.2, es)

/-- All the calls together are a first call and, when it waits, the calls after
it. -/
theorem serveAll_eq_httpServeClient (r : Request) (es : List RecvEvent) :
    serveAll r es =
      let s := httpServeClient r es
      if s.2.1 = .waiting then serveAll s.1 s.2.2
      else if s.2.1 = .more then (s.1, .waiting, [])
      else s := by
  induction es generalizing r with
  | nil => rfl
  | cons e es ih =>
      rw [serveAll, httpServeClient]
      by_cases hmore : (serveRecv r e).2 = .more
      · simp only [hmore, true_or, if_true]
        exact ih _
      · by_cases hwait : (serveRecv r e).2 = .waiting
        · simp [hwait]
        · simp [hmore, hwait]

end OpenTube
