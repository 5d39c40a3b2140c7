import OpenTube.Http.Serve

/-!
# The life of a request structure

A `request_t` is prepared once and then cleaned up after every request it
served. `http_prepare` works on memory fresh from the allocator and
`http_cleanup` on what the last request left, and both set some of the fields
only: the counters and arrays of the parsed arguments, the body, the output
position and the flags of the content type keep the values they had.
`Idle` lists what can be relied on in both cases.
-/

namespace OpenTube

/-- `http_prepare` on a structure with the indeterminate contents `g`. -/
def httpPrepare (g : Request) (saveSpace : Bool) (addr : Int) : Request :=
  { g with
    sock := none
    keepalive := false
    b := ⟨0, if saveSpace then 0 else httpBufferReservedSize, addr, []⟩
    outVec := []
    headersIn := { g.headersIn with
      methodGet := false
      methodPost := false
      methodHead := false
      uri := { g.headersIn.uri with len := 0 }
      path := []
      pathSize := httpPathPrealloc
      contentType := none
      contentLength := none
      p := [] }
    temp := { g.temp with writevTotal := 0, sendfileFd := none, file := none } }

/-- `http_cleanup`, as far as the request structure is concerned. -/
def httpCleanup (r : Request) (addr : Int) : Request :=
  { r with
    sock := none
    keepalive := false
    b := r.b.free addr
    outVec := []
    headersIn := { r.headersIn with
      methodGet := false
      methodPost := false
      methodHead := false
      uri := { r.headersIn.uri with len := 0 }
      contentType := none
      contentLength := none
      p := [] }
    temp := { r.temp with writevTotal := 0, sendfileFd := none, file := none } }

/-- What holds of a request structure that serves no request. -/
structure Idle (r : Request) : Prop where
  sock : r.sock = none
  keepalive : r.keepalive = false
  mem : r.b.mem = []
  curLen : r.b.curLen = 0
  outVec : r.outVec = []
  methodGet : r.headersIn.methodGet = false
  methodPost : r.headersIn.methodPost = false
  methodHead : r.headersIn.methodHead = false
  uriLen : r.headersIn.uri.len = 0
  contentType : r.headersIn.contentType = none
  contentLength : r.headersIn.contentLength = none
  pool : r.headersIn.p = []
  writevTotal : r.temp.writevTotal = 0
  sendfileFd : r.temp.sendfileFd = none
  file : r.temp.file = none

theorem idle_httpPrepare (g : Request) (saveSpace : Bool) (addr : Int) :
    Idle (httpPrepare g saveSpace addr) := by
  constructor <;> rfl

theorem idle_httpCleanup (r : Request) (addr : Int) : Idle (httpCleanup r addr) := by
  constructor <;> rfl

/-- A structure in memory that was zeroed. -/
def zeroed : Request :=
  { b := ⟨0, 0, 0, []⟩
    headersIn :=
      { methodGet := false
        methodPost := false
        methodHead := false
        multipart := false
        urlenc := false
        uri := ⟨0, 0⟩
        httpVersion := ⟨0, 0⟩
        path := []
        pathSize := 0
        queryString := ⟨0, 0⟩
        contentType := none
        contentLength := none
        contentLengthVal := 0
        args := ⟨0, []⟩
        cookies := ⟨0, []⟩
        p := [] }
    headersOut := ⟨0, []⟩
    body := ⟨⟨0, []⟩, ⟨0, []⟩, 0, .heap 0⟩
    outVec := []
    sock := none
    keepalive := false
    temp := ⟨0, 0, 0, none, 0, 0, none⟩ }

/-- `event_fetch_request` gives an idle structure the socket it will serve. -/
def Request.assign (r : Request) (fd : Fd) : Request := { r with sock := some fd }

end OpenTube
