import OpenTube.Http.Serve

/-!
# The output of a response

A response is collected as a vector of byte ranges. `http_append_to_output_buf`
adds one range, `http_append_headers` the header lines every response has, and
`http_redirect` and `http_error` build the two kinds of answers the server makes
on its own. The texts are those of `http_init_constants` and `config.h`.
-/

namespace OpenTube

/-! ## The texts -/

/-- The settings the header lines are made of. `http.keepalive.timeout` is kept
as a text, and the text has only digits. -/
structure Config where
  keepaliveTimeout : List UInt8
  keepaliveTimeoutVal : Nat
  digits : ∀ c ∈ keepaliveTimeout, isDigit c = true

/-- `default_config`. The number is not set there. -/
def defaultConfig : Config :=
  ⟨ascii "25", 0, by decide +kernel⟩

/-- The line `http.keepalive.timeout` of the configuration file, whose value is
refused unless it is positive. -/
def Config.setKeepaliveTimeout (c : Config) (value : Int) : Option Config :=
  if h : value ≤ 0 then none
  else
    some { c with
      keepaliveTimeout := intToStr value 10
      keepaliveTimeoutVal := value.toNat
      digits := isDigit_of_mem_xToStr (by omega) }

/-- `http_status_code`. -/
def httpStatusCode : Nat → List UInt8
  | 200 => ascii "200 OK"
  | 206 => ascii "206 Partial Content"
  | 301 => ascii "301 Moved Permanently"
  | 304 => ascii "304 Not Modified"
  | 400 => ascii "400 Bad Request"
  | 401 => ascii "401 Unauthorized"
  | 402 => ascii "402 Payment Required"
  | 403 => ascii "403 Forbidden"
  | 404 => ascii "404 Not Found"
  | 405 => ascii "405 Method Not Allowed"
  | 406 => ascii "406 Not Acceptable"
  | 408 => ascii "408 Request Timeout"
  | 411 => ascii "411 Length Required"
  | 413 => ascii "413 Request Entity Too Large"
  | 414 => ascii "414 Request-URL Too Long"
  | 415 => ascii "415 Unsupported Media Type"
  | 416 => ascii "416 Requested Range Not Satisfiable"
  | 500 => ascii "500 Internal Server Error"
  | 501 => ascii "501 Not Implemented"
  | 502 => ascii "502 Bad Gateway"
  | 503 => ascii "503 Service Unavailable"
  | 504 => ascii "504 Gateway Timeout"
  | 505 => ascii "505 HTTP Version Not Supported"
  | _ => []

/-- `header_server_string`. -/
def headerServerString : List UInt8 := ascii "Server: Opentube/0.1alpha"

/-- `HTTP_ERROR_CONTENT_TYPE`. -/
def httpErrorContentType : List UInt8 := ascii "text/html"

/-! ## The output vector -/

/-- `http_append_to_output_buf`. -/
def httpAppendToOutputBuf (r : Request) (bytes : List UInt8) : Request :=
  { r with
    outVec := r.outVec ++ [bytes]
    temp := { r.temp with writevTotal := r.temp.writevTotal + bytes.length } }

/-- A number of calls of `http_append_to_output_buf`. -/
def appendAll (r : Request) : List (List UInt8) → Request
  | [] => r
  | bytes :: rest => appendAll (httpAppendToOutputBuf r bytes) rest

/-- The ranges `http_append_headers` adds. -/
def httpHeaders (c : Config) (r : Request) (code : Nat) : List (List UInt8) :=
  [ascii "HTTP/1.1 ", httpStatusCode code, crlf,
    headerServerString, crlf,
    ascii "Content-Type: ", r.headersOut.contentType, crlf,
    ascii "Content-Length: ", int64ToStr (int64 r.headersOut.contentLength) 10, crlf] ++
  (if r.keepalive then
    [ascii "Connection: keep-alive" ++ (crlf ++ ascii "Keep-Alive: timeout="), c.keepaliveTimeout]
  else [ascii "Connection: close"]) ++ [crlf]

/-- `http_append_headers`. -/
def httpAppendHeaders (c : Config) (r : Request) (code : Nat) : Request :=
  appendAll r (httpHeaders c r code)

/-- `http_redirect` up to the call of `http_send`. -/
def redirectOutput (c : Config) (r : Request) (location : List UInt8) (appendQueryString : Bool) :
    Request :=
  let r := { r with headersOut := { r.headersOut with
    contentLength := 0, contentType := httpErrorContentType } }
  let r := httpAppendHeaders c r 301
  let r := appendAll r [ascii "Location: ", location]
  let r :=
    if appendQueryString ∧ r.headersIn.queryString.len ≠ 0 then
      appendAll r [[question], (r.b.deref r.headersIn.queryString).getD []]
    else r
  httpAppendToOutputBuf r (crlf ++ crlf)

/-! The pieces of `HTTP_HTML_PAGE_TEMPLATE`. -/

def pageTop : List UInt8 :=
  ascii "<!DOCTYPE html PUBLIC \"-//W3C//DTD XHTML 1.0 Transitional//EN\" " ++
  ascii "\"http://www.w3.org/TR/xhtml1/DTD/xhtml1-transitional.dtd\">\n" ++
  ascii "<html xmlns=\"http://www.w3.org/1999/xhtml\">\n<head>\n\t<title>"

def pageCon1 : List UInt8 :=
  ascii "</title>\n\t<style type=\"text/css\">\n" ++
  ascii "\t\thtml, body, h1, h2 \x7bpadding:0;margin:0;\x7d body \x7bbackground:#eee;\x7d " ++
  ascii "h1 \x7bcolor:#943535;font-family:\"Times New Roman\";font-size:128px;" ++
  ascii "padding-top:40px;\x7d h2, span \x7bfont-family:Arial;text-shadow:1px 1px 0 #fff;\x7d " ++
  ascii "h2 \x7bcolor:#444;font-size:35px;\x7d .server-info \x7bcolor:#888;font-size:14px;\x7d\n" ++
  ascii "\t</style>\n</head>\n\n<body>\n\t<div align=\"center\">\n\t\t<h1>"

def pageCon2 : List UInt8 := ascii "</h1>\n\t\t<h2>"

def pageBot : List UInt8 :=
  ascii "</h2>\n\t\t<br />\n\t\t<span class=\"server-info\">Opentube/0.1alpha</span>\n" ++
  ascii "\t</div>\n</body>\n</html>\n"

/-- `http_error_message`: the page shows the number and the text of the status. -/
def httpErrorMessage (code : Nat) : List UInt8 :=
  if 400 ≤ code then
    let number := (httpStatusCode code).take 3
    let text := (httpStatusCode code).drop 4
    pageTop ++ (number ++ (ascii " - " ++ (text ++ (pageCon1 ++ (number ++ (pageCon2 ++
      (text ++ pageBot)))))))
  else []

/-- `http_error` up to the call of `http_send`. -/
def errorOutput (c : Config) (r : Request) (code : Nat) : Request :=
  let r := { r with headersOut := { r.headersOut with
    contentLength := (httpErrorMessage code).length, contentType := httpErrorContentType } }
  appendAll (httpAppendHeaders c r code) [crlf, httpErrorMessage code]

/-- What the appended ranges change. -/
theorem appendAll_eq (r : Request) (l : List (List UInt8)) :
    appendAll r l = { r with
      outVec := r.outVec ++ l
      temp := { r.temp with writevTotal := r.temp.writevTotal + (l.flatten.length : Nat) } } := by
  induction l generalizing r with
  | nil => simp [appendAll]
  | cons bytes l ih =>
      rw [appendAll, ih, httpAppendToOutputBuf]
      simp only [List.append_assoc, List.cons_append, List.nil_append, List.flatten_cons,
        List.length_append, Request.mk.injEq, Temp.mk.injEq, true_and, and_true]
      omega

@[simp] theorem appendAll_outVec (r : Request) (l : List (List UInt8)) :
    (appendAll r l).outVec = r.outVec ++ l := by
  rw [appendAll_eq]

@[simp] theorem appendAll_b (r : Request) (l : List (List UInt8)) : (appendAll r l).b = r.b := by
  rw [appendAll_eq]

@[simp] theorem appendAll_headersIn (r : Request) (l : List (List UInt8)) :
    (appendAll r l).headersIn = r.headersIn := by
  rw [appendAll_eq]

@[simp] theorem appendAll_headersOut (r : Request) (l : List (List UInt8)) :
    (appendAll r l).headersOut = r.headersOut := by
  rw [appendAll_eq]

/-- `writev_total` counts the bytes of the vector. -/
theorem appendAll_writevTotal (r : Request) (l : List (List UInt8)) :
    (appendAll r l).temp.writevTotal = r.temp.writevTotal + (l.flatten.length : Nat) := by
  rw [appendAll_eq]

@[simp] theorem appendAll_sendfileOffset (r : Request) (l : List (List UInt8)) :
    (appendAll r l).temp.sendfileOffset = r.temp.sendfileOffset := by
  rw [appendAll_eq]

@[simp] theorem appendAll_sendfileLast (r : Request) (l : List (List UInt8)) :
    (appendAll r l).temp.sendfileLast = r.temp.sendfileLast := by
  rw [appendAll_eq]

end OpenTube
