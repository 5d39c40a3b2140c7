import OpenTube.Common.Chars

/-!
# The request structure

`request_t` and the records it is made of, with the limits of `config.h`. An
address is an integer, so that a buffer may be moved and every pointer into it
has to be moved along; a text that lives in its own allocation and is only read
back through its own field (the path, a parsed argument, an entry of the output
vector) is held by value. A file descriptor is a natural number and the `-1` of
the source is `none`.

A buffer records the bytes that were written since it was last emptied. What
lies behind them in the allocation is indeterminate, so a read there has no
value.
-/

namespace OpenTube

/-! The limits of `config.h`. -/

def httpBufferReservedSize : Nat := 262144
def httpRecvBuffer : Nat := 8192
def httpRequestBodySizeStoreInFile : Nat := 4194304
def httpMaxRequestBodySize : Nat := 33554432
def httpMaxHeadersSize : Nat := 16384
def httpPathPrealloc : Nat := 128

/-- The request buffer has room for a whole header block and one more `recv`. -/
theorem httpMaxHeadersSize_add_lt : httpMaxHeadersSize + httpRecvBuffer < 2 ^ 31 := by
  decide

/-- A file descriptor. -/
abbrev Fd := Nat

/-- Arithmetic of a 32-bit `uint`. -/
def uint (n : Int) : Nat := (n % 2 ^ 32).toNat

theorem uint_eq {z : Int} {n : Nat} (h : z = n) (hlt : n < 2 ^ 32) : uint z = n := by
  subst h
  unfold uint
  omega

theorem uint_natCast {n : Nat} (h : n < 2 ^ 32) : uint n = n := uint_eq rfl h

theorem uint_le (n : Nat) : uint n ≤ n := by
  unfold uint
  omega

theorem uint_lt (n : Int) : uint n < 2 ^ 32 := by
  unfold uint
  omega

/-- `u_str_t`: a length and an address. -/
structure UStr where
  len : Nat
  str : Int
deriving DecidableEq, Repr

/-- `header_t`. -/
structure Header where
  key : UStr
  value : UStr
deriving DecidableEq, Repr

/-- Where `body.data.str` points to: into the request buffer, or into the mapped
file a long body is stored in. -/
inductive Ptr
  | heap (a : Int)
  | mapped (o : Nat)
deriving DecidableEq, Repr

/-- The request buffer, a `buf_t` of bytes. `mem` holds the bytes written to it
since it was last emptied. -/
structure Buf where
  curLen : Nat
  reservedLen : Nat
  data : Int
  mem : List UInt8
deriving DecidableEq, Repr

/-- `url_arg_t`, `cookie_t`, `post_arg_t`. -/
structure Arg where
  key : List UInt8
  value : List UInt8
deriving DecidableEq, Repr

/-- `post_file_t`. -/
structure PostFile where
  data : List UInt8
  key : List UInt8
  name : List UInt8
  type : List UInt8
deriving DecidableEq, Repr

/-- A counter and the array it counts the valid entries of. -/
structure Table (α : Type) where
  num : Nat
  entries : List α
deriving DecidableEq, Repr

/-- The entries a handler sees: those below the counter. -/
def Table.visible {α : Type} (t : Table α) : List α :=
  t.entries.take t.num

/-- `headers_in_t`. The pool `p` is the list of the headers in use, and
`contentType`, `contentLength` are positions in it. -/
structure HeadersIn where
  methodGet : Bool
  methodPost : Bool
  methodHead : Bool
  multipart : Bool
  urlenc : Bool
  uri : UStr
  httpVersion : UStr
  path : List UInt8
  pathSize : Nat
  queryString : UStr
  contentType : Option Nat
  contentLength : Option Nat
  contentLengthVal : Nat
  args : Table Arg
  cookies : Table Arg
  p : List Header
deriving DecidableEq, Repr

/-- `headers_out_t`. -/
structure HeadersOut where
  contentLength : Nat
  contentType : List UInt8
deriving DecidableEq, Repr

/-- `request_t.body`. -/
structure Body where
  post : Table Arg
  files : Table PostFile
  dataLen : Nat
  dataStr : Ptr
deriving DecidableEq, Repr

/-- `request_t.temp`. The output position is an index into the output vector;
`file` is the memory mapped for a long body. -/
structure Temp where
  writevTotal : Int
  outVec : Nat
  outVecLen : Nat
  sendfileFd : Option Fd
  sendfileLast : Int
  sendfileOffset : Int
  file : Option (List UInt8)
deriving DecidableEq, Repr

/-- `request_t`. An entry of the output vector is the bytes it denotes. -/
structure Request where
  b : Buf
  headersIn : HeadersIn
  headersOut : HeadersOut
  body : Body
  outVec : List (List UInt8)
  sock : Option Fd
  keepalive : Bool
  temp : Temp
deriving DecidableEq, Repr

/-- The bytes from the address `a` to the end of what was written. -/
def Buf.from (b : Buf) (a : Int) : Option (List UInt8) :=
  if 0 ≤ a - b.data ∧ a - b.data ≤ b.mem.length then
    some (b.mem.drop (a - b.data).toNat)
  else none

/-- The bytes a `u_str_t` into the buffer denotes. -/
def Buf.deref (b : Buf) (u : UStr) : Option (List UInt8) :=
  (b.from u.str).bind fun m => if u.len ≤ m.length then some (m.take u.len) else none

end OpenTube
