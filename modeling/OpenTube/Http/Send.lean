import OpenTube.Lib.Vectored
import OpenTube.Http.Lifecycle
import OpenTube.Http.Output

/-!
# Sending the output

`http_send` hands the output vector to `writev` and, when only a part of it was
taken, records where to go on; `events_out_data` continues from there whenever
the socket can be written again, and then sends the file that belongs to the
response. The results of `writev` and `sendfile` are inputs, and what the calls
do outside the request is a list of effects.
-/

namespace OpenTube

open Vectored

/-- The result of one `writev` or `sendfile`: `-1` with `EAGAIN`, `-1` with another
error, or the number of bytes taken. -/
inductive IoRes
  | wouldBlock
  | error
  | count (n : Nat)
deriving DecidableEq, Repr

/-- The value the call returns. -/
def IoRes.value : IoRes → Int
  | .count n => n
  | _ => -1

/-- The bytes `writev` takes from a vector. -/
def IoRes.bytes (vec : List (List UInt8)) : IoRes → List UInt8
  | .count n => vec.flatten.take n
  | _ => []

/-- The loop that looks for the entry in which a write of `res` bytes ended, from
the entry `t` on and with `size` bytes in front of it: the entry and the number
`d` of its bytes that were written. `size` and `d` are of type `uint`. -/
def writeEnd (res : Int) : Nat → Nat → List (List UInt8) → Option (Nat × Nat)
  | _, _, [] => none
  | t, size, b :: vec =>
      let size := uint (size + b.length)
      if res ≤ size then some (t, uint (b.length - (size - res)))
      else writeEnd res (t + 1) size vec

/-- `http_send`: the request and the value returned. -/
def httpSend (r : Request) (res : IoRes) : Request × Bool :=
  if res = .error then (r, true)
  else if res.value < r.temp.writevTotal then
    if 0 < res.value then
      let r := { r with temp := { r.temp with writevTotal := r.temp.writevTotal - res.value } }
      match writeEnd res.value 0 0 r.outVec with
      | some (i, d) =>
          ({ r with
              outVec := r.outVec.modify i fun b => b.drop d
              temp := { r.temp with outVecLen := r.outVec.length - i, outVec := i } }, false)
      | none => (r, false)
    else (r, false)
  else ({ r with temp := { r.temp with writevTotal := 0 } }, true)

/-- `http_redirect`. -/
def httpRedirect (c : Config) (r : Request) (location : List UInt8) (appendQueryString : Bool)
    (res : IoRes) : Request × Bool :=
  httpSend (redirectOutput c r location appendQueryString) res

/-- `http_error`. -/
def httpError (c : Config) (r : Request) (code : Nat) (res : IoRes) : Request × Bool :=
  httpSend (errorOutput c r code) res

/-- The ranges `temp.out_vec` and `temp.out_vec_len` denote. -/
def Request.pendingVec (r : Request) : List (List UInt8) :=
  (r.outVec.drop r.temp.outVec).take r.temp.outVecLen

/-- The part of `events_out_data` behind a `writev` that took `n` bytes. -/
def resumeWrite (r : Request) (n : Nat) : Request :=
  let r := { r with temp := { r.temp with writevTotal := r.temp.writevTotal - n } }
  match writeEnd n 0 0 r.pendingVec with
  | some (t, d) =>
      { r with
        outVec := r.outVec.modify (r.temp.outVec + t) fun b => b.drop d
        temp := { r.temp with outVec := r.temp.outVec + t, outVecLen := r.temp.outVecLen - t } }
  | none => r

/-- What happens outside the request structure: bytes taken by `writev`, bytes of
a file taken by `sendfile`, files opened and closed. -/
inductive Effect
  | wrote (bytes : List UInt8)
  | sent (fd : Fd) (offset : Int) (count : Nat)
  | opened (fd : Fd)
  | closed (fd : Fd)
deriving DecidableEq, Repr

/-- How a call leaves the request: waiting for the socket, given up after an
error, or ended by `end_request`. -/
inductive Progress
  | pending
  | failed
  | ended
deriving DecidableEq, Repr

/-- `events_out_data` for the request that holds the socket. `res` is the result
of the one system call it makes; `addr` is where `http_cleanup` places the
buffer. -/
def eventsOutData (r : Request) (res : IoRes) (addr : Int) : Request × Progress × List Effect :=
  if 0 < r.temp.writevTotal then
    match res with
    | .count n => (resumeWrite r n, .pending, [.wrote (res.bytes r.pendingVec)])
    | _ => (httpCleanup r addr, .failed, [])
  else
    match r.temp.sendfileFd with
    | none => (httpCleanup r addr, .ended, [])
    | some fd =>
        if res = .error then (httpCleanup r addr, .failed, [.closed fd])
        else
          let offset := r.temp.sendfileOffset + max 0 res.value
          let sent := Effect.sent fd r.temp.sendfileOffset (max 0 res.value).toNat
          if offset < r.temp.sendfileLast then
            ({ r with temp := { r.temp with sendfileOffset := offset } }, .pending, [sent])
          else (httpCleanup r addr, .ended, [sent, .closed fd])

/-- Below `2 ^ 32` the loop finds the place where the write ended. -/
theorem writeEnd_eq_splitPoint {vec : List (List UInt8)} :
    ∀ {n t size : Nat}, n ≤ vec.flatten.length → EndsBelow (2 ^ 32 - size) n vec →
      size < 2 ^ 32 →
      writeEnd ((size + n : Nat) : Int) t size vec =
        (splitPoint n vec).map fun p => (t + p.1, p.2) := by
  induction vec with
  | nil => simp [writeEnd, splitPoint]
  | cons b vec ih =>
      intro n t size hn hends hsize
      have hb : b.length < 2 ^ 32 - size := hends.head hn
      have huint : uint (size + b.length) = size + b.length :=
        uint_eq (by omega) (by omega)
      rw [writeEnd, splitPoint]
      simp only [huint]
      by_cases hle : n ≤ b.length
      · have hd : uint (b.length - ((size + b.length : Nat) - (size + n : Nat) : Int)) = n :=
          uint_eq (by omega) (by omega)
        rw [if_pos (by omega), if_pos hle, hd]
        rfl
      · have hrec := @ih (n - b.length) (t + 1) (size + b.length)
          (by rw [List.flatten_cons, List.length_append] at hn; omega)
          (by
            have htail := hends.tail (by omega)
            rwa [Nat.sub_sub] at htail)
          (by omega)
        have hsum : ((size + b.length + (n - b.length) : Nat) : Int) = (size + n : Nat) := by
          omega
        rw [hsum] at hrec
        rw [if_neg (by omega), hrec, if_neg hle, Option.map_map]
        congr 1
        funext p
        simp only [Function.comp_apply, Prod.mk.injEq, and_true]
        omega

theorem writeEnd_zero {vec : List (List UInt8)} {n : Nat} (hn : n ≤ vec.flatten.length)
    (hends : EndsBelow (2 ^ 32) n vec) : writeEnd n 0 0 vec = splitPoint n vec := by
  have h := @writeEnd_eq_splitPoint vec n 0 0 hn hends (by decide)
  simpa using h

end OpenTube
