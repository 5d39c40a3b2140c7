import OpenTube.Lib.Run
import OpenTube.Http.Send

/-!
# Delivering the output vector

A response is delivered by one call of `http_send` and then by calls of
`events_out_data` as long as `writev_total` is positive. The bytes the kernel
took so far, followed by the bytes the resume state denotes, are the bytes of
the original vector: this is `Delivered`, the invariant of every run in which
the first write sends something and no later write would block.
-/

namespace OpenTube

open Vectored Machine

/-! ## The run -/

/-- A request whose output vector is being delivered, and the bytes the kernel
took. -/
structure Delivery where
  r : Request
  started : Bool
  taken : List UInt8
deriving DecidableEq, Repr

/-- `writev` would block, or takes at most the bytes it is given. -/
def IoRes.fits (vec : List (List UInt8)) : IoRes → Bool
  | .wouldBlock => true
  | .error => false
  | .count n => n ≤ vec.flatten.length

/-- One `writev` of the delivery, the first in `http_send` and the others in
`events_out_data`; `l.2` is where `http_cleanup` would place the buffer. -/
def Delivery.step (s : Delivery) (l : IoRes × Int) : Option Delivery :=
  if s.started then
    if 0 < s.r.temp.writevTotal ∧ l.1.fits s.r.pendingVec then
      some ⟨(eventsOutData s.r l.1 l.2).1, true, s.taken ++ l.1.bytes s.r.pendingVec⟩
    else none
  else if l.1.fits s.r.outVec then
    some ⟨(httpSend s.r l.1).1, true, l.1.bytes s.r.outVec⟩
  else none

/-- The delivery of the vector `vec`, built on a request without output. -/
def Delivery.start (r : Request) (vec : List (List UInt8)) : Delivery :=
  ⟨appendAll r vec, false, []⟩

/-- The bytes that are still to be sent according to the request: before the
first write the whole vector, then what `temp.out_vec` and `temp.out_vec_len`
denote as long as `writev_total` is positive. -/
def Delivery.remaining (s : Delivery) : List UInt8 :=
  if s.started then if 0 < s.r.temp.writevTotal then s.r.pendingVec.flatten else []
  else s.r.outVec.flatten

/-- No byte is lost or sent twice: the bytes taken are the beginning of the
vector, the rest is what the request still has to send, and `writev_total` is
its length. -/
structure Delivered (vec : List (List UInt8)) (s : Delivery) : Prop where
  bytes : s.taken ++ s.remaining = vec.flatten
  writevTotal : s.r.temp.writevTotal = s.remaining.length

/-- The results the code can deal with: a first write that sends something, later
writes that do not block, and no partial write that ends beyond `2 ^ 32` bytes
of the vector passed. -/
def Delivery.accepts (s : Delivery) : IoRes → Prop
  | .count n =>
      if s.started then EndsBelow (2 ^ 32) n s.r.pendingVec
      else 0 < s.r.temp.writevTotal →
        0 < n ∧ ((n : Int) < s.r.temp.writevTotal → EndsBelow (2 ^ 32) n s.r.outVec)
  | _ => s.started = false ∧ s.r.temp.writevTotal = 0

instance Delivery.decidableAccepts (s : Delivery) : (res : IoRes) → Decidable (s.accepts res)
  | .count n => inferInstanceAs (Decidable (if s.started then _ else _))
  | .wouldBlock => inferInstanceAs (Decidable (_ ∧ _))
  | .error => inferInstanceAs (Decidable (_ ∧ _))

/-- The steps the code can deal with. -/
def Delivery.ok (s : Delivery) (l : IoRes × Int) : Prop := s.accepts l.1

instance Delivery.decidableOk (s : Delivery) (l : IoRes × Int) : Decidable (s.ok l) :=
  inferInstanceAs (Decidable (s.accepts l.1))

/-! ## One write -/

/-- The invariant of a delivery: between two writes the resume state covers the
end of the vector. -/
structure Resumes (vec : List (List UInt8)) (s : Delivery) : Prop where
  delivered : Delivered vec s
  fresh : s.started = false → s.taken = []
  covers : s.started = true → 0 < s.r.temp.writevTotal →
    s.r.temp.outVec + s.r.temp.outVecLen = s.r.outVec.length

/-- Dropping from the entry a write ended in is advancing in the vector. -/
theorem modify_drop_eq (vec : List (List UInt8)) (i d : Nat) :
    (vec.modify i fun b => b.drop d).drop i = advance vec i d := by
  induction vec generalizing i with
  | nil => simp [advance]
  | cons b vec ih =>
      cases i with
      | zero => simp [advance]
      | succ i => simpa [advance] using ih i

theorem Delivered.start {r : Request} (hout : r.outVec = []) (htotal : r.temp.writevTotal = 0)
    (vec : List (List UInt8)) : Delivered vec (Delivery.start r vec) := by
  refine ⟨?_, ?_⟩
  · simp [Delivery.start, Delivery.remaining, hout]
  · simp [Delivery.start, Delivery.remaining, hout, appendAll_writevTotal, htotal]

/-- The resume state behind a partial write of `n` bytes: what it denotes, and
that it covers the end of the vector. -/
theorem pendingVec_of_splitPoint {r : Request} {i d : Nat}
    (hout : r.temp.outVec = i) (hlen : r.temp.outVecLen = r.outVec.length - i) :
    ({ r with outVec := r.outVec.modify i fun b => b.drop d } : Request).pendingVec =
      advance r.outVec i d := by
  have hfull : (advance r.outVec i d).length ≤ r.outVec.length - i := by
    rw [← modify_drop_eq]
    simp
  simp only [Request.pendingVec, hout, hlen, modify_drop_eq]
  exact List.take_of_length_le hfull

theorem httpSend_partial {r : Request} {n : Nat} (hpos : 0 < n)
    (htotal : r.temp.writevTotal = r.outVec.flatten.length)
    (hn : (n : Int) < r.temp.writevTotal) (hends : EndsBelow (2 ^ 32) n r.outVec) :
    ∃ r', httpSend r (.count n) = (r', false) ∧
      r'.temp.writevTotal = r.temp.writevTotal - n ∧
      r'.pendingVec.flatten = r.outVec.flatten.drop n ∧
      r'.temp.outVec + r'.temp.outVecLen = r'.outVec.length := by
  have hle : n ≤ r.outVec.flatten.length := by omega
  have hne : r.outVec ≠ [] := by
    intro hnil
    simp [hnil] at hle
    omega
  obtain ⟨i, d, hsplit, hi, hflat⟩ := splitPoint_spec hne hle
  have hwrite : writeEnd n 0 0 r.outVec = some (i, d) := by
    rw [writeEnd_zero hle hends, hsplit]
  have hsend : httpSend r (.count n) =
      ({ r with
          outVec := r.outVec.modify i fun b => b.drop d
          temp := { r.temp with
            writevTotal := r.temp.writevTotal - n
            outVecLen := r.outVec.length - i
            outVec := i } }, false) := by
    simp [httpSend, IoRes.value, hn, hpos, hwrite]
  refine ⟨_, hsend, rfl, ?_, ?_⟩
  · rw [← hflat]
    exact congrArg List.flatten (pendingVec_of_splitPoint (r := { r with temp := { r.temp with
      writevTotal := r.temp.writevTotal - n, outVecLen := r.outVec.length - i, outVec := i } })
      rfl rfl)
  · simp only [List.length_modify]
    omega

theorem resumeWrite_spec {r : Request} {n : Nat}
    (hcovers : r.temp.outVec + r.temp.outVecLen = r.outVec.length)
    (hne : r.pendingVec ≠ []) (hn : n ≤ r.pendingVec.flatten.length)
    (hends : EndsBelow (2 ^ 32) n r.pendingVec) :
    (resumeWrite r n).temp.writevTotal = r.temp.writevTotal - n ∧
      (resumeWrite r n).pendingVec.flatten = r.pendingVec.flatten.drop n ∧
      (resumeWrite r n).temp.outVec + (resumeWrite r n).temp.outVecLen =
        (resumeWrite r n).outVec.length := by
  obtain ⟨t, d, hsplit, ht, hflat⟩ := splitPoint_spec hne hn
  have hwrite : writeEnd n 0 0 r.pendingVec = some (t, d) := by
    rw [writeEnd_zero hn hends, hsplit]
  have hpending : r.pendingVec = r.outVec.drop r.temp.outVec := by
    refine List.take_of_length_le ?_
    rw [List.length_drop]
    omega
  have ht' : r.temp.outVec + t < r.outVec.length := by
    rw [hpending, List.length_drop] at ht
    omega
  have hadvance : advance r.outVec (r.temp.outVec + t) d = advance r.pendingVec t d := by
    rw [hpending, advance, advance, List.drop_drop]
  have hresume : resumeWrite r n =
      { r with
        outVec := r.outVec.modify (r.temp.outVec + t) fun b => b.drop d
        temp := { r.temp with
          writevTotal := r.temp.writevTotal - n
          outVec := r.temp.outVec + t
          outVecLen := r.temp.outVecLen - t } } := by
    simp only [resumeWrite]
    rw [show ({ r with temp := { r.temp with writevTotal := r.temp.writevTotal - n } } :
      Request).pendingVec = r.pendingVec from rfl, hwrite]
  rw [hresume]
  refine ⟨rfl, ?_, ?_⟩
  · rw [← hflat, ← hadvance]
    refine congrArg List.flatten (pendingVec_of_splitPoint (r := { r with temp := { r.temp with
      writevTotal := r.temp.writevTotal - n, outVec := r.temp.outVec + t,
      outVecLen := r.temp.outVecLen - t } }) rfl ?_)
    simp only
    omega
  · simp only [List.length_modify]
    omega

/-! ## Every run -/

theorem httpSend_zero {r : Request} (htotal : r.temp.writevTotal = 0) {res : IoRes}
    (hres : res ≠ .error) : (httpSend r res).1.temp.writevTotal = 0 := by
  cases res with
  | wouldBlock => simp [httpSend, IoRes.value, htotal]
  | error => exact absurd rfl hres
  | count n =>
      have hn : ¬ (n : Int) < 0 := by omega
      simp [httpSend, IoRes.value, htotal, hn]

/-- The first write. -/
theorem Resumes.first {vec : List (List UInt8)} {s : Delivery} (h : Resumes vec s)
    (hstarted : s.started = false) {l : IoRes × Int} (hok : s.ok l)
    (hfits : l.1.fits s.r.outVec = true) :
    Resumes vec ⟨(httpSend s.r l.1).1, true, l.1.bytes s.r.outVec⟩ := by
  obtain ⟨⟨hbytes, htotal⟩, htaken, -⟩ := h
  simp only [Delivery.remaining, hstarted, Bool.false_eq_true, if_false, htaken hstarted,
    List.nil_append] at hbytes htotal
  by_cases hzero : s.r.temp.writevTotal = 0
  · -- nothing to send
    have hnil : s.r.outVec.flatten = [] := List.length_eq_zero_iff.1 (by omega)
    have hsent : l.1.bytes s.r.outVec = [] := by
      cases hres : l.1 <;> simp [IoRes.bytes, hnil]
    have hres : l.1 ≠ .error := by
      intro hres
      simp [hres, IoRes.fits] at hfits
    have hdone := httpSend_zero hzero hres
    refine ⟨⟨?_, ?_⟩, by simp, fun _ hpos => ?_⟩
    · simp [Delivery.remaining, hdone, hsent, ← hbytes, hnil]
    · simp [Delivery.remaining, hdone]
    · simp [hdone] at hpos
  · obtain ⟨n, hn, hpos, hends⟩ : ∃ n, l.1 = .count n ∧ 0 < n ∧
        ((n : Int) < s.r.temp.writevTotal → EndsBelow (2 ^ 32) n s.r.outVec) := by
      cases hres : l.1 with
      | count n =>
          simp only [Delivery.ok, Delivery.accepts, hres, hstarted, Bool.false_eq_true,
            if_false] at hok
          exact ⟨n, rfl, hok (by omega)⟩
      | wouldBlock =>
          simp only [Delivery.ok, Delivery.accepts, hres] at hok
          exact absurd hok.2 hzero
      | error =>
          simp only [Delivery.ok, Delivery.accepts, hres] at hok
          exact absurd hok.2 hzero
    rw [hn] at hfits ⊢
    have hle : n ≤ s.r.outVec.flatten.length := by simpa [IoRes.fits] using hfits
    by_cases hpartial : (n : Int) < s.r.temp.writevTotal
    · obtain ⟨r', hsend, htotal', hpending, hcovers⟩ :=
        httpSend_partial hpos htotal hpartial (hends hpartial)
      have hpos' : 0 < r'.temp.writevTotal := by omega
      rw [hsend]
      refine ⟨⟨?_, ?_⟩, by simp, fun _ _ => hcovers⟩
      · simp [Delivery.remaining, hpos', hpending, IoRes.bytes, hbytes]
      · simp only [Delivery.remaining, if_true, hpos', hpending, List.length_drop]
        omega
    · have hall : n = s.r.outVec.flatten.length := by omega
      have hsend : httpSend s.r (.count n) =
          ({ s.r with temp := { s.r.temp with writevTotal := 0 } }, true) := by
        simp [httpSend, IoRes.value, hpartial]
      rw [hsend]
      refine ⟨⟨?_, ?_⟩, by simp, fun _ hpos' => by simp at hpos'⟩
      · simp only [Delivery.remaining, IoRes.bytes, hall, List.take_length, hbytes]
        simp
      · simp [Delivery.remaining]

/-- A later write. -/
theorem Resumes.later {vec : List (List UInt8)} {s : Delivery} (h : Resumes vec s)
    (hstarted : s.started = true) (hpos : 0 < s.r.temp.writevTotal) {l : IoRes × Int}
    (hok : s.ok l) (hfits : l.1.fits s.r.pendingVec = true) :
    Resumes vec ⟨(eventsOutData s.r l.1 l.2).1, true, s.taken ++ l.1.bytes s.r.pendingVec⟩ := by
  obtain ⟨⟨hbytes, htotal⟩, -, hcovers⟩ := h
  simp only [Delivery.remaining, hstarted, if_true, hpos] at hbytes htotal
  obtain ⟨n, hn, hends⟩ : ∃ n, l.1 = .count n ∧ EndsBelow (2 ^ 32) n s.r.pendingVec := by
    cases hres : l.1 with
    | count n =>
        simp only [Delivery.ok, Delivery.accepts, hres, hstarted, if_true] at hok
        exact ⟨n, rfl, hok⟩
    | wouldBlock => simp [Delivery.ok, Delivery.accepts, hres, hstarted] at hok
    | error => simp [Delivery.ok, Delivery.accepts, hres, hstarted] at hok
  rw [hn] at hfits ⊢
  have hle : n ≤ s.r.pendingVec.flatten.length := by simpa [IoRes.fits] using hfits
  have hne : s.r.pendingVec ≠ [] := by
    intro hnil
    simp [hnil] at htotal
    omega
  obtain ⟨htotal', hpending, hcovers'⟩ :=
    resumeWrite_spec (hcovers hstarted hpos) hne hle hends
  have hevent : (eventsOutData s.r (.count n) l.2).1 = resumeWrite s.r n := by
    simp [eventsOutData, hpos]
  rw [hevent]
  refine ⟨⟨?_, ?_⟩, by simp, fun _ _ => hcovers'⟩
  · rw [← hbytes, List.append_assoc]
    congr 1
    by_cases hmore : 0 < (resumeWrite s.r n).temp.writevTotal
    · simp [Delivery.remaining, hmore, hpending, IoRes.bytes]
    · have htake : s.r.pendingVec.flatten.take n = s.r.pendingVec.flatten :=
        List.take_of_length_le (by omega)
      simp [Delivery.remaining, hmore, IoRes.bytes, htake]
  · by_cases hmore : 0 < (resumeWrite s.r n).temp.writevTotal
    · simp only [Delivery.remaining, if_true, hmore, hpending, List.length_drop]
      omega
    · simp only [Delivery.remaining, if_true, hmore, if_false, List.length_nil]
      omega

/-- One step of an allowed run. -/
theorem Resumes.step {vec : List (List UInt8)} {s t : Delivery} {l : IoRes × Int}
    (hs : Resumes vec s) (hok : Delivery.ok s l) (hstep : Delivery.step s l = some t) :
    Resumes vec t := by
  unfold Delivery.step at hstep
  by_cases hstarted : s.started = true
  · rw [if_pos hstarted] at hstep
    split at hstep
    · rename_i hcan
      obtain rfl := Option.some.inj hstep
      exact hs.later hstarted hcan.1 hok hcan.2
    · simp at hstep
  · rw [if_neg hstarted] at hstep
    split at hstep
    · rename_i hfits
      obtain rfl := Option.some.inj hstep
      exact hs.first (by simpa using hstarted) hok hfits
    · simp at hstep

/-- In every run whose writes the code can deal with, no byte of the vector is
lost or sent twice. -/
theorem delivered_of_run {r : Request} (hout : r.outVec = []) (htotal : r.temp.writevTotal = 0)
    (vec : List (List UInt8)) {ls : List (IoRes × Int)} {s : Delivery}
    (hok : Meets Delivery.step Delivery.ok (Delivery.start r vec) ls)
    (hrun : run Delivery.step (Delivery.start r vec) ls = some s) : Delivered vec s := by
  have hstart : Resumes vec (Delivery.start r vec) :=
    ⟨.start hout htotal vec, fun _ => rfl, fun h => by simp [Delivery.start] at h⟩
  exact (run_invariant (fun _ _ _ h hok hstep => h.step hok hstep) ls _ s hstart hok hrun).delivered

/-- The output of the runs below. -/
def abcde : List (List UInt8) := [ascii "ab", ascii "cde"]

/-- A request without output. -/
def noOutput : Request := httpPrepare zeroed false 0

/-- Three bytes are taken, then one, then the last. -/
theorem delivered_of_run_abcde :
    ∃ s, run Delivery.step (Delivery.start noOutput abcde)
        [(.count 3, 0), (.count 1, 0), (.count 1, 0)] = some s ∧ Delivered abcde s := by
  have hsome : (run Delivery.step (Delivery.start noOutput abcde)
      [(.count 3, 0), (.count 1, 0), (.count 1, 0)]).isSome = true := by decide +kernel
  obtain ⟨s, hs⟩ := Option.isSome_iff_exists.1 hsome
  exact ⟨s, hs, delivered_of_run rfl rfl abcde (by decide +kernel) hs⟩

/-- A first write that would block leaves a resume state that does not denote
the output, and a later one that would block drops the rest of it. -/
theorem not_delivered_of_wouldBlock :
    (∃ s, run Delivery.step (Delivery.start noOutput abcde) [(.wouldBlock, 0)] = some s ∧
      ¬ Delivered abcde s) ∧
    ∃ s, run Delivery.step (Delivery.start noOutput abcde) [(.count 3, 0), (.wouldBlock, 0)] =
      some s ∧ ¬ Delivered abcde s := by
  refine ⟨⟨⟨(httpSend (appendAll noOutput abcde) .wouldBlock).1, true, []⟩, by decide +kernel,
    fun h => absurd h.bytes (by decide +kernel)⟩, ?_⟩
  exact ⟨⟨httpCleanup (httpSend (appendAll noOutput abcde) (.count 3)).1 0, true, ascii "abc"⟩,
    by decide +kernel, fun h => absurd h.bytes (by decide +kernel)⟩

end OpenTube
