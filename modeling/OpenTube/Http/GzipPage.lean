import OpenTube.Http.Framing
import OpenTube.Http.Reception

/-!
# A compressed page

The branch of `http_pass_to_handlers_routine` for a client that accepts gzip. The
buffer `gzip_buf` is made as long as the page and is extended by 256 bytes as often
as `deflate` has filled it; the length of the stream is what the buffer has then,
less the space that is left. The lengths are 32-bit numbers.

`deflate` is a parameter: it has a fixed stream of bytes to hand out for the page,
hands out as many as there is space for, and returns `Z_STREAM_END` once it is done.
When the last byte fills the space it may also return `Z_OK` and be done with the
next call; `fit` says which. A store outside of the buffer has no value, and neither
has a read of bytes that were not written.
-/

namespace OpenTube

/-! ## The loop -/

/-- `z_stream`: what is left of the output, the space and where it begins. -/
structure ZStream where
  pending : List UInt8
  availOut : Nat
  nextOut : Int
deriving DecidableEq, Repr

/-- The return codes of `deflate` that occur. -/
inductive ZCode
  | ok
  | streamEnd
deriving DecidableEq, Repr

/-- `deflate(z, Z_FINISH)`: the bytes it writes at `next_out`, the stream and the
code. -/
def deflateFinish (fit : Bool) (z : ZStream) : List UInt8 × ZStream × ZCode :=
  let out := z.pending.take z.availOut
  (out, ⟨z.pending.drop z.availOut, z.availOut - out.length, z.nextOut + out.length⟩,
    if z.pending.length < z.availOut ∨ z.pending.length = z.availOut ∧ fit = true then .streamEnd
    else .ok)

/-- Store bytes inside of the length of a buffer. -/
def Buf.store (b : Buf) (a : Int) (bytes : List UInt8) : Option Buf :=
  if bytes = [] then some b
  else if 0 ≤ a - b.data ∧ (a - b.data).toNat ≤ b.mem.length ∧
      (a - b.data).toNat + bytes.length ≤ b.curLen then
    some (b.write a bytes)
  else none

/-- The loop around `deflate`. The first argument bounds its passes; `addr` says
where `realloc` places the buffer. -/
def gzipLoop (fit : Bool) (addr : Nat → Int) : Nat → Buf → ZStream → Option (Buf × ZStream)
  | 0, _, _ => none
  | n + 1, b, z =>
      let e := deflateFinish fit z
      (b.store z.nextOut e.1).bind fun b =>
        if 0 < e.2.1.availOut ∨ e.2.2 = .streamEnd then some (b, e.2.1)
        else
          let b := (b.expand 256 (addr n)).1
          gzipLoop fit addr n b { e.2.1 with availOut := 256, nextOut := b.data + b.curLen - 256 }

/-- What is sent of the buffer when the loop has ended. -/
def gzipText (e : Buf × ZStream) : Option (List UInt8) :=
  let i := uint (e.1.curLen - e.2.availOut)
  if i ≤ e.1.mem.length then some (e.1.mem.take i) else none

/-- The compressed form of a page of `len` bytes for which `deflate` hands out
`stream`, with `b` as `gzip_buf`. -/
def gzipStream (fit : Bool) (addr : Nat → Int) (b : Buf) (len : Nat) (stream : List UInt8) :
    Option (List UInt8) :=
  let b := (b.expand len (addr (stream.length + 2))).1
  (gzipLoop fit addr (stream.length + 2) b ⟨stream, b.curLen, b.data⟩).bind gzipText

/-- The response to a request that is answered with `page`. -/
def gzipPage (crc32 : List UInt8 → Nat) (c : Config) (fit : Bool) (addr : Nat → Int) (b : Buf)
    (r : Request) (page stream date : List UInt8) : Option Request :=
  (gzipStream fit addr b page.length stream).map fun text =>
    gzipPageOutput crc32 c r page text date

/-! ## The length of the buffer -/

/-- The length of a buffer that is extended from `len` on until `n` bytes fit. -/
def filledLength (len n : Nat) : Nat := len + 256 * ((n - len + 255) / 256)

/-- No extension that is filled makes the length overflow. When the stream fills the
buffer and `deflate` does not say so, one more extension follows: it may overflow if
the reserved length is not exceeded. -/
def StreamFits (fit : Bool) (reserved len n : Nat) : Prop :=
  filledLength len n < 2 ^ 32 ∧
    (fit = false → n = filledLength len n → n + 256 < 2 ^ 32 ∨ n + 256 - 2 ^ 32 ≤ reserved)

instance (fit : Bool) (reserved len n : Nat) : Decidable (StreamFits fit reserved len n) :=
  inferInstanceAs (Decidable (_ ∧ _))

/-- The stream fits the buffer as it is, unless it fills it and one more extension is
made. -/
theorem streamFits_of_le {fit : Bool} {reserved len n : Nat} (hlen : len < 2 ^ 32) (hn : n ≤ len) :
    StreamFits fit reserved len n ↔
      (fit = false → n = len → n + 256 < 2 ^ 32 ∨ n + 256 - 2 ^ 32 ≤ reserved) := by
  have hfilled : filledLength len n = len := by
    unfold filledLength
    omega
  rw [StreamFits, hfilled]
  exact ⟨fun h => h.2, fun h => ⟨hlen, h⟩⟩

/-- A stream that is longer than the buffer needs an extension. -/
theorem streamFits_of_lt {fit : Bool} {reserved len n : Nat} (hn : len < n) :
    StreamFits fit reserved len n ↔
      len + 256 < 2 ^ 32 ∧ StreamFits fit reserved (len + 256) n := by
  have hfilled : filledLength len n = filledLength (len + 256) n := by
    unfold filledLength
    omega
  have hle : len + 256 ≤ filledLength (len + 256) n := Nat.le_add_right _ _
  rw [StreamFits, StreamFits, hfilled]
  constructor
  · rintro ⟨hlt, hend⟩
    exact ⟨by omega, hlt, hend⟩
  · rintro ⟨-, hlt, hend⟩
    exact ⟨hlt, hend⟩

/-! ## The loop hands out the stream -/

/-- A pass stores as much of the stream as there is space for. -/
theorem store_pending {b : Buf} {k : Nat} (hb : b.curLen = b.mem.length + k)
    (pending : List UInt8) :
    b.store (b.data + b.mem.length) (pending.take k) =
      some { b with mem := b.mem ++ pending.take k } := by
  unfold Buf.store
  split_ifs with hnil hrange
  · rw [hnil, List.append_nil]
  · rw [Buf.write_end rfl]
  · have hlen : (pending.take k).length ≤ k := List.length_take_le _ _
    exact absurd ⟨by omega, by omega, by omega⟩ hrange

theorem expand_reserved (b : Buf) (add addr : Int) :
    (b.expand add addr).1.reservedLen = b.reservedLen := by
  unfold Buf.expand
  by_cases h : b.reservedLen < uint (b.curLen + add)
  · simp [h]
  · simp [h]


/-- The last pass leaves what was stored. -/
theorem gzipText_eq {b : Buf} {z : ZStream} (hb : b.curLen = b.mem.length + z.availOut)
    (hlt : b.curLen < 2 ^ 32) : gzipText (b, z) = some b.mem := by
  have hi : uint ((b.curLen : Int) - z.availOut) = b.mem.length :=
    uint_eq (by omega) (by omega)
  simp [gzipText, hi]

/-- The extension behind a stream that has filled the buffer. If the length overflows
the stream is still there, unless `realloc` has cut it off. -/
theorem gzipLoop_nil {fit : Bool} {addr : Nat → Int} {n : Nat} {b : Buf} (a : Int)
    (hb : b.curLen = b.mem.length) (hlt : b.curLen < 2 ^ 32) :
    (gzipLoop fit addr (n + 1) (b.expand 256 a).1
        ⟨[], 256, (b.expand 256 a).1.data + (b.expand 256 a).1.curLen - 256⟩).bind gzipText =
      if b.curLen + 256 < 2 ^ 32 ∨ b.curLen + 256 - 2 ^ 32 ≤ b.reservedLen then some b.mem
      else none := by
  have hpass : gzipLoop fit addr (n + 1) (b.expand 256 a).1
      ⟨[], 256, (b.expand 256 a).1.data + (b.expand 256 a).1.curLen - 256⟩ =
      some ((b.expand 256 a).1, ⟨[], 256,
        (b.expand 256 a).1.data + (b.expand 256 a).1.curLen - 256 + 0⟩) := by
    simp only [gzipLoop, deflateFinish, Buf.store, List.take_nil, List.drop_nil, if_true,
      Option.bind_some, List.length_nil, Nat.sub_zero]
    rw [if_pos (.inl (by omega))]
    rfl
  have hi : uint (((b.expand 256 a).1.curLen : Int) - (256 : Nat)) = b.mem.length := by
    rw [Buf.expand_curLen]
    unfold uint
    omega
  rw [hpass, Option.bind_some, gzipText]
  simp only [hi]
  by_cases hfits : b.curLen + 256 < 2 ^ 32
  · have hlen : b.mem.length ≤ uint ((b.curLen : Int) + 256) := by
      unfold uint
      omega
    rw [Buf.expand_mem hlen, if_pos (Nat.le_refl _), if_pos (.inl hfits), List.take_length]
  · obtain ⟨w, hw⟩ : ∃ w, uint ((b.curLen : Int) + 256) = w := ⟨_, rfl⟩
    have hcur : b.curLen + 256 = w + 2 ^ 32 := by
      unfold uint at hw
      omega
    by_cases hreserved : b.reservedLen < w
    · have hmem : (b.expand 256 a).1.mem = b.mem.take w := by
        simp only [Buf.expand, hw, if_pos hreserved]
      rw [hmem, List.length_take, if_neg (by omega), if_neg (by omega)]
    · have hmem : (b.expand 256 a).1.mem = b.mem := by
        simp only [Buf.expand, hw, if_neg hreserved]
      rw [hmem, if_pos (Nat.le_refl _), if_pos (.inr (by omega)), List.take_length]

/-- A store behind an extension that overflows lies in front of the buffer. -/
theorem gzipLoop_overflow {fit : Bool} {addr : Nat → Int} {n : Nat} {b : Buf} {z : ZStream}
    (hpending : z.pending ≠ []) (hspace : z.availOut = 256) (hcur : b.curLen < 256)
    (hnext : z.nextOut = b.data + b.curLen - 256) : gzipLoop fit addr n b z = none := by
  cases n with
  | zero => rfl
  | succ n =>
      have hout : z.pending.take z.availOut ≠ [] := by
        rw [hspace]
        simp [hpending]
      have hstore : b.store z.nextOut (z.pending.take z.availOut) = none := by
        rw [Buf.store, if_neg hout, if_neg]
        rintro ⟨hle, -⟩
        omega
      simp only [gzipLoop, deflateFinish, hstore, Option.bind_none]

/-- From a buffer that holds the beginning of the stream, the loop ends with the
stream if the lengths fit. -/
theorem gzipLoop_eq {fit : Bool} {addr : Nat → Int} {n : Nat} {b : Buf} {pending : List UInt8}
    {k : Nat} (hb : b.curLen = b.mem.length + k) (hlt : b.curLen < 2 ^ 32) (hn : 1 ≤ n)
    (hfuel : pending.length + 2 ≤ n + k) :
    (gzipLoop fit addr n b ⟨pending, k, b.data + b.mem.length⟩).bind gzipText =
      if StreamFits fit b.reservedLen b.curLen (b.mem.length + pending.length) then
        some (b.mem ++ pending)
      else none := by
  induction n generalizing b pending k with
  | zero => omega
  | succ n ih =>
      simp only [gzipLoop, deflateFinish, store_pending hb pending, Option.bind_some,
        List.length_take]
      obtain ⟨b', hb'⟩ : ∃ b' : Buf, { b with mem := b.mem ++ pending.take k } = b' := ⟨_, rfl⟩
      rw [hb']
      have hcur : b'.curLen = b.curLen := by rw [← hb']
      have hreserved : b'.reservedLen = b.reservedLen := by rw [← hb']
      have hmem : b'.mem = b.mem ++ pending.take k := by rw [← hb']
      have hlen : b'.mem.length = b.mem.length + min k pending.length := by
        rw [hmem, List.length_append, List.length_take]
      rcases Nat.lt_trichotomy pending.length k with hshort | heq | hlong
      · -- there is space left
        have hfits : StreamFits fit b.reservedLen b.curLen (b.mem.length + pending.length) :=
          (streamFits_of_le hlt (by omega)).2 fun _ h => by omega
        rw [if_pos (.inl (by omega)), Option.bind_some, if_pos hfits,
          gzipText_eq (by simp only; omega) (by omega), hmem, List.take_of_length_le (by omega)]
      · -- the stream fills the space
        subst heq
        rw [Nat.min_self] at hlen
        rw [List.take_length] at hmem
        cases fit with
        | true =>
            have hfits : StreamFits true b.reservedLen b.curLen (b.mem.length + pending.length) :=
              (streamFits_of_le hlt (by omega)).2 fun h => by simp at h
            rw [if_pos (.inr (by simp)), Option.bind_some, if_pos hfits,
              gzipText_eq (by simp only; omega) (by omega), hmem]
        | false =>
            obtain ⟨n, rfl⟩ : ∃ i, n = i + 1 := ⟨n - 1, by omega⟩
            have hfits : StreamFits false b.reservedLen b.curLen (b.mem.length + pending.length) ↔
                b'.curLen + 256 < 2 ^ 32 ∨ b'.curLen + 256 - 2 ^ 32 ≤ b'.reservedLen := by
              rw [streamFits_of_le hlt (by omega), hcur, hreserved, hb]
              simp
            rw [if_neg (by simp)]
            simp only [List.drop_length]
            rw [gzipLoop_nil (addr (n + 1)) (by omega) (by omega), hmem]
            simp only [hfits]
      · -- an extension is needed
        have hmin : min k pending.length = k := by omega
        rw [hmin] at hlen ⊢
        have hstep := @streamFits_of_lt fit b.reservedLen b.curLen (b.mem.length + pending.length)
          (by omega)
        rw [if_neg (by simp; omega)]
        simp only [hstep]
        by_cases hover : b.curLen + 256 < 2 ^ 32
        · have hcur' : (b'.expand 256 (addr n)).1.curLen = b.curLen + 256 := by
            rw [Buf.expand_curLen]
            exact uint_eq (by omega) (by omega)
          have hmem' : (b'.expand 256 (addr n)).1.mem = b'.mem := by
            refine Buf.expand_mem ?_
            unfold uint
            omega
          have hnext : (b'.expand 256 (addr n)).1.data + (b'.expand 256 (addr n)).1.curLen - 256 =
              (b'.expand 256 (addr n)).1.data + (b'.expand 256 (addr n)).1.mem.length := by
            rw [hmem']
            omega
          have htext : b'.mem ++ pending.drop k = b.mem ++ pending := by
            rw [hmem, List.append_assoc, List.take_append_drop]
          have htotal : b'.mem.length + (pending.drop k).length =
              b.mem.length + pending.length := by
            rw [← List.length_append, htext, List.length_append]
          have hrest := @ih (b'.expand 256 (addr n)).1 (pending.drop k) 256 (by omega) (by omega)
            (by omega) (by rw [List.length_drop]; omega)
          rw [hnext, hrest]
          simp only [expand_reserved, hcur', hmem', hreserved, htext, htotal, hover, true_and]
        · have hcur' : (b'.expand 256 (addr n)).1.curLen < 256 := by
            rw [Buf.expand_curLen]
            unfold uint
            omega
          rw [gzipLoop_overflow (by simp; omega) rfl hcur' rfl, if_neg fun h => hover h.1]
          rfl

/-- The compressed form of a page is the stream, if and only if the lengths fit. -/
theorem gzipStream_eq {fit : Bool} {addr : Nat → Int} {b : Buf} (hcur : b.curLen = 0)
    (hmem : b.mem = []) {len : Nat} (hlen : len < 2 ^ 32) (stream : List UInt8) :
    gzipStream fit addr b len stream =
      if StreamFits fit b.reservedLen len stream.length then some stream else none := by
  have hcur' : (b.expand len (addr (stream.length + 2))).1.curLen = len := by
    rw [Buf.expand_curLen, hcur]
    exact uint_eq (by omega) (by omega)
  have hmem' : (b.expand len (addr (stream.length + 2))).1.mem = [] := by
    rw [Buf.expand_mem (by rw [hmem]; exact Nat.zero_le _), hmem]
  have hloop := @gzipLoop_eq fit addr (stream.length + 2)
    (b.expand len (addr (stream.length + 2))).1
    stream len (by rw [hcur', hmem']; simp) (by omega) (by omega) (by omega)
  simp only [hmem', hcur', List.length_nil, List.nil_append, Nat.zero_add, expand_reserved,
    Int.ofNat_zero, Int.add_zero] at hloop
  rw [gzipStream, hcur']
  exact hloop

/-! ## What is sent -/

/-- A client reads the header of the format, the stream and the checksum and length of
the page, and is told that many bytes. -/
def GzipSent (crc32 : List UInt8 → Nat) (page stream bytes : List UInt8) : Prop :=
  ∃ n lines ds, readBlock n bytes = some (lines, gzipBody crc32 page stream) ∧
    lines.filter isContentLength = [ascii "Content-Length: " ++ ds] ∧
    (∀ c ∈ ds, isDigit c = true) ∧ digitsValue 0 ds = stream.length + 18

theorem gzipSent_output_iff (crc32 : List UInt8 → Nat) (c : Config) {r : Request}
    {page stream date : List UInt8} (hout : r.outVec = []) (hdate : cr ∉ date) :
    GzipSent crc32 page stream (gzipPageOutput crc32 c r page stream date).outVec.flatten ↔
      stream.length + 18 < 2 ^ 32 := by
  obtain ⟨len, hlen⟩ : ∃ len, uint ((stream.length : Int) + 18) = len := ⟨_, rfl⟩
  have hlt : len < 2 ^ 32 := by
    unfold uint at hlen
    omega
  obtain ⟨⟨n, hread⟩, hfilter⟩ := @readBlock_commonLines c r.keepalive 200 (ascii "text/html")
    (gzipBody crc32 page stream) (encodingLines ++ pageLines date) (by decide +kernel) len
    (otherLine_of_mem_gzipLines hdate)
  have hvalue : digitsValue 0 (int64ToStr (int64 len) 10) = len := by
    have hdigits := digitsValue_xToStr (Int.natCast_nonneg len) (by omega)
    rw [int64ToStr, int64_natCast (by omega)]
    omega
  rw [gzipPageOutput_flatten crc32 page stream date hout, hlen]
  constructor
  · rintro ⟨m, lines, ds, hread', hlines, -, hds⟩
    have hleft := readBlock_mono hread (Nat.le_max_left n m)
    have hright := readBlock_mono hread' (Nat.le_max_right n m)
    obtain ⟨rfl, -⟩ := Prod.mk.inj (Option.some.inj (hleft.symm.trans hright))
    obtain rfl : int64ToStr (int64 len) 10 = ds := by simpa [hfilter] using hlines
    omega
  · intro hfits
    refine ⟨n, _, _, hread, hfilter, ?_, ?_⟩
    · rw [int64_natCast (by omega)]
      exact isDigit_of_mem_xToStr (Int.natCast_nonneg len)
    · unfold uint at hlen
      omega

/-- A page is sent in its compressed form if and only if no length overflows. -/
theorem gzipSent_iff (crc32 : List UInt8 → Nat) (c : Config) (fit : Bool) (addr : Nat → Int)
    {b : Buf} (hcur : b.curLen = 0) (hmem : b.mem = []) {r : Request} (hout : r.outVec = [])
    {page : List UInt8} (hpage : page.length < 2 ^ 32) (stream : List UInt8) {date : List UInt8}
    (hdate : cr ∉ date) :
    (∃ r', gzipPage crc32 c fit addr b r page stream date = some r' ∧
        GzipSent crc32 page stream r'.outVec.flatten) ↔
      stream.length + 18 < 2 ^ 32 ∧ StreamFits fit b.reservedLen page.length stream.length := by
  rw [gzipPage, gzipStream_eq hcur hmem hpage]
  by_cases hfits : StreamFits fit b.reservedLen page.length stream.length
  · rw [if_pos hfits, Option.map_some]
    simp [gzipSent_output_iff crc32 c hout hdate, hfits]
  · simp [hfits]

/-- The page `a`, whose stream is longer than it: the buffer is extended once. -/
theorem gzipSent_letter :
    ∃ r', gzipPage (fun _ => 0xE8B7BE43) defaultConfig false (fun n => n) ⟨0, 0, 0, []⟩ zeroed
        (ascii "a") [0x4B, 0x04, 0x00] (ascii "Thu, 01 Jan 1970 00:00:00 GMT") = some r' ∧
      GzipSent (fun _ => 0xE8B7BE43) (ascii "a") [0x4B, 0x04, 0x00] r'.outVec.flatten :=
  (gzipSent_iff (fun _ => 0xE8B7BE43) defaultConfig false (fun n => n) rfl rfl rfl
    (by decide +kernel) [0x4B, 0x04, 0x00] (by decide +kernel)).2 (by decide +kernel)

/-- A stream of `2 ^ 32 - 18` bytes: the client is told that the body is empty. -/
theorem not_gzipSent_long :
    ¬ ∃ crc32 r', gzipPage crc32 defaultConfig true (fun n => n) ⟨0, 65536, 0, []⟩ zeroed
        (List.replicate (2 ^ 32 - 1) 0) (List.replicate (2 ^ 32 - 18) 0)
        (ascii "Thu, 01 Jan 1970 00:00:00 GMT") = some r' ∧
      GzipSent crc32 (List.replicate (2 ^ 32 - 1) 0) (List.replicate (2 ^ 32 - 18) 0)
        r'.outVec.flatten := by
  rintro ⟨crc32, r', hpage, hsent⟩
  obtain ⟨text, htext, rfl⟩ := Option.map_eq_some_iff.1 hpage
  rw [gzipStream_eq rfl rfl (by rw [List.length_replicate]; decide)] at htext
  split at htext
  · obtain rfl := Option.some.inj htext
    have hlen := (gzipSent_output_iff crc32 defaultConfig rfl (by decide +kernel)).1 hsent
    rw [List.length_replicate] at hlen
    exact absurd hlen (by decide)
  · simp at htext

end OpenTube
