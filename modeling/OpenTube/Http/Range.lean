import OpenTube.Http.File

/-!
# The part of a file a request asks for

`http_send_file` looks at the headers in order. Each `Range` header sets the
offset, and with a number behind the hyphen also the end; an end that is not
given stays the one the headers before it have left. Both numbers go through
`atoi`, that is through a 32-bit `int`.

`selectLoop` is this loop on the numbers alone, and `rangeLoop_lineHeaders` says
that the loop on the headers in the buffer does the same, although it overwrites
the hyphens. `sliceValid_iff` and `selects_iff` say when the part lies in the file
and when it is the one that was asked for.
-/

namespace OpenTube

/-! ## The numbers of the headers -/

/-- A `Range` header as `http_send_file` reads it. -/
structure ByteRange where
  first : Int
  last : Option Int
deriving DecidableEq, Repr

/-- A header `http_send_file` looks at. -/
inductive FileHeader
  | notModified
  | range (b : ByteRange)
deriving DecidableEq, Repr

/-- The numbers of the value of a `Range` header. -/
def readByteRange (value : List UInt8) : ByteRange :=
  match rangeParts value with
  | (first, none) => ⟨atoi first, none⟩
  | (first, some rest) =>
      ⟨atoi first, if rest.head? = none ∨ rest.head? = some nul then none else some (atoi rest)⟩

/-- What a header line is to `http_send_file`. -/
def Line.fileHeader (lastModified : List UInt8) (l : Line) : Option FileHeader :=
  if l.key = ascii "if-modified-since" ∧ l.value.length = 29 ∧ l.value = lastModified then
    some .notModified
  else if l.key = ascii "range" ∧ 6 < l.value.length ∧ l.value.take 6 = ascii "bytes=" then
    some (.range (readByteRange l.value))
  else none

/-- The end of the part: the number behind the hyphen is the last byte. -/
def ByteRange.limit (size stop : Int) (b : ByteRange) : Int :=
  match b.last with
  | none => stop
  | some t => min size (max 0 t + 1)

/-- The end a `Range` header leaves: a part that would end before it begins gets
one byte. -/
def ByteRange.stop (size stop : Int) (b : ByteRange) : Int :=
  if b.limit size stop < b.first then b.first + 1 else b.limit size stop

/-- The offset, the end and the status code. -/
structure Selection where
  offset : Int
  last : Int
  code : Nat
deriving DecidableEq, Repr

/-- The loop over the headers, on their numbers. -/
def selectLoop (size : Int) : List FileHeader → Selection → Selection
  | [], s => s
  | .notModified :: _, s => { s with code := 304 }
  | .range b :: hs, s =>
      if size ≤ b.first then ⟨b.first, b.limit size s.last, 416⟩
      else selectLoop size hs ⟨b.first, b.stop size s.last, 206⟩

/-! ## The headers in the buffer -/

/-- A byte that is overwritten leaves what lies behind it in its place. -/
theorem Buf.write_byte_prefix {b : Buf} {pre s : List UInt8} (hmem : pre ++ s <+: b.mem) {a : Int}
    {o : Nat} (ha : a = b.data + o) (ho : o < pre.length) (c : UInt8) :
    ∃ pre', pre'.length = pre.length ∧ pre' ++ s <+: (b.write a [c]).mem := by
  obtain ⟨t, ht⟩ := hmem
  have hsplit : b.mem = pre.take o ++ (pre.drop o ++ (s ++ t)) := by
    rw [← List.append_assoc, List.take_append_drop, ← ht, List.append_assoc]
  have hplace : a = b.data + ((pre.take o).length : Nat) := by
    rw [List.length_take_of_le (by omega), ha]
  refine ⟨pre.take o ++ c :: pre.drop (o + 1), ?_, t, ?_⟩
  · simp only [List.length_append, List.length_take, List.length_cons, List.length_drop]
    omega
  · have hdrop : (pre.drop o ++ (s ++ t)).drop 1 = pre.drop (o + 1) ++ (s ++ t) := by
      rw [List.drop_append_of_le_length (by rw [List.length_drop]; omega), List.drop_drop]
    rw [Buf.write_at hsplit hplace]
    simp [hdrop]

/-- What the loop over the headers of a request arrives at. -/
def Request.selection (s : Request × Nat) : Selection :=
  ⟨s.1.temp.sendfileOffset, s.1.temp.sendfileLast, s.2⟩

/-- A header of the buffer is read back. -/
theorem Buf.derefHeader_line {b : Buf} {pre : List UInt8} {l : Line} {ls : List Line} {a : Int}
    (hmem : pre ++ (l :: ls).flatMap Line.written <+: b.mem)
    (ha : a = b.data + (pre.length : Nat)) :
    b.derefHeader ⟨⟨l.key.length, a⟩, ⟨l.value.length, a + (l.key.length + 1 + l.spaces : Nat)⟩⟩ =
      some (l.key, l.value) := by
  have hfirst : pre ++ [l].flatMap Line.written <+: b.mem := by
    refine List.IsPrefix.trans ?_ hmem
    simp
  have hread := b.derefHeaders_lineHeaders [l] pre a hfirst ha
  simp only [lineHeaders, Buf.derefHeaders, List.map_cons, List.map_nil] at hread
  obtain ⟨kv, hkv, hrest⟩ := Option.bind_eq_some_iff.1 hread
  obtain ⟨rest, -, hcons⟩ := Option.map_eq_some_iff.1 hrest
  rw [hkv, (List.cons_eq_cons.1 hcons).1]

/-- The part a `Range` header selects. -/
theorem selectRange_temp (st : FileStat) (r : Request) (h : Header) (value : List UInt8) :
    (selectRange st r h value).temp.sendfileOffset = (readByteRange value).first ∧
      (selectRange st r h value).temp.sendfileLast =
        (readByteRange value).limit st.size r.temp.sendfileLast := by
  obtain ⟨first, rest⟩ | ⟨first, rest⟩ : (∃ first, rangeParts value = (first, none)) ∨
      ∃ first rest, rangeParts value = (first, some rest) := by
    rcases hparts : rangeParts value with ⟨first, _ | rest⟩
    · exact .inl ⟨first, rfl⟩
    · exact .inr ⟨first, rest, rfl⟩
  · simp [selectRange, readByteRange, rest, ByteRange.limit]
  · obtain ⟨rest, hparts⟩ := rest
    simp only [selectRange, readByteRange, hparts, ByteRange.limit, true_and]
    split <;> rfl

/-- The hyphen that is found lies in the value. -/
theorem rangeParts_some {value first rest : List UInt8}
    (h : rangeParts value = (first, some rest)) :
    6 + first.length < value.length := by
  simp only [rangeParts, Prod.mk.injEq] at h
  obtain ⟨rfl, hrest⟩ := h
  have hmem : hyphen ∈ value.drop 6 := by
    by_contra hnot
    simp [hnot] at hrest
  obtain ⟨u, v, huv, hu⟩ := List.eq_append_cons_of_mem hmem
  have htake : (value.drop 6).takeWhile (fun c => c != hyphen) = u := by
    rw [huv]
    refine List.takeWhile_append_of_pos (fun c hc => ?_) |>.trans (by simp)
    have hne : c ≠ hyphen := fun heq => hu (heq ▸ hc)
    simpa using hne
  have hlen := congrArg List.length huv
  rw [htake]
  simp only [List.length_drop, List.length_append, List.length_cons] at hlen
  omega

/-- A `Range` header writes inside its own value. -/
theorem selectRange_mem (st : FileStat) {r : Request} {pre : List UInt8} {l : Line} {ls : List Line}
    {a : Int} (hmem : pre ++ (l :: ls).flatMap Line.written <+: r.b.mem)
    (ha : a = r.b.data + (pre.length : Nat)) :
    (selectRange st r ⟨⟨l.key.length, a⟩,
        ⟨l.value.length, a + (l.key.length + 1 + l.spaces : Nat)⟩⟩ l.value).b.data = r.b.data ∧
      ∃ pre', pre'.length = (pre ++ l.written).length ∧
        pre' ++ ls.flatMap Line.written <+: (selectRange st r ⟨⟨l.key.length, a⟩,
          ⟨l.value.length, a + (l.key.length + 1 + l.spaces : Nat)⟩⟩ l.value).b.mem := by
  have hmem' : (pre ++ l.written) ++ ls.flatMap Line.written <+: r.b.mem := by
    simpa using hmem
  unfold selectRange
  split
  · exact ⟨rfl, _, rfl, hmem'⟩
  · rename_i first rest hparts
    refine ⟨by simp, ?_⟩
    have hfirst := rangeParts_some hparts
    refine Buf.write_byte_prefix hmem'
      (o := pre.length + (l.key.length + 1 + l.spaces) + (6 + first.length)) ?_ ?_ nul
    · simp only [ha]
      omega
    · simp only [List.length_append, Line.written, List.length_cons, List.length_replicate,
        List.length_nil]
      omega

/-- The loop over the headers in the buffer is the loop over their numbers. -/
theorem rangeLoop_lineHeaders (st : FileStat) :
    ∀ (ls : List Line) (pre : List UInt8) (a : Int) (r : Request) (code : Nat),
      pre ++ ls.flatMap Line.written <+: r.b.mem → a = r.b.data + (pre.length : Nat) →
      Request.selection (rangeLoop st (lineHeaders a ls) r code) =
        selectLoop st.size (ls.filterMap (Line.fileHeader st.lastModified))
          (Request.selection (r, code))
  | [], _, _, _, _, _, _ => rfl
  | l :: ls, pre, a, r, code, hmem, ha => by
      have hread := Buf.derefHeader_line hmem ha
      have hskip : (pre ++ l.written) ++ ls.flatMap Line.written <+: r.b.mem := by simpa using hmem
      have hnext : ∀ k : Nat, k = (pre ++ l.written).length →
          a + (l.written.length : Nat) = r.b.data + (k : Nat) := by
        rintro k rfl
        rw [ha, List.length_append]
        omega
      rw [lineHeaders, rangeLoop, hread]
      simp only [List.filterMap_cons, Line.fileHeader]
      by_cases hmod : l.key = ascii "if-modified-since" ∧ l.value.length = 29 ∧
          l.value = st.lastModified
      · rw [if_pos hmod, if_pos hmod]
        rfl
      · by_cases hrange : l.key = ascii "range" ∧ 6 < l.value.length ∧
            l.value.take 6 = ascii "bytes="
        · rw [if_neg hmod, if_pos hrange, if_neg hmod, if_pos hrange]
          obtain ⟨hoffset, hlast⟩ := selectRange_temp st r ⟨⟨l.key.length, a⟩,
            ⟨l.value.length, a + (l.key.length + 1 + l.spaces : Nat)⟩⟩ l.value
          obtain ⟨hdata, pre', hlen, hpre'⟩ := selectRange_mem st hmem ha
          generalize selectRange st r _ l.value = r' at hoffset hlast hdata hpre' ⊢
          have hplace := hnext pre'.length hlen
          rw [← hdata] at hplace
          simp only [selectLoop]
          by_cases hout : st.size ≤ (readByteRange l.value).first
          · rw [if_pos (hoffset ▸ hout), if_pos hout]
            simp only [Request.selection, hoffset, hlast]
          · rw [if_neg (hoffset ▸ hout), if_neg hout]
            by_cases hback : r'.temp.sendfileLast < r'.temp.sendfileOffset
            · rw [if_pos hback]
              refine (rangeLoop_lineHeaders st ls pre' _ { r' with temp := { r'.temp with
                sendfileLast := r'.temp.sendfileOffset + 1 } } 206 hpre' hplace).trans ?_
              rw [hoffset, hlast] at hback
              have hstop : (readByteRange l.value).stop st.size r.temp.sendfileLast =
                  (readByteRange l.value).first + 1 := by rw [ByteRange.stop, if_pos hback]
              simp only [Request.selection, hoffset, hstop]
            · rw [if_neg hback]
              refine (rangeLoop_lineHeaders st ls pre' _ r' 206 hpre' hplace).trans ?_
              rw [hoffset, hlast] at hback
              have hstop : (readByteRange l.value).stop st.size r.temp.sendfileLast =
                  (readByteRange l.value).limit st.size r.temp.sendfileLast := by
                rw [ByteRange.stop, if_neg hback]
              simp only [Request.selection, hoffset, hlast, hstop]
        · rw [if_neg hmod, if_neg hrange, if_neg hmod, if_neg hrange]
          exact rangeLoop_lineHeaders st ls (pre ++ l.written) _ r code hskip (hnext _ rfl)

/-- The part that is selected depends on the numbers of the headers alone. -/
theorem ParsedIn.selection_selectPart {r : Request} {q : ParsedRequest} (h : ParsedIn r q)
    (st : FileStat) :
    Request.selection (selectPart st r) =
      selectLoop st.size (q.lines.filterMap (Line.fileHeader st.lastModified))
        ⟨0, st.size, 200⟩ := by
  unfold selectPart
  simp only [httpSetMimeType]
  obtain ⟨pre, hpre, haddr⟩ := h.lines_at
  rw [h.p]
  exact rangeLoop_lineHeaders st q.lines pre _ _ 200 hpre haddr

/-! ## The part lies in the file -/

/-- The end that a list of `Range` headers leaves for the headers behind it. -/
def endLeft (size : Int) (rs : List ByteRange) : Int := rs.foldl (fun e b => b.stop size e) size

theorem ByteRange.limit_le {size stop : Int} (h : stop ≤ size) (b : ByteRange) :
    b.limit size stop ≤ size := by
  unfold ByteRange.limit
  split <;> omega

theorem ByteRange.stop_le {size stop : Int} (h : stop ≤ size) {b : ByteRange}
    (hb : b.first < size) : b.stop size stop ≤ size := by
  have hlimit := b.limit_le h
  unfold ByteRange.stop
  split <;> omega

/-- The part ends behind its first byte unless its end is exactly there. -/
theorem ByteRange.first_lt_stop_iff (size stop : Int) (b : ByteRange) :
    b.first < b.stop size stop ↔ b.first ≠ b.limit size stop := by
  unfold ByteRange.stop
  split <;> omega

theorem foldl_stop_le {size : Int} {rs : List ByteRange} (hrs : ∀ b ∈ rs, b.first < size) {e : Int}
    (he : e ≤ size) : rs.foldl (fun e b => b.stop size e) e ≤ size := by
  induction rs generalizing e with
  | nil => exact he
  | cons b rs ih =>
      exact ih (fun x hx => hrs x (List.mem_cons_of_mem b hx))
        (ByteRange.stop_le he (hrs b List.mem_cons_self))

/-- Ranges that begin in the file: the last one decides. -/
theorem selectLoop_ranges {size : Int} {rs : List ByteRange} {b : ByteRange}
    (h : ∀ x ∈ rs ++ [b], x.first < size) (s : Selection) :
    selectLoop size ((rs ++ [b]).map .range) s =
      ⟨b.first, b.stop size (rs.foldl (fun e b => b.stop size e) s.last), 206⟩ := by
  induction rs generalizing s with
  | nil =>
      have hb : ¬ size ≤ b.first := by
        have hlt := h b (by simp)
        omega
      simp [selectLoop, hb]
  | cons x rs ih =>
      have hx : ¬ size ≤ x.first := by
        have hlt := h x (by simp)
        omega
      rw [List.cons_append, List.map_cons, selectLoop, if_neg hx,
        ih fun y hy => h y (List.mem_cons_of_mem x hy)]
      rfl

/-- Only ranges that begin in the file lead to a `206`. -/
theorem ranges_of_selectLoop {size : Int} :
    ∀ {hs : List FileHeader} {s : Selection}, (selectLoop size hs s).code = 206 →
      ∃ rs : List ByteRange, hs = rs.map .range ∧ ∀ b ∈ rs, b.first < size
  | [], _, _ => ⟨[], rfl, by simp⟩
  | .notModified :: _, _, h => by simp [selectLoop] at h
  | .range b :: hs, s, h => by
      by_cases hb : size ≤ b.first
      · simp [selectLoop, hb] at h
      · rw [selectLoop, if_neg hb] at h
        obtain ⟨rs, rfl, hrs⟩ := ranges_of_selectLoop h
        refine ⟨b :: rs, rfl, ?_⟩
        intro x hx
        rcases List.mem_cons.1 hx with rfl | hx
        · omega
        · exact hrs x hx

theorem fileHeaders_contentLength (c : Config) (r : Request) (code : Nat) (st : FileStat)
    (env : FileEnv) : (fileHeaders c r code st env).headersOut.contentLength =
      uint64 (r.temp.sendfileLast - r.temp.sendfileOffset) := by
  unfold fileHeaders
  split <;> simp [httpAppendToOutputBuf, httpAppendHeaders]

/-- A part that is sent with `206` lies in the file and has at least one byte, and
so does the length that is announced. -/
def SliceValid (c : Config) (st : FileStat) (r : Request) (env : FileEnv) : Prop :=
  (selectPart st r).2 = 206 →
    0 ≤ (selectPart st r).1.temp.sendfileOffset ∧
      (selectPart st r).1.temp.sendfileOffset < (selectPart st r).1.temp.sendfileLast ∧
      (selectPart st r).1.temp.sendfileLast ≤ st.size ∧
      1 ≤ (fileHeaders c (selectPart st r).1 206 st env).headersOut.contentLength ∧
      (fileHeaders c (selectPart st r).1 206 st env).headersOut.contentLength ≤ st.size.toNat

/-- For every list of headers the part lies in the file if and only if, when all
of its `Range` headers begin in the file and none of them is overruled by
`If-Modified-Since`, the last one does not begin with a number that `atoi` makes
negative, nor exactly at the end that is in force. -/
theorem sliceValid_iff (c : Config) {st : FileStat} {r : Request} {q : ParsedRequest}
    (h : ParsedIn r q) (hsize : 0 ≤ st.size ∧ st.size < 2 ^ 63) (env : FileEnv) :
    SliceValid c st r env ↔
      ∀ rs b, q.lines.filterMap (Line.fileHeader st.lastModified) = (rs ++ [b]).map .range →
        (∀ x ∈ rs ++ [b], x.first < st.size) →
        0 ≤ b.first ∧ b.first ≠ b.limit st.size (endLeft st.size rs) := by
  have hselect := h.selection_selectPart st
  rw [SliceValid, fileHeaders_contentLength]
  simp only [Request.selection] at hselect
  constructor
  · intro hvalid rs b hlines hin
    rw [hlines, selectLoop_ranges hin] at hselect
    obtain ⟨hoffset, hlast, hcode⟩ := Selection.mk.inj hselect
    obtain ⟨hpos, hlt, -⟩ := hvalid hcode
    rw [hoffset] at hpos hlt
    rw [hlast] at hlt
    exact ⟨hpos, (b.first_lt_stop_iff _ _).1 hlt⟩
  · intro hcond hcode
    have h206 := congrArg Selection.code hselect
    simp only [hcode] at h206
    obtain ⟨rs, hrs, hin⟩ := ranges_of_selectLoop h206.symm
    rcases List.eq_nil_or_concat rs with rfl | ⟨rs, b, rfl⟩
    · rw [hrs] at h206
      simp [selectLoop] at h206
    · rw [List.concat_eq_append] at hrs hin
      obtain ⟨hpos, hne⟩ := hcond rs b hrs hin
      rw [hrs, selectLoop_ranges hin] at hselect
      obtain ⟨hoffset, hlast, -⟩ := Selection.mk.inj hselect
      have hlt := (b.first_lt_stop_iff st.size (endLeft st.size rs)).2 hne
      have hle : b.stop st.size (endLeft st.size rs) ≤ st.size :=
        ByteRange.stop_le (foldl_stop_le (fun x hx => hin x (by simp [hx])) (Int.le_refl _))
          (hin b (by simp))
      rw [hoffset, hlast]
      refine ⟨hpos, hlt, hle, ?_⟩
      change 1 ≤ uint64 (b.stop st.size (endLeft st.size rs) - b.first) ∧
        uint64 (b.stop st.size (endLeft st.size rs) - b.first) ≤ st.size.toNat
      unfold uint64
      omega

/-- A request with one header line. -/
def requestWith (key value : List UInt8) : ParsedRequest :=
  ⟨.get, ascii "/", ascii "1.1", lf, [⟨key, 1, value⟩], [1, lf]⟩

/-- A file of ten bytes. -/
def tenBytes : FileStat := ⟨true, 10, ascii "Sun, 06 Nov 1994 08:49:37 GMT"⟩

/-- What the kernel answers for a file that is sent at once. -/
def sentAtOnce : FileEnv := ⟨.ok 7, some tenBytes, [], [], .count 0, .count 0⟩

/-- The second and the third byte. -/
theorem sliceValid_secondByte :
    SliceValid defaultConfig tenBytes
      (zeroed.storeParsed (requestWith (ascii "range") (ascii "bytes=1-2")) false) sentAtOnce := by
  refine (sliceValid_iff defaultConfig (parsedIn_storeParsed _ _ _) (by decide) sentAtOnce).2 ?_
  intro rs b hlines _
  have hone : [FileHeader.range ⟨1, some 2⟩] = (rs ++ [b]).map .range := by
    rw [← hlines]
    decide +kernel
  cases rs with
  | nil =>
      obtain rfl : ⟨1, some 2⟩ = b := by simpa using hone
      decide +kernel
  | cons x rs => simp at hone

/-- A range whose end lies right before its beginning is answered with `206` and
no byte. -/
theorem not_sliceValid_backwards :
    ¬ SliceValid defaultConfig tenBytes
      (zeroed.storeParsed (requestWith (ascii "range") (ascii "bytes=5-4")) false) sentAtOnce := by
  intro h
  have hlt := (h (by decide +kernel)).2.1
  revert hlt
  decide +kernel

/-! ## The part is the one that was asked for -/

/-- A decimal number of any length, leading zeros included. -/
structure Decimal where
  digits : List UInt8
  ne_nil : digits ≠ []
  isDigit : ∀ c ∈ digits, isDigit c = true

/-- The number. -/
def Decimal.value (d : Decimal) : Nat := digitsValue 0 d.digits

/-- The three forms of a byte range. -/
inductive RangeSpec
  | fromTo (a b : Decimal)
  | onward (a : Decimal)
  | suffix (n : Decimal)

/-- The text behind `bytes=`. -/
def RangeSpec.text : RangeSpec → List UInt8
  | fromTo a b => a.digits ++ hyphen :: b.digits
  | onward a => a.digits ++ [hyphen]
  | suffix n => hyphen :: n.digits

/-- The range does not end before it begins, and a suffix has a byte. -/
def RangeSpec.WellFormed : RangeSpec → Prop
  | fromTo a b => a.value ≤ b.value
  | onward _ => True
  | suffix n => 0 < n.value

instance : ∀ x : RangeSpec, Decidable x.WellFormed
  | .fromTo a b => inferInstanceAs (Decidable (a.value ≤ b.value))
  | .onward _ => inferInstanceAs (Decidable True)
  | .suffix n => inferInstanceAs (Decidable (0 < n.value))

/-- The first and the last byte that are asked for, of a file of `s` bytes. -/
def RangeSpec.wanted (s : Nat) : RangeSpec → Option (Nat × Nat)
  | fromTo a b => if a.value < s then some (a.value, min b.value (s - 1)) else none
  | onward a => if a.value < s then some (a.value, s - 1) else none
  | suffix n => some (s - min n.value s, s - 1)

/-- The line that announces the bytes from `x` to `y`. -/
def contentRange (x y s : Nat) : List UInt8 :=
  ascii "Content-Range: bytes " ++ (xToStr x 10 ++ (ascii "-" ++ (xToStr y 10 ++ (ascii "/" ++
    (xToStr s 10 ++ crlf)))))

/-- The answer selects exactly the bytes that are asked for and announces them, or
is `416` if there are none. -/
def Selects (c : Config) (st : FileStat) (r : Request) (env : FileEnv) :
    Option (Nat × Nat) → Prop
  | none => (selectPart st r).2 = 416
  | some (x, y) =>
      (selectPart st r).2 = 206 ∧
        (selectPart st r).1.temp.sendfileOffset = x ∧
        (selectPart st r).1.temp.sendfileLast = y + 1 ∧
        (fileHeaders c (selectPart st r).1 206 st env).headersOut.contentLength = y + 1 - x ∧
        contentRange x y st.size.toNat ∈ (fileHeaders c (selectPart st r).1 206 st env).outVec

/-- The numbers of the header survive the 32-bit `int` as far as the file needs
them, and a suffix covers the whole file. -/
def RangeSpec.Fits (s : Nat) : RangeSpec → Prop
  | fromTo a b =>
      if a.value < s then
        a.value < 2 ^ 31 ∧ (b.value < 2 ^ 31 ∨ (s : Int) ≤ max 0 (intOfLong b.value) + 1 ∨
          s = a.value + 1 ∧ max 0 (intOfLong b.value) + 1 < a.value)
      else (s : Int) ≤ intOfLong a.value
  | onward a => if a.value < s then a.value < 2 ^ 31 else (s : Int) ≤ intOfLong a.value
  | suffix n => s ≤ n.value ∧ (s : Int) ≤ max 0 (intOfLong n.value) + 1

theorem hyphen_not_mem_digits {ds : List UInt8} (h : ∀ c ∈ ds, isDigit c = true) : hyphen ∉ ds :=
  fun hmem => absurd (h hyphen hmem) (by decide)

/-- The value is cut at its first hyphen. -/
theorem rangeParts_text {a : List UInt8} (ha : hyphen ∉ a) (b : List UInt8) :
    rangeParts (ascii "bytes=" ++ (a ++ hyphen :: b)) = (a, some b) := by
  have hdrop : (ascii "bytes=" ++ (a ++ hyphen :: b)).drop 6 = a ++ hyphen :: b := rfl
  have htake : (a ++ hyphen :: b).takeWhile (fun c => c != hyphen) = a := by
    refine List.takeWhile_append_of_pos (fun c hc => ?_) |>.trans (by simp)
    have hne : c ≠ hyphen := fun heq => ha (heq ▸ hc)
    simpa using hne
  have hrest : (a ++ hyphen :: b).drop (a.length + 1) = b := by
    rw [List.drop_append]
    simp
  simp [rangeParts, hdrop, htake, hrest]

/-- The number behind the hyphen. -/
theorem readByteRange_text {a : List UInt8} (ha : ∀ c ∈ a, isDigit c = true) (d : Decimal) :
    readByteRange (ascii "bytes=" ++ (a ++ hyphen :: d.digits)) =
      ⟨intOfLong (digitsValue 0 a), some (intOfLong d.value)⟩ := by
  obtain ⟨c, t, ht⟩ := List.exists_cons_of_ne_nil d.ne_nil
  have hnul : c ≠ nul := by
    rintro rfl
    exact absurd (d.isDigit nul (by simp [ht])) (by decide)
  have hhead : ¬ (d.digits.head? = none ∨ d.digits.head? = some nul) := by simp [ht, hnul]
  rw [readByteRange, rangeParts_text (hyphen_not_mem_digits ha)]
  simp only [hhead, if_false, atoi_digits ha, atoi_digits d.isDigit]
  rfl

/-- The numbers `http_send_file` reads from a well-formed header. -/
def RangeSpec.read : RangeSpec → ByteRange
  | fromTo a b => ⟨intOfLong a.value, some (intOfLong b.value)⟩
  | onward a => ⟨intOfLong a.value, none⟩
  | suffix n => ⟨0, some (intOfLong n.value)⟩

theorem RangeSpec.readByteRange_eq (x : RangeSpec) :
    readByteRange (ascii "bytes=" ++ x.text) = x.read := by
  cases x with
  | fromTo a b => exact readByteRange_text a.isDigit b
  | onward a =>
      rw [RangeSpec.text, readByteRange, rangeParts_text (hyphen_not_mem_digits a.isDigit)]
      simp only [List.head?_nil, true_or, if_true, atoi_digits a.isDigit]
      rfl
  | suffix n => exact readByteRange_text (a := []) (by simp) n

/-- The part of a file of `s` bytes that one header selects, compared with the one
it asks for. -/
def Selection.Matches (t : Selection) : Option (Nat × Nat) → Prop
  | none => t.code = 416
  | some (x, y) => t.code = 206 ∧ t.offset = x ∧ t.last = y + 1

/-- The `Content-Range` line of a `206`. -/
theorem contentRange_mem_fileHeaders (c : Config) (r : Request) (st : FileStat) (env : FileEnv) :
    contentRange (uint64 r.temp.sendfileOffset) (uint64 (r.temp.sendfileLast - 1))
      (uint64 st.size) ∈
      (fileHeaders c r 206 st env).outVec := by
  simp [fileHeaders, httpAppendToOutputBuf, httpAppendHeaders, contentRange]

/-- What is announced follows from what is selected. -/
theorem selects_iff_matches (c : Config) {st : FileStat} {r : Request} (env : FileEnv)
    {w : Option (Nat × Nat)} (hsize : 0 ≤ st.size ∧ st.size < 2 ^ 63)
    (hw : ∀ x y, w = some (x, y) → x ≤ y ∧ (y : Int) < st.size) :
    Selects c st r env w ↔ (Request.selection (selectPart st r)).Matches w := by
  rcases w with _ | ⟨x, y⟩
  · rfl
  · obtain ⟨hxy, hy⟩ := hw x y rfl
    rw [Selects, fileHeaders_contentLength]
    constructor
    · rintro ⟨hcode, hoffset, hlast, -⟩
      exact ⟨hcode, hoffset, hlast⟩
    · rintro ⟨hcode, hoffset, hlast⟩
      simp only [Request.selection] at hcode hoffset hlast
      have hline := contentRange_mem_fileHeaders c (selectPart st r).1 st env
      have hfirst : uint64 (x : Int) = x := by
        unfold uint64
        omega
      have hfinal : uint64 ((y : Int) + 1 - 1) = y := by
        unfold uint64
        omega
      have hwhole : uint64 st.size = st.size.toNat := by
        unfold uint64
        omega
      rw [hoffset, hlast, hfirst, hfinal, hwhole] at hline
      refine ⟨hcode, hoffset, hlast, ?_, hline⟩
      rw [hoffset, hlast]
      unfold uint64
      omega

theorem RangeSpec.wanted_lt {s : Nat} (hs : 0 < s) {x : RangeSpec} (hx : x.WellFormed) {i j : Nat}
    (h : x.wanted s = some (i, j)) : i ≤ j ∧ j < s := by
  cases x with
  | fromTo a b =>
      simp only [RangeSpec.WellFormed] at hx
      simp only [RangeSpec.wanted, Option.ite_none_right_eq_some, Option.some.injEq,
        Prod.mk.injEq] at h
      omega
  | onward a =>
      simp only [RangeSpec.wanted, Option.ite_none_right_eq_some, Option.some.injEq,
        Prod.mk.injEq] at h
      omega
  | suffix n =>
      simp only [RangeSpec.WellFormed] at hx
      simp only [RangeSpec.wanted, Option.some.injEq, Prod.mk.injEq] at h
      omega

/-! One header, on its numbers. -/

theorem intOfLong_natCast (n : Nat) :
    n < 2 ^ 31 ∧ intOfLong n = n ∨ 2 ^ 31 ≤ n ∧ intOfLong n < 2 ^ 31 := by
  unfold intOfLong int32
  omega

theorem matches_none_iff (size : Int) (b : ByteRange) (t : Selection) :
    (selectLoop size [.range b] t).Matches none ↔ size ≤ b.first := by
  by_cases h : size ≤ b.first
  · simp [selectLoop, h, Selection.Matches]
  · simp [selectLoop, h, Selection.Matches]

theorem matches_some_iff (size : Int) (b : ByteRange) (t : Selection) (x y : Nat) :
    (selectLoop size [.range b] t).Matches (some (x, y)) ↔
      b.first < size ∧ b.first = x ∧ b.stop size t.last = y + 1 := by
  by_cases h : size ≤ b.first
  · have hnot : ¬ b.first < size := by omega
    simp [selectLoop, h, Selection.Matches, hnot]
  · have hlt : b.first < size := by omega
    simp [selectLoop, h, Selection.Matches, hlt]

theorem matches_fromTo_iff {s m n : Nat} (hmn : m ≤ n) :
    (selectLoop s [.range ⟨intOfLong m, some (intOfLong n)⟩] ⟨0, s, 200⟩).Matches
        (if m < s then some (m, min n (s - 1)) else none) ↔
      if m < s then m < 2 ^ 31 ∧ (n < 2 ^ 31 ∨ (s : Int) ≤ max 0 (intOfLong n) + 1 ∨
        s = m + 1 ∧ max 0 (intOfLong n) + 1 < m)
      else (s : Int) ≤ intOfLong m := by
  by_cases hm : m < s
  · rw [if_pos hm, if_pos hm, matches_some_iff]
    simp only [ByteRange.stop, ByteRange.limit]
    have hfirst := intOfLong_natCast m
    have hlast := intOfLong_natCast n
    generalize intOfLong (m : Int) = x at *
    generalize intOfLong (n : Int) = y at *
    split_ifs <;> omega
  · rw [if_neg hm, if_neg hm, matches_none_iff]

theorem matches_onward_iff (s m : Nat) :
    (selectLoop s [.range ⟨intOfLong m, none⟩] ⟨0, s, 200⟩).Matches
        (if m < s then some (m, s - 1) else none) ↔
      if m < s then m < 2 ^ 31 else (s : Int) ≤ intOfLong m := by
  by_cases hm : m < s
  · rw [if_pos hm, if_pos hm, matches_some_iff]
    simp only [ByteRange.stop, ByteRange.limit]
    have hfirst := intOfLong_natCast m
    generalize intOfLong (m : Int) = x at *
    split_ifs <;> omega
  · rw [if_neg hm, if_neg hm, matches_none_iff]

theorem matches_suffix_iff {s n : Nat} (hs : 0 < s) :
    (selectLoop s [.range ⟨0, some (intOfLong n)⟩] ⟨0, s, 200⟩).Matches (some (s - min n s, s - 1)) ↔
      s ≤ n ∧ (s : Int) ≤ max 0 (intOfLong n) + 1 := by
  rw [matches_some_iff]
  simp only [ByteRange.stop, ByteRange.limit]
  generalize intOfLong (n : Int) = y
  split_ifs <;> omega

theorem RangeSpec.matches_iff {s : Nat} (hs : 0 < s) {x : RangeSpec} (hx : x.WellFormed) :
    (selectLoop s [.range x.read] ⟨0, s, 200⟩).Matches (x.wanted s) ↔ x.Fits s := by
  cases x with
  | fromTo a b => exact matches_fromTo_iff hx
  | onward a => exact matches_onward_iff s a.value
  | suffix n => exact matches_suffix_iff hs

theorem RangeSpec.text_ne_nil (x : RangeSpec) : x.text ≠ [] := by
  cases x <;> simp [RangeSpec.text]

/-- A single `Range` header among headers that do not concern the part. -/
structure SingleRange (q : ParsedRequest) (lastModified : List UInt8) (x : RangeSpec) : Prop where
  lines : ∃ pre l post, q.lines = pre ++ l :: post ∧ l.key = ascii "range" ∧
    l.value = ascii "bytes=" ++ x.text ∧
    ∀ y ∈ pre ++ post, y.key ≠ ascii "range" ∧
      ¬ (y.key = ascii "if-modified-since" ∧ y.value = lastModified)

theorem SingleRange.filterMap {q : ParsedRequest} {lastModified : List UInt8} {x : RangeSpec}
    (h : SingleRange q lastModified x) :
    q.lines.filterMap (Line.fileHeader lastModified) = [.range x.read] := by
  obtain ⟨pre, l, post, hlines, hkey, hvalue, hothers⟩ := h.lines
  have hnone : ∀ y ∈ pre ++ post, Line.fileHeader lastModified y = none := by
    intro y hy
    obtain ⟨hrange, hmod⟩ := hothers y hy
    rw [Line.fileHeader, if_neg fun h => hmod ⟨h.1, h.2.2⟩, if_neg fun h => hrange h.1]
  have hl : Line.fileHeader lastModified l = some (.range x.read) := by
    have hmod : ¬ (l.key = ascii "if-modified-since" ∧ l.value.length = 29 ∧
        l.value = lastModified) := by
      rintro ⟨hkey', -⟩
      exact absurd (hkey.symm.trans hkey') (by decide)
    have hrange : l.key = ascii "range" ∧ 6 < l.value.length ∧
        l.value.take 6 = ascii "bytes=" := by
      have hpos := List.length_pos_iff.2 x.text_ne_nil
      refine ⟨hkey, ?_, ?_⟩
      · rw [hvalue, List.length_append, show (ascii "bytes=").length = 6 from rfl]
        omega
      · rw [hvalue]
        exact List.take_left' rfl
    rw [Line.fileHeader, if_neg hmod, if_pos hrange, hvalue, x.readByteRange_eq]
  have hpre : pre.filterMap (Line.fileHeader lastModified) = [] :=
    List.filterMap_eq_nil_iff.2 fun y hy => hnone y (by simp [hy])
  have hpost : post.filterMap (Line.fileHeader lastModified) = [] :=
    List.filterMap_eq_nil_iff.2 fun y hy => hnone y (by simp [hy])
  rw [hlines, List.filterMap_append, List.filterMap_cons, hl, hpre, hpost]
  rfl

/-- A single well-formed `Range` header selects exactly the bytes it asks for, in
a file of any size, if and only if its numbers survive the 32-bit `int` as far as
the file needs them and a suffix covers the whole file. -/
theorem selects_iff (c : Config) {st : FileStat} {r : Request} {q : ParsedRequest}
    (h : ParsedIn r q) {x : RangeSpec} (hx : x.WellFormed)
    (hq : SingleRange q st.lastModified x) {s : Nat} (hsize : st.size = s) (hpos : 0 < s)
    (hmax : s < 2 ^ 63) (env : FileEnv) :
    Selects c st r env (x.wanted s) ↔ x.Fits s := by
  have hwanted : ∀ i j, x.wanted s = some (i, j) → i ≤ j ∧ (j : Int) < st.size := by
    intro i j hij
    obtain ⟨hle, hlt⟩ := RangeSpec.wanted_lt hpos hx hij
    rw [hsize]
    exact ⟨hle, by omega⟩
  rw [selects_iff_matches c env (by rw [hsize]; omega) hwanted, h.selection_selectPart st,
    hq.filterMap, hsize]
  exact RangeSpec.matches_iff hpos hx

/-- A number of one digit. -/
def oneDigit (d : UInt8) (h : isDigit d = true) : Decimal :=
  ⟨[d], by simp, by simpa using h⟩

/-- The second and the third byte of ten. -/
theorem selects_secondByte :
    SingleRange (requestWith (ascii "range") (ascii "bytes=1-2")) tenBytes.lastModified
        (.fromTo (oneDigit 49 (by decide)) (oneDigit 50 (by decide))) ∧
      Selects defaultConfig tenBytes
        (zeroed.storeParsed (requestWith (ascii "range") (ascii "bytes=1-2")) false) sentAtOnce
        (some (1, 2)) := by
  have hq : SingleRange (requestWith (ascii "range") (ascii "bytes=1-2")) tenBytes.lastModified
      (.fromTo (oneDigit 49 (by decide)) (oneDigit 50 (by decide))) :=
    ⟨[], ⟨ascii "range", 1, ascii "bytes=1-2"⟩, [], rfl, rfl, by decide +kernel, by simp⟩
  refine ⟨hq, ?_⟩
  have hfits : (RangeSpec.fromTo (oneDigit 49 (by decide)) (oneDigit 50 (by decide))).Fits 10 := by
    simp only [RangeSpec.Fits]
    decide +kernel
  exact (selects_iff defaultConfig (parsedIn_storeParsed _ _ _) (by decide +kernel) hq rfl
    (by decide)
    (by decide) sentAtOnce).2 hfits

/-- The last three bytes of ten are asked for, and the first four are selected. -/
theorem not_selects_suffix :
    SingleRange (requestWith (ascii "range") (ascii "bytes=-3")) tenBytes.lastModified
        (.suffix (oneDigit 51 (by decide))) ∧
      (RangeSpec.suffix (oneDigit 51 (by decide))).wanted 10 = some (7, 9) ∧
      ¬ Selects defaultConfig tenBytes
        (zeroed.storeParsed (requestWith (ascii "range") (ascii "bytes=-3")) false) sentAtOnce
        (some (7, 9)) := by
  refine ⟨⟨[], ⟨ascii "range", 1, ascii "bytes=-3"⟩, [], rfl, rfl, by decide +kernel, by simp⟩,
    by decide +kernel, ?_⟩
  rintro ⟨-, hoffset, -⟩
  revert hoffset
  decide +kernel

end OpenTube
