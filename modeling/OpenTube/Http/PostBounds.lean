import OpenTube.Http.Multipart

/-!
# The memory of a multipart body

`http_parse_post` moves one pointer over the body and compares, skips and
overwrites bytes as it goes. Here the same loops run over the memory the body is
stored in, the `n` bytes of the body and the `NUL` behind them, with the pointer as
an index. An access outside of this memory has no value, and neither has a loop
that has not ended after as many passes as there are bytes. What is recorded of a
part are slices of the memory, as the source has them.

The loops over the lists of `Post` are what these loops compute: a place there is
the index of the first byte that lies behind it.
-/

namespace OpenTube

/-! ## Accesses -/

/-- A `u_str_t` that points into the body, with its address as an index. -/
structure Slice where
  str : Nat
  len : Nat
deriving DecidableEq, Repr

/-- The index behind a slice. -/
def Slice.stop (s : Slice) : Nat := s.str + s.len

/-- The bytes of a slice. -/
def Slice.read (m : List UInt8) (s : Slice) : List UInt8 := (m.drop s.str).take s.len

/-- Store a byte. -/
def storeAt (m : List UInt8) (c : Nat) (b : UInt8) : Option (List UInt8) :=
  if c < m.length then some (m.set c b) else none

/-- Compare the bytes from a place on with `pat`, up to the first that differs. -/
def beginsAt (m : List UInt8) : Nat → List UInt8 → Option Bool
  | _, [] => some true
  | c, p :: pat => m[c]?.bind fun b => if b = p then beginsAt m (c + 1) pat else some false

/-! ## The loops over the memory

The first number of a loop bounds its passes. A loop returns the memory and, unless
the function has returned, the index it has reached. -/

/-- Up to the first place where `stop` holds, or to a `NUL`. The bytes before it are
rewritten with `write`. -/
def scanAt (stop : List UInt8 → Nat → Option Bool) (write : UInt8 → UInt8) :
    Nat → List UInt8 → Nat → Option (List UInt8 × Option Nat)
  | 0, _, _ => none
  | n + 1, m, c =>
      (stop m c).bind fun found =>
        if found then some (m, some c)
        else
          m[c]?.bind fun b =>
            if b = nul then some (m, none)
            else (storeAt m c (write b)).bind fun m => scanAt stop write n m (c + 1)

def lineEndAt (m : List UInt8) (c : Nat) : Option Bool := beginsAt m c [cr, lf]

def colonAt (m : List UInt8) (c : Nat) : Option Bool := m[c]?.map fun b => b = colon

def quoteAt (m : List UInt8) (c : Nat) : Option Bool :=
  m[c]?.map fun b => b = quote || b = ampersand

/-- The loop over the spaces behind a colon. -/
def skipSpaces : Nat → List UInt8 → Nat → Option Nat
  | 0, _, _ => none
  | n + 1, m, c => m[c]?.bind fun b => if b = space then skipSpaces n m (c + 1) else some c

/-- The loop over a content. Its counter is a 32-bit number of its own. -/
def boundaryAt (len : Nat) : Nat → List UInt8 → Nat → Nat → Option (Option Nat)
  | 0, _, _, _ => none
  | n + 1, m, c, i =>
      if len < i then some none
      else
        (beginsAt m c delimiter).bind fun found =>
          if found then some (some c) else boundaryAt len n m (c + 1) (uint (i + 1))

/-- `name`, `filename` and `content_type`. -/
structure PartSlices where
  name : Option Slice
  filename : Option Slice
  contentType : Option Slice
deriving DecidableEq, Repr

/-- The value of a parameter, from behind the equals sign on. The index that is
returned is that of the `NUL` behind the value. -/
def parameterAt (m : List UInt8) (c : Nat) : Option (List UInt8 × Option (Nat × Slice)) :=
  m[c]?.bind fun b =>
    let str := if b = quote then c + 1 else c
    (scanAt quoteAt id m.length m str).bind fun
      | (m, none) => some (m, none)
      | (m, some c) => (storeAt m c nul).map fun m => (m, some (c, ⟨str, c - str⟩))

/-- The loop over a `Content-Disposition` header. -/
def dispositionAt : Nat → List UInt8 → Nat → PartSlices →
    Option (List UInt8 × Option Nat × PartSlices)
  | 0, _, _, _ => none
  | n + 1, m, c, h =>
      (lineEndAt m c).bind fun found =>
        if found then some (m, some c, h)
        else
          m[c]?.bind fun b =>
            if b = nul then some (m, none, h)
            else
              (beginsAt m c (ascii " name=")).bind fun name =>
                if name then
                  (parameterAt m (c + 6)).bind fun
                    | (m, none) => some (m, none, h)
                    | (m, some (c, s)) => dispositionAt n m (c + 1) { h with name := some s }
                else
                  (beginsAt m c (ascii " filename=")).bind fun filename =>
                    if filename then
                      (parameterAt m (c + 10)).bind fun
                        | (m, none) => some (m, none, h)
                        | (m, some (c, s)) =>
                            dispositionAt n m (c + 1) { h with filename := some s }
                    else dispositionAt n m (c + 1) h

/-- The value of one header, from `c` on. Its name is the string at `hdr`, compared
with `strcmp`. -/
def partHeaderAt (m : List UInt8) (hdr c : Nat) (h : PartSlices) :
    Option (List UInt8 × Option Nat × PartSlices) :=
  (beginsAt m hdr (ascii "content-disposition" ++ [nul])).bind fun disposition =>
    if disposition then dispositionAt m.length m c h
    else
      (beginsAt m hdr (ascii "content-type" ++ [nul])).bind fun type =>
        if type then
          (scanAt lineEndAt id m.length m c).bind fun
            | (m, none) => some (m, none, h)
            | (m, some e) =>
                (storeAt m e nul).map fun m =>
                  (m, some e, { h with contentType := some ⟨c, e - c⟩ })
        else (scanAt lineEndAt id m.length m c).map fun r => (r.1, r.2, h)

/-- The headers of a part, up to the empty line. -/
def partHeadersAt : Nat → List UInt8 → Nat → PartSlices →
    Option (List UInt8 × Option Nat × PartSlices)
  | 0, _, _, _ => none
  | n + 1, m, c, h =>
      (lineEndAt m c).bind fun found =>
        if found then some (m, some c, h)
        else
          (scanAt colonAt toLower m.length m c).bind fun
            | (m, none) => some (m, none, h)
            | (m, some e) =>
                (storeAt m e nul).bind fun m =>
                  (skipSpaces m.length m (e + 1)).bind fun v =>
                    (partHeaderAt m c v h).bind fun
                      | (m, none, h) => some (m, none, h)
                      | (m, some c, h) => partHeadersAt n m (c + 2) h

/-- A `post_arg_t`. -/
structure ArgSlices where
  key : Slice
  value : Slice
deriving DecidableEq, Repr

/-- A `post_file_t`. Without a type of its own it has the default one, which does
not lie in the body. -/
structure FileSlices where
  data : Slice
  key : Slice
  name : Slice
  type : Option Slice
deriving DecidableEq, Repr

/-- The entries of `body.post` and `body.files` that are counted, and the memory. -/
structure PostSlices where
  post : List ArgSlices
  files : List FileSlices
  mem : List UInt8
deriving DecidableEq, Repr

/-- The loop over the parts of a body of `len` bytes. -/
def partsAt (len : Nat) : Nat → List UInt8 → Nat → List ArgSlices → List FileSlices →
    Option PostSlices
  | 0, _, _, _, _ => none
  | n + 1, m, c, post, files =>
      (scanAt lineEndAt id m.length m c).bind fun
        | (m, none) => some ⟨post, files, m⟩
        | (m, some c) =>
            m[c + 2]?.bind fun b =>
              if b = nul then some ⟨post, files, m⟩
              else
                (partHeadersAt m.length m (c + 2) ⟨none, none, none⟩).bind fun
                  | (m, none, _) => some ⟨post, files, m⟩
                  | (m, some c, h) =>
                      match h.name with
                      | none => partsAt len n m (c + 2) post files
                      | some name =>
                          (boundaryAt len m.length m (c + 2) (uint (c + 2 + 4))).bind fun
                            | none => some ⟨post, files, m⟩
                            | some e =>
                                (storeAt m e nul).bind fun m =>
                                  let data := ⟨c + 2, e - (c + 2)⟩
                                  match h.filename with
                                  | some filename =>
                                      partsAt len n m (e + 2) post
                                        (files ++ [⟨data, name, filename, h.contentType⟩])
                                  | none => partsAt len n m (e + 2) (post ++ [⟨name, data⟩]) files

/-- `http_parse_post` for a body of `len` bytes that is not `urlenc`. -/
def parsePostAt (m : List UInt8) (len : Nat) : Option PostSlices :=
  if len < 12 then some ⟨[], [], m⟩ else partsAt len m.length m 0 [] []

/-! ## Places

A place of the lists has the memory and the index of its first byte. -/

/-- The memory, and the index unless the function has returned. -/
def Scanned.place : Scanned → List UInt8 × Option Nat
  | .found done rest => (done ++ (rest ++ [nul]), some done.length)
  | .ended text => (text ++ [nul], none)

section Places

variable (done rest : List UInt8)

/-- The byte behind a place. -/
theorem getElem?_place : (done ++ (rest ++ [nul]))[done.length]? = some (rest.head?.getD nul) := by
  rw [List.getElem?_append_right (Nat.le_refl _), Nat.sub_self]
  cases rest with
  | nil => rfl
  | cons c rest => rfl

theorem storeAt_place (c b : UInt8) :
    storeAt (done ++ (c :: rest ++ [nul])) done.length b =
      some (done ++ [b] ++ (rest ++ [nul])) := by
  rw [storeAt, if_pos (by simp)]
  simp

/-- A comparison ends at the `NUL` behind the body at the latest. -/
theorem beginsAt_place {pat : List UInt8} (hpat : nul ∉ pat) :
    beginsAt (done ++ (rest ++ [nul])) done.length pat = some (decide (pat <+: rest)) := by
  induction pat generalizing done rest with
  | nil => simp [beginsAt]
  | cons p pat ih =>
      obtain ⟨hp, hpat⟩ : nul ≠ p ∧ nul ∉ pat := by simpa using hpat
      rw [beginsAt, getElem?_place, Option.bind_some]
      cases rest with
      | nil => simp [hp]
      | cons c rest =>
          by_cases hc : c = p
          · have hnext := ih (done ++ [c]) rest hpat
            rw [List.append_assoc, List.length_append] at hnext
            simpa [hc] using hnext
          · simp [hc, Ne.symm hc]

/-- `strcmp` with a string that ends inside of the memory. -/
theorem beginsAt_string {key lit : List UInt8} (hkey : nul ∉ key) (hlit : nul ∉ lit) :
    beginsAt (done ++ (key ++ nul :: rest)) done.length (lit ++ [nul]) =
      some (decide (key = lit)) := by
  induction lit generalizing done key with
  | nil =>
      cases key with
      | nil => simp [beginsAt]
      | cons c key =>
          have hc : c ≠ nul := fun h => hkey (by simp [h])
          simp [beginsAt, hc]
  | cons p lit ih =>
      obtain ⟨hp, hlit⟩ : nul ≠ p ∧ nul ∉ lit := by simpa using hlit
      cases key with
      | nil => simp [beginsAt, hp]
      | cons c key =>
          by_cases hc : c = p
          · have hnext := ih (done ++ [c]) (fun h => hkey (List.mem_cons_of_mem c h)) hlit
            rw [List.append_assoc, List.length_append] at hnext
            simpa [beginsAt, hc] using hnext
          · simp [beginsAt, hc]

/-- A loop over the memory is the loop over the lists. -/
theorem scanAt_place {stopAt : List UInt8 → Nat → Option Bool} {stop : UInt8 → List UInt8 → Bool}
    (hstop : ∀ done rest, stopAt (done ++ (rest ++ [nul])) done.length =
      some (match rest with
        | [] => false
        | c :: rest => stop c rest))
    (write : UInt8 → UInt8) {n : Nat} (hn : rest.length < n) :
    scanAt stopAt write n (done ++ (rest ++ [nul])) done.length =
      some (scanBody stop write done rest).place := by
  induction n generalizing done rest with
  | zero => omega
  | succ n ih =>
      rw [scanAt, hstop, Option.bind_some]
      cases rest with
      | nil =>
          rw [if_neg (by simp), getElem?_place]
          rfl
      | cons c rest =>
          rw [scanBody]
          by_cases hc : stop c rest = true
          · simp [hc, Scanned.place]
          · rw [if_neg hc, if_neg hc, getElem?_place, Option.bind_some, List.head?_cons,
              Option.getD_some]
            by_cases hnul : c = nul
            · simp [hnul, Scanned.place]
            · rw [if_neg hnul, if_neg hnul, storeAt_place, Option.bind_some,
                ← ih (done ++ [write c]) rest (by simpa using hn), List.length_append]
              rfl

theorem lineEnd_place {n : Nat} (hn : rest.length < n) :
    scanAt lineEndAt id n (done ++ (rest ++ [nul])) done.length =
      some (toLineEnd done rest).place := by
  refine scanAt_place done rest (fun done rest => ?_) id hn
  rw [lineEndAt, beginsAt_place _ _ (by decide)]
  rcases rest with _ | ⟨c, _ | ⟨d, rest⟩⟩
  · simp
  · simp
  · simp [eq_comm]

theorem colon_place {n : Nat} (hn : rest.length < n) :
    scanAt colonAt toLower n (done ++ (rest ++ [nul])) done.length =
      some (toColon done rest).place := by
  refine scanAt_place done rest (fun done rest => ?_) toLower hn
  rw [colonAt, getElem?_place]
  cases rest with
  | nil => rfl
  | cons c rest => rfl

theorem quote_place {n : Nat} (hn : rest.length < n) :
    scanAt quoteAt id n (done ++ (rest ++ [nul])) done.length =
      some (toQuote done rest).place := by
  refine scanAt_place done rest (fun done rest => ?_) id hn
  rw [quoteAt, getElem?_place]
  cases rest with
  | nil => rfl
  | cons c rest => rfl

theorem skipSpaces_place {n : Nat} (hn : rest.length < n) :
    skipSpaces n (done ++ (rest ++ [nul])) done.length =
      some (done.length + (rest.takeWhile fun c => c = space).length) := by
  induction n generalizing done rest with
  | zero => omega
  | succ n ih =>
      rw [skipSpaces, getElem?_place, Option.bind_some]
      cases rest with
      | nil => rfl
      | cons c rest =>
          by_cases hc : c = space
          · have hnext := ih (done ++ [c]) rest (by simpa using hn)
            rw [List.append_assoc, List.length_append] at hnext
            simpa [hc, Nat.add_assoc, Nat.add_comm 1] using hnext
          · simp [hc]

/-- The counter is always four ahead of the index, so four bytes are left whenever
they are read. -/
theorem boundaryAt_place {len n : Nat} (hlen : len = done.length + rest.length)
    (hmax : len + 4 < 2 ^ 32) (hn : rest.length < n) :
    boundaryAt len n (done ++ (rest ++ [nul])) done.length (done.length + 4) =
      some (toBoundary done rest).place.2 := by
  induction n generalizing done rest with
  | zero => omega
  | succ n ih =>
      rw [boundaryAt]
      by_cases hfour : 4 ≤ rest.length
      · obtain ⟨c, rest, rfl⟩ : ∃ c r, rest = c :: r := by
          cases rest with
          | nil => simp at hfour
          | cons c r => exact ⟨c, r, rfl⟩
        rw [if_neg (by omega), beginsAt_place _ _ (by decide), Option.bind_some,
          toBoundary_cons done c (by simpa using hfour)]
        by_cases hc : delimiter <+: c :: rest
        · simp [hc, Scanned.place]
        · have hnext := ih (done ++ [c]) rest (by simp at hlen ⊢; omega) (by simpa using hn)
          have huint : uint ((done.length + 4 : Nat) + 1) = done.length + 1 + 4 := by
            simp only [List.length_cons] at hlen
            unfold uint
            omega
          rw [List.append_assoc, List.length_append] at hnext
          simp only [hc, decide_false, Bool.false_eq_true, if_false, huint]
          simpa using hnext
      · rw [if_pos (by omega)]
        rcases rest with _ | ⟨_, _ | ⟨_, _ | ⟨_, _ | ⟨_, rest⟩⟩⟩⟩
        · rfl
        · rfl
        · rfl
        · rfl
        · simp at hfour

end Places

/-! ## What the loops pass over -/

theorem scanBody_found {stop : UInt8 → List UInt8 → Bool} {write : UInt8 → UInt8}
    {done rest done' rest' : List UInt8}
    (h : scanBody stop write done rest = .found done' rest') :
    ∃ mid, done' = done ++ mid.map write ∧ rest = mid ++ rest' ∧ nul ∉ mid ∧
      ∃ c r, rest' = c :: r ∧ stop c r = true := by
  fun_induction scanBody stop write done rest with
  | case1 done => cases h
  | case2 done c rest hstop =>
      obtain ⟨rfl, rfl⟩ := Scanned.found.inj h
      exact ⟨[], by simp, rfl, by simp, c, rest, rfl, hstop⟩
  | case3 done rest hstop => cases h
  | case4 done c rest hstop hnul ih =>
      obtain ⟨mid, rfl, rfl, hmid, hfound⟩ := ih h
      exact ⟨c :: mid, by simp, rfl, by simp [hmid, Ne.symm hnul], hfound⟩

theorem scanBody_ended {stop : UInt8 → List UInt8 → Bool} {write : UInt8 → UInt8}
    {done rest text : List UInt8} (h : scanBody stop write done rest = .ended text) :
    done <+: text := by
  fun_induction scanBody stop write done rest with
  | case1 done =>
      obtain rfl := Scanned.ended.inj h
      exact List.prefix_rfl
  | case2 done c rest hstop => cases h
  | case3 done rest hstop =>
      rw [← Scanned.ended.inj h]
      exact List.prefix_append _ _
  | case4 done c rest hstop hnul ih => exact (List.prefix_append _ _).trans (ih h)

/-- Where a loop that looks for a line end may stop. The bytes behind the place are
those of the body, apart from the one at the place itself. -/
def Scanned.Passes (done rest : List UInt8) : Scanned → Prop
  | .found done' rest' =>
      ∃ mid, done' = done ++ mid ∧ mid.length + rest'.length = rest.length ∧
        rest'.tail = rest.drop (mid.length + 1) ∧ 2 ≤ rest'.length
  | .ended text => done <+: text

theorem Scanned.Passes.trans {done rest mid rest' : List UInt8} {s : Scanned}
    (h : s.Passes (done ++ mid) rest') (hrest : rest' = rest.drop mid.length)
    (hle : mid.length ≤ rest.length) : s.Passes done rest := by
  cases s with
  | ended text => exact (List.prefix_append _ _).trans h
  | found done' rest'' =>
      obtain ⟨mid', rfl, hlen, htail, htwo⟩ := h
      subst hrest
      rw [List.length_drop] at hlen
      refine ⟨mid ++ mid', by simp, by simp; omega, ?_, htwo⟩
      rw [htail, List.drop_drop, List.length_append, Nat.add_assoc]

theorem toLineEnd_passes (done rest : List UInt8) : (toLineEnd done rest).Passes done rest := by
  cases hscan : toLineEnd done rest with
  | ended text => exact scanBody_ended hscan
  | found done' rest' =>
      obtain ⟨mid, rfl, rfl, -, c, r, rfl, hstop⟩ := scanBody_found hscan
      obtain ⟨r, rfl⟩ : ∃ t, r = lf :: t := by
        rcases r with _ | ⟨d, r⟩
        · simp at hstop
        · exact ⟨r, by simp_all⟩
      exact ⟨mid, by simp, by simp, by simp [List.drop_append], by simp⟩

/-- The loop goes on behind the line end. -/
theorem Scanned.Passes.next {done rest done' rest' : List UInt8}
    (h : (Scanned.found done' rest').Passes done rest) :
    ∃ mid, done' ++ rest'.take 2 = done ++ mid ∧ rest'.drop 2 = rest.drop mid.length ∧
      2 ≤ mid.length ∧ mid.length ≤ rest.length ∧
      (done' ++ rest'.take 2).length = done'.length + 2 := by
  obtain ⟨mid, rfl, hlen, htail, htwo⟩ := h
  refine ⟨mid ++ rest'.take 2, by simp, ?_, ?_, ?_, ?_⟩
  · rw [← List.drop_one] at htail
    have hdrop := congrArg (List.drop 1) htail
    rw [List.drop_drop, List.drop_drop] at hdrop
    rw [hdrop, List.length_append, List.length_take, Nat.min_eq_left htwo, Nat.add_assoc]
  · simp only [List.length_append, List.length_take]
    omega
  · simp only [List.length_append, List.length_take]
    omega
  · simp only [List.length_append, List.length_take]
    omega

/-! ## Slices -/

/-- A slice of what was passed keeps its bytes. -/
theorem Slice.read_extend {s : Slice} {done m : List UInt8} (h : s.stop ≤ done.length)
    (hm : done <+: m) : s.read m = s.read done := by
  obtain ⟨x, rfl⟩ := hm
  unfold Slice.stop at h
  rw [Slice.read, Slice.read, List.drop_append_of_le_length (by omega),
    List.take_append_of_le_length (by rw [List.length_drop]; omega)]

theorem Slice.read_append (done mid x : List UInt8) (n : Nat) (hn : n = mid.length) :
    Slice.read (done ++ (mid ++ x)) ⟨done.length, n⟩ = mid := by
  rw [hn, Slice.read, List.drop_left, List.take_left]

/-- The slice, if there is one, lies between `k` and the end of `done`, and `v` is
its text. -/
structure SliceReads (k : Nat) (done : List UInt8) (s : Option Slice) (v : Option (List UInt8)) :
    Prop where
  value : v = s.map (Slice.read done)
  bounds : ∀ t ∈ s, k ≤ t.str ∧ t.stop ≤ done.length

theorem sliceReads_none (k : Nat) (done : List UInt8) : SliceReads k done none none :=
  ⟨rfl, by simp⟩

theorem SliceReads.extend {k : Nat} {done done' : List UInt8} {s : Option Slice}
    {v : Option (List UInt8)} (h : SliceReads k done s v) (hd : done <+: done') :
    SliceReads k done' s v := by
  refine ⟨?_, fun t ht => ⟨(h.bounds t ht).1, Nat.le_trans (h.bounds t ht).2 hd.length_le⟩⟩
  rw [h.value]
  cases s with
  | none => rfl
  | some t => rw [Option.map_some, Option.map_some, Slice.read_extend (h.bounds t rfl).2 hd]

/-- What is recorded of the headers of a part that begins at `k`. -/
structure PartSlices.Reads (k : Nat) (done : List UInt8) (s : PartSlices) (h : PartHeaders) :
    Prop where
  name : SliceReads k done s.name h.name
  filename : SliceReads k done s.filename h.filename
  contentType : SliceReads k done s.contentType h.contentType

theorem PartSlices.Reads.extend {k : Nat} {done done' : List UInt8} {s : PartSlices}
    {h : PartHeaders} (hr : s.Reads k done h) (hd : done <+: done') : s.Reads k done' h :=
  ⟨hr.name.extend hd, hr.filename.extend hd, hr.contentType.extend hd⟩

/-! ## The headers of a part -/

/-- The value of a parameter begins behind the equals sign or behind a quote. -/
theorem parameter_place (done p t : List UInt8) :
    ∃ q u, p ++ t = q ++ u ∧ p.length ≤ q.length ∧
      readParameter p.length done (p ++ t) =
        (match toQuote (done ++ q) u with
          | .ended text => (.ended text, [])
          | .found d r => (.found (d ++ [nul]) r.tail, d.drop (done ++ q).length)) ∧
      parameterAt (done ++ (p ++ t ++ [nul])) (done.length + p.length) =
        some (match toQuote (done ++ q) u with
          | .ended text => (text ++ [nul], none)
          | .found d r => (d ++ [nul] ++ (r.tail ++ [nul]),
              some (d.length, ⟨(done ++ q).length, d.length - (done ++ q).length⟩))) := by
  obtain ⟨q, u, hq, hlen, hquote⟩ : ∃ q u, p ++ t = q ++ u ∧ p.length ≤ q.length ∧
      q.length = if t.head? = some quote then p.length + 1 else p.length := by
    by_cases hquote : t.head? = some quote
    · obtain ⟨t, rfl⟩ : ∃ r, t = quote :: r := by
        cases t with
        | nil => simp at hquote
        | cons c t => exact ⟨t, by simp_all⟩
      exact ⟨p ++ [quote], t, by simp, by simp, by simp⟩
    · exact ⟨p, t, rfl, Nat.le_refl _, by simp [hquote]⟩
  have hbyte : (p ++ t)[p.length]? = t.head? := by
    rw [List.getElem?_append_right (Nat.le_refl _), Nat.sub_self, List.head?_eq_getElem?]
  refine ⟨q, u, hq, hlen, ?_, ?_⟩
  · rw [readParameter, hbyte, ← hquote, hq, List.take_left, List.drop_left]
    cases toQuote (done ++ q) u with
    | ended text => rfl
    | found d r => simp only [List.length_append]
  · have hread := getElem?_place (done ++ p) t
    have hstart : (if t.head?.getD nul = quote then done.length + p.length + 1
        else done.length + p.length) = (done ++ q).length := by
      rw [List.length_append, hquote]
      cases t with
      | nil => simp [show nul ≠ quote by decide]
      | cons c t => simp [apply_ite, Nat.add_assoc]
    rw [List.append_assoc, List.length_append, ← List.append_assoc p] at hread
    rw [parameterAt, hread, Option.bind_some]
    simp only [hstart]
    rw [hq, List.append_assoc q, ← List.append_assoc done,
      quote_place (done ++ q) u (by simp; omega), Option.bind_some]
    cases hscan : toQuote (done ++ q) u with
    | ended text => rfl
    | found d r =>
        obtain ⟨mid, -, -, -, c, r', rfl, -⟩ := scanBody_found hscan
        simp only [Scanned.place]
        rw [storeAt_place]
        rfl

/-- How a loop over headers of a part ends: what the list loop records are the texts
of the slices. -/
def Ends (k : Nat) (done rest : List UInt8) (r : Scanned × PartHeaders) (s : PartSlices) : Prop :=
  r.1.Passes done rest ∧ ∀ done' rest', r.1 = .found done' rest' → s.Reads k done' r.2

/-- A parameter that is found is recorded, and the loop goes on behind it. -/
theorem parameter_spec (k : Nat) (done p t : List UInt8) (hk : k ≤ done.length) :
    (∃ text, readParameter p.length done (p ++ t) = (.ended text, []) ∧ done <+: text ∧
      parameterAt (done ++ (p ++ t ++ [nul])) (done.length + p.length) =
        some (text ++ [nul], none)) ∨
    ∃ mid rest' v c s, readParameter p.length done (p ++ t) = (.found (done ++ mid) rest', v) ∧
      parameterAt (done ++ (p ++ t ++ [nul])) (done.length + p.length) =
        some (done ++ mid ++ (rest' ++ [nul]), some (c, s)) ∧
      c + 1 = (done ++ mid).length ∧ p.length < mid.length ∧
      mid.length + rest'.length = (p ++ t).length ∧ rest' = (p ++ t).drop mid.length ∧
      SliceReads k (done ++ mid) (some s) (some v) := by
  obtain ⟨q, u, hq, hlen, hlist, hmem⟩ := parameter_place done p t
  cases hscan : toQuote (done ++ q) u with
  | ended text =>
      rw [hscan] at hlist hmem
      exact .inl ⟨text, hlist, (List.prefix_append _ _).trans (scanBody_ended hscan), hmem⟩
  | found d r =>
      rw [hscan] at hlist hmem
      obtain ⟨v, rfl, rfl, -, c, r, rfl, -⟩ := scanBody_found hscan
      have hlen' : done.length + (q.length + v.length) - (done.length + q.length) = v.length := by
        omega
      simp only [List.map_id, List.append_assoc, List.tail_cons, List.length_append, hlen']
        at hlist hmem
      refine .inr ⟨q ++ (v ++ [nul]), r, v, done.length + (q.length + v.length),
        ⟨done.length + q.length, v.length⟩, ?_, ?_, ?_, ?_, ?_, ?_, ?_, ?_⟩
      · rw [hlist, ← List.length_append, ← List.append_assoc done q v, List.drop_left]
      · simpa using hmem
      · simp only [List.length_append, List.length_singleton]
        omega
      · simp only [List.length_append, List.length_singleton]
        omega
      · simp only [hq, List.length_append, List.length_cons, List.length_nil]
        omega
      · have hsplit : p ++ t = q ++ (v ++ [c]) ++ r := by simp [hq]
        rw [hsplit, List.drop_left' (by simp)]
      · have hread := Slice.read_append (done ++ q) v [nul] v.length rfl
        simpa using hread.symm
      · intro s hs
        obtain rfl := Option.some.inj hs
        simp only [Slice.stop, List.length_append, List.length_singleton]
        omega

/-- The result of a loop over the memory for the result `r` of the loop over the
lists. -/
def Agrees (k : Nat) (done rest : List UInt8) (r : Scanned × PartHeaders)
    (x : Option (List UInt8 × Option Nat × PartSlices)) : Prop :=
  ∃ s, x = some (r.1.place.1, r.1.place.2, s) ∧ Ends k done rest r s

theorem Agrees.trans {k : Nat} {done rest mid rest' : List UInt8} {r : Scanned × PartHeaders}
    {x : Option (List UInt8 × Option Nat × PartSlices)}
    (h : Agrees k (done ++ mid) rest' r x) (hrest : rest' = rest.drop mid.length)
    (hle : mid.length ≤ rest.length) : Agrees k done rest r x := by
  obtain ⟨s, hx, hends⟩ := h
  exact ⟨s, hx, hends.1.trans hrest hle, hends.2⟩

/-- A loop `f` over the memory and a loop `g` over the lists, from places with less
than `n` bytes behind them. -/
def Computes (k n : Nat) (f : List UInt8 → Nat → PartSlices →
      Option (List UInt8 × Option Nat × PartSlices))
    (g : List UInt8 → List UInt8 → PartHeaders → Scanned × PartHeaders) : Prop :=
  ∀ done rest s h, rest.length < n → k ≤ done.length → s.Reads k done h →
    Agrees k done rest (g done rest h) (f (done ++ (rest ++ [nul])) done.length s)

/-- A parameter of a `Content-Disposition` header. The two parameters differ in the
field they are recorded in. -/
theorem parameter_agrees {k n : Nat} {f : List UInt8 → Nat → PartSlices →
      Option (List UInt8 × Option Nat × PartSlices)}
    {g : List UInt8 → List UInt8 → PartHeaders → Scanned × PartHeaders} (hfg : Computes k n f g)
    {done rest p : List UInt8} (hp : p <+: rest) (hne : p ≠ []) (hk : k ≤ done.length)
    (hn : rest.length ≤ n) {s : PartSlices} {h : PartHeaders} {set : Slice → PartSlices}
    {put : List UInt8 → PartHeaders}
    (hset : ∀ done' t v, done <+: done' → SliceReads k done' (some t) (some v) →
      (set t).Reads k done' (put v)) :
    Agrees k done rest
      (match readParameter p.length done rest with
        | (.ended text, _) => (.ended text, h)
        | (.found done' rest', v) => g done' rest' (put v))
      ((parameterAt (done ++ (rest ++ [nul])) (done.length + p.length)).bind fun
        | (m, none) => some (m, none, s)
        | (m, some (c, t)) => f m (c + 1) (set t)) := by
  obtain ⟨t, rfl⟩ := hp
  have hpos := List.length_pos_iff.2 hne
  obtain ⟨text, hlist, htext, hmem⟩ | ⟨mid, rest', v, c, t', hlist, hmem, hc, hmid, hlen, hrest,
    hslice⟩ := parameter_spec k done p t hk
  · rw [hlist, hmem]
    exact ⟨s, rfl, htext, by simp⟩
  · rw [hlist, hmem, Option.bind_some]
    simp only [hc]
    exact (hfg (done ++ mid) rest' (set t') (put v) (by omega)
      (by rw [List.length_append]; omega)
      (hset _ _ _ (List.prefix_append _ _) hslice)).trans hrest (by omega)

theorem lineEnd_prefix_iff (c : UInt8) (rest : List UInt8) :
    [cr, lf] <+: c :: rest ↔ c = cr ∧ rest.head? = some lf := by
  cases rest with
  | nil => simp
  | cons d rest => simp [eq_comm]

theorem dispositionAt_computes {k n i j : Nat} (hi : n ≤ i) (hj : n ≤ j) :
    Computes k n (dispositionAt i) (readDisposition j) := by
  induction n generalizing i j with
  | zero => exact fun done rest s h hn => by omega
  | succ n ih =>
      obtain ⟨i, rfl⟩ : ∃ l, i = l + 1 := ⟨i - 1, by omega⟩
      obtain ⟨j, rfl⟩ : ∃ l, j = l + 1 := ⟨j - 1, by omega⟩
      have hnext : Computes k n (dispositionAt i) (readDisposition j) := ih (by omega) (by omega)
      intro done rest s h hn hk hr
      rw [dispositionAt, lineEndAt, beginsAt_place _ _ (by decide), Option.bind_some,
        getElem?_place, Option.bind_some, beginsAt_place _ _ (by decide), Option.bind_some,
        beginsAt_place _ _ (by decide), Option.bind_some]
      cases rest with
      | nil =>
          refine ⟨s, by simp [readDisposition, Scanned.place], List.prefix_rfl, ?_⟩
          simp [readDisposition]
      | cons c rest =>
          have hn' : (c :: rest).length ≤ n := by omega
          simp only [readDisposition, decide_eq_true_eq, lineEnd_prefix_iff, List.head?_cons,
            Option.getD_some]
          split_ifs with hend hnul hname hfilename
          · refine ⟨s, rfl, ⟨[], by simp, by simp, by simp, ?_⟩, ?_⟩
            · rcases rest with _ | ⟨d, rest⟩
              · simp at hend
              · simp
            · rintro done' rest' hfound
              obtain ⟨rfl, rfl⟩ := Scanned.found.inj hfound
              exact hr
          · exact ⟨s, by simp [Scanned.place], List.prefix_append _ _, by simp⟩
          · refine parameter_agrees hnext hname (by decide) hk hn' fun done' t v hd ht => ?_
            exact ⟨ht, (hr.extend hd).filename, (hr.extend hd).contentType⟩
          · refine parameter_agrees hnext hfilename (by decide) hk hn'
              fun done' t v hd ht => ?_
            exact ⟨(hr.extend hd).name, ht, (hr.extend hd).contentType⟩
          · have hstep := hnext (done ++ [c]) rest s h (by simpa using hn)
              (by rw [List.length_append]; omega) (hr.extend (List.prefix_append _ _))
            rw [List.append_assoc, List.length_append] at hstep
            exact hstep.trans rfl (by simp)

theorem partHeaderAt_agrees {k : Nat} {done key t rest : List UInt8} {s : PartSlices}
    {h : PartHeaders} (hkey : nul ∉ key) (hk : k ≤ (done ++ (key ++ nul :: t)).length)
    (hr : s.Reads k (done ++ (key ++ nul :: t)) h) :
    Agrees k (done ++ (key ++ nul :: t)) rest
      (readPartHeader key (done ++ (key ++ nul :: t)) rest h)
      (partHeaderAt (done ++ (key ++ nul :: t) ++ (rest ++ [nul])) done.length
        (done ++ (key ++ nul :: t)).length s) := by
  have hmem : done ++ (key ++ nul :: t) ++ (rest ++ [nul]) =
      done ++ (key ++ nul :: (t ++ (rest ++ [nul]))) := by simp
  have hstring : ∀ {lit : List UInt8} (hlit : nul ∉ lit),
      beginsAt (done ++ (key ++ nul :: t) ++ (rest ++ [nul])) done.length (lit ++ [nul]) =
        some (decide (key = lit)) := by
    intro lit hlit
    rw [hmem, beginsAt_string done _ hkey hlit]
  have hfuel : rest.length < (done ++ (key ++ nul :: t) ++ (rest ++ [nul])).length := by
    simp only [List.length_append, List.length_singleton]
    omega
  rw [partHeaderAt, hstring (by decide), Option.bind_some, hstring (by decide),
    Option.bind_some, lineEnd_place _ _ hfuel]
  generalize done ++ (key ++ nul :: t) = place at *
  have hpass := toLineEnd_passes place rest
  simp only [readPartHeader, decide_eq_true_eq]
  split_ifs with hdisposition htype
  · exact dispositionAt_computes (by omega) (Nat.le_refl _) place rest s h (by omega) hk hr
  · cases hscan : toLineEnd place rest with
    | ended text =>
        rw [hscan] at hpass
        exact ⟨s, rfl, hpass, by simp⟩
    | found done' rest' =>
        rw [hscan] at hpass
        obtain ⟨mid, rfl, hlen, htail, htwo⟩ := hpass
        obtain ⟨c, r, rfl⟩ : ∃ c r, rest' = c :: r := by
          cases rest' with
          | nil => simp at htwo
          | cons c r => exact ⟨c, r, rfl⟩
        refine ⟨{ s with contentType := some ⟨place.length, mid.length⟩ }, ?_,
          ⟨mid, rfl, by simpa using hlen, by simpa using htail, by simpa using htwo⟩, ?_⟩
        · simp only [Scanned.place, Option.bind_some]
          rw [storeAt_place]
          simp
        · rintro done' rest' hfound
          obtain ⟨rfl, rfl⟩ := Scanned.found.inj hfound
          have hext := hr.extend (List.prefix_append place mid)
          refine ⟨hext.name, hext.filename, ?_, ?_⟩
          · have hread := Slice.read_append place mid [] mid.length rfl
            rw [List.append_nil] at hread
            simp [hread]
          · intro v hv
            obtain rfl := Option.some.inj hv
            exact ⟨hk, by simp [Slice.stop]⟩
  · refine ⟨s, rfl, hpass, fun done' rest' hfound => ?_⟩
    simp only at hfound
    rw [hfound] at hpass
    obtain ⟨mid, rfl, -⟩ := hpass
    exact hr.extend (List.prefix_append _ _)

theorem partHeadersAt_computes {k n i j : Nat} (hi : n ≤ i) (hj : n ≤ j) :
    Computes k n (partHeadersAt i) (readPartHeaders j) := by
  induction n generalizing i j with
  | zero => exact fun done rest s h hn => by omega
  | succ n ih =>
      obtain ⟨i, rfl⟩ : ∃ l, i = l + 1 := ⟨i - 1, by omega⟩
      obtain ⟨j, rfl⟩ : ∃ l, j = l + 1 := ⟨j - 1, by omega⟩
      have hnext : Computes k n (partHeadersAt i) (readPartHeaders j) := ih (by omega) (by omega)
      intro done rest s h hn hk hr
      have hfuel : rest.length < (done ++ (rest ++ [nul])).length := by
        simp only [List.length_append, List.length_singleton]
        omega
      rw [partHeadersAt, lineEndAt, beginsAt_place _ _ (by decide), Option.bind_some,
        colon_place done rest hfuel, Option.bind_some, readPartHeaders]
      have hend : [cr, lf] <+: rest ↔ rest.take 2 = [cr, lf] := by
        rw [List.prefix_iff_eq_take, eq_comm]
        rfl
      simp only [decide_eq_true_eq, hend]
      split_ifs with hempty
      · refine ⟨s, rfl, ⟨[], by simp, by simp, by simp, ?_⟩, ?_⟩
        · have hlen := congrArg List.length hempty
          simp only [List.length_take, List.length_cons, List.length_nil] at hlen
          omega
        · rintro done' rest' hfound
          obtain ⟨rfl, rfl⟩ := Scanned.found.inj hfound
          exact hr
      · cases hscan : toColon done rest with
        | ended text => exact ⟨s, rfl, scanBody_ended hscan, by simp⟩
        | found done' rest' =>
            obtain ⟨mid, rfl, rfl, hmid, c, r, rfl, -⟩ := scanBody_found hscan
            have hkey : nul ∉ mid.map toLower := fun hmem => by
              obtain ⟨d, hd, hlower⟩ := List.mem_map.1 hmem
              exact hmid (toLower_eq_nul hlower ▸ hd)
            have hlen : (mid.map toLower).length = mid.length := List.length_map _
            generalize mid.map toLower = key at *
            -- the colon is overwritten, and the value begins behind the spaces
            obtain ⟨spaces, t, hspaces, rfl⟩ : ∃ spaces t,
                r.takeWhile (fun c => decide (c = space)) = spaces ∧ r = spaces ++ t :=
              ⟨_, _, rfl, (List.takeWhile_append_dropWhile).symm⟩
            have hmem : done ++ key ++ [nul] ++ (spaces ++ t ++ [nul]) =
                done ++ (key ++ nul :: spaces) ++ (t ++ [nul]) := by simp
            have hplace : (done ++ key).length + 1 = (done ++ key ++ [nul]).length := by
              simp only [List.length_append, List.length_singleton]
            have hvalue : (done ++ key ++ [nul]).length + spaces.length =
                (done ++ (key ++ nul :: spaces)).length := by
              simp only [List.length_append, List.length_cons, List.length_nil]
              omega
            have hheader := @partHeaderAt_agrees k done key spaces t s h hkey
              (Nat.le_trans hk (by simp)) (hr.extend (List.prefix_append _ _))
            simp only [Scanned.place]
            rw [storeAt_place, Option.bind_some, hplace, skipSpaces_place _ _ (by simp; omega),
              Option.bind_some, hspaces, hmem, hvalue]
            obtain ⟨s', hx, hpass, hreads⟩ := hheader
            rw [hx, Option.bind_some]
            simp only [List.tail_cons, hspaces, List.drop_left, List.append_assoc]
              at hx hpass hreads ⊢
            cases hresult : readPartHeader key (done ++ (key ++ nul :: spaces)) t h with
            | mk place h' =>
              simp only [hresult] at hpass hreads ⊢
              have hwhole : place.Passes done (mid ++ c :: (spaces ++ t)) :=
                hpass.trans (by simp [hlen]) (by simp [hlen])
              cases place with
              | ended text => exact ⟨s', rfl, hwhole, by simp⟩
              | found done' rest' =>
                  obtain ⟨mid', hdone, hrest, htwo, hle, hindex⟩ := hwhole.next
                  have hstep := hnext (done' ++ rest'.take 2) (rest'.drop 2) s' h'
                    (by rw [hrest, List.length_drop]; omega)
                    (by rw [hdone, List.length_append]; omega)
                    ((hreads _ _ rfl).extend (List.prefix_append _ _))
                  rw [List.append_assoc, ← List.append_assoc (rest'.take 2), List.take_append_drop,
                    hindex] at hstep
                  refine Agrees.trans ?_ hrest hle
                  rw [← hdone]
                  exact hstep

/-! ## The parts -/

theorem toBoundary_found {done rest done' rest' : List UInt8}
    (h : toBoundary done rest = .found done' rest') :
    ∃ mid t, done' = done ++ mid ∧ rest = mid ++ rest' ∧
      rest' = cr :: lf :: hyphen :: hyphen :: t := by
  fun_induction toBoundary done rest with
  | case1 done c₀ c₁ c₂ c₃ rest hc =>
      obtain ⟨rfl, rfl⟩ := Scanned.found.inj h
      obtain ⟨rfl, rfl, rfl, rfl⟩ := hc
      exact ⟨[], rest, by simp, rfl, rfl⟩
  | case2 done c₀ c₁ c₂ c₃ rest hc ih =>
      obtain ⟨mid, t, rfl, hrest, ht⟩ := ih h
      exact ⟨c₀ :: mid, t, by simp, by rw [hrest, List.cons_append], ht⟩
  | case3 done rest hc => cases h

theorem toBoundary_ended {done rest text : List UInt8} (h : toBoundary done rest = .ended text) :
    text = done ++ rest := by
  fun_induction toBoundary done rest with
  | case1 done c₀ c₁ c₂ c₃ rest hc => cases h
  | case2 done c₀ c₁ c₂ c₃ rest hc ih =>
      rw [ih h, List.append_assoc]
      rfl
  | case3 done rest hc => exact (Scanned.ended.inj h).symm

/-- A part that is counted. -/
inductive PartSlot
  | arg (a : ArgSlices)
  | file (f : FileSlices)
deriving DecidableEq, Repr

def PartSlot.arg? : PartSlot → Option ArgSlices
  | .arg a => some a
  | .file _ => none

def PartSlot.file? : PartSlot → Option FileSlices
  | .arg _ => none
  | .file f => some f

/-- The value of a field, or the data of a file. -/
def PartSlot.content : PartSlot → Slice
  | .arg a => a.value
  | .file f => f.data

/-- The key, the file name and the explicit type. -/
def PartSlot.names : PartSlot → List Slice
  | .arg a => [a.key]
  | .file f => f.key :: f.name :: f.type.toList

/-- A part lies inside of the body, its names in front of its content, and its
content is closed by a line end with two hyphens behind it. -/
structure PartSlot.Sound (body : List UInt8) (p : PartSlot) : Prop where
  inside : ∀ s ∈ p.content :: p.names, s.stop ≤ body.length
  names_le : ∀ s ∈ p.names, s.stop ≤ p.content.str
  closed : delimiter <+: body.drop p.content.stop

/-- Parts in the order in which they appear: nothing of a part lies before the end of
the content of an earlier one. -/
structure Recorded (body done : List UInt8) (parts : List PartSlot) : Prop where
  sound : ∀ p ∈ parts, p.Sound body
  passed : ∀ p ∈ parts, p.content.stop ≤ done.length
  order : parts.Pairwise fun p q => ∀ s ∈ q.content :: q.names, p.content.stop ≤ s.str

theorem Recorded.extend {body done done' : List UInt8} {parts : List PartSlot}
    (h : Recorded body done parts) (hd : done <+: done') : Recorded body done' parts :=
  ⟨h.sound, fun p hp => Nat.le_trans (h.passed p hp) hd.length_le, h.order⟩

/-- A part that begins behind what was passed comes last. -/
theorem Recorded.add {body done done' : List UInt8} {parts : List PartSlot} {q : PartSlot}
    (h : Recorded body done parts) (hd : done <+: done') (hq : q.Sound body)
    (hpassed : q.content.stop ≤ done'.length)
    (hafter : ∀ s ∈ q.content :: q.names, done.length ≤ s.str) :
    Recorded body done' (parts ++ [q]) := by
  refine ⟨?_, ?_, ?_⟩
  · intro p hp
    obtain hp | rfl : p ∈ parts ∨ p = q := by simpa using hp
    · exact h.sound p hp
    · exact hq
  · intro p hp
    obtain hp | rfl : p ∈ parts ∨ p = q := by simpa using hp
    · exact (h.extend hd).passed p hp
    · exact hpassed
  · refine List.pairwise_append.2 ⟨h.order, List.pairwise_singleton _ _, fun p hp r hr s hs => ?_⟩
    obtain rfl : r = q := by simpa using hr
    exact Nat.le_trans (h.passed p hp) (hafter s hs)

/-- The texts of an argument. -/
def ArgSlices.read (m : List UInt8) (a : ArgSlices) : Arg := ⟨a.key.read m, a.value.read m⟩

/-- The texts of a file. -/
def FileSlices.read (m : List UInt8) (f : FileSlices) : PostFile :=
  ⟨f.data.read m, f.key.read m, f.name.read m,
    (f.type.map (Slice.read m)).getD (ascii "application/octet-stream")⟩

/-- The fields among the parts, with their texts. -/
def argsOf (m : List UInt8) (parts : List PartSlot) : List Arg :=
  (parts.filterMap PartSlot.arg?).map (ArgSlices.read m)

/-- The files among the parts, with their texts. -/
def filesOf (m : List UInt8) (parts : List PartSlot) : List PostFile :=
  (parts.filterMap PartSlot.file?).map (FileSlices.read m)

theorem argsOf_append (m : List UInt8) (parts : List PartSlot) (q : PartSlot) :
    argsOf m (parts ++ [q]) = argsOf m parts ++ (q.arg?.map (ArgSlices.read m)).toList := by
  rw [argsOf, List.filterMap_append, List.map_append]
  cases q with
  | arg a => rfl
  | file f => rfl

theorem filesOf_append (m : List UInt8) (parts : List PartSlot) (q : PartSlot) :
    filesOf m (parts ++ [q]) = filesOf m parts ++ (q.file?.map (FileSlices.read m)).toList := by
  rw [filesOf, List.filterMap_append, List.map_append]
  cases q with
  | arg a => rfl
  | file f => rfl

theorem Recorded.read_eq {body done m : List UInt8} {parts : List PartSlot}
    (h : Recorded body done parts) (hd : done <+: m) {p : PartSlot} (hp : p ∈ parts) {s : Slice}
    (hs : s ∈ p.content :: p.names) : s.read m = s.read done := by
  refine Slice.read_extend ?_ hd
  have hpassed := h.passed p hp
  obtain rfl | hs := List.mem_cons.1 hs
  · exact hpassed
  · have hname := (h.sound p hp).names_le s hs
    unfold Slice.stop at *
    omega

theorem Recorded.argsOf_eq {body done m : List UInt8} {parts : List PartSlot}
    (h : Recorded body done parts) (hd : done <+: m) : argsOf m parts = argsOf done parts := by
  refine List.map_congr_left fun a ha => ?_
  obtain ⟨p, hp, hpa⟩ := List.mem_filterMap.1 ha
  cases p with
  | file f => cases hpa
  | arg b =>
      obtain rfl := Option.some.inj hpa
      rw [ArgSlices.read, h.read_eq hd hp (by simp [PartSlot.names]),
        h.read_eq hd hp (by simp [PartSlot.content])]
      rfl

theorem Recorded.filesOf_eq {body done m : List UInt8} {parts : List PartSlot}
    (h : Recorded body done parts) (hd : done <+: m) : filesOf m parts = filesOf done parts := by
  refine List.map_congr_left fun f hf => ?_
  obtain ⟨p, hp, hpf⟩ := List.mem_filterMap.1 hf
  cases p with
  | arg a => cases hpf
  | file g =>
      obtain rfl := Option.some.inj hpf
      rw [FileSlices.read, h.read_eq hd hp (by simp [PartSlot.content]),
        h.read_eq hd hp (by simp [PartSlot.names]), h.read_eq hd hp (by simp [PartSlot.names]),
        FileSlices.read]
      cases htype : g.type with
      | none => rfl
      | some t =>
          rw [Option.map_some, Option.map_some,
            h.read_eq hd hp (by simp [PartSlot.names, htype])]

/-- The result over the memory for the result `r` over the lists. -/
def Recovers (body : List UInt8) (r : PostResult) (x : Option PostSlices) : Prop :=
  ∃ parts, x = some ⟨parts.filterMap PartSlot.arg?, parts.filterMap PartSlot.file?,
      r.text ++ [nul]⟩ ∧
    Recorded body r.text parts ∧ r.post = argsOf r.text parts ∧ r.files = filesOf r.text parts

theorem Recorded.recovers {body done text m : List UInt8} {parts : List PartSlot}
    (h : Recorded body done parts) (hd : done <+: text) (hm : m = text ++ [nul]) :
    Recovers body ⟨argsOf done parts, filesOf done parts, text⟩
      (some ⟨parts.filterMap PartSlot.arg?, parts.filterMap PartSlot.file?, m⟩) :=
  ⟨parts, by rw [hm], h.extend hd, (h.argsOf_eq hd).symm, (h.filesOf_eq hd).symm⟩

/-- A place of the body: the bytes behind it have not been touched. -/
structure BodyPlace (body done rest : List UInt8) : Prop where
  le : done.length ≤ body.length
  rest_eq : rest = body.drop done.length

theorem BodyPlace.next {body done rest mid rest' : List UInt8} (h : BodyPlace body done rest)
    (hrest : rest' = rest.drop mid.length) (hle : mid.length ≤ rest.length) :
    BodyPlace body (done ++ mid) rest' := by
  have hlen := congrArg List.length h.rest_eq
  rw [List.length_drop] at hlen
  refine ⟨by rw [List.length_append]; have := h.le; omega, ?_⟩
  rw [hrest, h.rest_eq, List.drop_drop, List.length_append]

/-- A part with a content that is closed and with names that were read before. -/
theorem BodyPlace.sound {body done mid t : List UInt8}
    (h : BodyPlace body done (mid ++ cr :: lf :: hyphen :: hyphen :: t)) {q : PartSlot}
    (hcontent : q.content = ⟨done.length, mid.length⟩)
    (hnames : ∀ s ∈ q.names, s.stop ≤ done.length) : q.Sound body := by
  have hlen := congrArg List.length h.rest_eq
  simp only [List.length_append, List.length_cons, List.length_drop] at hlen
  refine ⟨?_, ?_, ?_⟩
  · rw [List.forall_mem_cons, hcontent]
    refine ⟨by simp only [Slice.stop]; omega, fun s hs => ?_⟩
    have hs := hnames s hs
    omega
  · rw [hcontent]
    exact hnames
  · rw [hcontent, Slice.stop, ← List.drop_drop, ← h.rest_eq, List.drop_left]
    exact ⟨t, rfl⟩

/-- The rest of a part, from behind the empty line on. The induction over the parts
gives `hnext`. -/
theorem content_recovers {body : List UInt8} (hmax : body.length + 4 < 2 ^ 32) {n : Nat}
    (hnext : ∀ {done rest : List UInt8} {parts : List PartSlot}, BodyPlace body done rest →
      rest.length < n → Recorded body done parts →
      Recovers body (readParts n done rest (argsOf done parts) (filesOf done parts))
        (partsAt body.length n (done ++ (rest ++ [nul])) done.length
          (parts.filterMap PartSlot.arg?) (parts.filterMap PartSlot.file?)))
    {done₀ done rest : List UInt8} {parts : List PartSlot} {s : PartSlices} {h : PartHeaders}
    (hplace : BodyPlace body done rest) (hn : rest.length < n) (hrec : Recorded body done₀ parts)
    (hd : done₀ <+: done) (hr : s.Reads done₀.length done h) :
    Recovers body
      (match h.name with
        | none => readParts n done rest (argsOf done parts) (filesOf done parts)
        | some name =>
            match toBoundary done rest with
            | .ended text => ⟨argsOf done parts, filesOf done parts, text⟩
            | .found done' rest' =>
                match h.filename with
                | some filename =>
                    readParts n (done' ++ nul :: (rest'.take 2).tail) (rest'.drop 2)
                      (argsOf done parts) (filesOf done parts ++ [⟨done'.drop done.length, name,
                        filename, h.contentType.getD (ascii "application/octet-stream")⟩])
                | none =>
                    readParts n (done' ++ nul :: (rest'.take 2).tail) (rest'.drop 2)
                      (argsOf done parts ++ [⟨name, done'.drop done.length⟩]) (filesOf done parts))
      (match s.name with
        | none =>
            partsAt body.length n (done ++ (rest ++ [nul])) done.length
              (parts.filterMap PartSlot.arg?) (parts.filterMap PartSlot.file?)
        | some name =>
            (boundaryAt body.length (done ++ (rest ++ [nul])).length (done ++ (rest ++ [nul]))
              done.length (done.length + 4)).bind fun
              | none => some ⟨parts.filterMap PartSlot.arg?, parts.filterMap PartSlot.file?,
                  done ++ (rest ++ [nul])⟩
              | some e =>
                  (storeAt (done ++ (rest ++ [nul])) e nul).bind fun m =>
                    match s.filename with
                    | some filename =>
                        partsAt body.length n m (e + 2) (parts.filterMap PartSlot.arg?)
                          (parts.filterMap PartSlot.file? ++
                            [⟨⟨done.length, e - done.length⟩, name, filename, s.contentType⟩])
                    | none =>
                        partsAt body.length n m (e + 2)
                          (parts.filterMap PartSlot.arg? ++
                            [⟨name, ⟨done.length, e - done.length⟩⟩])
                          (parts.filterMap PartSlot.file?)) := by
  have hrec' := hrec.extend hd
  rw [hr.name.value]
  cases hname : s.name with
  | none => exact hnext hplace hn hrec'
  | some name =>
      have hlen := congrArg List.length hplace.rest_eq
      have hle := hplace.le
      rw [List.length_drop] at hlen
      have hbounds := hr.name.bounds name hname
      simp only [Option.map_some]
      rw [boundaryAt_place _ _ (by omega) hmax (by simp; omega), Option.bind_some]
      cases hscan : toBoundary done rest with
      | ended text =>
          obtain rfl := toBoundary_ended hscan
          exact hrec'.recovers (List.prefix_append _ _) (by simp [List.append_assoc])
      | found done' rest' =>
          obtain ⟨mid, t, rfl, rfl, rfl⟩ := toBoundary_found hscan
          -- the place behind the line end that closes the content
          have hplace' : BodyPlace body (done ++ (mid ++ [nul, lf])) (hyphen :: hyphen :: t) :=
            hplace.next (by simp [List.drop_append]) (by simp)
          have hprefix : done <+: done ++ (mid ++ [nul, lf]) := List.prefix_append _ _
          have hread := Slice.read_append done mid [nul, lf] mid.length rfl
          have hstore : storeAt (done ++ (mid ++ cr :: lf :: hyphen :: hyphen :: t ++ [nul]))
              (done ++ mid).length nul =
                some (done ++ (mid ++ [nul, lf]) ++ (hyphen :: hyphen :: t ++ [nul])) := by
            have hcr := storeAt_place (done ++ mid) (lf :: hyphen :: hyphen :: t) cr nul
            simpa using hcr
          have hindex : (done ++ mid).length + 2 = (done ++ (mid ++ [nul, lf])).length := by
            simp only [List.length_append, List.length_cons, List.length_nil]
            omega
          have hdata : (done ++ mid).length - done.length = mid.length := by simp
          have hshort : (hyphen :: hyphen :: t).length < n := by
            simp only [List.length_append, List.length_cons] at hn ⊢
            omega
          simp only [Scanned.place]
          rw [hstore, Option.bind_some, hindex, hdata, hr.filename.value]
          simp only [List.drop_left, List.take_succ_cons, List.take_zero, List.tail_cons,
            List.drop_succ_cons, List.drop_zero, List.append_assoc done]
          have hname' := Slice.read_extend hbounds.2 hprefix
          cases hfile : s.filename with
          | none =>
              have hsound : (PartSlot.arg ⟨name, ⟨done.length, mid.length⟩⟩).Sound body :=
                hplace.sound rfl (by simpa [PartSlot.names] using hbounds.2)
              have hadd := hnext hplace' hshort (hrec.add (hd.trans hprefix) hsound
                (by simp [PartSlot.content, Slice.stop])
                (by simpa [PartSlot.names, PartSlot.content] using ⟨hd.length_le, hbounds.1⟩))
              rw [argsOf_append, filesOf_append, hrec'.argsOf_eq hprefix, hrec'.filesOf_eq hprefix,
                List.filterMap_append, List.filterMap_append] at hadd
              simp only [PartSlot.arg?, Option.map_some, Option.toList_some, ArgSlices.read, hread,
                hname'] at hadd
              simpa [PartSlot.file?, PartSlot.arg?, List.filterMap_cons] using hadd
          | some filename =>
              have hfilename := hr.filename.bounds filename hfile
              have htype : s.contentType.map (Slice.read (done ++ (mid ++ [nul, lf]))) =
                  h.contentType := (hr.extend hprefix).contentType.value.symm
              have hsound : (PartSlot.file ⟨⟨done.length, mid.length⟩, name, filename,
                  s.contentType⟩).Sound body := by
                refine hplace.sound rfl fun v hv => ?_
                obtain rfl | rfl | hv : v = name ∨ v = filename ∨ v ∈ s.contentType := by
                  simpa [PartSlot.names] using hv
                · exact hbounds.2
                · exact hfilename.2
                · exact (hr.contentType.bounds v hv).2
              have hadd := hnext hplace' hshort (hrec.add (hd.trans hprefix) hsound
                (by simp [PartSlot.content, Slice.stop]) (fun v hv => by
                  obtain rfl | rfl | rfl | hv : v = ⟨done.length, mid.length⟩ ∨ v = name ∨
                      v = filename ∨ v ∈ s.contentType := by
                    simpa [PartSlot.names, PartSlot.content] using hv
                  · exact hd.length_le
                  · exact hbounds.1
                  · exact hfilename.1
                  · exact (hr.contentType.bounds v hv).1))
              rw [argsOf_append, filesOf_append, hrec'.argsOf_eq hprefix, hrec'.filesOf_eq hprefix,
                List.filterMap_append, List.filterMap_append] at hadd
              simp only [PartSlot.file?, Option.map_some, Option.toList_some,
                FileSlices.read, hread,
                hname', htype, Slice.read_extend hfilename.2 hprefix] at hadd
              simpa [PartSlot.file?, PartSlot.arg?, List.filterMap_cons] using hadd

/-- The loop over the parts, from the beginning of a part on. -/
theorem partsAt_recovers {body : List UInt8} (hmax : body.length + 4 < 2 ^ 32) {n : Nat}
    {done rest : List UInt8} {parts : List PartSlot} (hplace : BodyPlace body done rest)
    (hn : rest.length < n) (hrec : Recorded body done parts) :
    Recovers body (readParts n done rest (argsOf done parts) (filesOf done parts))
      (partsAt body.length n (done ++ (rest ++ [nul])) done.length
        (parts.filterMap PartSlot.arg?) (parts.filterMap PartSlot.file?)) := by
  induction n generalizing done rest parts with
  | zero => omega
  | succ n ih =>
      have hfuel : ∀ a b : List UInt8, b.length < (a ++ (b ++ [nul])).length := by
        intro a b
        simp only [List.length_append, List.length_singleton]
        omega
      rw [partsAt, lineEnd_place _ _ (hfuel _ _), Option.bind_some, readParts]
      have hpass := toLineEnd_passes done rest
      cases hline : toLineEnd done rest with
      | ended text =>
          rw [hline] at hpass
          exact hrec.recovers hpass rfl
      | found done₁ rest₁ =>
          rw [hline] at hpass
          obtain ⟨mid₁, hdone₁, hrest₁, htwo₁, hle₁, hindex₁⟩ := hpass.next
          have hprefix₁ : done <+: done₁ ++ rest₁.take 2 := hdone₁ ▸ List.prefix_append _ _
          have hplace₁ : BodyPlace body (done₁ ++ rest₁.take 2) (rest₁.drop 2) := by
            rw [hdone₁]
            exact hplace.next hrest₁ hle₁
          have hmem₁ : done₁ ++ (rest₁ ++ [nul]) =
              done₁ ++ rest₁.take 2 ++ (rest₁.drop 2 ++ [nul]) := by
            rw [List.append_assoc, ← List.append_assoc (rest₁.take 2), List.take_append_drop]
          have hshort₁ : (rest₁.drop 2).length < n := by
            rw [hrest₁, List.length_drop]
            omega
          have hrec₁ := hrec.extend hprefix₁
          have hheaders := partHeadersAt_computes
            (k := (done₁ ++ rest₁.take 2).length) (n := rest₁.length + 1)
            (i := (done₁ ++ (rest₁ ++ [nul])).length) (j := rest₁.length + 1) (hfuel _ _)
            (Nat.le_refl _) (done₁ ++ rest₁.take 2) (rest₁.drop 2) ⟨none, none, none⟩
            ⟨none, none, none⟩ (by rw [List.length_drop]; omega) (Nat.le_refl _)
            ⟨sliceReads_none _ _, sliceReads_none _ _, sliceReads_none _ _⟩
          obtain ⟨s, hx, hpass₂, hreads⟩ := hheaders
          have hnul : (rest₁.drop 2).head?.getD nul = nul ↔
              rest₁.drop 2 = [] ∨ (rest₁.drop 2).head? = some nul := by
            cases rest₁.drop 2 with
            | nil => simp
            | cons c r => simp
          simp only [Scanned.place]
          rw [hmem₁] at hx ⊢
          rw [← hindex₁, getElem?_place, Option.bind_some, hx, Option.bind_some,
            ← hrec.argsOf_eq hprefix₁, ← hrec.filesOf_eq hprefix₁]
          simp only [hnul]
          split_ifs with hempty
          · exact hrec₁.recovers ((List.prefix_append_right_inj _).2 (List.take_prefix 2 rest₁))
              (by rw [← hmem₁, List.append_assoc])
          · cases hresult : readPartHeaders (rest₁.length + 1) (done₁ ++ rest₁.take 2)
              (rest₁.drop 2) ⟨none, none, none⟩ with
            | mk place h =>
              simp only [hresult] at hpass₂ hreads ⊢
              cases place with
              | ended text => exact hrec₁.recovers hpass₂ rfl
              | found done₂ rest₂ =>
                  obtain ⟨mid₂, hdone₂, hrest₂, htwo₂, hle₂, hindex₂⟩ := hpass₂.next
                  have hprefix₂ : done₁ ++ rest₁.take 2 <+: done₂ ++ rest₂.take 2 :=
                    hdone₂ ▸ List.prefix_append _ _
                  have hplace₂ : BodyPlace body (done₂ ++ rest₂.take 2) (rest₂.drop 2) := by
                    rw [hdone₂]
                    exact hplace₁.next hrest₂ hle₂
                  have hmem₂ : done₂ ++ (rest₂ ++ [nul]) =
                      done₂ ++ rest₂.take 2 ++ (rest₂.drop 2 ++ [nul]) := by
                    rw [List.append_assoc, ← List.append_assoc (rest₂.take 2),
                      List.take_append_drop]
                  have hcounter : uint ((done₂.length : Int) + 2 + 4) =
                      (done₂ ++ rest₂.take 2).length + 4 := by
                    have hle := hplace₂.le
                    unfold uint
                    omega
                  have hcontent := content_recovers hmax ih hplace₂
                    (by rw [hrest₂, List.length_drop]; omega) hrec₁ hprefix₂
                    ((hreads _ _ rfl).extend (List.prefix_append _ _))
                  rw [hrec₁.argsOf_eq hprefix₂, hrec₁.filesOf_eq hprefix₂] at hcontent
                  simp only [Scanned.place]
                  rw [hcounter, hmem₂, ← hindex₂]
                  exact hcontent

/-! ## The whole function -/

/-- What `http_parse_post` leaves of a body: the parts it counts are sound and stand
in the order in which they appear. -/
structure PostSlices.Robust (body : List UInt8) (e : PostSlices) : Prop where
  length_mem : e.mem.length = body.length + 1
  parts : ∃ parts : List PartSlot,
    parts.filterMap PartSlot.arg? = e.post ∧ parts.filterMap PartSlot.file? = e.files ∧
      (∀ p ∈ parts, p.Sound body) ∧
      parts.Pairwise fun p q => ∀ s ∈ q.content :: q.names, p.content.stop ≤ s.str

theorem recorded_nil (body done : List UInt8) : Recorded body done [] :=
  ⟨by simp, by simp, List.Pairwise.nil⟩

/-- The memory and the texts of the slices are what the reader of the lists returns. -/
theorem parsePostAt_eq {body : List UInt8} (hmax : body.length + 4 < 2 ^ 32)
    (hlen : 12 ≤ body.length) :
    Recovers body (readMultipart body) (parsePostAt (body ++ [nul]) body.length) := by
  have hplace : BodyPlace body [] body := ⟨Nat.zero_le _, rfl⟩
  have hparts := partsAt_recovers hmax (n := body.length + 1) hplace (Nat.lt_succ_self _)
    (recorded_nil body [])
  rw [parsePostAt, if_neg (by omega), List.length_append, List.length_singleton]
  exact hparts

/-- `http_parse_post` ends on every body and stays inside of its memory. The bound is
that of the 32-bit counter; the receiver admits `httpMaxRequestBodySize` bytes at most. -/
theorem parsePostAt_robust {body : List UInt8} (h : body.length + 4 < 2 ^ 32) :
    ∃ e, parsePostAt (body ++ [nul]) body.length = some e ∧ e.Robust body := by
  by_cases hlen : body.length < 12
  · exact ⟨_, if_pos hlen, by simp, [], rfl, rfl, by simp, List.Pairwise.nil⟩
  · obtain ⟨parts, heq, hrec, -, -⟩ := parsePostAt_eq h (by omega)
    refine ⟨_, heq, ?_, parts, rfl, rfl, hrec.sound, hrec.order⟩
    rw [List.length_append, List.length_singleton, ← (readMultipart_kept body).length_eq]

/-- A body with one field. -/
def fieldBody : List UInt8 :=
  ascii "--B\r\nContent-Disposition: form-data; name=\"a\"\r\n\r\nhello\r\n--B--"

theorem parsePostAt_fieldBody : fieldBody.length + 4 < 2 ^ 32 ∧
    ∃ e, parsePostAt (fieldBody ++ [nul]) fieldBody.length = some e ∧ e.Robust fieldBody :=
  ⟨by decide +kernel, parsePostAt_robust (by decide +kernel)⟩

example : (parsePostAt (fieldBody ++ [nul]) fieldBody.length).map PostSlices.post =
    some [⟨⟨43, 1⟩, ⟨49, 5⟩⟩] := by
  decide

end OpenTube
