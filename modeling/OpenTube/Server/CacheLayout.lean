import OpenTube.Http.GzipPage
import OpenTube.Lib.Block
import OpenTube.Server.Memcache

/-!
# The memory of the content cache

The records of `memcache.c` with the blocks their pointers point into. A value and
its compressed form share a block: the value, ten bytes for the header, the stream,
eight bytes for the checksum and the length. The block grows by 512 bytes for each
call of `deflate`, and is cut to its size at the end. All lengths are 32-bit numbers.

The records refine the entries of `OpenTube.Server.Memcache`, where a text is a list
of bytes and not a slice (`CacheRecord.Stores`), as long as no length overflows.
-/

namespace OpenTube

open List Heap

def httpFilesCacheElemsReservedSize : Nat := 64
def gzipBufferSize : Nat := 512

/-- `sizeof(cache_t)`. -/
def cacheElemSize : Nat := 64

/-! ## The functions -/

/-- `cache_t`, with the block `value.str` points to. -/
structure CacheRecord where
  key : UStr
  value : UStr
  gzippedValue : UStr
  updateCallback : Bool
  time : Nat
  block : Block UInt8
deriving DecidableEq, Repr

section

variable (fit : Bool) (place : Nat → Int)

/-- The loop of `gen_gzipped_value` for a value of `vlen` bytes: the length, the block
and the space that is left. The first argument of the recursion bounds the rounds;
`place` says where `realloc` puts the block. -/
def gzipRounds (vlen : Nat) : Nat → Nat → Block UInt8 → List UInt8 →
    Option (Nat × Block UInt8 × Nat)
  | 0, _, _, _ => none
  | n + 1, len, b, pending =>
      let len := uint (len + gzipBufferSize)
      let b := b.realloc (uint (vlen + len + 18)) (place n)
      let nextOut := b.data + (uint (vlen + len + 10 - gzipBufferSize) : Nat)
      let e := deflateFinish fit ⟨pending, gzipBufferSize, nextOut⟩
      (b.write nextOut e.1).bind fun b =>
        if e.2.2 = .streamEnd ∨ e.2.1.availOut ≠ 0 then some (len, b, e.2.1.availOut)
        else gzipRounds vlen n len b e.2.1.pending

variable (deflate : List UInt8 → List UInt8) (crc32 : List UInt8 → Nat)

/-- `gen_gzipped_value`. `deflate` gives the whole stream for a text. -/
def CacheRecord.genGzippedValue (c : CacheRecord) : Option CacheRecord :=
  let vlen := c.value.len
  (c.block.read c.value.str vlen).bind fun tmp =>
    let stream := deflate tmp
    (gzipRounds fit place vlen (stream.length / gzipBufferSize + 2) 0 c.block stream).bind fun e =>
      let len := if e.2.2 ≠ 0 then uint ((e.1 : Int) - e.2.2) else e.1
      let b := if e.2.2 ≠ 0 then e.2.1.realloc (uint (vlen + len + 18))
        (place (stream.length / gzipBufferSize + 2)) else e.2.1
      let gzippedValue : UStr := ⟨uint (len + 18), b.data + (vlen : Nat)⟩
      (b.write gzippedValue.str gzipHeader).bind fun b =>
        (b.read b.data vlen).bind fun value =>
          (b.write (gzippedValue.str + (len : Nat) + 10)
              (littleEndian (crc32 value) ++ littleEndian vlen)).map fun b =>
            { c with value := ⟨vlen, b.data⟩, gzippedValue := gzippedValue, block := b }

/-- A record with another value, in the block it has. -/
def CacheRecord.setValue (c : CacheRecord) (data : List UInt8) (addr : Int) :
    Option CacheRecord :=
  let b := c.block.realloc data.length addr
  (b.write b.data data).map fun b => { c with value := ⟨data.length, b.data⟩, block := b }

/-- The change of the record that `cache_update` finds. -/
def CacheRecord.update (c : CacheRecord) (res : Option (List UInt8)) (time : Nat) :
    Option CacheRecord :=
  if c.updateCallback = false then some c
  else
    match res with
    | none => some c
    | some data =>
        (c.setValue data (place (deflate data).length)).bind fun c =>
          CacheRecord.genGzippedValue fit place deflate crc32 { c with time := time }

/-- `cache` and `cache_names`. The block of `cache` has `size` bytes. -/
structure CacheMemory where
  size : Nat
  records : List CacheRecord
  names : Buf
deriving DecidableEq, Repr

/-- `cache_create`, with the names at `addr`. -/
def CacheMemory.create (addr : Int) : CacheMemory :=
  ⟨uint (cacheElemSize * httpFilesCacheElemsReservedSize), [], ⟨0, 0, addr, []⟩⟩

/-- The size of the block of `cache` with room for `n` records. -/
def CacheMemory.sizeFor (s : CacheMemory) (n : Nat) : Nat :=
  if httpFilesCacheElemsReservedSize < n then uint (cacheElemSize * n) else s.size

/-- The loop of `cache_update`. -/
def Buf.updateRecord (names : Buf) (name : List UInt8) (res : Option (List UInt8)) (time : Nat) :
    List CacheRecord → Option (List CacheRecord)
  | [] => some []
  | c :: l =>
      (names.isKey c.key name).bind fun b =>
        if b then (c.update fit place deflate crc32 res time).map fun c => c :: l
        else (names.updateRecord name res time l).map fun l => c :: l

/-- `cache_update`. -/
def CacheMemory.cacheUpdate (s : CacheMemory) (name : List UInt8) (res : Option (List UInt8))
    (time : Nat) : Option CacheMemory :=
  (s.names.updateRecord fit place deflate crc32 name res time s.records).map fun l =>
    { s with records := l }

/-- `cache_store`; `none` when the new record lies outside the block of `cache`. -/
def CacheMemory.cacheStore (s : CacheMemory) (name data : List UInt8) (updateCallback : Bool)
    (time : Nat) (addr : Int) : Option CacheMemory :=
  let curLen := uint (s.records.length + 1)
  let size := s.sizeFor curLen
  if cacheElemSize * curLen ≤ size ∧ curLen ≠ 0 then
    let e := s.names.expand name.length addr
    let records := if e.2 ≠ 0 then s.records.map fun c => { c with key := c.key.shift e.2 }
      else s.records
    let str := e.1.data + (uint (e.1.curLen - name.length) : Nat)
    (e.1.store str name).bind fun names =>
      let block := Block.alloc data.length (place (deflate data).length)
      (block.write block.data data).bind fun block =>
        (CacheRecord.genGzippedValue fit place deflate crc32
          ⟨⟨name.length, str⟩, ⟨data.length, block.data⟩, ⟨0, 0⟩, updateCallback, time, block⟩).map
            fun c => ⟨size, records ++ [c], names⟩
  else none

/-- One call, with the addresses `malloc` and `realloc` give the value. -/
def CacheMemory.call (s : CacheMemory) (call : CacheCall × (Nat → Int)) : Option CacheMemory :=
  match call.1 with
  | .store name data updateCallback time addr =>
      s.cacheStore fit call.2 deflate crc32 name data updateCallback time addr
  | .update name res time => s.cacheUpdate fit call.2 deflate crc32 name res time

end

/-! ## One value -/

/-- How often `deflate` is called for a stream of `n` bytes. -/
def gzipRoundsFor (fit : Bool) (n : Nat) : Nat :=
  if fit = true ∧ n ≠ 0 then (n + 511) / 512 else n / 512 + 1

/-- The block has room for a value of `vlen` bytes and a stream of `n` bytes, and for
the space `deflate` leaves in the last round. -/
def GzipFits (fit : Bool) (vlen n : Nat) : Prop := vlen + 512 * gzipRoundsFor fit n + 18 < 2 ^ 32

instance (fit : Bool) (vlen n : Nat) : Decidable (GzipFits fit vlen n) :=
  inferInstanceAs (Decidable (_ < _))

variable {fit : Bool} {place : Nat → Int}

/-- The cells of a value, the place of the header and what `deflate` wrote. -/
def valueCells (value out : List UInt8) : List (Option UInt8) :=
  value.map some ++ (replicate 10 none ++ out.map some)

theorem length_valueCells (value out : List UInt8) :
    (valueCells value out).length = value.length + 10 + out.length := by
  simp only [valueCells, length_append, length_map, length_replicate]
  omega

/-- `deflate` is done with the space of one round. -/
def GzipDone (fit : Bool) (n : Nat) : Prop := n < 512 ∨ n = 512 ∧ fit = true

instance (fit : Bool) (n : Nat) : Decidable (GzipDone fit n) := inferInstanceAs (Decidable (_ ∨ _))

theorem gzipRoundsFor_done {n : Nat} (h : GzipDone fit n) : gzipRoundsFor fit n = 1 := by
  unfold gzipRoundsFor
  rcases h with hlt | ⟨rfl, rfl⟩
  · split_ifs
    · omega
    · omega
  · rfl

theorem gzipRoundsFor_next {n : Nat} (h : ¬ GzipDone fit n) :
    512 ≤ n ∧ gzipRoundsFor fit n = gzipRoundsFor fit (n - 512) + 1 := by
  have hle : 512 ≤ n := Nat.le_of_not_lt fun hlt => h (.inl hlt)
  refine ⟨hle, ?_⟩
  unfold gzipRoundsFor
  cases fit with
  | false =>
      simp only [Bool.false_eq_true, false_and, if_false]
      omega
  | true =>
      have hne : n ≠ 512 := fun heq => h (.inr ⟨heq, rfl⟩)
      rw [if_pos ⟨rfl, by omega⟩, if_pos ⟨rfl, by omega⟩]
      omega

theorem gzipRoundsFor_pos (fit : Bool) (n : Nat) : 1 ≤ gzipRoundsFor fit n := by
  by_cases hdone : GzipDone fit n
  · exact Nat.le_of_eq (gzipRoundsFor_done hdone).symm
  · rw [(gzipRoundsFor_next hdone).2]
    exact Nat.le_add_left 1 _

theorem GzipDone.le {n : Nat} (h : GzipDone fit n) : n ≤ 512 := by
  rcases h with hlt | ⟨heq, -⟩
  · exact Nat.le_of_lt hlt
  · exact Nat.le_of_eq heq

/-- What one round does: it makes room for 512 bytes and fills it as far as the stream
goes. -/
theorem gzipRounds_round {value : List UInt8} (n : Nat) {out : List UInt8} (pending : List UInt8)
    {b : Block UInt8} (hb : b.Begins (valueCells value out))
    (hroom : value.length + out.length + 530 < 2 ^ 32) :
    ∃ c : Block UInt8,
      c.cells = valueCells value (out ++ pending.take 512) ++
        replicate (512 - min 512 pending.length + 8) none ∧
      gzipRounds fit place value.length (n + 1) out.length b pending =
        if GzipDone fit pending.length then some (out.length + 512, c, 512 - pending.length)
        else gzipRounds fit place value.length n (out.length + 512) c (pending.drop 512) := by
  have hlen : uint ((out.length : Int) + gzipBufferSize) = out.length + 512 := by
    unfold uint gzipBufferSize
    omega
  have hsize : uint ((value.length : Int) + (out.length + 512 : Nat) + 18) =
      value.length + out.length + 530 :=
    uint_eq (by omega) (by omega)
  have hnext : uint ((value.length : Int) + (out.length + 512 : Nat) + 10 - gzipBufferSize) =
      value.length + out.length + 10 := by
    unfold uint gzipBufferSize
    omega
  obtain ⟨b', hb'⟩ : ∃ b', b.realloc (value.length + out.length + 530) (place n) = b' := ⟨_, rfl⟩
  have hcells : b'.cells = valueCells value out ++
      (replicate (min 512 pending.length) none ++
        replicate (512 - min 512 pending.length + 8) none) := by
    have hspace : value.length + out.length + 530 - (valueCells value out).length =
        min 512 pending.length + (512 - min 512 pending.length + 8) := by
      rw [length_valueCells]
      omega
    rw [← hb', hb.cells_realloc (by rw [length_valueCells]; omega), hspace, replicate_add]
  have hwrite : b'.write (b'.data + (value.length + out.length + 10 : Nat)) (pending.take 512) =
      some { b' with cells := valueCells value out ++ ((pending.take 512).map some ++
        replicate (512 - min 512 pending.length + 8) none) } := by
    refine Block.write_eq hcells ?_ ?_
    · rw [length_replicate, length_take]
    · rw [length_valueCells]
      omega
  refine ⟨⟨b'.data, valueCells value out ++ ((pending.take 512).map some ++
    replicate (512 - min 512 pending.length + 8) none)⟩, ?_, ?_⟩
  · simp only [valueCells, map_append, append_assoc]
  · simp only [gzipRounds, hlen, hsize, hnext, hb', deflateFinish]
    rw [show gzipBufferSize = 512 from rfl, hwrite, Option.bind_some, length_take]
    by_cases hdone : GzipDone fit pending.length
    · rw [if_pos hdone, if_pos (.inl (if_pos hdone)), Nat.min_eq_right hdone.le]
    · have hmin : min 512 pending.length = 512 := Nat.min_eq_left (gzipRoundsFor_next hdone).1
      have hcode : ¬ (pending.length < 512 ∨ pending.length = 512 ∧ fit = true) := hdone
      rw [if_neg hdone, if_neg (by simp [hcode, hmin])]

/-- The rounds write the stream behind the place of the header. -/
theorem gzipRounds_eq {value : List UInt8} {n : Nat} {out pending : List UInt8} {b : Block UInt8}
    (hb : b.Begins (valueCells value out))
    (hroom : value.length + out.length + 512 * gzipRoundsFor fit pending.length + 18 < 2 ^ 32)
    (hfuel : gzipRoundsFor fit pending.length ≤ n) :
    ∃ (c : Block UInt8) (left : Nat),
      gzipRounds fit place value.length n out.length b pending =
        some (out.length + pending.length + left, c, left) ∧
      value.length + out.length + pending.length + left + 18 < 2 ^ 32 ∧
      c.cells = valueCells value (out ++ pending) ++ replicate (left + 8) none := by
  have hpos := gzipRoundsFor_pos fit pending.length
  induction n generalizing out pending b with
  | zero => omega
  | succ n ih =>
      obtain ⟨c, hcells, hround⟩ := @gzipRounds_round fit place value n out pending b hb (by omega)
      by_cases hdone : GzipDone fit pending.length
      · rw [if_pos hdone] at hround
        have hone := gzipRoundsFor_done hdone
        have hle := hdone.le
        rw [take_of_length_le hle, Nat.min_eq_right hle] at hcells
        refine ⟨c, 512 - pending.length, ?_, by omega, hcells⟩
        rw [hround, Nat.add_assoc, Nat.add_sub_cancel' hle]
      · rw [if_neg hdone] at hround
        obtain ⟨hle, hnext⟩ := gzipRoundsFor_next hdone
        have hout : (out ++ pending.take 512).length = out.length + 512 := by
          rw [length_append, length_take, Nat.min_eq_left hle]
        rw [← length_drop] at hnext
        have hpos' := gzipRoundsFor_pos fit (pending.drop 512).length
        obtain ⟨d, left, hd, hlt, hdcells⟩ := @ih (out ++ pending.take 512) (pending.drop 512) c
          (Block.begins_of_eq hcells) (by rw [hout]; omega) (by omega) hpos'
        rw [hout, length_drop] at hd hlt
        have htotal : out.length + 512 + (pending.length - 512) = out.length + pending.length := by
          omega
        rw [htotal] at hd
        refine ⟨d, left, by rw [hround, hd], by omega, ?_⟩
        rw [hdcells, append_assoc out, take_append_drop]

variable {deflate : List UInt8 → List UInt8} {crc32 : List UInt8 → Nat}

/-- The compressed form of a value, for a compression that never fails. -/
def gzippedForm (deflate : List UInt8 → List UInt8) (crc32 : List UInt8 → Nat)
    (value : List UInt8) : List UInt8 :=
  gzipped (fun value => some (deflate value)) crc32 value

theorem length_gzippedForm (value : List UInt8) :
    (gzippedForm deflate crc32 value).length = (deflate value).length + 18 := by
  simp only [gzippedForm, gzipped, littleEndian, gzipHeader, length_append, length_cons, length_nil]
  omega

/-- The block is cut to the size of the value and its compressed form. -/
theorem cells_trimmed {value stream : List UInt8} {b : Block UInt8} {left : Nat}
    (hb : b.cells = valueCells value stream ++ replicate (left + 8) none)
    (hroom : value.length + stream.length + left + 18 < 2 ^ 32) (addr : Int) :
    (if left ≠ 0 then uint ((stream.length + left : Nat) - left) else stream.length + left) =
        stream.length ∧
      ∃ c, (if left ≠ 0 then b.realloc (uint (value.length + (stream.length : Nat) + 18)) addr
          else b) = c ∧
        c.cells = valueCells value stream ++ replicate 8 none := by
  by_cases hleft : left = 0
  · subst hleft
    exact ⟨rfl, b, rfl, hb⟩
  · have hlen : uint (((stream.length + left : Nat) : Int) - left) = stream.length :=
      uint_eq (by omega) (by omega)
    have hsize : uint ((value.length : Int) + (stream.length : Nat) + 18) =
        value.length + stream.length + 18 :=
      uint_eq (by omega) (by omega)
    have hspace : value.length + stream.length + 18 - (valueCells value stream).length = 8 := by
      rw [length_valueCells]
      omega
    have hbegins := Block.begins_of_eq hb
    rw [if_pos hleft, if_pos hleft, hlen, hsize]
    refine ⟨rfl, _, rfl, ?_⟩
    rw [hbegins.cells_realloc (by rw [length_valueCells]; omega), hspace]

/-- The slices of a record hold the texts of an entry, one behind the other. -/
structure CacheRecord.Stores (r : CacheRecord) (c : CacheEntry) : Prop where
  key : r.key = c.key
  value : r.value = ⟨c.value.length, r.block.data⟩
  gzippedValue : r.gzippedValue = ⟨c.gzippedValue.length, r.block.data + (c.value.length : Nat)⟩
  cells : r.block.cells = (c.value ++ c.gzippedValue).map some
  updateCallback : r.updateCallback = c.updateCallback
  time : r.time = c.time

/-- A value and its compressed form share the block. -/
theorem CacheRecord.genGzippedValue_eq {c : CacheRecord} {value : List UInt8}
    (hcells : c.block.cells = value.map some) (hvalue : c.value = ⟨value.length, c.block.data⟩)
    (hfits : GzipFits fit value.length (deflate value).length) :
    ∃ r, c.genGzippedValue fit place deflate crc32 = some r ∧
      r.Stores ⟨c.key, value, gzippedForm deflate crc32 value, c.updateCallback, c.time⟩ := by
  obtain ⟨stream, hstream⟩ : ∃ stream, deflate value = stream := ⟨_, rfl⟩
  rw [hstream] at hfits
  unfold GzipFits at hfits
  have hread : c.block.read c.value.str value.length = some value :=
    Block.read_eq (show c.block.cells = [] ++ (value.map some ++ []) by simpa using hcells)
      (by simp [hvalue])
  have hbegins : c.block.Begins (valueCells value []) := by
    have happend := c.block.begins_cells.append 10
    rw [hcells] at happend
    simpa [valueCells] using happend
  have hrounds : gzipRoundsFor fit stream.length ≤ stream.length / gzipBufferSize + 2 := by
    unfold gzipRoundsFor gzipBufferSize
    split_ifs
    · omega
    · omega
  obtain ⟨d, left, hloop, hroom, hd⟩ := @gzipRounds_eq fit place value _ [] stream c.block hbegins
    (by simpa using hfits) hrounds
  simp only [nil_append, length_nil, Nat.zero_add, Nat.add_zero] at hloop hroom hd
  obtain ⟨hlen, b, hb, hbcells⟩ :=
    cells_trimmed hd hroom (place (stream.length / gzipBufferSize + 2))
  have hparts : b.cells = value.map some ++
      (replicate 10 none ++ (stream.map some ++ replicate 8 none)) := by
    rw [hbcells]
    simp only [valueCells, append_assoc]
  have hheader : b.write (b.data + (value.length : Nat)) gzipHeader =
      some { b with cells := value.map some ++
        (gzipHeader.map some ++ (stream.map some ++ replicate 8 none)) } :=
    Block.write_eq hparts rfl (by rw [length_map])
  have hagain : Block.read { b with cells := value.map some ++
      (gzipHeader.map some ++ (stream.map some ++ replicate 8 none)) } b.data value.length =
      some value := Block.read_eq (nil_append _).symm (by simp)
  have hsplit : value.map some ++ (gzipHeader.map some ++ (stream.map some ++ replicate 8 none)) =
      value.map some ++ gzipHeader.map some ++ stream.map some ++ (replicate 8 none ++ []) := by
    simp only [append_assoc, append_nil]
  have hending : Block.write { b with cells := value.map some ++
      (gzipHeader.map some ++ (stream.map some ++ replicate 8 none)) }
      (b.data + (value.length : Nat) + (stream.length : Nat) + 10)
      (littleEndian (crc32 value) ++ littleEndian value.length) =
      some { b with cells := value.map some ++ gzipHeader.map some ++ stream.map some ++
        ((littleEndian (crc32 value) ++ littleEndian value.length).map some ++ []) } := by
    refine Block.write_eq hsplit rfl ?_
    simp only [length_append, length_map, gzipHeader, length_cons, length_nil]
    omega
  have hgzlen : uint ((stream.length : Int) + 18) = stream.length + 18 := by
    have hpos := gzipRoundsFor_pos fit stream.length
    exact uint_eq (by omega) (by omega)
  have hform : value.map some ++ gzipHeader.map some ++ stream.map some ++
      ((littleEndian (crc32 value) ++ littleEndian value.length).map some ++ []) =
      (value ++ gzippedForm deflate crc32 value).map some := by
    simp only [gzippedForm, gzipped, hstream, map_append, append_assoc, append_nil]
  have hvlen : c.value.len = value.length := by rw [hvalue]
  refine ⟨{ c with
    value := ⟨value.length, b.data⟩
    gzippedValue := ⟨(gzippedForm deflate crc32 value).length, b.data + (value.length : Nat)⟩
    block := { b with cells := (value ++ gzippedForm deflate crc32 value).map some } }, ?_,
    ⟨rfl, rfl, rfl, rfl, rfl, rfl⟩⟩
  simp only [CacheRecord.genGzippedValue, hvlen, hread, Option.bind_some, hstream, hloop, hlen, hb,
    hheader, hagain, hending, Option.map_some, hgzlen, hform, length_gzippedForm]

variable (place crc32) in
/-- A new value is stored and compressed. -/
theorem CacheRecord.Stores.update {r : CacheRecord} {c : CacheEntry} (h : r.Stores c)
    (res : Option (List UInt8)) (time : Nat)
    (hfits : r.updateCallback = true → ∀ data ∈ res,
      GzipFits fit data.length (deflate data).length) :
    ∃ r', r.update fit place deflate crc32 res time = some r' ∧
      r'.Stores (c.update (fun value => some (deflate value)) crc32 res time) := by
  unfold CacheRecord.update CacheEntry.update
  rw [← h.updateCallback]
  cases hcall : r.updateCallback with
  | false => exact ⟨r, rfl, h⟩
  | true =>
      cases res with
      | none => exact ⟨r, rfl, h⟩
      | some data =>
          obtain ⟨b, hb⟩ : ∃ b, r.block.realloc data.length (place (deflate data).length) = b :=
            ⟨_, rfl⟩
          have hlen : b.cells.length = data.length := by
            rw [← hb, Block.realloc]
            simp only [length_append, length_take, length_replicate]
            omega
          have hset : r.setValue data (place (deflate data).length) =
              some { r with
                value := ⟨data.length, b.data⟩
                block := { b with cells := data.map some } } := by
            have hwrite := Block.write_eq (b := b) (a := b.data) (l := data)
              (show b.cells = [] ++ (b.cells ++ []) by simp) hlen (by simp)
            simp only [CacheRecord.setValue, hb, hwrite, Option.map_some, nil_append, append_nil]
          obtain ⟨r', hgen, hstores⟩ := @CacheRecord.genGzippedValue_eq fit place deflate crc32
            { r with
              value := ⟨data.length, b.data⟩
              time := time
              block := { b with cells := data.map some } } data rfl rfl (hfits hcall data rfl)
          refine ⟨r', ?_, ?_⟩
          · simp only [Bool.true_eq_false, if_false, hset, Option.bind_some]
            exact hgen
          · rw [hcall, h.key] at hstores
            exact hstores

/-! ## The arrays -/

/-- Where a step of the cache has room: for one more record, for the name and for the
compressed form of the value. -/
def CacheMemory.Fits (fit : Bool) (deflate : List UInt8 → List UInt8) (s : CacheMemory) :
    CacheCall × (Nat → Int) → Prop
  | (.store name data _ _ _, _) =>
      s.records.length + 1 < 2 ^ 26 ∧ s.names.curLen + name.length < 2 ^ 32 ∧
        GzipFits fit data.length (deflate data).length
  | (.update name (some data) _, _) =>
      (∃ c ∈ s.records, s.names.deref c.key = some name ∧ c.updateCallback = true) →
        GzipFits fit data.length (deflate data).length
  | (.update _ none _, _) => True

instance CacheMemory.Fits.decidable (fit : Bool) (deflate : List UInt8 → List UInt8)
    (s : CacheMemory) : ∀ call, Decidable (s.Fits fit deflate call)
  | (.store _ _ _ _ _, _) => inferInstanceAs (Decidable (_ ∧ _ ∧ _))
  | (.update _ (some _) _, _) => inferInstanceAs (Decidable (_ → _))
  | (.update _ none _, _) => inferInstanceAs (Decidable True)

/-- The memory holds the arrays of `OpenTube.Server.Memcache`. -/
structure CacheMemory.Refines (m : CacheMemory) (s : Cache) : Prop where
  names : m.names = s.names
  records : List.Forall₂ CacheRecord.Stores m.records s.entries
  size : cacheElemSize * httpFilesCacheElemsReservedSize ≤ m.size

theorem refines_cacheCreate (addr : Int) :
    (CacheMemory.create addr).Refines (cacheCreate addr) where
  names := rfl
  records := .nil
  size := Nat.le_of_eq rfl

variable {m : CacheMemory} {s : Cache} {l : List (List UInt8 × Cached)}

variable (place) in
theorem updateRecord_refines {names : Buf} {rs : List CacheRecord} {cs : List CacheEntry}
    (hrs : List.Forall₂ CacheRecord.Stores rs cs)
    (hcs : List.Forall₂ (CacheEntry.For (fun value => some (deflate value)) crc32 names) cs l)
    {name : List UInt8} {res : Option (List UInt8)} (time : Nat)
    (hfits : ∀ data ∈ res,
      (∃ r ∈ rs, names.deref r.key = some name ∧ r.updateCallback = true) →
        GzipFits fit data.length (deflate data).length) :
    ∃ rs' cs', names.updateRecord fit place deflate crc32 name res time rs = some rs' ∧
      names.updateEntry (fun value => some (deflate value)) crc32 name res time cs = some cs' ∧
      List.Forall₂ CacheRecord.Stores rs' cs' := by
  induction hrs generalizing l with
  | nil => exact ⟨[], [], rfl, rfl, .nil⟩
  | @cons r c rs cs hr hrs ih =>
      cases hcs with
      | @cons _ e _ l hc hcs =>
          have hkey := hc.isKey name
          rw [Buf.updateRecord, Buf.updateEntry, hr.key, hkey, Option.bind_some, Option.bind_some]
          by_cases hname : name = e.1
          · have hderef : names.deref r.key = some name := by rw [hr.key, hc.key, hname]
            obtain ⟨r', hr', hstores⟩ := hr.update place crc32 res time
              fun hcall data hdata => hfits data hdata ⟨r, mem_cons_self, hderef, hcall⟩
            rw [if_pos (decide_eq_true hname), if_pos (decide_eq_true hname), hr']
            exact ⟨_, _, rfl, rfl, .cons hstores hrs⟩
          · obtain ⟨rs', cs', hrs', hcs', hforall⟩ := ih hcs fun data hdata hex =>
              hfits data hdata (hex.imp fun _ hk => ⟨mem_cons_of_mem _ hk.1, hk.2⟩)
            have hfalse : ¬ decide (name = e.1) = true := by simpa using hname
            rw [if_neg hfalse, if_neg hfalse, hrs', hcs']
            exact ⟨_, _, rfl, rfl, .cons hr hforall⟩

/-- The block of `cache` has room for one more record. -/
theorem CacheMemory.Refines.sizeFor (h : m.Refines s) {n : Nat} (hn : n < 2 ^ 26) :
    cacheElemSize * n ≤ m.sizeFor n ∧
      cacheElemSize * httpFilesCacheElemsReservedSize ≤ m.sizeFor n := by
  have hsize := h.size
  by_cases hlt : httpFilesCacheElemsReservedSize < n
  · have heq : m.sizeFor n = cacheElemSize * n := by
      rw [CacheMemory.sizeFor, if_pos hlt]
      simp only [cacheElemSize]
      unfold uint
      omega
    rw [heq]
    exact ⟨Nat.le_refl _, Nat.mul_le_mul_left _ (Nat.le_of_lt hlt)⟩
  · have heq : m.sizeFor n = m.size := if_neg hlt
    rw [heq]
    exact ⟨Nat.le_trans (Nat.mul_le_mul_left _ (Nat.le_of_not_lt hlt)) hsize, hsize⟩

/-- The name is stored behind the others. -/
theorem Cache.Holds.store_name (hs : s.Holds (fun value => some (deflate value)) crc32 l)
    {name : List UInt8} (hlen : s.names.curLen + name.length < 2 ^ 32) (addr : Int) :
    let e := (s.names.expand name.length addr).1
    let str := e.data + (uint (e.curLen - name.length) : Nat)
    e.store str name = some (e.write str name) := by
  obtain ⟨hmem, hcurLen, hstr⟩ := hs.expand_names hlen addr
  simp only [hcurLen, hstr]
  unfold Buf.store
  split_ifs with hnil hrange
  · subst hnil
    rw [Buf.write_end (by rw [hmem])]
    simp
  · rfl
  · have hcur := hs.mem
    exact absurd ⟨by omega, by rw [hmem]; omega, by rw [hcurLen]; omega⟩ hrange

variable (place) in
theorem CacheMemory.Refines.cacheStore (h : m.Refines s)
    (hs : s.Holds (fun value => some (deflate value)) crc32 l) {name data : List UInt8}
    (hcount : m.records.length + 1 < 2 ^ 26) (hnames : m.names.curLen + name.length < 2 ^ 32)
    (hfits : GzipFits fit data.length (deflate data).length) (updateCallback : Bool) (time : Nat)
    (addr : Int) :
    ∃ m', m.cacheStore fit place deflate crc32 name data updateCallback time addr = some m' ∧
      m'.Refines
        (s.cacheStore (fun value => some (deflate value)) crc32 name data updateCallback time
          addr) := by
  rw [h.names] at hnames
  have hcur : uint ((m.records.length : Int) + 1) = m.records.length + 1 :=
    uint_eq (by omega) (by omega)
  obtain ⟨hsize, hreserved⟩ := h.sizeFor hcount
  obtain ⟨str, hstr⟩ : ∃ str, (s.names.expand name.length addr).1.data +
      (uint ((s.names.expand name.length addr).1.curLen - name.length) : Nat) = str := ⟨_, rfl⟩
  have hname := hs.store_name hnames addr
  simp only [hstr] at hname
  obtain ⟨r, hgen, hstores⟩ := @CacheRecord.genGzippedValue_eq fit place deflate crc32
    ⟨⟨name.length, str⟩, ⟨data.length, place (deflate data).length⟩, ⟨0, 0⟩, updateCallback, time,
      ⟨place (deflate data).length, data.map some⟩⟩ data rfl rfl hfits
  refine ⟨⟨m.sizeFor (m.records.length + 1),
    (if (s.names.expand name.length addr).2 ≠ 0 then m.records.map fun c =>
        { c with key := c.key.shift (s.names.expand name.length addr).2 }
      else m.records) ++ [r], (s.names.expand name.length addr).1.write str name⟩, ?_, ?_⟩
  · simp only [CacheMemory.cacheStore, hcur, h.names, hstr, hname]
    rw [if_pos ⟨hsize, by omega⟩]
    simp only [Option.bind_some]
    rw [show (Block.alloc data.length (place (deflate data).length) : Block UInt8).data =
      place (deflate data).length from rfl, Block.write_alloc, Option.bind_some, hgen,
      Option.map_some]
  · simp only [Cache.cacheStore, hstr]
    refine ⟨rfl, List.rel_append ?_ (.cons hstores .nil), hreserved⟩
    split_ifs
    · rw [ajustKeyPtrs, List.forall₂_map_left_iff, List.forall₂_map_right_iff]
      exact h.records.imp fun r c hr =>
        ⟨by simp only [hr.key], hr.value, hr.gzippedValue, hr.cells, hr.updateCallback, hr.time⟩
    · exact h.records

theorem CacheMemory.Refines.call (h : m.Refines s)
    (hs : s.Holds (fun value => some (deflate value)) crc32 l) {call : CacheCall × (Nat → Int)}
    (hfits : m.Fits fit deflate call) :
    ∃ m' s', m.call fit deflate crc32 call = some m' ∧ m'.Refines s' ∧
      s'.Holds (fun value => some (deflate value)) crc32 (assocCall l call.1) := by
  obtain ⟨call, place⟩ := call
  cases call with
  | store name data updateCallback time addr =>
      obtain ⟨hcount, hnames, hgzip⟩ := hfits
      obtain ⟨m', hm', hrefines⟩ :=
        h.cacheStore place hs hcount hnames hgzip updateCallback time addr
      refine ⟨m', _, hm', hrefines, hs.cacheStore ?_ data updateCallback time addr⟩
      rw [← hs.curLen, ← h.names]
      exact hnames
  | update name res time =>
      have hroom : ∀ data ∈ res, (∃ r ∈ m.records, m.names.deref r.key = some name ∧
          r.updateCallback = true) → GzipFits fit data.length (deflate data).length := by
        rintro data rfl
        exact hfits
      rw [h.names] at hroom
      obtain ⟨rs, cs, hrs, hcs, hforall⟩ :=
        updateRecord_refines place h.records hs.entries time hroom
      obtain ⟨s', hs', hholds⟩ := hs.cacheUpdate name res time
      obtain rfl : (⟨cs, s.names⟩ : Cache) = s' := by
        simpa [Cache.cacheUpdate, hcs] using hs'
      refine ⟨{ m with records := rs }, ⟨cs, s.names⟩, ?_, ⟨h.names, hforall, h.size⟩, hholds⟩
      simp only [CacheMemory.call, CacheMemory.cacheUpdate, h.names, hrs, Option.map_some]

/-! ## Runs -/

/-- The slices of a record hold what is stored under the name: the name, the value and,
right behind the value, its compressed form. -/
structure CacheRecord.Laid (deflate : List UInt8 → List UInt8) (crc32 : List UInt8 → Nat)
    (names : Buf) (r : CacheRecord) (e : List UInt8 × Cached) : Prop where
  key : names.deref r.key = some e.1
  value : r.block.read r.value.str r.value.len = some e.2.value
  behind : r.gzippedValue.len ≠ 0 → r.gzippedValue.str = r.value.str + (r.value.len : Nat)
  gzippedValue : r.gzippedValue.len ≠ 0 → r.block.read r.gzippedValue.str r.gzippedValue.len =
    some (gzipHeader ++ deflate e.2.value ++
      (littleEndian (crc32 e.2.value) ++ littleEndian e.2.value.length))

theorem CacheRecord.Stores.laid {names : Buf} {r : CacheRecord} {c : CacheEntry}
    {e : List UInt8 × Cached} (h : r.Stores c)
    (hc : c.For (fun value => some (deflate value)) crc32 names e) :
    r.Laid deflate crc32 names e := by
  have hvalue : c.value = e.2.value := by
    rw [hc.entry]
    rfl
  have hgzipped : c.gzippedValue = gzippedForm deflate crc32 e.2.value := by
    rw [hc.entry]
    rfl
  have hcells := h.cells
  rw [map_append] at hcells
  refine ⟨by rw [h.key, hc.key], ?_, fun _ => ?_, fun _ => ?_⟩
  · rw [h.value, ← hvalue]
    exact Block.read_eq ((nil_append _).trans hcells.symm).symm (by simp)
  · rw [h.gzippedValue, h.value]
  · rw [h.gzippedValue]
    refine (Block.read_eq (l := c.gzippedValue) (by rw [hcells, append_nil]) ?_).trans ?_
    · rw [length_map]
    · rw [hgzipped]
      rfl

/-- The records hold the pairs of a list, in their order. -/
def CacheMemory.LaidOut (deflate : List UInt8 → List UInt8) (crc32 : List UInt8 → Nat)
    (m : CacheMemory) (l : List (List UInt8 × Cached)) : Prop :=
  List.Forall₂ (CacheRecord.Laid deflate crc32 m.names) m.records l

theorem laidOut_of_records {names : Buf} {rs : List CacheRecord} {cs : List CacheEntry}
    (hrs : List.Forall₂ CacheRecord.Stores rs cs)
    (hcs : List.Forall₂ (CacheEntry.For (fun value => some (deflate value)) crc32 names) cs l) :
    List.Forall₂ (CacheRecord.Laid deflate crc32 names) rs l := by
  induction hrs generalizing l with
  | nil =>
      cases hcs
      exact .nil
  | cons hr hrs ih =>
      cases hcs with
      | cons hc hcs => exact .cons (hr.laid hc) (ih hcs)

theorem laidOut_of_run_of_refines {calls : List (CacheCall × (Nat → Int))} (h : m.Refines s)
    (hs : s.Holds (fun value => some (deflate value)) crc32 l)
    (hfits : Machine.Meets (CacheMemory.call fit deflate crc32) (CacheMemory.Fits fit deflate) m
      calls) :
    ∃ m', Machine.run (CacheMemory.call fit deflate crc32) m calls = some m' ∧
      m'.LaidOut deflate crc32 ((calls.map Prod.fst).foldl assocCall l) := by
  induction calls generalizing m s l with
  | nil =>
      refine ⟨m, rfl, ?_⟩
      rw [CacheMemory.LaidOut, h.names]
      exact laidOut_of_records h.records hs.entries
  | cons call calls ih =>
      obtain ⟨hcall, hrest⟩ := hfits
      obtain ⟨m₁, s₁, hm₁, hrefines, hholds⟩ := h.call hs hcall
      obtain ⟨m', hrun, hlaid⟩ := ih hrefines hholds (hrest m₁ hm₁)
      refine ⟨m', ?_, hlaid⟩
      rw [Machine.run_cons, hm₁, Option.bind_some, hrun]

/-- Whatever is stored and updated and wherever the blocks are moved, every record is
laid out right as long as each step has room. -/
theorem laidOut_of_run (deflate : List UInt8 → List UInt8) (crc32 : List UInt8 → Nat)
    {fit : Bool} {addr : Int} {calls : List (CacheCall × (Nat → Int))}
    (hfits : Machine.Meets (CacheMemory.call fit deflate crc32) (CacheMemory.Fits fit deflate)
      (.create addr) calls) :
    ∃ m, Machine.run (CacheMemory.call fit deflate crc32) (.create addr) calls = some m ∧
      m.LaidOut deflate crc32 ((calls.map Prod.fst).foldl assocCall []) :=
  laidOut_of_run_of_refines (refines_cacheCreate addr) (holds_cacheCreate _ crc32 addr) hfits

/-- Two names, the first of which is updated with a longer value. -/
def twoValues : List (CacheCall × (Nat → Int)) :=
  [(.store (ascii "a") (ascii "1") true 7 64, fun n => 1000 * n),
    (.store (ascii "b") [] false 7 512, fun n => 4096 + n),
    (.update (ascii "a") (some (ascii "23")) 9, fun n => 3000 * n)]

theorem laidOut_of_run_twoValues :
    ∃ m, Machine.run (CacheMemory.call true (fun value => (storeBlock value).getD []) fun _ => 0)
        (.create 0) twoValues = some m ∧
      m.LaidOut (fun value => (storeBlock value).getD []) (fun _ => 0)
        ((twoValues.map Prod.fst).foldl assocCall []) :=
  laidOut_of_run _ _ (by decide +kernel)

/-! ## A value that is too long -/

/-- With a value of almost `2 ^ 32` bytes the size of the block wraps around in the
first round, and `deflate` writes behind it. -/
theorem gzipRounds_overflow {vlen n : Nat} {b : Block UInt8} {pending : List UInt8}
    (hlt : vlen + 10 < 2 ^ 32) (hover : 2 ^ 32 ≤ vlen + 530) (hpending : pending ≠ []) :
    gzipRounds fit place vlen n 0 b pending = none := by
  cases n with
  | zero => rfl
  | succ n =>
      have hlen : uint (((0 : Nat) : Int) + gzipBufferSize) = 512 := rfl
      have hsize : uint ((vlen : Int) + (512 : Nat) + 18) = vlen + 530 - 2 ^ 32 := by
        unfold uint
        omega
      have hnext : uint ((vlen : Int) + (512 : Nat) + 10 - gzipBufferSize) = vlen + 10 := by
        unfold uint gzipBufferSize
        omega
      simp only [gzipRounds, hlen, hsize, hnext, deflateFinish]
      rw [Block.write_eq_none, Option.bind_none]
      · simpa [gzipBufferSize] using hpending
      · simp only [Block.realloc, length_append, length_take, length_replicate]
        omega

theorem not_laidOut_long :
    ¬ ∃ fit deflate crc32, deflate (replicate (2 ^ 32 - 100) 0) ≠ [] ∧
      ∃ m, Machine.run (CacheMemory.call fit deflate crc32) (.create 0)
          [(.store (ascii "a") (replicate (2 ^ 32 - 100) 0) false 7 64, fun n => n)] = some m ∧
        m.LaidOut deflate crc32 [(ascii "a", ⟨replicate (2 ^ 32 - 100) 0, false, 7⟩)] := by
  rintro ⟨fit, deflate, crc32, hstream, m, hrun, -⟩
  obtain ⟨data, hdata⟩ : ∃ data, replicate (2 ^ 32 - 100) (0 : UInt8) = data := ⟨_, rfl⟩
  have hlen : data.length = 2 ^ 32 - 100 := by rw [← hdata, length_replicate]
  rw [hdata] at hrun hstream
  have hgen : ∀ (key : UStr) (addr : Int),
      CacheRecord.genGzippedValue fit (fun n => n) deflate crc32
        ⟨key, ⟨data.length, addr⟩, ⟨0, 0⟩, false, 7, ⟨addr, data.map some⟩⟩ = none := by
    intro key addr
    have hread : (⟨addr, data.map some⟩ : Block UInt8).read addr data.length = some data :=
      Block.read_eq (show data.map some = [] ++ (data.map some ++ []) by simp) (by simp)
    simp only [CacheRecord.genGzippedValue, hread, Option.bind_some]
    rw [gzipRounds_overflow (by omega) (by omega) hstream, Option.bind_none]
  have hstore : (CacheMemory.create 0).cacheStore fit (fun n => n) deflate crc32 (ascii "a") data
      false 7 64 = none := by
    simp only [CacheMemory.cacheStore]
    rw [show ∀ n addr, (Block.alloc n addr : Block UInt8).data = addr from fun _ _ => rfl,
      Block.write_alloc]
    simp only [Option.bind_some, hgen, Option.map_none, Option.bind_fun_none, ite_self]
  simp only [Machine.run_cons, CacheMemory.call, hstore, Option.bind_none] at hrun
  simp at hrun

end OpenTube
