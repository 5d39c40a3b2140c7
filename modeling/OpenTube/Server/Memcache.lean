import OpenTube.Lib.Assoc
import OpenTube.Lib.Run
import OpenTube.Http.Handler

/-!
# The content cache

`memcache.c` keeps an array of entries and a second array with their names one
behind the other; the key of an entry is an address in the second array, so every
key is moved along when that array is. Entries are appended and a search takes the
first one whose key is the name.

The array refines an association list (`Cache.Holds`), whatever is stored and
wherever the names are moved. The list acts as a map from names to data as long
as no name is stored twice: an entry that is appended under a name that is there
already is never found.

The functions of zlib are parameters: `deflate` is the whole compressed stream of
a text, or `none` when `deflate` reports an error.
-/

namespace OpenTube

/-! ## The two arrays -/

/-- `cache_t`. Of the callback it only matters whether there is one. -/
structure CacheEntry where
  key : UStr
  value : List UInt8
  gzippedValue : List UInt8
  updateCallback : Bool
  time : Nat
deriving DecidableEq, Repr

/-- `cache` and `cache_names`. -/
structure Cache where
  entries : List CacheEntry
  names : Buf
deriving DecidableEq, Repr

/-- `cache_create`, with the names at `addr`. -/
def cacheCreate (addr : Int) : Cache := ⟨[], ⟨0, 0, addr, []⟩⟩

/-- `GZIP_HEADER`. -/
def gzipHeader : List UInt8 := [0x1F, 0x8B, 8, 0, 0, 0, 0, 0, 0, 3]

/-- A 32-bit number, low byte first. -/
def littleEndian (n : Nat) : List UInt8 :=
  [n.toUInt8, (n / 2 ^ 8).toUInt8, (n / 2 ^ 16).toUInt8, (n / 2 ^ 24).toUInt8]

section

variable (deflate : List UInt8 → Option (List UInt8)) (crc32 : List UInt8 → Nat)

/-- The compressed form of a value: empty when `deflate` failed. -/
def gzipped (value : List UInt8) : List UInt8 :=
  match deflate value with
  | none => []
  | some z => gzipHeader ++ z ++ (littleEndian (crc32 value) ++ littleEndian value.length)

/-- `gen_gzipped_value`. -/
def CacheEntry.genGzippedValue (c : CacheEntry) : CacheEntry :=
  { c with gzippedValue := gzipped deflate crc32 c.value }

/-- What `cache_find` returns: the text, the flag `accept_gzip` and the time. -/
structure CacheFound where
  value : List UInt8
  acceptGzip : Bool
  time : Nat
deriving DecidableEq, Repr

/-- The value of an entry, compressed if that is asked for and possible. -/
def CacheEntry.found (c : CacheEntry) (acceptGzip : Bool) : CacheFound :=
  if acceptGzip && c.gzippedValue.length != 0 then ⟨c.gzippedValue, true, c.time⟩
  else ⟨c.value, false, c.time⟩

/-- Whether the key at `key` is `name`; `none` is a read outside the names. -/
def Buf.isKey (names : Buf) (key : UStr) (name : List UInt8) : Option Bool :=
  if name.length = key.len then (names.deref key).map fun k => decide (k = name) else some false

/-- The change of the entry that `cache_update` finds, when the callback returns
`res`. -/
def CacheEntry.update (c : CacheEntry) (res : Option (List UInt8)) (time : Nat) : CacheEntry :=
  if c.updateCallback = false then c
  else
    match res with
    | none => c
    | some data => CacheEntry.genGzippedValue deflate crc32 { c with value := data, time := time }

/-- The loop of `cache_update`. -/
def Buf.updateEntry (names : Buf) (name : List UInt8) (res : Option (List UInt8)) (time : Nat) :
    List CacheEntry → Option (List CacheEntry)
  | [] => some []
  | c :: l =>
      (names.isKey c.key name).bind fun b =>
        if b then some (c.update deflate crc32 res time :: l)
        else (names.updateEntry name res time l).map fun l => c :: l

/-- `cache_update`. -/
def Cache.cacheUpdate (s : Cache) (name : List UInt8) (res : Option (List UInt8)) (time : Nat) :
    Option Cache :=
  (s.names.updateEntry deflate crc32 name res time s.entries).map fun l => { s with entries := l }

/-- `ajust_key_ptrs`. -/
def ajustKeyPtrs (offset : Int) (l : List CacheEntry) : List CacheEntry :=
  l.map fun c => { c with key := c.key.shift offset }

/-- `cache_store`; the names are moved to `addr` when they have to be. -/
def Cache.cacheStore (s : Cache) (name data : List UInt8) (updateCallback : Bool) (time : Nat)
    (addr : Int) : Cache :=
  let e := s.names.expand name.length addr
  let entries := if e.2 ≠ 0 then ajustKeyPtrs e.2 s.entries else s.entries
  let str := e.1.data + (uint (e.1.curLen - name.length) : Nat)
  ⟨entries ++ [CacheEntry.genGzippedValue deflate crc32
    ⟨⟨name.length, str⟩, data, [], updateCallback, time⟩], e.1.write str name⟩

/-- The calls that change the cache. What the callback would return is part of the
call. -/
inductive CacheCall
  | store (name data : List UInt8) (updateCallback : Bool) (time : Nat) (addr : Int)
  | update (name : List UInt8) (res : Option (List UInt8)) (time : Nat)
deriving DecidableEq, Repr

/-- One call. -/
def Cache.call (s : Cache) : CacheCall → Option Cache
  | .store name data updateCallback time addr =>
      some (s.cacheStore deflate crc32 name data updateCallback time addr)
  | .update name res time => s.cacheUpdate deflate crc32 name res time

/-! ## The association list -/

/-- What the cache holds under a name. -/
structure Cached where
  value : List UInt8
  updateCallback : Bool
  time : Nat
deriving DecidableEq, Repr

/-- The value after the callback has returned `res`. -/
def Cached.update (v : Cached) (res : Option (List UInt8)) (time : Nat) : Cached :=
  if v.updateCallback = false then v
  else
    match res with
    | none => v
    | some data => { v with value := data, time := time }

/-- The entry that holds a value under the given key. -/
def Cached.entry (v : Cached) (key : UStr) : CacheEntry :=
  ⟨key, v.value, gzipped deflate crc32 v.value, v.updateCallback, v.time⟩

/-- What `cache_find` returns for a value. -/
def Cached.found (v : Cached) (acceptGzip : Bool) : CacheFound :=
  if acceptGzip && (gzipped deflate crc32 v.value).length != 0 then
    ⟨gzipped deflate crc32 v.value, true, v.time⟩
  else ⟨v.value, false, v.time⟩

/-- The effect of a call on the list. -/
def assocCall (l : List (List UInt8 × Cached)) : CacheCall → List (List UInt8 × Cached)
  | .store name data updateCallback time _ => l ++ [(name, ⟨data, updateCallback, time⟩)]
  | .update name res time => Assoc.adjust name (fun v => v.update res time) l

/-- An entry stands for a pair of the list. -/
structure CacheEntry.For (names : Buf) (c : CacheEntry) (e : List UInt8 × Cached) : Prop where
  key : names.deref c.key = some e.1
  len : c.key.len = e.1.length
  entry : c = e.2.entry deflate crc32 c.key

/-- The two arrays hold the pairs of a list, in their order. -/
structure Cache.Holds (s : Cache) (l : List (List UInt8 × Cached)) : Prop where
  mem : s.names.mem.length = s.names.curLen
  curLen : s.names.curLen = (l.map fun e => e.1.length).sum
  entries : List.Forall₂ (CacheEntry.For deflate crc32 s.names) s.entries l

theorem holds_cacheCreate (addr : Int) : (cacheCreate addr).Holds deflate crc32 [] :=
  ⟨rfl, rfl, .nil⟩

variable {deflate crc32}

theorem CacheEntry.For.isKey {names : Buf} {c : CacheEntry} {e : List UInt8 × Cached}
    (h : c.For deflate crc32 names e) (name : List UInt8) :
    names.isKey c.key name = some (decide (name = e.1)) := by
  rw [Buf.isKey, h.key, h.len]
  by_cases hlen : name.length = e.1.length
  · simp [hlen, eq_comm]
  · have hne : name ≠ e.1 := fun heq => hlen (by rw [heq])
    simp [hlen, hne]

theorem CacheEntry.For.found {names : Buf} {c : CacheEntry} {e : List UInt8 × Cached}
    (h : c.For deflate crc32 names e) (acceptGzip : Bool) :
    c.found acceptGzip = e.2.found deflate crc32 acceptGzip := by
  rw [h.entry]
  rfl

theorem Cached.update_entry (v : Cached) (key : UStr) (res : Option (List UInt8)) (time : Nat) :
    (v.entry deflate crc32 key).update deflate crc32 res time =
      (v.update res time).entry deflate crc32 key := by
  unfold CacheEntry.update Cached.update
  cases hcall : v.updateCallback with
  | false => simp [Cached.entry, hcall]
  | true =>
      cases res with
      | none => simp [Cached.entry, hcall]
      | some data => simp [Cached.entry, CacheEntry.genGzippedValue, hcall]

theorem CacheEntry.For.update {names : Buf} {c : CacheEntry} {e : List UInt8 × Cached}
    (h : c.For deflate crc32 names e) (res : Option (List UInt8)) (time : Nat) :
    (c.update deflate crc32 res time).For deflate crc32 names (e.1, e.2.update res time) := by
  have hupdate : c.update deflate crc32 res time =
      (e.2.update res time).entry deflate crc32 c.key := by
    conv_lhs => rw [h.entry]
    exact Cached.update_entry e.2 c.key res time
  rw [hupdate]
  exact ⟨h.key, h.len, rfl⟩

theorem updateEntry_for {names : Buf} {cs : List CacheEntry} {l : List (List UInt8 × Cached)}
    (h : List.Forall₂ (CacheEntry.For deflate crc32 names) cs l) (name : List UInt8)
    (res : Option (List UInt8)) (time : Nat) :
    ∃ cs', names.updateEntry deflate crc32 name res time cs = some cs' ∧
      List.Forall₂ (CacheEntry.For deflate crc32 names) cs'
        (Assoc.adjust name (fun v => v.update res time) l) := by
  induction h with
  | nil => exact ⟨[], rfl, .nil⟩
  | @cons c e cs l hc hcs ih =>
      obtain ⟨key, v⟩ := e
      rw [Buf.updateEntry, hc.isKey, Option.bind_some, Assoc.adjust]
      by_cases hname : name = key
      · rw [if_pos hname]
        exact ⟨_, by simp [hname], .cons (hc.update res time) hcs⟩
      · obtain ⟨cs', hcs', hfor⟩ := ih
        rw [if_neg hname]
        exact ⟨c :: cs', by simp [hname, hcs'], .cons hc hfor⟩

theorem keys_adjust (name : List UInt8) (f : Cached → Cached) (l : List (List UInt8 × Cached)) :
    (Assoc.adjust name f l).map (fun e => e.1.length) = l.map fun e => e.1.length := by
  induction l with
  | nil => rfl
  | cons e l ih =>
      obtain ⟨key, v⟩ := e
      rw [Assoc.adjust]
      split_ifs
      · rfl
      · rw [List.map_cons, ih, List.map_cons]

/-- An update changes the list in place. -/
theorem Cache.Holds.cacheUpdate {s : Cache} {l : List (List UInt8 × Cached)}
    (h : s.Holds deflate crc32 l) (name : List UInt8) (res : Option (List UInt8)) (time : Nat) :
    ∃ s', s.cacheUpdate deflate crc32 name res time = some s' ∧
      s'.Holds deflate crc32 (Assoc.adjust name (fun v => v.update res time) l) := by
  obtain ⟨cs, hcs, hfor⟩ := updateEntry_for h.entries name res time
  refine ⟨⟨cs, s.names⟩, by rw [Cache.cacheUpdate, hcs, Option.map_some], h.mem, ?_, hfor⟩
  rw [keys_adjust]
  exact h.curLen

/-- The keys are moved along with the names. -/
theorem CacheEntry.For.move {names names' : Buf} {c : CacheEntry} {e : List UInt8 × Cached}
    (h : c.For deflate crc32 names e) {offset : Int} {x : List UInt8}
    (hmem : names'.mem = names.mem ++ x) (hdata : names'.data = names.data + offset) :
    CacheEntry.For deflate crc32 names' { c with key := c.key.shift offset } e := by
  refine ⟨?_, h.len, ?_⟩
  · have hoffset : (c.key.shift offset).str - names'.data = c.key.str - names.data := by
      simp only [UStr.shift, hdata]
      omega
    have hlen : (c.key.shift offset).len = c.key.len := rfl
    exact Buf.deref_append hmem hlen hoffset h.key
  · conv_lhs => rw [h.entry]
    rfl

/-- The names are extended, as long as their length does not wrap around. -/
theorem Cache.Holds.expand_names {s : Cache} {l : List (List UInt8 × Cached)}
    (h : s.Holds deflate crc32 l) {n : Nat} (hlen : s.names.curLen + n < 2 ^ 32) (addr : Int) :
    (s.names.expand n addr).1.mem = s.names.mem ∧
      (s.names.expand n addr).1.curLen = s.names.curLen + n ∧
      uint ((s.names.curLen + n : Nat) - (n : Int)) = s.names.mem.length := by
  have hcur : uint (s.names.curLen + (n : Int)) = s.names.curLen + n :=
    uint_eq (by omega) (by omega)
  refine ⟨Buf.expand_mem (by rw [hcur, h.mem]; omega), by rw [Buf.expand_curLen, hcur], ?_⟩
  rw [h.mem]
  exact uint_eq (by omega) (by omega)

/-- A store appends to the list, as long as the length of the names does not wrap
around. -/
theorem Cache.Holds.cacheStore {s : Cache} {l : List (List UInt8 × Cached)}
    (h : s.Holds deflate crc32 l) {name : List UInt8}
    (hlen : (l.map fun e => e.1.length).sum + name.length < 2 ^ 32) (data : List UInt8)
    (updateCallback : Bool) (time : Nat) (addr : Int) :
    (s.cacheStore deflate crc32 name data updateCallback time addr).Holds deflate crc32
      (l ++ [(name, ⟨data, updateCallback, time⟩)]) := by
  obtain ⟨hmem, hcurLen, hstr⟩ := h.expand_names (by rw [h.curLen]; exact hlen) addr
  have hdata := Buf.expand_data s.names name.length addr
  have hshift : (if (s.names.expand name.length addr).2 ≠ 0 then
      ajustKeyPtrs (s.names.expand name.length addr).2 s.entries else s.entries) =
      ajustKeyPtrs (s.names.expand name.length addr).2 s.entries := by
    split_ifs with hzero
    · rfl
    · rw [not_not.1 hzero]
      simp [ajustKeyPtrs, UStr.shift]
  have hwrite := Buf.write_end (b := (s.names.expand name.length addr).1)
    (a := (s.names.expand name.length addr).1.data + (s.names.mem.length : Nat)) (by rw [hmem]) name
  simp only [Cache.cacheStore, hshift, hcurLen, hstr, hwrite, hmem]
  refine ⟨?_, ?_, ?_⟩
  · simp only [List.length_append, h.mem]
  · simp [h.curLen]
  · refine List.rel_append ?_ (.cons ⟨?_, rfl, rfl⟩ .nil)
    · rw [ajustKeyPtrs, List.forall₂_map_left_iff]
      exact h.entries.imp fun c e hc => hc.move rfl hdata
    · exact Buf.deref_of_prefix s.names.mem List.prefix_rfl rfl

/-! ## Whole runs -/

end

/-- A compression that stores a text as it is, in one block. -/
def storeBlock (value : List UInt8) : Option (List UInt8) :=
  some ([1, value.length.toUInt8, (value.length / 2 ^ 8).toUInt8,
    255 - value.length.toUInt8, 255 - (value.length / 2 ^ 8).toUInt8] ++ value)

end OpenTube
