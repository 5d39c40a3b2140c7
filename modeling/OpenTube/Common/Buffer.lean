import Mathlib.Algebra.Group.Int.Defs
import Mathlib.Algebra.Group.Nat.Defs
import OpenTube.Lib.Block
import OpenTube.Lib.Run

/-!
# Growable buffers

`buf_t` as it is laid out in memory: the lengths are counted in elements of `node_size`
bytes and the data lies in one allocated block. The block gets a new size only if
`cur_len` has become greater than `reserved_len`, and then exactly the size for
`cur_len` elements, so it may also become smaller. `cur_len` is also lowered by the
callers, which leaves the block as it is.

The block is long enough at any time if it was so at the beginning. `buf_create`
multiplies `node_size` and `reserved_len` as 32-bit numbers, and the block is too short
from the start if the product does not fit: `keepsCapacity_iff`.
-/

namespace OpenTube

open Heap Machine

/-! ## The functions -/

/-- `buf_t`. -/
structure BufT where
  curLen : UInt32
  reservedLen : UInt32
  nodeSize : UInt32
  data : Block UInt8
deriving DecidableEq, Repr

/-- `buf_create`; the allocator puts the block at `addr`. -/
def bufCreate (size resLen : UInt32) (addr : Int) : BufT :=
  ⟨0, resLen, size, Block.alloc (size * resLen).toNat addr⟩

/-- What the expanding functions do after they have set `cur_len`: the offset is the
distance from the old block to the one at `addr`, or zero. -/
def BufT.fit (b : BufT) (addr : Int) : BufT × Int :=
  if b.reservedLen < b.curLen then
    let data := b.data.realloc (b.nodeSize * b.curLen).toNat addr
    ({ b with data }, data.data - b.data.data)
  else (b, 0)

/-- `buf_expand`. -/
def bufExpand (b : BufT) (add : UInt32) (addr : Int) : BufT × Int :=
  { b with curLen := b.curLen + add }.fit addr

/-- `buf_expand_i`: the signed number is converted for the addition. -/
def bufExpandI (b : BufT) (add : Int32) (addr : Int) : BufT × Int :=
  { b with curLen := b.curLen + add.toUInt32 }.fit addr

/-- `buf_resize`. -/
def bufResize (b : BufT) (newSize : UInt32) (addr : Int) : BufT × Int :=
  { b with curLen := newSize }.fit addr

/-- `buf_free`. -/
def bufFree (b : BufT) (addr : Int) : BufT :=
  let data :=
    if b.reservedLen < b.curLen then b.data.realloc (b.nodeSize * b.reservedLen).toNat addr
    else b.data
  { b with data, curLen := 0 }

/-- The functions that change the length and return an offset. -/
inductive Growth
  | expand (add : UInt32)
  | expandI (add : Int32)
  | resize (newSize : UInt32)
deriving DecidableEq, Repr

/-- The call of one of these functions. -/
def BufT.grow (b : BufT) (addr : Int) : Growth → BufT × Int
  | .expand add => bufExpand b add addr
  | .expandI add => bufExpandI b add addr
  | .resize newSize => bufResize b newSize addr

/-! ## Runs -/

/-- What happens to a buffer. With a call comes the address of the block after it. The
callers also lower `cur_len` themselves, and they write to elements, here `l` from the
byte `o` of the data on. -/
inductive BufOp
  | grow (g : Growth) (addr : Int)
  | free (addr : Int)
  | lower (n : UInt32)
  | write (o : Nat) (l : List UInt8)
deriving DecidableEq, Repr

/-- The buffer after an operation; none if a write lies outside of the block. -/
def bufStep (b : BufT) : BufOp → Option BufT
  | .grow g addr => some (b.grow addr g).1
  | .free addr => some (bufFree b addr)
  | .lower n => some { b with curLen := b.curLen - n }
  | .write o l => (b.data.write (b.data.data + o) l).map fun data => { b with data }

/-- The size of `n` elements. -/
def BufT.size (b : BufT) (n : Nat) : Nat := b.nodeSize.toNat * n

/-- The length is not lowered below zero, writes go to elements of the buffer, and the
size of its elements is a 32-bit number afterwards. -/
def BufOp.Allowed (b : BufT) (op : BufOp) : Prop :=
  (match op with
    | .lower n => n ≤ b.curLen
    | .write o l => o + l.length ≤ b.size b.curLen.toNat
    | _ => True) ∧
  ∀ b', bufStep b op = some b' → b'.size b'.curLen.toNat < 2 ^ 32

/-- The block has room for the reserved elements and for those in use. -/
def BufT.HasCapacity (b : BufT) : Prop :=
  b.size (max b.reservedLen.toNat b.curLen.toNat) ≤ b.data.cells.length

/-- The pointer to an element. -/
def BufT.ptr (b : BufT) (i : Nat) : Int := b.data.data + b.size i

/-- The element a pointer designates. -/
def BufT.elem (b : BufT) (p : Int) : List (Option UInt8) :=
  (b.data.cells.drop (p - b.data.data).toNat).take b.nodeSize.toNat

/-- The buffer `b'` has the elements of `b` at pointers that are moved by the offset. -/
def BufT.MovedTo (b : BufT) (r : BufT × Int) : Prop :=
  ∀ i < min b.curLen.toNat r.1.curLen.toNat,
    b.ptr i + r.2 = r.1.ptr i ∧ r.1.elem (b.ptr i + r.2) = b.elem (b.ptr i)

/-- In every run of allowed operations on a buffer that was created with these numbers,
the block is long enough and each function that returns an offset keeps the elements. -/
def KeepsCapacity (size resLen : UInt32) : Prop :=
  ∀ (addr : Int) (ops : List BufOp), Meets bufStep BufOp.Allowed (bufCreate size resLen addr) ops →
    ∃ b, run bufStep (bufCreate size resLen addr) ops = some b ∧ b.HasCapacity ∧
      ∀ g addr', BufOp.Allowed b (.grow g addr') → b.MovedTo (b.grow addr' g)

/-! ## One step -/

variable {b : BufT}

/-- The block is long enough, and the size of the reserved elements is a 32-bit
number. -/
structure BufT.Good (b : BufT) : Prop where
  capacity : b.HasCapacity
  reserved : b.size b.reservedLen.toNat < 2 ^ 32

/-- A product that fits is exact. -/
theorem toNat_mul_of_lt {m n : UInt32} (h : m.toNat * n.toNat < 2 ^ 32) :
    (m * n).toNat = m.toNat * n.toNat := by
  rw [UInt32.toNat_mul, Nat.mod_eq_of_lt h]

theorem BufT.size_le (b : BufT) {m n : Nat} (h : m ≤ n) : b.size m ≤ b.size n :=
  Nat.mul_le_mul_left _ h

/-- The block is long enough if it is so for both numbers of elements. -/
theorem hasCapacity_of_le (hreserved : b.size b.reservedLen.toNat ≤ b.data.cells.length)
    (hcur : b.size b.curLen.toNat ≤ b.data.cells.length) : b.HasCapacity := by
  rw [BufT.HasCapacity]
  rcases Nat.le_total b.reservedLen.toNat b.curLen.toNat with h | h
  · rwa [Nat.max_eq_right h]
  · rwa [Nat.max_eq_left h]

theorem BufT.HasCapacity.cur (h : b.HasCapacity) : b.size b.curLen.toNat ≤ b.data.cells.length :=
  Nat.le_trans (b.size_le (Nat.le_max_right _ _)) h

theorem BufT.HasCapacity.reserved (h : b.HasCapacity) :
    b.size b.reservedLen.toNat ≤ b.data.cells.length :=
  Nat.le_trans (b.size_le (Nat.le_max_left _ _)) h

/-- A step of a function that returns an offset is a new length and a fitting block. -/
theorem grow_eq_fit (b : BufT) (addr : Int) (g : Growth) :
    ∃ n, b.grow addr g = { b with curLen := n }.fit addr := by
  cases g with
  | expand add => exact ⟨_, rfl⟩
  | expandI add => exact ⟨_, rfl⟩
  | resize newSize => exact ⟨_, rfl⟩

theorem curLen_fit (b : BufT) (addr : Int) : (b.fit addr).1.curLen = b.curLen := by
  unfold BufT.fit
  split <;> rfl

theorem size_fit (b : BufT) (addr : Int) : (b.fit addr).1.size = b.size := by
  unfold BufT.fit
  split <;> rfl

/-- The block fits the new length if it had room for the reserved elements. -/
theorem good_fit (addr : Int) (hreserved : b.size b.reservedLen.toNat ≤ b.data.cells.length)
    (hsmall : b.size b.reservedLen.toNat < 2 ^ 32) (hcur : b.size b.curLen.toNat < 2 ^ 32) :
    (b.fit addr).1.Good := by
  unfold BufT.fit
  split
  · rename_i hlt
    have hlen := b.size_le (Nat.le_of_lt (UInt32.lt_iff_toNat_lt.1 hlt))
    have hproduct : (b.nodeSize * b.curLen).toNat = b.size b.curLen.toNat := toNat_mul_of_lt hcur
    refine ⟨hasCapacity_of_le ?_ ?_, hsmall⟩
    · rw [Block.length_realloc, hproduct]
      exact hlen
    · rw [Block.length_realloc, hproduct]
      exact Nat.le_refl _
  · rename_i hle
    have hlen := b.size_le (Nat.le_of_not_lt fun h => hle (UInt32.lt_iff_toNat_lt.2 h))
    exact ⟨hasCapacity_of_le hreserved (Nat.le_trans hlen hreserved), hsmall⟩

/-- An element in front of both lengths lies in the part of the block that is kept. -/
theorem movedTo_fit (addr : Int) {n : UInt32} (hcur : b.size b.curLen.toNat ≤ b.data.cells.length)
    (hn : b.size n.toNat < 2 ^ 32) : b.MovedTo ({ b with curLen := n }.fit addr) := by
  intro i hi
  unfold BufT.fit at hi ⊢
  split
  · rename_i hlt
    rw [if_pos hlt] at hi
    have hplace : b.ptr i + (addr - b.data.data) = addr + b.size i := by
      rw [BufT.ptr]
      omega
    have hend : ∀ m, i < m → b.size i + b.nodeSize.toNat ≤ b.size m := by
      intro m hm
      have hle := b.size_le (Nat.succ_le_of_lt hm)
      rw [BufT.size, BufT.size, Nat.mul_succ] at hle
      exact hle
    have hproduct : (b.nodeSize * n).toNat = b.size n.toNat := toNat_mul_of_lt hn
    refine ⟨hplace, ?_⟩
    have hold : (b.ptr i - b.data.data).toNat = b.size i := by
      rw [BufT.ptr]
      omega
    have hnew : (b.ptr i + (addr - b.data.data) - addr).toNat = b.size i := by
      rw [hplace]
      omega
    simp only [BufT.elem, Block.data_realloc, hold, hnew]
    refine Block.take_drop_realloc b.data addr ?_ ?_
    · rw [hproduct]
      exact hend _ (Nat.lt_of_lt_of_le hi (Nat.min_le_right _ _))
    · exact Nat.le_trans (hend _ (Nat.lt_of_lt_of_le hi (Nat.min_le_left _ _))) hcur
  · simp only [Int.add_zero]
    exact ⟨rfl, rfl⟩

/-- Every allowed step has a value and keeps the block long enough. -/
theorem bufStep_good {op : BufOp} (h : b.Good) (hop : op.Allowed b) :
    ∃ b', bufStep b op = some b' ∧ b'.Good := by
  cases op with
  | grow g addr =>
      obtain ⟨n, hg⟩ := grow_eq_fit b addr g
      have hn := hop.2 _ rfl
      rw [hg, size_fit, curLen_fit] at hn
      refine ⟨_, rfl, ?_⟩
      rw [hg]
      exact good_fit addr h.capacity.reserved h.reserved hn
  | free addr =>
      refine ⟨_, rfl, hasCapacity_of_le ?_ (Nat.zero_le _), h.reserved⟩
      simp only [bufFree]
      split
      · rw [Block.length_realloc]
        exact Nat.le_of_eq (toNat_mul_of_lt h.reserved).symm
      · exact h.capacity.reserved
  | lower n =>
      have hlower : (b.curLen - n).toNat ≤ b.curLen.toNat := by
        rw [UInt32.toNat_sub_of_le _ _ hop.1]
        omega
      exact ⟨_, rfl, hasCapacity_of_le h.capacity.reserved
        (Nat.le_trans (b.size_le hlower) h.capacity.cur), h.reserved⟩
  | write o l =>
      obtain ⟨data, hdata, hlen⟩ := b.data.exists_write (Nat.le_trans hop.1 h.capacity.cur)
      refine ⟨{ b with data }, by rw [bufStep, hdata, Option.map_some],
        hasCapacity_of_le ?_ ?_, h.reserved⟩
      · rw [hlen]
        exact h.capacity.reserved
      · rw [hlen]
        exact h.capacity.cur

/-! ## Every run -/

/-- A run of allowed operations leads to a good buffer. -/
theorem run_good {ops : List BufOp} (h : b.Good) (hops : Meets bufStep BufOp.Allowed b ops) :
    ∃ b', run bufStep b ops = some b' ∧ b'.Good := by
  induction ops generalizing b with
  | nil => exact ⟨b, rfl, h⟩
  | cons op ops ih =>
      obtain ⟨b₁, hb₁, hgood⟩ := bufStep_good h hops.1
      obtain ⟨b₂, hb₂, hend⟩ := ih hgood (hops.2 b₁ hb₁)
      exact ⟨b₂, (run_cons_eq_some_iff _ _ _ _ _).2 ⟨b₁, hb₁, hb₂⟩, hend⟩

/-- A new buffer has room for the reserved elements if and only if their size is a
32-bit number. -/
theorem hasCapacity_bufCreate_iff (size resLen : UInt32) (addr : Int) :
    (bufCreate size resLen addr).HasCapacity ↔ size.toNat * resLen.toNat < 2 ^ 32 := by
  have hlen : (bufCreate size resLen addr).data.cells.length = (size * resLen).toNat :=
    List.length_replicate
  have hmax : max resLen.toNat (0 : UInt32).toNat = resLen.toNat := Nat.max_eq_left (Nat.zero_le _)
  rw [BufT.HasCapacity, hlen]
  simp only [bufCreate, BufT.size, hmax]
  constructor
  · intro h
    exact Nat.lt_of_le_of_lt h (UInt32.toNat_lt _)
  · intro h
    exact Nat.le_of_eq (toNat_mul_of_lt h).symm

/-- The block of a buffer is long enough in every run, and its elements are found again
behind every move, exactly if `buf_create` could allocate the reserved elements. -/
theorem keepsCapacity_iff (size resLen : UInt32) :
    KeepsCapacity size resLen ↔ size.toNat * resLen.toNat < 2 ^ 32 := by
  constructor
  · intro h
    obtain ⟨b, hrun, hcapacity, -⟩ := h 0 [] trivial
    obtain rfl := Option.some.inj hrun
    exact (hasCapacity_bufCreate_iff size resLen 0).1 hcapacity
  · intro h addr ops hops
    have hgood : (bufCreate size resLen addr).Good :=
      ⟨(hasCapacity_bufCreate_iff size resLen addr).2 h, h⟩
    obtain ⟨b, hb, hend⟩ := run_good hgood hops
    refine ⟨b, hb, hend.capacity, fun g addr' hop => ?_⟩
    obtain ⟨n, hg⟩ := grow_eq_fit b addr' g
    have hn := hop.2 _ rfl
    rw [hg, size_fit, curLen_fit] at hn
    rw [hg]
    exact movedTo_fit addr' hend.capacity.cur hn

/-- A buffer of 65536 elements of 65536 bytes gets a block of no bytes. -/
theorem not_keepsCapacity : ¬ KeepsCapacity 65536 65536 := by
  intro h
  obtain ⟨b, hrun, hcapacity, -⟩ := h 0 [] trivial
  obtain rfl := Option.some.inj hrun
  exact absurd ((hasCapacity_bufCreate_iff 65536 65536 0).1 hcapacity) (by decide)

end OpenTube
