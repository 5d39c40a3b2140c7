import Mathlib.Algebra.Group.Int.Defs
import Mathlib.Algebra.Group.Nat.Defs
import OpenTube.Lib.Live
import OpenTube.Lib.Run
import OpenTube.Common.Pool

/-!
# Fragmented pools in memory

`frag_pool_t` with its counters and the blocks its elements hold. The counters are
32-bit numbers, the array `e` has as many elements as were allocated for it, and
`PoolHeap.live` are the addresses of all live blocks of the program, those of the other
parts included. An allocation comes with the address that the allocator answers with.

`PoolHeap.Valid` is what holds between the calls. Freeing the last element trims the
free elements in front of it one by one; while this goes on the last element may be
free, and everything else of `Valid` holds, which is `PoolHeap.Consistent`.

The counter `real_len` wraps around when the array has all `2 ^ 32 - 1` elements a
32-bit number can count and all of them are in use. `poolInvariant_bounded` is about the
runs that never get there, `not_poolInvariant` about one that does. `PoolHeap.slots`
is the pool as `FragPool` has it, without the counters and addresses.
-/

namespace OpenTube

open Heap Machine

/-! ## The functions -/

/-- `frag_pool_elem_t`. -/
structure FragPoolElem where
  data : Nat
  free : Bool
deriving DecidableEq, Repr

/-- `frag_pool_t`. -/
structure FragPoolT where
  curLen : UInt32
  reservedLen : UInt32
  realLen : UInt32
  nodeSize : UInt32
  e : List FragPoolElem
deriving DecidableEq, Repr

/-- A pool and the live blocks. -/
structure PoolHeap where
  pool : FragPoolT
  live : Finset Nat

/-- The blocks that `frag_pool_create` allocates, `addr i` for the element `i`. -/
def createdData (resLen : UInt32) (addr : Nat → Nat) : List Nat :=
  (List.range resLen.toNat).map addr

/-- `frag_pool_create`. -/
def fragPoolCreate (size resLen : UInt32) (addr : Nat → Nat) (live : Finset Nat) : PoolHeap :=
  ⟨⟨0, resLen, resLen, size, (createdData resLen addr).map fun data => ⟨data, true⟩⟩,
    live ∪ (createdData resLen addr).toFinset⟩

/-- The array with `n` elements. A new element is written before it is read. -/
def resizeElems (e : List FragPoolElem) (n : Nat) : List FragPoolElem :=
  e.take n ++ List.replicate (n - e.length) ⟨0, false⟩

/-- `frag_pool_alloc`: the block it returns comes second. There is no value if the
element that is written is not in the array. -/
def fragPoolAlloc (s : PoolHeap) (addr : Nat) : Option (PoolHeap × Nat) :=
  let p := s.pool
  match (p.e.take p.realLen.toNat).findIdx? fun x => x.free with
  | some i => (p.e[i]?).map fun x =>
      ({ s with pool := { p with
          curLen := p.curLen + 1
          e := p.e.set i { x with free := false } } }, x.data)
  | none =>
      let realLen := p.realLen + 1
      let e := resizeElems p.e realLen.toNat
      let last := (realLen - 1).toNat
      if last < e.length then
        some (⟨{ p with curLen := p.curLen + 1, realLen, e := e.set last ⟨addr, false⟩ },
          insert addr s.live⟩, addr)
      else none

/-- The element `i`, which is the last one, is given back. -/
def PoolHeap.giveBack (s : PoolHeap) (i : Nat) : Option PoolHeap :=
  let realLen := s.pool.realLen - 1
  (s.pool.e[i]?).bind fun x =>
    (release s.live x.data).map fun live =>
      ⟨{ s.pool with realLen, e := resizeElems s.pool.e realLen.toNat }, live⟩

/-- `_frag_try_internal_pool_free`. -/
def fragTryInternalPoolFree (s : PoolHeap) : Nat → Option PoolHeap
  | 0 =>
      if s.pool.reservedLen.toNat ≤ 0 ∧ 0 = (s.pool.realLen - 1).toNat then s.giveBack 0
      else some s
  | i + 1 =>
      if s.pool.reservedLen.toNat ≤ i + 1 ∧ i + 1 = (s.pool.realLen - 1).toNat then
        (s.giveBack (i + 1)).bind fun s =>
          (s.pool.e[i]?).bind fun x =>
            if x.free then fragTryInternalPoolFree s i else some s
      else some s

/-- What both functions that free an element do with it. -/
def PoolHeap.markFree (s : PoolHeap) (i : Nat) (x : FragPoolElem) : Option PoolHeap :=
  fragTryInternalPoolFree { s with pool := { s.pool with
    curLen := s.pool.curLen - 1
    e := s.pool.e.set i { x with free := true } } } i

/-- `frag_pool_free_alt`. -/
def fragPoolFreeAlt (s : PoolHeap) (i : Nat) : Option PoolHeap :=
  (s.pool.e[i]?).bind fun x => if x.free then some s else s.markFree i x

/-- `frag_pool_free`. -/
def fragPoolFree (s : PoolHeap) (ptr : Nat) : Option PoolHeap :=
  match (s.pool.e.take s.pool.realLen.toNat).findIdx? fun x => !x.free && x.data == ptr with
  | some i => (s.pool.e[i]?).bind fun x => s.markFree i x
  | none => some s

/-! ## Runs -/

/-- The calls on a pool, and what the rest of the program does to the live blocks. -/
inductive PoolOp
  | alloc (addr : Nat)
  | free (ptr : Nat)
  | freeAlt (i : Nat)
  | others (live : Finset Nat)

/-- One call. -/
def poolStep (s : PoolHeap) : PoolOp → Option PoolHeap
  | .alloc addr => (fragPoolAlloc s addr).map Prod.fst
  | .free ptr => fragPoolFree s ptr
  | .freeAlt i => fragPoolFreeAlt s i
  | .others live => some { s with live }

/-- The allocator answers with an address that is not live, an index lies below
`real_len`, and the rest of the program does not free the blocks of the pool. -/
def PoolOp.Allowed (s : PoolHeap) : PoolOp → Prop
  | .alloc addr => addr ∉ s.live
  | .free _ => True
  | .freeAlt i => i < s.pool.realLen.toNat
  | .others live => ∀ x ∈ s.pool.e, x.data ∈ live

/-- There is a free element, or the array can have one more. -/
def PoolHeap.Room (s : PoolHeap) : Prop :=
  (∃ x ∈ s.pool.e, x.free = true) ∨ s.pool.realLen.toNat + 1 < 2 ^ 32

/-- A call that does not need more elements than a 32-bit number can count. -/
def PoolOp.Bounded (s : PoolHeap) (op : PoolOp) : Prop :=
  op.Allowed s ∧ ∀ addr, op = .alloc addr → s.Room

/-- What holds of a pool also while free elements are given back. -/
structure PoolHeap.Consistent (s : PoolHeap) : Prop where
  array : s.pool.e.length = s.pool.realLen.toNat
  curLen : s.pool.curLen.toNat = s.pool.e.countP fun x => !x.free
  reserved : s.pool.reservedLen.toNat ≤ s.pool.realLen.toNat
  distinct : (s.pool.e.map FragPoolElem.data).Nodup
  blocks : ∀ x ∈ s.pool.e, x.data ∈ s.live

/-- What holds of a pool between the calls. -/
structure PoolHeap.Valid (s : PoolHeap) : Prop extends s.Consistent where
  last : s.pool.reservedLen.toNat < s.pool.realLen.toNat →
    ∃ x, s.pool.e[s.pool.realLen.toNat - 1]? = some x ∧ x.free = false

/-- The elements in use of which `p` holds are found at the same index, unchanged. -/
def PoolHeap.Keeps (s s' : PoolHeap) (p : Nat → FragPoolElem → Prop) : Prop :=
  ∀ j x, s.pool.e[j]? = some x → x.free = false → p j x → s'.pool.e[j]? = some x

/-- What a call does to the elements. -/
def PoolOp.Effect (s s' : PoolHeap) : PoolOp → Prop
  | .alloc addr => ∃ q, fragPoolAlloc s addr = some (s', q) ∧
      (∀ x ∈ s.pool.e, x.free = false → x.data ≠ q) ∧ ⟨q, false⟩ ∈ s'.pool.e ∧
        s.Keeps s' fun _ _ => True
  | .free ptr => (∀ x ∈ s'.pool.e, x.free = false → x.data ≠ ptr) ∧
      s.Keeps s' fun _ x => x.data ≠ ptr
  | .freeAlt i => (∀ x, s'.pool.e[i]? = some x → x.free = true) ∧ s.Keeps s' fun j _ => j ≠ i
  | .others _ => s'.pool = s.pool

/-- In every run of calls that `ok` allows the pool is valid, and every further call
has its effect. -/
def PoolInvariant (ok : PoolHeap → PoolOp → Prop) : Prop :=
  ∀ (size resLen : UInt32) (addr : Nat → Nat) (live : Finset Nat),
    (createdData resLen addr).Nodup → (∀ a ∈ createdData resLen addr, a ∉ live) →
      ∀ ops, Meets poolStep ok (fragPoolCreate size resLen addr live) ops →
        ∃ s, run poolStep (fragPoolCreate size resLen addr live) ops = some s ∧ s.Valid ∧
          ∀ op, ok s op → ∃ s', poolStep s op = some s' ∧ op.Effect s s'

/-! ## Allocation -/

variable {s : PoolHeap} {i addr : Nat} {x : FragPoolElem}

/-- The number of elements in use, as a counter. -/
theorem PoolHeap.Consistent.countP_le (h : s.Consistent) :
    (s.pool.e.countP fun x => !x.free) ≤ s.pool.realLen.toNat :=
  h.array ▸ List.countP_le_length

/-- The search of a free element. -/
theorem PoolHeap.Consistent.findIdx?_free (h : s.Consistent) :
    ((s.pool.e.take s.pool.realLen.toNat).findIdx? fun x => x.free) =
      s.pool.e.findIdx? fun x => x.free := by
  rw [← h.array, List.take_length]

theorem exists_of_findIdx? {e : List FragPoolElem} {p : FragPoolElem → Bool}
    (h : e.findIdx? p = some i) : ∃ x, e[i]? = some x ∧ p x = true := by
  obtain ⟨hi, hp, -⟩ := List.findIdx?_eq_some_iff_getElem.1 h
  exact ⟨e[i], List.getElem?_eq_getElem hi, hp⟩

/-- Marking an element does not change the blocks. -/
theorem map_data_set {e : List FragPoolElem} (hx : e[i]? = some x) (b : Bool) :
    (e.set i { x with free := b }).map FragPoolElem.data = e.map FragPoolElem.data := by
  obtain ⟨hi, rfl⟩ := List.getElem?_eq_some_iff.1 hx
  have hmap : i < (e.map FragPoolElem.data).length := by simpa using hi
  have hdata : (e.map FragPoolElem.data)[i] = e[i].data := List.getElem_map _
  rw [List.map_set, ← hdata, List.set_getElem_self]

/-- Two elements with one block are the same element. -/
theorem PoolHeap.Consistent.index_eq (h : s.Consistent) {j : Nat} {y : FragPoolElem}
    (hx : s.pool.e[i]? = some x) (hy : s.pool.e[j]? = some y) (hdata : x.data = y.data) :
    i = j := by
  refine (List.getElem?_inj ?_ h.distinct).1 ?_
  · rw [List.length_map]
    exact (List.getElem?_eq_some_iff.1 hx).1
  · rw [List.getElem?_map, List.getElem?_map, hx, hy, Option.map_some, Option.map_some, hdata]

/-- What holds of a pool in which one element was marked. -/
theorem PoolHeap.Consistent.setFree (h : s.Consistent) (hx : s.pool.e[i]? = some x) (b : Bool)
    {n : UInt32}
    (hn : n.toNat = (s.pool.e.set i { x with free := b }).countP fun x => !x.free) :
    PoolHeap.Consistent { s with pool := { s.pool with
      curLen := n
      e := s.pool.e.set i { x with free := b } } } where
  array := by rw [List.length_set, h.array]
  curLen := hn
  reserved := h.reserved
  distinct := by
    rw [map_data_set hx]
    exact h.distinct
  blocks := by
    intro y hy
    have hdata : y.data ∈ s.pool.e.map FragPoolElem.data := by
      rw [← map_data_set hx b]
      exact List.mem_map_of_mem hy
    obtain ⟨z, hz, hzy⟩ := List.mem_map.1 hdata
    rw [← hzy]
    exact h.blocks z hz

/-- A free element is taken. -/
theorem PoolHeap.Valid.refill (h : s.Valid) (hx : s.pool.e[i]? = some x) (hfree : x.free = true) :
    PoolHeap.Valid { s with pool := { s.pool with
      curLen := s.pool.curLen + 1
      e := s.pool.e.set i { x with free := false } } } ∧
    (s.pool.curLen + 1).toNat = s.pool.curLen.toNat + 1 := by
  obtain ⟨hi, rfl⟩ := List.getElem?_eq_some_iff.1 hx
  have hcount : ((s.pool.e.set i { s.pool.e[i] with free := false }).countP fun x => !x.free) =
      (s.pool.e.countP fun x => !x.free) + 1 := by
    rw [List.countP_set hi]
    simp [hfree]
  have hle : (s.pool.e.countP fun x => !x.free) + 1 ≤ s.pool.realLen.toNat := by
    rw [← hcount, ← h.array]
    exact Nat.le_trans List.countP_le_length (Nat.le_of_eq List.length_set)
  have hlt := s.pool.realLen.toNat_lt
  have hsucc : (s.pool.curLen + 1).toNat = s.pool.curLen.toNat + 1 := by
    rw [UInt32.toNat_add, UInt32.toNat_one, h.curLen, Nat.mod_eq_of_lt (by omega)]
  refine ⟨⟨h.setFree hx false (by rw [hsucc, hcount, h.curLen]), fun hlong => ?_⟩, hsucc⟩
  obtain ⟨y, hy, hused⟩ := h.last hlong
  by_cases hlast : i = s.pool.realLen.toNat - 1
  · refine ⟨{ s.pool.e[i] with free := false }, ?_, rfl⟩
    simp only [← hlast]
    exact List.getElem?_set_self hi
  · refine ⟨y, ?_, hused⟩
    simp only
    rw [List.getElem?_set_ne hlast]
    exact hy

/-- The array gets one more element. -/
theorem PoolHeap.Valid.extend (h : s.Valid) (hused : ∀ x ∈ s.pool.e, x.free = false)
    (hroom : s.pool.realLen.toNat + 1 < 2 ^ 32) (haddr : addr ∉ s.live) :
    PoolHeap.Valid ⟨{ s.pool with
      curLen := s.pool.curLen + 1
      realLen := s.pool.realLen + 1
      e := s.pool.e ++ [⟨addr, false⟩] }, insert addr s.live⟩ ∧
    (s.pool.curLen + 1).toNat = s.pool.curLen.toNat + 1 := by
  have hcount : (s.pool.e.countP fun x => !x.free) = s.pool.realLen.toNat := by
    rw [← h.array]
    exact List.countP_eq_length.2 fun x hx => by simp [hused x hx]
  have hcur : (s.pool.curLen + 1).toNat = s.pool.curLen.toNat + 1 := by
    rw [UInt32.toNat_add, UInt32.toNat_one, h.curLen, Nat.mod_eq_of_lt (by omega)]
  have hreal : (s.pool.realLen + 1).toNat = s.pool.realLen.toNat + 1 := by
    rw [UInt32.toNat_add, UInt32.toNat_one, Nat.mod_eq_of_lt hroom]
  refine ⟨⟨⟨?_, ?_, ?_, ?_, ?_⟩, fun _ => ⟨⟨addr, false⟩, ?_, rfl⟩⟩, hcur⟩
  · rw [List.length_append, h.array, hreal]
    rfl
  · rw [List.countP_append, hcur, h.curLen]
    rfl
  · have := h.reserved
    simp only [hreal]
    omega
  · rw [List.map_append, List.map_singleton, List.nodup_append]
    refine ⟨h.distinct, List.nodup_singleton _, ?_⟩
    intro a ha b hb
    obtain rfl := List.mem_singleton.1 hb
    obtain ⟨x, hx, rfl⟩ := List.mem_map.1 ha
    exact ne_of_mem_of_not_mem (h.blocks x hx) haddr
  · intro x hx
    rcases List.mem_append.1 hx with hx | hx
    · exact Finset.mem_insert_of_mem (h.blocks x hx)
    · obtain rfl := List.mem_singleton.1 hx
      exact Finset.mem_insert_self _ _
  · simp only [hreal, Nat.add_sub_cancel, ← h.array]
    exact List.getElem?_concat_length

/-- With all elements in use and room for one more, the array is extended. -/
theorem fragPoolAlloc_extend (h : s.Consistent) (hused : ∀ x ∈ s.pool.e, x.free = false)
    (hroom : s.pool.realLen.toNat + 1 < 2 ^ 32) :
    fragPoolAlloc s addr = some (⟨{ s.pool with
      curLen := s.pool.curLen + 1
      realLen := s.pool.realLen + 1
      e := s.pool.e ++ [⟨addr, false⟩] }, insert addr s.live⟩, addr) := by
  have hfind := List.findIdx?_eq_none_iff.2 hused
  have hreal : (s.pool.realLen + 1).toNat = s.pool.e.length + 1 := by
    rw [UInt32.toNat_add, UInt32.toNat_one, Nat.mod_eq_of_lt hroom, h.array]
  have hlast : (s.pool.realLen + 1 - 1).toNat = s.pool.e.length := by
    rw [UInt32.add_sub_cancel, h.array]
  have hresize : resizeElems s.pool.e (s.pool.e.length + 1) = s.pool.e ++ [⟨0, false⟩] := by
    rw [resizeElems, List.take_of_length_le (Nat.le_succ _), Nat.add_sub_cancel_left]
    rfl
  simp only [fragPoolAlloc, h.findIdx?_free, hfind, hreal, hlast, hresize]
  rw [if_pos (by simp), List.set_append_right _ _ (Nat.le_refl _), Nat.sub_self, List.set_cons_zero]

/-- The counter wraps around when the array would need `2 ^ 32` elements, and the
element that is written is not in it. -/
theorem fragPoolAlloc_eq_none (h : s.Consistent) (hroom : ¬ s.Room) :
    fragPoolAlloc s addr = none := by
  rw [PoolHeap.Room, not_or, not_exists] at hroom
  have hused : ∀ x ∈ s.pool.e, x.free = false := fun x hx =>
    Bool.eq_false_of_not_eq_true fun hfree => hroom.1 x ⟨hx, hfree⟩
  have hfind := List.findIdx?_eq_none_iff.2 hused
  have hlt := s.pool.realLen.toNat_lt
  have hreal : s.pool.realLen + 1 = 0 := by
    rw [← UInt32.toNat_inj, UInt32.toNat_add, UInt32.toNat_one, UInt32.toNat_zero]
    omega
  have hresize : resizeElems s.pool.e 0 = [] := by
    rw [resizeElems, Nat.zero_sub]
    rfl
  simp only [fragPoolAlloc, h.findIdx?_free, hfind, hreal, UInt32.toNat_zero, hresize]
  exact if_neg (Nat.not_lt_zero _)

/-- An allocation with room takes one element and changes no other one in use. -/
theorem fragPoolAlloc_spec (h : s.Valid) (haddr : addr ∉ s.live) (hroom : s.Room) :
    ∃ s', poolStep s (.alloc addr) = some s' ∧ s'.Valid ∧ (PoolOp.alloc addr).Effect s s' ∧
      s'.pool.curLen.toNat = s.pool.curLen.toNat + 1 ∧ s'.live ⊆ insert addr s.live := by
  cases hfind : s.pool.e.findIdx? fun x => x.free with
  | some i =>
      obtain ⟨x, hx, hfree⟩ := exists_of_findIdx? hfind
      have halloc : fragPoolAlloc s addr = some ({ s with pool := { s.pool with
          curLen := s.pool.curLen + 1
          e := s.pool.e.set i { x with free := false } } }, x.data) := by
        simp only [fragPoolAlloc, h.findIdx?_free, hfind, hx, Option.map_some]
      obtain ⟨hvalid, hcur⟩ := h.refill hx hfree
      refine ⟨_, by rw [poolStep, halloc, Option.map_some], hvalid,
        ⟨x.data, halloc, ?_, ?_, ?_⟩, hcur, Finset.subset_insert _ _⟩
      · intro y hy hused hdata
        obtain ⟨j, hj⟩ := List.mem_iff_getElem?.1 hy
        obtain rfl := h.index_eq hx hj hdata.symm
        obtain rfl := Option.some.inj (hx.symm.trans hj)
        exact absurd (hfree.symm.trans hused) (by decide)
      · exact List.mem_set (List.getElem?_eq_some_iff.1 hx).1 _
      · intro j y hy hused _
        have hne : i ≠ j := by
          rintro rfl
          obtain rfl := Option.some.inj (hx.symm.trans hy)
          exact absurd (hfree.symm.trans hused) (by decide)
        simp only
        rw [List.getElem?_set_ne hne]
        exact hy
  | none =>
      have hused := List.findIdx?_eq_none_iff.1 hfind
      have hsmall : s.pool.realLen.toNat + 1 < 2 ^ 32 :=
        hroom.resolve_left fun ⟨x, hx, hfree⟩ =>
          absurd (hfree.symm.trans (hused x hx)) (by decide)
      have halloc := @fragPoolAlloc_extend s addr h.toConsistent hused hsmall
      obtain ⟨hvalid, hcur⟩ := h.extend hused hsmall haddr
      refine ⟨_, by rw [poolStep, halloc, Option.map_some], hvalid,
        ⟨addr, halloc, ?_, ?_, ?_⟩, hcur, Finset.Subset.refl _⟩
      · exact fun x hx _ => ne_of_mem_of_not_mem (h.blocks x hx) haddr
      · exact List.mem_append_right _ (List.mem_singleton_self _)
      · intro j y hy _ _
        simp only
        rw [List.getElem?_append_left (List.getElem?_eq_some_iff.1 hy).1]
        exact hy

/-! ## Giving elements back -/

/-- What holds while the elements from `i` down are tried: the element `i` is free, and
if it is not the last one, the last one is as it has to be. -/
structure PoolHeap.Trimming (s : PoolHeap) (i : Nat) : Prop extends s.Consistent where
  freed : ∃ x, s.pool.e[i]? = some x ∧ x.free = true
  last : i + 1 ≠ s.pool.realLen.toNat → s.pool.reservedLen.toNat < s.pool.realLen.toNat →
    ∃ x, s.pool.e[s.pool.realLen.toNat - 1]? = some x ∧ x.free = false

/-- The counter behind an element of the array is not zero. -/
theorem PoolHeap.Consistent.toNat_realLen_sub_one (h : s.Consistent)
    (hx : s.pool.e[i]? = some x) :
    (s.pool.realLen - 1).toNat = s.pool.realLen.toNat - 1 ∧ i < s.pool.realLen.toNat := by
  have hi := (List.getElem?_eq_some_iff.1 hx).1
  rw [h.array] at hi
  refine ⟨?_, hi⟩
  rw [UInt32.toNat_sub_of_le, UInt32.toNat_one]
  rw [UInt32.le_iff_toNat_le, UInt32.toNat_one]
  omega

/-- The last element, a free one, can be given back: its block is live, and nothing else
changes. -/
theorem PoolHeap.Consistent.giveBack_eq (h : s.Consistent) (hx : s.pool.e[i]? = some x)
    (hfree : x.free = true) (hlast : i + 1 = s.pool.realLen.toNat)
    (hreserved : s.pool.reservedLen.toNat ≤ i) :
    ∃ s', s.giveBack i = some s' ∧ s'.Consistent ∧ s'.pool.e = s.pool.e.take i ∧
      s'.pool.realLen.toNat = i ∧ s'.pool.reservedLen = s.pool.reservedLen := by
  obtain ⟨hreal, -⟩ := h.toNat_realLen_sub_one hx
  have hi : s.pool.realLen.toNat - 1 = i := by omega
  rw [hi] at hreal
  have hsplit : s.pool.e = s.pool.e.take i ++ [x] := by
    obtain ⟨hlt, rfl⟩ := List.getElem?_eq_some_iff.1 hx
    rw [List.take_append_getElem, List.take_of_length_le (by rw [h.array]; omega)]
  have hresize : resizeElems s.pool.e i = s.pool.e.take i := by
    rw [resizeElems, h.array, ← hlast, Nat.sub_eq_zero_of_le (Nat.le_succ i), List.replicate_zero,
      List.append_nil]
  have hrelease := release_of_mem (h.blocks x (List.mem_of_getElem? hx))
  have hdistinct := h.distinct
  rw [hsplit, List.map_append, List.map_singleton, List.nodup_append] at hdistinct
  have hback : s.giveBack i = some ⟨{ s.pool with
      realLen := s.pool.realLen - 1
      e := s.pool.e.take i }, s.live.erase x.data⟩ := by
    simp only [PoolHeap.giveBack, hx, Option.bind_some, hrelease, Option.map_some, hreal, hresize]
  refine ⟨_, hback, ⟨?_, ?_, ?_, hdistinct.1, ?_⟩, rfl, hreal, rfl⟩
  · simp only [hreal, List.length_take, h.array]
    omega
  · have hcount := h.curLen
    rw [hsplit, List.countP_append, List.countP_singleton] at hcount
    simpa [hfree] using hcount
  · simp only [hreal]
    exact hreserved
  · intro y hy
    refine Finset.mem_erase.2 ⟨fun hdata => ?_, h.blocks y (List.mem_of_mem_take hy)⟩
    exact hdistinct.2.2 _ (List.mem_map_of_mem hy) _ (List.mem_singleton_self _) hdata

/-- One step of the trimming: the function stops in front of a reserved element and at
one that is not the last, and else the last element goes. -/
theorem fragTryInternalPoolFree_eq (s : PoolHeap) (i : Nat) :
    fragTryInternalPoolFree s i =
      if s.pool.reservedLen.toNat ≤ i ∧ i = (s.pool.realLen - 1).toNat then
        (s.giveBack i).bind fun s =>
          if i = 0 then some s
          else (s.pool.e[i - 1]?).bind fun x =>
            if x.free then fragTryInternalPoolFree s (i - 1) else some s
      else some s := by
  cases i with
  | zero => simp [fragTryInternalPoolFree]
  | succ i => simp [fragTryInternalPoolFree]

/-- Trimming ends with a valid pool, and the elements in use stay where they are. -/
theorem fragTryInternalPoolFree_spec (h : s.Trimming i) :
    ∃ s', fragTryInternalPoolFree s i = some s' ∧ s'.Valid ∧ s'.pool.e <+: s.pool.e ∧
      s.Keeps s' fun _ _ => True := by
  induction i using Nat.strong_induction_on generalizing s with
  | _ i ih =>
    obtain ⟨x, hx, hfree⟩ := h.freed
    obtain ⟨hreal, hlt⟩ := h.toNat_realLen_sub_one hx
    rw [fragTryInternalPoolFree_eq]
    by_cases hcond : s.pool.reservedLen.toNat ≤ i ∧ i = (s.pool.realLen - 1).toNat
    · have hlast : i + 1 = s.pool.realLen.toNat := by omega
      obtain ⟨s₁, hback, h₁, he, hlen, hres⟩ := h.giveBack_eq hx hfree hlast hcond.1
      have hkeep₁ : s.Keeps s₁ fun _ _ => True := by
        intro j y hy hused _
        have hj := (List.getElem?_eq_some_iff.1 hy).1
        have hne : j ≠ i := by
          rintro rfl
          obtain rfl := Option.some.inj (hx.symm.trans hy)
          exact absurd (hfree.symm.trans hused) (by decide)
        rw [he, List.getElem?_take_of_lt (by rw [h.array] at hj; omega)]
        exact hy
      have hprefix₁ : s₁.pool.e <+: s.pool.e := he ▸ List.take_prefix _ _
      rw [if_pos hcond, hback, Option.bind_some]
      by_cases hzero : i = 0
      · rw [if_pos hzero]
        exact ⟨s₁, rfl, ⟨h₁, fun hlong => absurd hlong (by omega)⟩, hprefix₁, hkeep₁⟩
      · obtain ⟨y, hy⟩ : ∃ y, s₁.pool.e[i - 1]? = some y :=
          ⟨_, List.getElem?_eq_getElem (by rw [h₁.array]; omega)⟩
        rw [if_neg hzero, hy, Option.bind_some]
        by_cases hyfree : y.free = true
        · -- the element in front of the last one is free, too
          obtain ⟨s₂, htry, hvalid, hprefix, hkeep⟩ := ih (i - 1) (by omega) (s := s₁)
            ⟨h₁, ⟨y, hy, hyfree⟩, fun hne => absurd (by omega) hne⟩
          rw [if_pos hyfree]
          exact ⟨s₂, htry, hvalid, hprefix.trans hprefix₁,
            fun j z hz hused _ => hkeep j z (hkeep₁ j z hz hused trivial) hused trivial⟩
        · rw [if_neg hyfree]
          refine ⟨s₁, rfl, ⟨h₁, fun _ => ⟨y, ?_, Bool.eq_false_of_not_eq_true hyfree⟩⟩,
            hprefix₁, hkeep₁⟩
          rw [hlen]
          exact hy
    · rw [if_neg hcond]
      refine ⟨s, rfl, ⟨h.toConsistent, fun hlong => ?_⟩, List.prefix_refl _,
        fun _ _ hy _ _ => hy⟩
      exact h.last (fun hlast => hcond ⟨by omega, by omega⟩) hlong

/-- A pool in which an element was just marked as free. -/
theorem PoolHeap.Valid.trimming (h : s.Valid) (hx : s.pool.e[i]? = some x)
    (hused : x.free = false) :
    PoolHeap.Trimming { s with pool := { s.pool with
      curLen := s.pool.curLen - 1
      e := s.pool.e.set i { x with free := true } } } i := by
  obtain ⟨hi, hget⟩ := List.getElem?_eq_some_iff.1 hx
  have hpos : 0 < s.pool.e.countP fun x => !x.free :=
    List.countP_pos_iff.2 ⟨x, List.mem_of_getElem? hx, by simp [hused]⟩
  have hcount : ((s.pool.e.set i { x with free := true }).countP fun x => !x.free) =
      (s.pool.e.countP fun x => !x.free) - 1 := by
    rw [List.countP_set hi, hget]
    simp [hused]
  have hcur : (s.pool.curLen - 1).toNat = (s.pool.e.countP fun x => !x.free) - 1 := by
    rw [UInt32.toNat_sub_of_le, UInt32.toNat_one, h.curLen]
    rw [UInt32.le_iff_toNat_le, UInt32.toNat_one, h.curLen]
    exact hpos
  refine ⟨h.setFree hx true (hcur.trans hcount.symm), ⟨{ x with free := true }, ?_, rfl⟩, ?_⟩
  · exact List.getElem?_set_self hi
  · intro hne hlong
    obtain ⟨y, hy, hyused⟩ := h.last hlong
    refine ⟨y, ?_, hyused⟩
    have hlt : s.pool.reservedLen.toNat < s.pool.realLen.toNat := hlong
    simp only at hne ⊢
    rw [List.getElem?_set_ne (by omega)]
    exact hy

/-- An element in use is freed and nothing else changes. -/
theorem PoolHeap.Valid.markFree_spec (h : s.Valid) (hx : s.pool.e[i]? = some x)
    (hused : x.free = false) :
    ∃ s', s.markFree i x = some s' ∧ s'.Valid ∧
      (∀ y, s'.pool.e[i]? = some y → y.free = true) ∧
        (∀ y ∈ s'.pool.e, y.free = false → y.data ≠ x.data) ∧ s.Keeps s' fun j _ => j ≠ i := by
  have hi := (List.getElem?_eq_some_iff.1 hx).1
  have htrim := h.trimming hx hused
  obtain ⟨s', htry, hvalid, hprefix, hkeep⟩ := fragTryInternalPoolFree_spec htrim
  have hold : ∀ {j : Nat} {y : FragPoolElem}, s'.pool.e[j]? = some y →
      (s.pool.e.set i { x with free := true })[j]? = some y := by
    intro j y hy
    obtain ⟨hj, rfl⟩ := List.getElem?_eq_some_iff.1 hy
    exact List.prefix_iff_getElem?.1 hprefix j hj
  refine ⟨s', htry, hvalid, fun y hy => ?_, fun y hy hyused hdata => ?_, ?_⟩
  · have hself := hold hy
    rw [List.getElem?_set_self hi] at hself
    obtain rfl := Option.some.inj hself
    rfl
  · obtain ⟨j, hj⟩ := List.mem_iff_getElem?.1 hy
    have hself := htrim.index_eq (List.getElem?_set_self hi) (hold hj) hdata.symm
    subst hself
    have hmarked := hold hj
    rw [List.getElem?_set_self hi] at hmarked
    obtain rfl := Option.some.inj hmarked
    cases hyused
  · intro j y hy hyused hne
    refine hkeep j y ?_ hyused trivial
    simp only
    rw [List.getElem?_set_ne (Ne.symm hne)]
    exact hy

/-! ## Every call and every run -/

/-- A call that is allowed and does not need too many elements. -/
theorem poolStep_spec {op : PoolOp} (h : s.Valid) (hop : op.Bounded s) :
    ∃ s', poolStep s op = some s' ∧ s'.Valid ∧ op.Effect s s' := by
  cases op with
  | alloc addr =>
      obtain ⟨s', hs', hvalid, heffect, -⟩ := fragPoolAlloc_spec h hop.1 (hop.2 addr rfl)
      exact ⟨s', hs', hvalid, heffect⟩
  | free ptr =>
      cases hfind : s.pool.e.findIdx? fun x => !x.free && x.data == ptr with
      | some i =>
          obtain ⟨x, hx, hp⟩ := exists_of_findIdx? hfind
          rw [Bool.and_eq_true, Bool.not_eq_true', beq_iff_eq] at hp
          obtain ⟨hused, rfl⟩ := hp
          obtain ⟨s', hmark, hvalid, -, hgone, hkeep⟩ := h.markFree_spec hx hused
          refine ⟨s', ?_, hvalid, hgone, fun j y hy hyused hne => hkeep j y hy hyused ?_⟩
          · rw [poolStep, fragPoolFree, ← h.array, List.take_length, hfind]
            simp only [hx, Option.bind_some, hmark]
          · rintro rfl
            obtain rfl := Option.some.inj (hx.symm.trans hy)
            exact hne rfl
      | none =>
          refine ⟨s, ?_, h, fun y hy hyused hdata => ?_, fun _ _ hy _ _ => hy⟩
          · rw [poolStep, fragPoolFree, ← h.array, List.take_length, hfind]
          · have hnot := List.findIdx?_eq_none_iff.1 hfind y hy
            simp [hyused, hdata] at hnot
  | freeAlt i =>
      obtain ⟨x, hx⟩ : ∃ x, s.pool.e[i]? = some x :=
        ⟨_, List.getElem?_eq_getElem (h.array ▸ hop.1)⟩
      by_cases hfree : x.free = true
      · refine ⟨s, ?_, h, fun y hy => ?_, fun _ _ hy _ _ => hy⟩
        · rw [poolStep, fragPoolFreeAlt, hx, Option.bind_some, if_pos hfree]
        · obtain rfl := Option.some.inj (hx.symm.trans hy)
          exact hfree
      · obtain ⟨s', hmark, hvalid, hgone, -, hkeep⟩ :=
          h.markFree_spec hx (Bool.eq_false_of_not_eq_true hfree)
        refine ⟨s', ?_, hvalid, hgone, hkeep⟩
        rw [poolStep, fragPoolFreeAlt, hx, Option.bind_some, if_neg hfree, hmark]
  | others live =>
      exact ⟨_, rfl, ⟨⟨h.array, h.curLen, h.reserved, h.distinct, hop.1⟩, h.last⟩, rfl⟩

/-- A new pool is valid. -/
theorem valid_fragPoolCreate (size resLen : UInt32) {addr : Nat → Nat} {live : Finset Nat}
    (hdistinct : (createdData resLen addr).Nodup) :
    (fragPoolCreate size resLen addr live).Valid where
  array := by simp [fragPoolCreate, createdData]
  curLen := by
    refine (List.countP_eq_zero.2 fun x hx => ?_).symm
    obtain ⟨a, -, rfl⟩ := List.mem_map.1 hx
    exact Bool.false_ne_true
  reserved := Nat.le_refl _
  distinct := by
    have hdata : ((createdData resLen addr).map fun data => (⟨data, true⟩ : FragPoolElem)).map
        FragPoolElem.data = createdData resLen addr := by
      rw [List.map_map]
      exact List.map_id _
    rw [fragPoolCreate, hdata]
    exact hdistinct
  blocks := by
    intro x hx
    obtain ⟨a, ha, rfl⟩ := List.mem_map.1 hx
    exact Finset.mem_union_right _ (List.mem_toFinset.2 ha)
  last := fun hlong => absurd hlong (Nat.lt_irrefl _)

/-- A run of bounded calls leads to a valid pool. -/
theorem run_poolStep_valid {ops : List PoolOp} (h : s.Valid)
    (hops : Meets poolStep PoolOp.Bounded s ops) :
    ∃ s', run poolStep s ops = some s' ∧ s'.Valid := by
  induction ops generalizing s with
  | nil => exact ⟨s, rfl, h⟩
  | cons op ops ih =>
      obtain ⟨s₁, hs₁, hvalid, -⟩ := poolStep_spec h hops.1
      obtain ⟨s₂, hs₂, hend⟩ := ih hvalid (hops.2 s₁ hs₁)
      exact ⟨s₂, (run_cons_eq_some_iff _ _ _ _ _).2 ⟨s₁, hs₁, hs₂⟩, hend⟩

/-- The representation invariant, in every run in which no allocation needs more
elements than the counter `real_len` can count. -/
theorem poolInvariant_bounded : PoolInvariant PoolOp.Bounded := by
  intro size resLen addr live hdistinct _ ops hops
  obtain ⟨s, hs, hvalid⟩ := run_poolStep_valid (valid_fragPoolCreate size resLen hdistinct) hops
  refine ⟨s, hs, hvalid, fun op hop => ?_⟩
  obtain ⟨s', hs', -, heffect⟩ := poolStep_spec hvalid hop
  exact ⟨s', hs', heffect⟩

/-! ## The pool without its memory -/

section Slots

variable {α : Type*} {content : Nat → α}

/-- What an element holds, given the contents of the blocks. -/
def FragPoolElem.slot (content : Nat → α) (x : FragPoolElem) : Option α :=
  if x.free then none else some (content x.data)

/-- The pool as its callers see it. -/
def PoolHeap.slots (content : Nat → α) (s : PoolHeap) : FragPool α :=
  ⟨s.pool.reservedLen.toNat, s.pool.e.map (FragPoolElem.slot content)⟩

end Slots

/-! ## Too many elements -/

/-- Allocations one after the other, with the addresses from `k` on. -/
def allocsFrom (k n : Nat) : List PoolOp :=
  (List.range' k n).map PoolOp.alloc

/-- A pool with all its elements in use ends such a run when the counter is full. -/
theorem run_allocsFrom {n k : Nat} (h : s.Valid) (hn : s.pool.curLen.toNat + n = 2 ^ 32)
    (hk : ∀ a ∈ s.live, a < k) :
    run poolStep s (allocsFrom k n) = none ∧ Meets poolStep PoolOp.Allowed s (allocsFrom k n) := by
  induction n generalizing s k with
  | zero =>
      have hlt := s.pool.curLen.toNat_lt
      omega
  | succ n ih =>
      have hfresh : k ∉ s.live := fun hmem => Nat.lt_irrefl k (hk k hmem)
      have hcons : allocsFrom k (n + 1) = .alloc k :: allocsFrom (k + 1) n := by
        rw [allocsFrom, List.range'_succ, List.map_cons]
        rfl
      rw [hcons, run_cons]
      by_cases hroom : s.Room
      · obtain ⟨s', hs', hvalid, -, hcur, hlive⟩ := fragPoolAlloc_spec h hfresh hroom
        obtain ⟨hrun, hmeets⟩ := @ih s' (k + 1) hvalid (by omega) fun a ha => by
          rcases Finset.mem_insert.1 (hlive ha) with rfl | ha
          · exact Nat.lt_succ_self _
          · exact Nat.lt_succ_of_lt (hk a ha)
        rw [hs', Option.bind_some]
        refine ⟨hrun, hfresh, fun t ht => ?_⟩
        obtain rfl := Option.some.inj (hs'.symm.trans ht)
        exact hmeets
      · have hnone : poolStep s (.alloc k) = none := by
          rw [poolStep, fragPoolAlloc_eq_none h.toConsistent hroom, Option.map_none]
        rw [hnone]
        refine ⟨rfl, hfresh, fun t ht => ?_⟩
        rw [hnone] at ht
        cases ht

/-- After `2 ^ 32` allocations in an empty pool nothing holds any more. -/
theorem not_poolInvariant : ¬ PoolInvariant PoolOp.Allowed := by
  intro h
  have hempty : createdData 0 id = [] := rfl
  have hvalid : (fragPoolCreate 4 0 id ∅).Valid :=
    valid_fragPoolCreate 4 0 (by rw [hempty]; exact List.nodup_nil)
  obtain ⟨hnone, hmeets⟩ := @run_allocsFrom _ (2 ^ 32) 0 hvalid rfl (by
    intro a ha
    exact absurd ha (by rw [fragPoolCreate, hempty]; simp))
  obtain ⟨s, hs, -⟩ := h 4 0 id ∅ (by rw [hempty]; exact List.nodup_nil)
    (by rw [hempty]; simp) _ hmeets
  rw [hnone] at hs
  cases hs

end OpenTube
