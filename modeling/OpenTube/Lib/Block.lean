import Mathlib.Data.List.Basic

/-!
# Blocks of memory

A block is what an allocator hands out: cells at consecutive addresses, of which
`none` are not written yet. Reading, writing and changing the size are partial
functions of the address, so that an access outside of the block has no value.

What was written to a block is often known only up to the cells behind it, since
these come and go with the size. `Block.Begins` says that a block begins with given
cells and that nothing was written behind them.
-/

namespace Heap

open List

variable {α : Type*}

/-- An allocated block: its address and its cells. -/
structure Block (α : Type*) where
  data : Int
  cells : List (Option α)
deriving DecidableEq, Repr

namespace Block

/-- A new block of `n` cells at the address `addr`. -/
def alloc (n : Nat) (addr : Int) : Block α := ⟨addr, replicate n none⟩

/-- The block with the size `n`, moved to the address `addr`. -/
def realloc (b : Block α) (n : Nat) (addr : Int) : Block α :=
  ⟨addr, b.cells.take n ++ replicate (n - b.cells.length) none⟩

/-- Write `l` at the address `a`. -/
def write (b : Block α) (a : Int) (l : List α) : Option (Block α) :=
  let o := (a - b.data).toNat
  if l = [] then some b
  else if 0 ≤ a - b.data ∧ o + l.length ≤ b.cells.length then
    some { b with cells := b.cells.take o ++ (l.map some ++ b.cells.drop (o + l.length)) }
  else none

/-- Read `n` cells at the address `a`. -/
def read (b : Block α) (a : Int) (n : Nat) : Option (List α) :=
  let s := (b.cells.drop (a - b.data).toNat).take n
  if 0 ≤ a - b.data ∧ s.length = n ∧ s.all Option.isSome then some (s.filterMap id) else none

/-- The cells of the block are `l`, up to cells at the end that were not written. -/
def Begins (b : Block α) (l : List (Option α)) : Prop :=
  ∃ m k, b.cells ++ replicate m none = l ++ replicate k none

variable {b : Block α} {a : Int} {l : List α} {front mid back : List (Option α)}

theorem begins_cells (b : Block α) : b.Begins b.cells := ⟨0, 0, rfl⟩

theorem begins_of_eq {n : Nat} (h : b.cells = front ++ replicate n none) : b.Begins front :=
  ⟨0, n, by rw [h, replicate_zero, append_nil]⟩

/-- Unwritten cells may be counted in. -/
theorem Begins.append (h : b.Begins front) (n : Nat) : b.Begins (front ++ replicate n none) := by
  obtain ⟨m, k, hmk⟩ := h
  refine ⟨m + n, k, ?_⟩
  rw [replicate_add, ← append_assoc, hmk, append_assoc, append_assoc, replicate_append_replicate,
    replicate_append_replicate, Nat.add_comm]

/-- Changing the size keeps what was written and fits. -/
theorem Begins.cells_realloc (h : b.Begins front) {n : Nat} (hn : front.length ≤ n) (addr : Int) :
    (b.realloc n addr).cells = front ++ replicate (n - front.length) none := by
  obtain ⟨m, k, hmk⟩ := h
  have htake : ∀ (l : List (Option α)) (i : Nat), n ≤ l.length + i →
      (l ++ replicate i none).take n = l.take n ++ replicate (n - l.length) none := by
    intro l i hi
    rw [take_append, take_replicate, Nat.min_eq_left (Nat.sub_le_iff_le_add'.2 hi)]
  have hlen := congrArg length hmk
  simp only [length_append, length_replicate] at hlen
  -- both sides are the first cells of the block and of many unwritten ones
  have hlong : b.cells ++ replicate (m + n) none = front ++ replicate (k + n) none := by
    rw [replicate_add, replicate_add, ← append_assoc, hmk, append_assoc]
  have hcells := congrArg (take n) hlong
  rw [htake b.cells _ (by omega), htake front _ (by omega), take_of_length_le hn] at hcells
  exact hcells

@[simp] theorem data_realloc (b : Block α) (n : Nat) (addr : Int) :
    (b.realloc n addr).data = addr := rfl

@[simp] theorem length_realloc (b : Block α) (n : Nat) (addr : Int) :
    (b.realloc n addr).cells.length = n := by
  simp only [realloc, length_append, length_take, length_replicate]
  omega

/-- Changing the size keeps the cells that fit. -/
theorem take_drop_realloc (b : Block α) {n s k : Nat} (addr : Int) (hn : s + k ≤ n)
    (h : s + k ≤ b.cells.length) :
    ((b.realloc n addr).cells.drop s).take k = (b.cells.drop s).take k := by
  have htake : (b.realloc n addr).cells.take (s + k) = b.cells.take (s + k) := by
    rw [realloc, take_append_of_le_length (by rw [length_take]; omega), take_take,
      Nat.min_eq_left hn]
  rw [take_drop, take_drop, htake]

/-- A write inside of the block has a value and changes neither its size nor its
place. -/
theorem exists_write {o : Nat} (h : o + l.length ≤ b.cells.length) :
    ∃ b', b.write (b.data + o) l = some b' ∧ b'.cells.length = b.cells.length := by
  have ho : (b.data + o - b.data).toNat = o := by omega
  unfold write
  split
  · exact ⟨b, rfl, rfl⟩
  · rw [ho, if_pos ⟨by omega, h⟩]
    refine ⟨_, rfl, ?_⟩
    simp only [length_append, length_take, length_map, length_drop]
    omega

theorem read_eq (h : b.cells = front ++ (l.map some ++ back))
    (ha : a = b.data + (front.length : Nat)) : b.read a l.length = some l := by
  have ho : (a - b.data).toNat = front.length := by omega
  have hcells : (b.cells.drop front.length).take l.length = l.map some := by
    rw [h, drop_left, take_append_of_le_length (by simp), take_of_length_le (by simp)]
  simp only [read, ho, hcells]
  rw [if_pos ⟨by omega, length_map some, by simp⟩]
  simp

theorem write_eq (h : b.cells = front ++ (mid ++ back)) (hmid : mid.length = l.length)
    (ha : a = b.data + (front.length : Nat)) :
    b.write a l = some { b with cells := front ++ (l.map some ++ back) } := by
  have ho : (a - b.data).toNat = front.length := by omega
  by_cases hl : l = []
  · subst hl
    obtain rfl : mid = [] := by simpa using hmid
    simp only [write, if_true, map_nil]
    rw [← h]
  · have htake : b.cells.take front.length = front := by rw [h, take_left]
    have hdrop : b.cells.drop (front.length + l.length) = back := by
      rw [h, ← hmid, ← append_assoc, drop_left' length_append]
    have hlen : front.length + l.length ≤ b.cells.length := by
      rw [h, length_append, length_append, hmid]
      omega
    simp only [write, ho, if_neg hl, htake, hdrop]
    rw [if_pos ⟨by omega, hlen⟩]

/-- A new block that is filled. -/
theorem write_alloc (l : List α) (addr : Int) :
    (alloc l.length addr).write addr l = some ⟨addr, l.map some⟩ := by
  have hcells : (alloc l.length addr : Block α).cells = [] ++ (replicate l.length none ++ []) := by
    rw [nil_append, append_nil]
    rfl
  rw [write_eq hcells length_replicate (Int.add_zero addr).symm, nil_append, append_nil]
  rfl

/-- A write behind the block. -/
theorem write_eq_none (hl : l ≠ []) (ha : b.data + (b.cells.length : Nat) ≤ a) :
    b.write a l = none := by
  have hpos := length_pos_iff.2 hl
  simp only [write, if_neg hl]
  exact if_neg (by omega)

end Block

end Heap
