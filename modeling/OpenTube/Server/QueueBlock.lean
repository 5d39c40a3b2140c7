import OpenTube.Common.Types
import OpenTube.Server.WorkQueue

/-!
# The memory of a pointer queue

`pqueue_t` with the block its entries are stored in. A push writes and a fetch
reads the place behind the entries that stay, and above the reserved length both
give the block exactly the size of the new length first. For a push this is the
size it needs. For a fetch it is one place too few.

The block refines the queue of `OpenTube.Server.WorkQueue`: `QueueBlock.Refines` is
the relation between them.
-/

namespace OpenTube

open List

variable {α : Type*}

/-! ## The functions -/

/-- `pqueue_t` and the block at `data`, one cell for each pointer; `none` is a cell
that was not written yet. -/
structure QueueBlock (α : Type*) where
  curLen : Nat
  reservedLen : Nat
  cells : List (Option α)
deriving DecidableEq, Repr

/-- `pqueue_create`. The block has `sizeof(void *) * res_len` bytes, eight for each
pointer. -/
def QueueBlock.create (resLen : Nat) : QueueBlock α :=
  ⟨0, uint resLen, replicate (8 * resLen % 2 ^ 64 / 8) none⟩

/-- The block after the call of `allocator_realloc`, which is only made above the
reserved length. -/
def QueueBlock.resized (b : QueueBlock α) (n : Nat) : List (Option α) :=
  if b.reservedLen < n then b.cells.take n ++ replicate (n - b.cells.length) none else b.cells

/-- `pqueue_push`; `none` when it writes outside the block. -/
def QueueBlock.push (b : QueueBlock α) (x : α) : Option (QueueBlock α) :=
  let curLen := uint (b.curLen + 1)
  let cells := b.resized curLen
  let i := uint ((curLen : Int) - 1)
  if i < cells.length then some { b with curLen := curLen, cells := cells.set i (some x) } else none

/-- `pqueue_fetch`: what is read, and the queue; `none` when it reads outside the
block. -/
def QueueBlock.fetch (b : QueueBlock α) : Option (Option α × QueueBlock α) :=
  let curLen := uint ((b.curLen : Int) - 1)
  let cells := b.resized curLen
  cells[curLen]?.map fun x => (x, { b with curLen := curLen, cells := cells })

/-! ## The relation to the queue -/

/-- The cells that were written are the entries of the queue, and the block has at
least the reserved length. -/
structure QueueBlock.Refines (b : QueueBlock α) (p : PQueue α) : Prop where
  curLen : b.curLen = p.curLen
  reservedLen : b.reservedLen = p.reservedLen
  cells : ∃ n, b.cells = p.data.map some ++ replicate n none
  reserved : p.reservedLen ≤ b.cells.length
  length : p.curLen ≤ p.data.length

variable {b : QueueBlock α} {p : PQueue α}

theorem refines_create (resLen : Nat) :
    (QueueBlock.create resLen : QueueBlock α).Refines (.create (uint resLen)) where
  curLen := rfl
  reservedLen := rfl
  cells := ⟨_, rfl⟩
  reserved := by
    simp only [PQueue.create, QueueBlock.create, length_replicate, uint]
    omega
  length := Nat.le_refl _

theorem QueueBlock.Refines.resized (h : b.Refines p) (n : Nat) :
    ∃ m, b.resized n = (p.resized n).map some ++ replicate m none := by
  obtain ⟨m, hm⟩ := h.cells
  rw [QueueBlock.resized, PQueue.resized, h.reservedLen]
  split_ifs
  · refine ⟨min (n - p.data.length) m + (n - b.cells.length), ?_⟩
    rw [hm, take_append, take_replicate, map_take, length_map, append_assoc,
      replicate_append_replicate]
  · exact ⟨m, hm⟩

theorem QueueBlock.length_resized (b : QueueBlock α) (n : Nat) :
    (b.resized n).length = if b.reservedLen < n then n else b.cells.length := by
  rw [QueueBlock.resized]
  split_ifs
  · rw [length_append, length_take, length_replicate]
    omega
  · rfl

/-- The block keeps the reserved length. -/
theorem QueueBlock.Refines.le_length_resized (h : b.Refines p) (n : Nat) :
    p.reservedLen ≤ (b.resized n).length := by
  rw [b.length_resized, h.reservedLen]
  split_ifs with hlt
  · exact Nat.le_of_lt hlt
  · exact h.reserved

/-- Writing the cell behind the first ones. -/
theorem set_map_append_replicate {l : List α} {n i : Nat} (h : i ≤ l.length) (hn : i < l.length + n)
    (x : α) :
    (l.map some ++ replicate n none).set i (some x) =
      (l.take i ++ x :: l.drop (i + 1)).map some ++ replicate (n - (i + 1 - l.length)) none := by
  rw [set_eq_take_append_cons_drop, if_pos (by simpa using hn)]
  have htake : (l.map some ++ replicate n (none : Option α)).take i = (l.take i).map some := by
    rw [take_append_of_le_length (by simpa using h), map_take]
  have hdrop : (l.map some ++ replicate n (none : Option α)).drop (i + 1) =
      (l.drop (i + 1)).map some ++ replicate (n - (i + 1 - l.length)) none := by
    rw [drop_append, map_drop, length_map, drop_replicate]
  rw [htake, hdrop]
  simp

/-- A push writes inside the block, as long as the length is a `uint`. -/
theorem QueueBlock.Refines.push (h : b.Refines p) (hlt : p.curLen + 1 < 2 ^ 32) (x : α) :
    ∃ c, b.push x = some c ∧ c.Refines (p.push x) := by
  have hcur : uint ((b.curLen : Int) + 1) = p.curLen + 1 := by
    rw [h.curLen]
    exact uint_natCast hlt
  have hindex : uint (((p.curLen + 1 : Nat) : Int) - 1) = p.curLen :=
    uint_eq (by omega) (by omega)
  have hroom : p.curLen < (b.resized (p.curLen + 1)).length := by
    have hreserved := h.reserved
    rw [b.length_resized, h.reservedLen]
    split_ifs
    · exact Nat.lt_succ_self _
    · omega
  obtain ⟨n, hn⟩ := h.resized (p.curLen + 1)
  have hlen : p.curLen ≤ (p.resized (p.curLen + 1)).length := by
    have hlength := h.length
    unfold PQueue.resized
    split_ifs
    · rw [length_take]
      omega
    · exact hlength
  refine ⟨⟨p.curLen + 1, b.reservedLen, (b.resized (p.curLen + 1)).set p.curLen (some x)⟩, ?_, ?_⟩
  · simp only [QueueBlock.push, hcur, hindex, if_pos hroom]
  · refine ⟨rfl, h.reservedLen, ?_, ?_, (PQueue.entries_push h.length x).2⟩
    · rw [hn] at hroom
      refine ⟨n - (p.curLen + 1 - (p.resized (p.curLen + 1)).length), ?_⟩
      simp only [hn]
      exact set_map_append_replicate hlen (by simpa using hroom) x
    · rw [length_set]
      exact h.le_length_resized _

/-- A fetch that does not shrink the block reads the last entry. -/
theorem QueueBlock.Refines.fetch (h : b.Refines p) (hlt : p.curLen < 2 ^ 32) (hpos : 0 < p.curLen)
    (hle : p.curLen ≤ p.reservedLen + 1) :
    ∃ x c, b.fetch = some (some x, c) ∧ c.Refines { p with curLen := p.curLen - 1 } ∧
      p.entries = p.data.take (p.curLen - 1) ++ [x] := by
  have hcur : uint ((b.curLen : Int) - 1) = p.curLen - 1 := by
    rw [h.curLen]
    exact uint_eq (by omega) (by omega)
  obtain ⟨x, hfetch, hentries⟩ := PQueue.fetch_of_le h.length hpos hle
  have hsame : b.resized (p.curLen - 1) = b.cells := by
    rw [QueueBlock.resized, h.reservedLen, if_neg (by omega)]
  have hget : b.cells[p.curLen - 1]? = some (some x) := by
    obtain ⟨n, hn⟩ := h.cells
    have hlength := h.length
    have hlast : p.data[p.curLen - 1]? = some x := by
      have hentry : p.entries[p.curLen - 1]? = some x := by
        have hprefix : (p.data.take (p.curLen - 1)).length = p.curLen - 1 := by
          rw [length_take]
          omega
        rw [hentries, getElem?_append_right (Nat.le_of_eq hprefix), hprefix, Nat.sub_self]
        rfl
      rwa [PQueue.entries, getElem?_take_of_lt (by omega)] at hentry
    rw [hn, getElem?_append_left (by simp; omega), getElem?_map, hlast]
    rfl
  refine ⟨x, ⟨p.curLen - 1, b.reservedLen, b.cells⟩, ?_, ?_, hentries⟩
  · simp only [QueueBlock.fetch, hcur, hsame, hget, Option.map_some]
  · have hlength := h.length
    exact ⟨rfl, h.reservedLen, h.cells, h.reserved, by simp only; omega⟩

/-- A fetch that shrinks the block reads behind it. -/
theorem QueueBlock.Refines.fetch_above (h : b.Refines p) (hlt : p.curLen < 2 ^ 32)
    (habove : p.reservedLen + 1 < p.curLen) : b.fetch = none := by
  have hcur : uint ((b.curLen : Int) - 1) = p.curLen - 1 := by
    rw [h.curLen]
    exact uint_eq (by omega) (by omega)
  have hlen : (b.resized (p.curLen - 1)).length = p.curLen - 1 := by
    rw [b.length_resized, h.reservedLen, if_pos (by omega)]
  simp only [QueueBlock.fetch, hcur]
  rw [getElem?_eq_none (Nat.le_of_eq hlen)]
  rfl

/-- A push to a queue whose length wraps around writes behind the block. -/
theorem QueueBlock.push_wraps (hcur : b.curLen = 2 ^ 32 - 1) (hlen : b.cells.length < 2 ^ 32)
    (x : α) : b.push x = none := by
  have hzero : uint ((b.curLen : Int) + 1) = 0 := by
    rw [hcur]
    rfl
  have hindex : uint (((0 : Nat) : Int) - 1) = 2 ^ 32 - 1 := rfl
  have hsame : b.resized 0 = b.cells := by
    rw [QueueBlock.resized, if_neg (Nat.not_lt_zero _)]
  simp only [QueueBlock.push, hzero, hindex, hsame]
  exact if_neg (by omega)

/-! ## Sequences of calls -/

/-- A call of `pqueue_push` or `pqueue_fetch`. -/
inductive QueueCall (α : Type*)
  | push (x : α)
  | fetch
deriving DecidableEq, Repr

/-- The queue, and the pointers that were pushed and not yet fetched, for the
statement only. -/
structure QueueRun (α : Type*) where
  block : QueueBlock α
  held : List α
deriving DecidableEq, Repr

/-- The state after `pqueue_create`. -/
def QueueRun.start (resLen : Nat) : QueueRun α := ⟨.create resLen, []⟩

/-- One call; `none` when it leaves the block, or fetches what is not held. -/
def QueueRun.step [DecidableEq α] (s : QueueRun α) : QueueCall α → Option (QueueRun α)
  | .push x => (s.block.push x).map fun b => ⟨b, x :: s.held⟩
  | .fetch =>
      match s.block.fetch with
      | some (some x, b) => if x ∈ s.held then some ⟨b, s.held.erase x⟩ else none
      | _ => none

/-- Each call stays inside the block as it is at that moment, and each fetch returns
a pointer that was pushed and not yet fetched. -/
def Disciplined [DecidableEq α] (resLen : Nat) (calls : List (QueueCall α)) : Prop :=
  (Machine.run QueueRun.step (.start resLen) calls).isSome = true

instance [DecidableEq α] (resLen : Nat) (calls : List (QueueCall α)) :
    Decidable (Disciplined resLen calls) :=
  inferInstanceAs (Decidable (_ = true))

/-- With `n` entries held, there are never more fetches than pushes. -/
def Balanced : Nat → List (QueueCall α) → Prop
  | _, [] => True
  | n, .push _ :: calls => Balanced (n + 1) calls
  | 0, .fetch :: _ => False
  | n + 1, .fetch :: calls => Balanced n calls

/-- With `n` entries held, each fetch is made with at most one entry above the
reserved length, and there are never more entries than a `uint` can count. -/
def StaysLow (reserved : Nat) : Nat → List (QueueCall α) → Prop
  | _, [] => True
  | n, .push _ :: calls => n + 1 < 2 ^ 32 ∧ StaysLow reserved (n + 1) calls
  | n, .fetch :: calls => n ≤ reserved + 1 ∧ StaysLow reserved (n - 1) calls

/-- The block refines a queue of the pointers that are held. -/
def QueueRun.Holds (s : QueueRun α) (reserved : Nat) : Prop :=
  ∃ p : PQueue α, s.block.Refines p ∧ p.reservedLen = reserved ∧ p.curLen = s.held.length ∧
    p.entries = s.held.reverse

theorem holds_start (resLen : Nat) : (QueueRun.start resLen : QueueRun α).Holds (uint resLen) :=
  ⟨_, refines_create resLen, rfl, rfl, rfl⟩

section

variable [DecidableEq α] {s t : QueueRun α} {reserved : Nat}

theorem QueueRun.Holds.push (h : s.Holds reserved) (hlt : s.held.length + 1 < 2 ^ 32) (x : α) :
    ∃ b, s.step (.push x) = some ⟨b, x :: s.held⟩ ∧ QueueRun.Holds ⟨b, x :: s.held⟩ reserved := by
  obtain ⟨p, hrefines, hreserved, hcur, hentries⟩ := h
  obtain ⟨c, hpush, hc⟩ := hrefines.push (hcur ▸ hlt) x
  refine ⟨c, ?_, _, hc, hreserved, ?_, ?_⟩
  · rw [QueueRun.step, hpush]
    rfl
  · simp [PQueue.push, hcur]
  · rw [(PQueue.entries_push hrefines.length x).1, hentries, reverse_cons]

theorem QueueRun.Holds.fetch {x : α} {held : List α} (h : s.Holds reserved)
    (hheld : s.held = x :: held) (hlt : s.held.length < 2 ^ 32)
    (hle : s.held.length ≤ reserved + 1) :
    ∃ b, s.step .fetch = some ⟨b, held⟩ ∧ QueueRun.Holds ⟨b, held⟩ reserved := by
  obtain ⟨p, hrefines, rfl, hcur, hentries⟩ := h
  rw [← hcur] at hlt hle
  obtain ⟨y, c, hfetch, hc, hlast⟩ := hrefines.fetch hlt (by rw [hcur, hheld]; simp) hle
  rw [hentries, hheld, reverse_cons] at hlast
  obtain ⟨hrest, hxy⟩ := append_inj' hlast rfl
  obtain rfl : x = y := by simpa using hxy
  refine ⟨c, ?_, _, hc, rfl, ?_, hrest.symm⟩
  · rw [QueueRun.step, hfetch]
    simp [hheld]
  · rw [hheld, length_cons] at hcur
    simp [hcur]

/-- A fetch with too many entries leaves the block. -/
theorem QueueRun.Holds.fetch_above (h : s.Holds reserved) (hlt : s.held.length < 2 ^ 32)
    (habove : reserved + 1 < s.held.length) : s.step .fetch = none := by
  obtain ⟨p, hrefines, rfl, hcur, -⟩ := h
  rw [← hcur] at hlt habove
  rw [QueueRun.step, hrefines.fetch_above hlt habove]

theorem run_isSome_of_staysLow {calls : List (QueueCall α)} (h : s.Holds reserved)
    (hlt : s.held.length < 2 ^ 32) (hbal : Balanced s.held.length calls)
    (hlow : StaysLow reserved s.held.length calls) :
    (Machine.run QueueRun.step s calls).isSome = true := by
  induction calls generalizing s with
  | nil => rfl
  | cons call calls ih =>
      rw [Machine.run_cons]
      cases call with
      | push x =>
          obtain ⟨hnext, hlow⟩ := hlow
          obtain ⟨b, hstep, hb⟩ := h.push hnext x
          rw [hstep]
          exact ih hb hnext hbal hlow
      | fetch =>
          obtain ⟨hle, hlow⟩ := hlow
          cases hheld : s.held with
          | nil =>
              rw [hheld] at hbal
              exact absurd hbal id
          | cons x held =>
              obtain ⟨b, hstep, hb⟩ := h.fetch hheld hlt hle
              rw [hheld] at hbal hlow hlt
              rw [hstep]
              exact ih hb (Nat.lt_of_succ_lt hlt) hbal hlow

/-- The block has at most as many cells as a `uint` can count. -/
theorem length_cells_step {call : QueueCall α} (hlen : s.block.cells.length < 2 ^ 32)
    (hstep : s.step call = some t) : t.block.cells.length < 2 ^ 32 := by
  have hresized : ∀ n : Int, (s.block.resized (uint n)).length < 2 ^ 32 := fun n => by
    rw [s.block.length_resized]
    split_ifs
    · exact uint_lt n
    · exact hlen
  cases call with
  | push x =>
      obtain ⟨b, hb, rfl⟩ := Option.map_eq_some_iff.1 hstep
      simp only [QueueBlock.push] at hb
      split_ifs at hb
      obtain rfl := Option.some.inj hb
      simpa using hresized _
  | fetch =>
      rw [QueueRun.step] at hstep
      split at hstep
      · rename_i x b hfetch
        split_ifs at hstep
        obtain rfl := Option.some.inj hstep
        obtain ⟨y, -, hy⟩ := Option.map_eq_some_iff.1 hfetch
        obtain rfl := (Prod.mk.inj hy).2
        exact hresized _
      · simp at hstep

theorem staysLow_of_run_isSome {calls : List (QueueCall α)} (h : s.Holds reserved)
    (hlt : s.held.length < 2 ^ 32) (hlen : s.block.cells.length < 2 ^ 32)
    (hbal : Balanced s.held.length calls)
    (hrun : (Machine.run QueueRun.step s calls).isSome = true) :
    StaysLow reserved s.held.length calls := by
  induction calls generalizing s with
  | nil => trivial
  | cons call calls ih =>
      rw [Machine.run_cons] at hrun
      cases call with
      | push x =>
          have hnext : s.held.length + 1 < 2 ^ 32 := by
            by_contra hfull
            obtain ⟨p, hrefines, -, hcur, -⟩ := h
            have hfullLen : s.block.curLen = 2 ^ 32 - 1 := by
              rw [hrefines.curLen, hcur]
              omega
            simp [QueueRun.step, QueueBlock.push_wraps hfullLen hlen] at hrun
          obtain ⟨b, hstep, hb⟩ := h.push hnext x
          rw [hstep] at hrun
          exact ⟨hnext, ih hb hnext (length_cells_step hlen hstep) hbal hrun⟩
      | fetch =>
          have hle : s.held.length ≤ reserved + 1 := by
            by_contra habove
            rw [h.fetch_above hlt (Nat.lt_of_not_le habove)] at hrun
            simp at hrun
          refine ⟨hle, ?_⟩
          cases hheld : s.held with
          | nil =>
              rw [hheld] at hbal
              exact absurd hbal id
          | cons x held =>
              obtain ⟨b, hstep, hb⟩ := h.fetch hheld hlt hle
              rw [hheld] at hbal hlt
              rw [hstep] at hrun
              exact ih hb (Nat.lt_of_succ_lt hlt) (length_cells_step hlen hstep) hbal hrun

end

/-- The calls are disciplined if no fetch is made with more than one entry above the
reserved length, and for a reserved length that is a `uint` only then. -/
theorem disciplined_iff_staysLow [DecidableEq α] {resLen : Nat} {calls : List (QueueCall α)}
    (hbal : Balanced 0 calls) :
    (StaysLow (uint resLen) 0 calls → Disciplined resLen calls) ∧
      (resLen < 2 ^ 32 → Disciplined resLen calls → StaysLow (uint resLen) 0 calls) := by
  have hzero : (0 : Nat) < 2 ^ 32 := by decide
  constructor
  · exact run_isSome_of_staysLow (holds_start resLen) hzero hbal
  · intro hres
    refine staysLow_of_run_isSome (holds_start resLen) hzero ?_ hbal
    simp only [QueueRun.start, QueueBlock.create, length_replicate]
    omega

/-- Four places are reserved for two request structures. A fifth pointer needs a
larger block, and a sixth must not be there when one is fetched. -/
theorem disciplined_five :
    Disciplined 4 [.push 'a', .push 'b', .push 'c', .push 'd', .push 'e', .fetch, .push 'f'] :=
  (disciplined_iff_staysLow (by simp [Balanced])).1 (by simp [StaysLow, uint])

theorem not_disciplined_six :
    Balanced 0 [.push 'a', .push 'b', .push 'c', .push 'd', .push 'e', .push 'f', .fetch] ∧
    ¬ Disciplined 4 [.push 'a', .push 'b', .push 'c', .push 'd', .push 'e', .push 'f', .fetch] := by
  constructor
  · simp [Balanced]
  · decide +kernel

end OpenTube
