import Mathlib.Algebra.Group.Int.Defs
import Mathlib.Algebra.Group.Nat.Defs
import OpenTube.Lib.Live
import OpenTube.Lib.Run
import OpenTube.Lib.Slots

/-!
# The memory of the handlers

A handler allocates with `gc_malloc`, which enters the block in `alloc_list`, and frees
with `gc_free`, which marks the entry; what is left is freed by
`web_allocator_garbage_collect` when the handler has returned. `gc_realloc` is the
`realloc` of the allocator and leaves the list alone. As long as it does not move or
free a block, the entries that are not marked are exactly the live blocks of the
handlers, which is `WebHeap.Tracked`. A block that is moved stays in the list under its
old address, where it is freed once more, and its new address is in no entry.

`WebHeap.obtained` are the live blocks that were obtained through the macros, and to
free any other address has no value.
-/

namespace OpenTube

open Heap Machine Slots

/-! ## The functions -/

/-- `struct web_alloc`. -/
structure WebAlloc where
  ptr : Nat
  free : Bool
deriving DecidableEq, Repr

/-- `alloc_list` and the live blocks, those obtained through the macros apart from all
others. -/
structure WebHeap where
  allocList : List WebAlloc
  obtained : Finset Nat
  foreign : Finset Nat

/-- Whether the last of `n` entries, of sixteen bytes each, lies in the block that
`buf_expand` leaves for them. The size of the block is a 32-bit number. -/
def entryFits (n : Nat) : Bool :=
  16 * n ≤ if 128 < n then 16 * n % 2 ^ 32 else 16 * 128

/-- `web_allocator_malloc`, given the answer of the allocator. With no block it calls
`web_raise`, which ends the handler. -/
def webAllocatorMalloc (s : WebHeap) : Option Nat → Option WebHeap
  | none => some s
  | some ptr =>
      if entryFits (s.allocList.length + 1) then
        some { s with
          allocList := s.allocList ++ [⟨ptr, false⟩]
          obtained := insert ptr s.obtained }
      else none

/-- `web_allocator_free`. -/
def webAllocatorFree (s : WebHeap) (ptr : Nat) : Option WebHeap :=
  match s.allocList.findIdx? fun a => ptr == a.ptr && a.free == false with
  | some i => (release s.obtained ptr).map fun obtained =>
      { s with
        allocList := s.allocList.set i ⟨ptr, true⟩
        obtained }
  | none => some s

/-- The loop of `web_allocator_garbage_collect`. -/
def collectLoop : List WebAlloc → Finset Nat → Option (Finset Nat)
  | [], live => some live
  | a :: l, live =>
      if a.free == false then (release live a.ptr).bind fun live => collectLoop l live
      else collectLoop l live

/-- `web_allocator_garbage_collect`. -/
def webAllocatorGarbageCollect (s : WebHeap) : Option WebHeap :=
  (collectLoop s.allocList s.obtained).map fun obtained => { s with allocList := [], obtained }

/-- What `realloc` answers: the block is now at an address, there is no memory for the
new size, or the new size is zero and the block is freed. -/
inductive Renewal
  | placed (ptr : Nat)
  | failed
  | released
deriving DecidableEq, Repr

/-- `gc_realloc`, which is `allocator_realloc`. -/
def gcRealloc (s : WebHeap) (ptr : Nat) : Renewal → Option WebHeap
  | .placed q => (release s.obtained ptr).map fun obtained =>
      { s with obtained := insert q obtained }
  | .failed => some s
  | .released => (release s.obtained ptr).map fun obtained => { s with obtained }

/-! ## Runs -/

/-- The calls of a handler, the collection behind it, and what the rest of the program
does to the other live blocks. -/
inductive WebOp
  | malloc (answer : Option Nat)
  | realloc (ptr : Nat) (answer : Renewal)
  | free (ptr : Nat)
  | collect
  | others (foreign : Finset Nat)

/-- One call; none if a block is freed that is not live. -/
def webStep (s : WebHeap) : WebOp → Option WebHeap
  | .malloc answer => webAllocatorMalloc s answer
  | .realloc ptr answer => gcRealloc s ptr answer
  | .free ptr => webAllocatorFree s ptr
  | .collect => webAllocatorGarbageCollect s
  | .others foreign => some { s with foreign }

/-- A thread before its first handler. -/
def WebHeap.start (foreign : Finset Nat) : WebHeap := ⟨[], ∅, foreign⟩

/-- The allocator answers with the address of a block that was not live. -/
def WebHeap.Fresh (s : WebHeap) (ptr : Nat) : Prop := ptr ∉ s.obtained ∧ ptr ∉ s.foreign

/-- A handler calls `gc_realloc` and `gc_free` on blocks it owns, and the rest of the
program does not take these for its own. -/
def WebOp.Owned (s : WebHeap) : WebOp → Prop
  | .malloc none => True
  | .malloc (some ptr) => s.Fresh ptr
  | .realloc ptr (.placed q) => ptr ∈ s.obtained ∧ (q = ptr ∨ s.Fresh q)
  | .realloc ptr .failed | .realloc ptr .released => ptr ∈ s.obtained
  | .free ptr => ptr ∈ s.obtained
  | .collect => True
  | .others foreign => Disjoint s.obtained foreign

/-- The call does not move or free a block behind the back of the list, and the list
does not grow to `2 ^ 28` entries. -/
def WebOp.Keeps (s : WebHeap) : WebOp → Prop
  | .malloc (some _) => s.allocList.length + 1 < 2 ^ 28
  | .realloc ptr (.placed q) => q = ptr
  | .realloc _ .released => False
  | _ => True

/-- A call of a handler on its own blocks that keeps them in place. -/
def WebOp.InPlace (s : WebHeap) (op : WebOp) : Prop := op.Owned s ∧ op.Keeps s

instance (s : WebHeap) (op : WebOp) : Decidable (op.InPlace s) := by
  unfold WebOp.InPlace WebOp.Owned WebOp.Keeps WebHeap.Fresh
  cases op with
  | malloc answer => cases answer <;> infer_instance
  | realloc ptr answer => cases answer <;> infer_instance
  | free | collect | others => infer_instance

/-- The calls can all be made, and the collection behind them leaves no block. -/
def ReleasesOnce (s : WebHeap) (ops : List WebOp) : Prop :=
  ∃ t, run webStep s (ops ++ [.collect]) = some t ∧ t.obtained = ∅

/-! ## The list and the heap -/

/-- The block an entry stands for. -/
def WebAlloc.held (a : WebAlloc) : Option Nat := if a.free then none else some a.ptr

/-- The blocks of the list. -/
def WebHeap.blocks (s : WebHeap) : List Nat := s.allocList.filterMap WebAlloc.held

/-- The entries that are not marked are the live blocks of the handlers, each of them
once. -/
structure WebHeap.Tracked (s : WebHeap) : Prop where
  once : s.blocks.Nodup
  live : s.obtained = s.blocks.toFinset

theorem collectLoop_eq (l : List WebAlloc) (live : Finset Nat) :
    collectLoop l live = releaseAll live (l.filterMap WebAlloc.held) := by
  induction l generalizing live with
  | nil => rfl
  | cons a l ih =>
      obtain ⟨ptr, free⟩ := a
      cases free with
      | true => exact ih live
      | false =>
          have hheld : (⟨ptr, false⟩ : WebAlloc).held = some ptr := rfl
          rw [List.filterMap_cons, hheld, collectLoop]
          simp only [beq_self_eq_true, if_true, releaseAll, ih]

/-- The collection works exactly if the blocks of the list are live, each entered once. -/
theorem webAllocatorGarbageCollect_eq_some_iff {s t : WebHeap} :
    webAllocatorGarbageCollect s = some t ↔
      s.blocks.Nodup ∧ (∀ a ∈ s.blocks, a ∈ s.obtained) ∧
        t = { s with allocList := [], obtained := s.obtained \ s.blocks.toFinset } := by
  rw [webAllocatorGarbageCollect, Option.map_eq_some_iff, collectLoop_eq]
  constructor
  · rintro ⟨obtained, hlive, rfl⟩
    obtain ⟨honce, hmem, rfl⟩ := releaseAll_eq_some_iff.1 hlive
    exact ⟨honce, hmem, rfl⟩
  · rintro ⟨honce, hmem, rfl⟩
    exact ⟨_, releaseAll_eq_some_iff.2 ⟨honce, hmem, rfl⟩, rfl⟩

theorem entryFits_iff (n : Nat) : entryFits n = true ↔ n < 2 ^ 28 := by
  rw [entryFits, decide_eq_true_iff]
  split
  · constructor
    · intro h
      have hmod := Nat.mod_lt (16 * n) (show 0 < 2 ^ 32 by decide)
      omega
    · intro h
      rw [Nat.mod_eq_of_lt (by omega)]
  · constructor
    · intro h
      omega
    · intro h
      omega

variable {s t : WebHeap} {ops : List WebOp} {op : WebOp}

/-- A tracked heap is empty behind the collection. -/
theorem WebHeap.Tracked.collect (h : s.Tracked) :
    ∃ t, webAllocatorGarbageCollect s = some t ∧ t.Tracked ∧ t.obtained = ∅ := by
  have hempty : s.obtained \ s.blocks.toFinset = ∅ := by rw [h.live, Finset.sdiff_self]
  refine ⟨_, webAllocatorGarbageCollect_eq_some_iff.2
    ⟨h.once, fun a ha => h.live ▸ List.mem_toFinset.2 ha, rfl⟩, ⟨List.nodup_nil, ?_⟩, hempty⟩
  rw [hempty]
  rfl

/-- A new block is entered at the end of the list. -/
theorem WebHeap.Tracked.malloc (h : s.Tracked) {ptr : Nat} (hptr : ptr ∉ s.obtained)
    (hroom : s.allocList.length + 1 < 2 ^ 28) :
    ∃ t, webAllocatorMalloc s (some ptr) = some t ∧ t.Tracked := by
  have hblocks : List.filterMap WebAlloc.held (s.allocList ++ [⟨ptr, false⟩]) =
      s.blocks ++ [ptr] := by
    rw [List.filterMap_append]
    rfl
  have hnew : ptr ∉ s.blocks := fun hmem => hptr (h.live ▸ List.mem_toFinset.2 hmem)
  refine ⟨{ s with
    allocList := s.allocList ++ [⟨ptr, false⟩]
    obtained := insert ptr s.obtained }, ?_, ⟨?_, ?_⟩⟩
  · rw [webAllocatorMalloc, if_pos ((entryFits_iff _).2 hroom)]
  · rw [WebHeap.blocks, hblocks, List.nodup_append]
    refine ⟨h.once, List.nodup_singleton ptr, fun a ha b hb => ?_⟩
    obtain rfl := List.mem_singleton.1 hb
    exact ne_of_mem_of_not_mem ha hnew
  · ext x
    rw [WebHeap.blocks, hblocks, h.live]
    simp [or_comm]

/-- A block of the list is freed and its entry marked. -/
theorem WebHeap.Tracked.free (h : s.Tracked) {ptr : Nat} (hptr : ptr ∈ s.obtained) :
    ∃ t, webAllocatorFree s ptr = some t ∧ t.Tracked := by
  have hmem : ptr ∈ s.blocks := List.mem_toFinset.1 (h.live ▸ hptr)
  obtain ⟨a, ha, hheld⟩ := List.mem_filterMap.1 hmem
  -- the entry of the block is found
  obtain ⟨i, hfind⟩ : ∃ i, (s.allocList.findIdx? fun a => ptr == a.ptr && a.free == false) =
      some i := by
    rw [← Option.isSome_iff_exists, List.findIdx?_isSome, List.any_eq_true]
    refine ⟨a, ha, ?_⟩
    rw [WebAlloc.held] at hheld
    split at hheld
    · cases hheld
    · rename_i hfree
      obtain rfl := Option.some.inj hheld
      simp [hfree]
  obtain ⟨hi, hfor, -⟩ := List.findIdx?_eq_some_iff_getElem.1 hfind
  rw [Bool.and_eq_true, beq_iff_eq, beq_iff_eq] at hfor
  have hentry : (s.allocList[i]).held = some ptr := by
    rw [WebAlloc.held, hfor.2, hfor.1]
    rfl
  have hmarked : (⟨ptr, true⟩ : WebAlloc).held = none := rfl
  obtain ⟨rest, hold, hnew⟩ := exists_filterMap_set_perm (List.getElem?_eq_getElem hi) WebAlloc.held
  have hset := hnew ⟨ptr, true⟩
  rw [hentry] at hold
  rw [hmarked] at hset
  have hnodup := hold.nodup_iff.1 h.once
  refine ⟨{ s with
    allocList := s.allocList.set i ⟨ptr, true⟩
    obtained := s.obtained.erase ptr }, ?_, ⟨hset.nodup_iff.2 hnodup.of_cons, ?_⟩⟩
  · rw [webAllocatorFree, hfind]
    simp only [release_of_mem hptr, Option.map_some]
  · ext x
    have hrest : x ∈ s.blocks ↔ x = ptr ∨ x ∈ rest := (hold.mem_iff).trans List.mem_cons
    have hleft : x ∈ (s.allocList.set i ⟨ptr, true⟩).filterMap WebAlloc.held ↔ x ∈ rest :=
      hset.mem_iff
    simp only [Finset.mem_erase, h.live, List.mem_toFinset, WebHeap.blocks, hleft]
    constructor
    · rintro ⟨hne, hx⟩
      exact (hrest.1 hx).resolve_left hne
    · intro hx
      exact ⟨ne_of_mem_of_not_mem hx (List.nodup_cons.1 hnodup).1, hrest.2 (.inr hx)⟩

/-- Every call that keeps the blocks in place keeps them tracked. -/
theorem webStep_tracked (h : s.Tracked) (hop : op.InPlace s) :
    ∃ t, webStep s op = some t ∧ t.Tracked := by
  obtain ⟨howned, hplace⟩ := hop
  cases op with
  | malloc answer =>
      cases answer with
      | none => exact ⟨s, rfl, h⟩
      | some ptr => exact h.malloc howned.1 hplace
  | realloc ptr answer =>
      cases answer with
      | placed q =>
          obtain rfl : q = ptr := hplace
          refine ⟨s, ?_, h⟩
          rw [webStep, gcRealloc, release_of_mem howned.1, Option.map_some,
            Finset.insert_erase howned.1]
      | failed => exact ⟨s, rfl, h⟩
      | released => exact hplace.elim
  | free ptr => exact h.free howned
  | collect =>
      obtain ⟨t, ht, htracked, -⟩ := h.collect
      exact ⟨t, ht, htracked⟩
  | others foreign => exact ⟨_, rfl, ⟨h.once, h.live⟩⟩

theorem webHeap_tracked_start (foreign : Finset Nat) : (WebHeap.start foreign).Tracked :=
  ⟨List.nodup_nil, rfl⟩

/-! ## Every run -/

/-- A run of such calls can be made, and its blocks are tracked. -/
theorem run_webStep_tracked (h : s.Tracked) (hops : Meets webStep WebOp.InPlace s ops) :
    ∃ t, run webStep s ops = some t ∧ t.Tracked := by
  induction ops generalizing s with
  | nil => exact ⟨s, rfl, h⟩
  | cons op ops ih =>
      obtain ⟨s₁, hs₁, htracked⟩ := webStep_tracked h hops.1
      obtain ⟨s₂, hs₂, hend⟩ := ih htracked (hops.2 s₁ hs₁)
      exact ⟨s₂, (run_cons_eq_some_iff _ _ _ _ _).2 ⟨s₁, hs₁, hs₂⟩, hend⟩

/-- Whether one call more can be made and leaves no block behind the collection. -/
theorem releasesOnce_singleton_iff (h : s.Tracked) (hop : op.Owned s) :
    ReleasesOnce s [op] ↔ op.InPlace s := by
  constructor
  · rintro ⟨t, ht, -⟩
    rw [List.singleton_append, run_cons_eq_some_iff] at ht
    obtain ⟨s₁, hs₁, hrest⟩ := ht
    obtain ⟨t', hcollect, -⟩ := (run_cons_eq_some_iff _ _ _ _ _).1 hrest
    -- what the collection frees has to be live
    have hlive := (webAllocatorGarbageCollect_eq_some_iff.1 hcollect).2.1
    refine ⟨hop, ?_⟩
    cases op with
    | malloc answer =>
        cases answer with
        | none => trivial
        | some ptr =>
            by_contra hroom
            have hfits : ¬ entryFits (s.allocList.length + 1) = true :=
              fun hfits => hroom ((entryFits_iff _).1 hfits)
            rw [webStep, webAllocatorMalloc, if_neg hfits] at hs₁
            cases hs₁
    | realloc ptr answer =>
        have hblock : ptr ∈ s.obtained → ptr ∈ s.blocks := fun hptr =>
          List.mem_toFinset.1 (h.live ▸ hptr)
        cases answer with
        | placed q =>
            obtain ⟨hptr, -⟩ := hop
            rw [webStep, gcRealloc, release_of_mem hptr, Option.map_some] at hs₁
            obtain rfl := Option.some.inj hs₁
            rcases Finset.mem_insert.1 (hlive ptr (hblock hptr)) with rfl | hgone
            · rfl
            · exact absurd rfl (Finset.mem_erase.1 hgone).1
        | failed => trivial
        | released =>
            have hptr : ptr ∈ s.obtained := hop
            rw [webStep, gcRealloc, release_of_mem hptr, Option.map_some] at hs₁
            obtain rfl := Option.some.inj hs₁
            exact absurd rfl (Finset.mem_erase.1 (hlive ptr (hblock hptr))).1
    | free ptr => trivial
    | collect => trivial
    | others foreign => trivial
  · intro hplace
    obtain ⟨s₁, hs₁, htracked⟩ := webStep_tracked h hplace
    obtain ⟨t, ht, -, hempty⟩ := htracked.collect
    exact ⟨t, (run_cons_eq_some_iff _ _ _ _ _).2 ⟨s₁, hs₁,
      (run_cons_eq_some_iff _ _ _ _ _).2 ⟨t, ht, rfl⟩⟩, hempty⟩

/-- Every run in which `gc_realloc` leaves the blocks in place frees no block twice and
leaves none behind the collection, and the first call that does not ends this. -/
theorem releasesOnce_of_inPlace {foreign : Finset Nat}
    (hops : Meets webStep WebOp.InPlace (.start foreign) ops) :
    ReleasesOnce (.start foreign) ops ∧
      ∀ s op, run webStep (.start foreign) ops = some s → op.Owned s →
        (ReleasesOnce s [op] ↔ op.InPlace s) := by
  obtain ⟨s, hs, htracked⟩ := run_webStep_tracked (webHeap_tracked_start foreign) hops
  constructor
  · obtain ⟨t, ht, -, hempty⟩ := htracked.collect
    refine ⟨t, ?_, hempty⟩
    rw [run_concat, hs, Option.bind_some]
    exact ht
  · intro s' op hs' hop
    obtain rfl := Option.some.inj (hs.symm.trans hs')
    exact releasesOnce_singleton_iff htracked hop

/-- A handler that makes each of the calls, the second block growing in place. -/
def growsInPlace : List WebOp :=
  [.malloc (some 1), .malloc (some 2), .realloc 2 (.placed 2), .free 1, .malloc (some 1)]

/-- The calls are of the kind that is needed, and the collection frees what is left. -/
theorem releasesOnce_of_inPlace_grows : ReleasesOnce (.start {7}) growsInPlace :=
  (@releasesOnce_of_inPlace growsInPlace {7} (by decide)).1

/-- A block that is moved is freed under its old address. -/
theorem not_releasesOnce_moved :
    ¬ ∀ (foreign : Finset Nat) (ops : List WebOp),
      Meets webStep WebOp.Owned (.start foreign) ops → ReleasesOnce (.start foreign) ops := by
  intro h
  have hmeets : Meets webStep WebOp.Owned (.start ∅)
      [.malloc (some 1), .realloc 1 (.placed 2)] := by
    refine ⟨⟨by decide, by decide⟩, fun s hs => ?_⟩
    obtain rfl := Option.some.inj hs
    exact ⟨⟨by decide, .inr ⟨by decide, by decide⟩⟩, fun _ _ => trivial⟩
  obtain ⟨t, ht, -⟩ := h ∅ [.malloc (some 1), .realloc 1 (.placed 2)] hmeets
  have hnone : run webStep (.start ∅)
      ([.malloc (some 1), .realloc 1 (.placed 2)] ++ [.collect]) = none := by
    rfl
  rw [hnone] at ht
  cases ht

end OpenTube
