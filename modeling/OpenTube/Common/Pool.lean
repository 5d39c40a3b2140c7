import OpenTube.Lib.Slots

/-!
# Fragmented pools

`frag_pool_t`: an array of entries, each of which is free or in use. A new entry
takes the first free place or extends the array; a freed entry at the end of the
array, behind the reserved ones, is given back together with the free entries in
front of it. The counter `cur_len` is not modelled, no caller reads it.
-/

namespace OpenTube

open List Slots

variable {α : Type*}

/-- `frag_pool_t`. A place that is free holds `none`. -/
structure FragPool (α : Type*) where
  reservedLen : Nat
  e : List (Option α)
deriving DecidableEq, Repr

namespace FragPool

/-- `frag_pool_create`. -/
def create (resLen : Nat) : FragPool α := ⟨resLen, replicate resLen none⟩

/-- The entries in use, in their order. -/
def live (p : FragPool α) : List α := p.e.filterMap id

/-- The loop of `frag_pool_alloc` over the array. -/
def place (x : α) : List (Option α) → List (Option α)
  | [] => [some x]
  | none :: l => some x :: l
  | some y :: l => some y :: place x l

/-- `frag_pool_alloc`, followed by the assignment of the entry. -/
def alloc (p : FragPool α) (x : α) : FragPool α := { p with e := place x p.e }

/-- `_frag_try_internal_pool_free`. -/
def tryFree (p : FragPool α) : Nat → FragPool α
  | 0 =>
      if p.reservedLen = 0 ∧ p.e.length = 1 then { p with e := p.e.dropLast } else p
  | i + 1 =>
      if p.reservedLen ≤ i + 1 ∧ i + 1 + 1 = p.e.length then
        match p.e[i]? with
        | some none => tryFree { p with e := p.e.dropLast } i
        | _ => { p with e := p.e.dropLast }
      else p

/-- `frag_pool_free_alt`. -/
def freeAlt (p : FragPool α) (i : Nat) : FragPool α :=
  match p.e[i]? with
  | some (some _) => tryFree { p with e := p.e.set i none } i
  | _ => p

@[simp] theorem live_create (resLen : Nat) : (create resLen : FragPool α).live = [] := by
  simp [create, live]

theorem place_perm (x : α) (l : List (Option α)) :
    (place x l).filterMap id ~ x :: l.filterMap id := by
  induction l with
  | nil => simp [place]
  | cons y l ih =>
      cases y with
      | none => simp [place]
      | some y => simpa [place] using (ih.cons y).trans (Perm.swap x y _)

/-- An allocation adds one entry. -/
theorem live_alloc (p : FragPool α) (x : α) : (p.alloc x).live ~ x :: p.live :=
  place_perm x p.e

/-- The last place may be given back if it is free. -/
theorem filterMap_dropLast {l : List (Option α)} {i : Nat} (hlen : i + 1 = l.length)
    (hi : l[i]? = some none) : l.dropLast.filterMap id = l.filterMap id := by
  have hne : l ≠ [] := by
    rintro rfl
    simp at hlen
  have hlast : l.getLast hne = none := by
    have hget : l.getLast? = some none := by rw [getLast?_eq_getElem?, ← hlen]; exact hi
    simpa [getLast?_eq_some_getLast hne] using hget
  conv_rhs => rw [← dropLast_append_getLast hne, hlast]
  simp

/-- Giving back places that are free changes no entry. -/
theorem live_tryFree (p : FragPool α) (i : Nat) (hi : p.e[i]? = some none) :
    (p.tryFree i).live = p.live := by
  induction i generalizing p with
  | zero =>
      rw [tryFree]
      split
      · rename_i h
        exact filterMap_dropLast (by simpa using h.2.symm) hi
      · rfl
  | succ i ih =>
      rw [tryFree]
      split
      · rename_i h
        have hdrop : FragPool.live { p with e := p.e.dropLast } = p.live :=
          filterMap_dropLast h.2 hi
        split
        · rename_i hfree
          rw [ih, hdrop]
          rw [getElem?_dropLast, if_pos (by omega)]
          exact hfree
        · exact hdrop
      · rfl

/-- Freeing an entry takes it out. -/
theorem live_freeAlt {p : FragPool α} {i : Nat} {x : α} (hi : p.e[i]? = some (some x)) :
    p.live ~ x :: (p.freeAlt i).live := by
  have hlt : i < p.e.length := (List.getElem?_eq_some_iff.1 hi).1
  obtain ⟨rest, hold, hnew⟩ := exists_filterMap_set_perm hi id
  have hfree : (p.freeAlt i).live = (p.e.set i none).filterMap id := by
    rw [freeAlt, hi]
    exact live_tryFree _ i (by simp [hlt])
  rw [hfree]
  exact hold.trans ((hnew none).symm.cons x)

/-- Only free places at the end of the array are given back, and none if the place
that was freed is not the last one. -/
theorem e_tryFree (p : FragPool α) (i : Nat) (hi : p.e[i]? = some none) :
    ∃ k, p.e = (p.tryFree i).e ++ replicate k none ∧ (i + 1 < p.e.length → k = 0) := by
  have hdrop : ∀ {q : FragPool α} {j : Nat}, j + 1 = q.e.length → q.e[j]? = some none →
      q.e = q.e.dropLast ++ [none] := by
    intro q j hlen hj
    have hlast : q.e.getLast? = some none := by rw [getLast?_eq_getElem?, ← hlen]; exact hj
    obtain ⟨l, hl⟩ := getLast?_eq_some_iff.1 hlast
    rw [hl, dropLast_concat]
  induction i generalizing p with
  | zero =>
      rw [tryFree]
      split
      · rename_i h
        exact ⟨1, hdrop h.2.symm hi, by omega⟩
      · exact ⟨0, by simp, fun _ => rfl⟩
  | succ i ih =>
      rw [tryFree]
      split
      · rename_i h
        have hsplit := hdrop h.2 hi
        split
        · rename_i hfree
          have hfree' : p.e.dropLast[i]? = some none := by
            rw [getElem?_dropLast, if_pos (by omega)]
            exact hfree
          obtain ⟨k, hk, -⟩ := ih { p with e := p.e.dropLast } hfree'
          refine ⟨k + 1, ?_, by omega⟩
          rw [replicate_succ', ← append_assoc, ← hk]
          exact hsplit
        · exact ⟨1, hsplit, by omega⟩
      · exact ⟨0, by simp, fun _ => rfl⟩

/-- The array after an entry was freed. -/
theorem e_freeAlt {p : FragPool α} {i : Nat} {x : α} (hi : p.e[i]? = some (some x)) :
    ∃ k, p.e.set i none = (p.freeAlt i).e ++ replicate k none ∧ (i + 1 < p.e.length → k = 0) := by
  have hlt : i < p.e.length := (List.getElem?_eq_some_iff.1 hi).1
  rw [freeAlt, hi]
  have htry := e_tryFree { p with e := p.e.set i none } i (by simp [hlt])
  simpa using htry

/-- The places behind one that is freed. -/
theorem drop_freeAlt {p : FragPool α} {i : Nat} {x : α} (hi : p.e[i]? = some (some x)) :
    (p.freeAlt i).e.drop (i + 1) = p.e.drop (i + 1) := by
  obtain ⟨k, hk, hlast⟩ := e_freeAlt hi
  have hlen := congrArg length hk
  simp only [length_set, length_append, length_replicate] at hlen
  by_cases h : i + 1 < p.e.length
  · rw [hlast h, replicate_zero, append_nil] at hk
    rw [← hk, drop_set_of_lt (Nat.lt_succ_self i)]
  · rw [drop_eq_nil_of_le (by omega), drop_eq_nil_of_le (by omega)]

/-- The places up to one that is freed. -/
theorem take_freeAlt {p : FragPool α} {i : Nat} {x : α} (hi : p.e[i]? = some (some x)) :
    ((p.freeAlt i).e.take (i + 1)).filterMap id = (p.e.take i).filterMap id := by
  obtain ⟨k, hk, -⟩ := e_freeAlt hi
  have hlt : i < p.e.length := (List.getElem?_eq_some_iff.1 hi).1
  have htake : p.e.take i ++ [none] = ((p.freeAlt i).e ++ replicate k none).take (i + 1) := by
    rw [← hk, take_add_one, take_set_of_le (Nat.le_refl i)]
    simp [hlt]
  have hfilter := congrArg (filterMap id) htake
  rw [take_append, filterMap_append, filterMap_append, take_replicate] at hfilter
  simpa using hfilter.symm

end FragPool

end OpenTube
