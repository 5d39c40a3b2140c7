import Mathlib.Data.List.Basic

/-!
# Strings in a bounded buffer

A C string lies in memory from some address on and ends with the first terminator
`z`. The memory is the list of its cells from the address of a buffer on; only the
first cells belong to the buffer, and a write to any other cell has no value. The
functions of `string.h` that write are built from single writes, so each of them
has a value exactly if all its writes fall into the buffer.
-/

namespace CString

open List

variable {α : Type*}

/-! ## Single writes -/

/-- Write one cell of a buffer of `size` cells. -/
def put (size : Nat) (m : List α) (i : Nat) (c : α) : Option (List α) :=
  if i < size then some (m.set i c) else none

/-- Write some cells, one after the other. -/
def write (size : Nat) (m : List α) (i : Nat) : List α → Option (List α)
  | [] => some m
  | c :: l => (put size m i c).bind fun m => write size m (i + 1) l

/-- Swap the cells `o + i` and `o + last - i`, and so on inwards, `n` times. -/
def swapLoop (z : α) (size o last : Nat) : Nat → Nat → List α → Option (List α)
  | 0, _, m => some m
  | n + 1, i, m =>
      let temp := m.getD (o + i) z
      (put size m (o + i) (m.getD (o + (last - i)) z)).bind fun m =>
        (put size m (o + (last - i)) temp).bind fun m => swapLoop z size o last n (i + 1) m

variable {z : α} {size : Nat} {a b s mid p q : List α}

theorem write_eq {l : List α} (hmid : mid.length = l.length) (h : a.length + l.length ≤ size) :
    write size (a ++ (mid ++ b)) a.length l = some (a ++ (l ++ b)) := by
  induction l generalizing a mid with
  | nil =>
      obtain rfl := length_eq_zero_iff.1 hmid
      rfl
  | cons c l ih =>
      obtain ⟨d, mid, rfl⟩ := exists_of_length_succ mid hmid
      simp only [length_cons, Nat.add_right_cancel_iff] at hmid h
      have hset : (a ++ (d :: mid ++ b)).set a.length c = (a ++ [c]) ++ (mid ++ b) := by simp
      have hrest := ih (a := a ++ [c]) hmid (by rw [length_append, length_singleton]; omega)
      rw [length_append, length_singleton] at hrest
      rw [write, put, if_pos (by omega), Option.bind_some, hset, hrest]
      simp

/-- A write that goes beyond the buffer. -/
theorem write_eq_none {m l : List α} {i : Nat} (hl : l ≠ []) (h : size < i + l.length) :
    write size m i l = none := by
  induction l generalizing m i with
  | nil => exact absurd rfl hl
  | cons c l ih =>
      rw [length_cons] at h
      rw [write, put]
      by_cases hi : i < size
      · have hne : l ≠ [] := by
          rintro rfl
          rw [length_nil] at h
          omega
        rw [if_pos hi, Option.bind_some, ih hne (by omega)]
      · rw [if_neg hi, Option.bind_none]

theorem getD_mid {i : Nat} (c : α) (hi : i = a.length) : (a ++ c :: b).getD i z = c := by
  subst hi
  simp [getD_eq_getElem?_getD]

theorem put_mid {i : Nat} (c d : α) (hi : i = a.length) (hsize : a.length < size) :
    put size (a ++ c :: b) i d = some (a ++ d :: b) := by
  subst hi
  rw [put, if_pos hsize, set_append_right _ _ (Nat.le_refl _), Nat.sub_self, set_cons_zero]

/-- The loop reverses what is left between the cells that were swapped. -/
theorem swapLoop_eq {last n : Nat} (hpq : p.length = q.length) (hn : n = mid.length / 2)
    (hlast : last = p.length + (mid.length + q.length) - 1)
    (h : a.length + (p.length + (mid.length + q.length)) ≤ size) :
    swapLoop z size a.length last n p.length (a ++ (p ++ (mid ++ (q ++ b)))) =
      some (a ++ (p ++ (mid.reverse ++ (q ++ b)))) := by
  induction n generalizing mid p q with
  | zero =>
      have hrev : mid.reverse = mid := by
        match mid, hn with
        | [], _ => rfl
        | [c], _ => rfl
        | _ :: _ :: _, hn => simp only [length_cons] at hn; omega
      rw [swapLoop, hrev]
  | succ n ih =>
      -- the outermost two cells of the middle are swapped
      obtain ⟨c, inner, d, rfl⟩ : ∃ c inner d, mid = c :: (inner ++ [d]) := by
        match mid, hn with
        | [], hn => simp at hn
        | [c], hn => simp at hn
        | c :: e :: m, _ =>
            exact ⟨c, (e :: m).dropLast, (e :: m).getLast (cons_ne_nil e m),
              by rw [dropLast_append_getLast]⟩
      simp only [length_cons, length_append, length_nil, Nat.zero_add] at hn hlast h
      have hleft : a ++ (p ++ (c :: (inner ++ [d]) ++ (q ++ b))) =
          (a ++ p) ++ c :: (inner ++ d :: (q ++ b)) := by simp
      have hright : ∀ x, (a ++ p) ++ x :: (inner ++ d :: (q ++ b)) =
          (a ++ (p ++ x :: inner)) ++ d :: (q ++ b) := by simp
      have hswapped : (a ++ (p ++ d :: inner)) ++ c :: (q ++ b) =
          a ++ ((p ++ [d]) ++ (inner ++ ((c :: q) ++ b))) := by simp
      have hi : a.length + p.length = (a ++ p).length := length_append.symm
      have hj : ∀ x, a.length + (last - p.length) = (a ++ (p ++ x :: inner)).length := by
        intro x
        simp only [length_append, length_cons]
        omega
      have hjlt : ∀ x, (a ++ (p ++ x :: inner)).length < size := fun x => by
        rw [← hj x]
        omega
      have hrest := ih (p := p ++ [d]) (q := c :: q)
        (by rw [length_append, length_singleton, length_cons, hpq])
        (show n = inner.length / 2 by omega)
        (by rw [length_append, length_singleton, length_cons]; omega)
        (by rw [length_append, length_singleton, length_cons]; omega)
      rw [length_append, length_singleton] at hrest
      rw [hleft, swapLoop, getD_mid c hi, put_mid c _ hi (by rw [← hi]; omega), hright c,
        getD_mid d (hj c), Option.bind_some, hright d, put_mid d c (hj d) (hjlt d),
        Option.bind_some, hswapped, hrest]
      simp

/-! ## Strings -/

variable [DecidableEq α]

/-- `strlen`: the number of cells in front of the first terminator. -/
def strlen (z : α) (m : List α) : Nat := (m.takeWhile fun c => c ≠ z).length

/-- `strcat`: append `s` to the string at the begin of the buffer. -/
def strcat (z : α) (size : Nat) (m s : List α) : Option (List α) :=
  write size m (strlen z m) (s ++ [z])

/-- Reverse the string at `o` in place. -/
def reverseAt (z : α) (size : Nat) (m : List α) (o : Nat) : Option (List α) :=
  let len := strlen z (m.drop o)
  swapLoop z size o (len - 1) (len / 2) 0 m

theorem strlen_append (hs : z ∉ s) (b : List α) : strlen z (s ++ z :: b) = s.length := by
  have htake : (s ++ z :: b).takeWhile (fun c => c ≠ z) = s := by
    rw [takeWhile_append_of_pos fun c hc => by simpa using ne_of_mem_of_not_mem hc hs]
    simp
  rw [strlen, htake]

/-- Appending to a string that leaves room for `t` and a terminator. -/
theorem strcat_eq {t : List α} (hs : z ∉ s) (hb : t.length ≤ b.length)
    (h : s.length + t.length < size) :
    strcat z size (s ++ z :: b) t = some (s ++ (t ++ z :: b.drop t.length)) := by
  have hlen : (z :: b.take t.length).length = (t ++ [z]).length := by
    rw [length_cons, length_take, Nat.min_eq_left hb, length_append, length_singleton]
  have hsplit : z :: b = z :: b.take t.length ++ b.drop t.length := by
    rw [cons_append, take_append_drop]
  rw [strcat, strlen_append hs, hsplit, write_eq hlen (by
    rw [length_append, length_singleton]; omega), append_assoc]
  rfl

theorem strcat_eq_none {t : List α} (hs : z ∉ s) (h : size ≤ s.length + t.length) :
    strcat z size (s ++ z :: b) t = none := by
  apply write_eq_none (append_ne_nil_of_right_ne_nil t (cons_ne_nil z []))
  rw [strlen_append hs, length_append, length_singleton]
  omega

/-- Reversing a string in place. -/
theorem reverseAt_eq (hs : z ∉ s) (h : a.length + s.length ≤ size) :
    reverseAt z size (a ++ (s ++ z :: b)) a.length = some (a ++ (s.reverse ++ z :: b)) := by
  have hloop : swapLoop z size a.length (s.length - 1) (s.length / 2) ([] : List α).length
      (a ++ ([] ++ (s ++ ([] ++ z :: b)))) =
        some (a ++ ([] ++ (s.reverse ++ ([] ++ z :: b)))) :=
    swapLoop_eq rfl rfl (by simp) (by simpa using h)
  simp only [nil_append, length_nil] at hloop
  rw [reverseAt, drop_left, strlen_append hs, hloop]

end CString
