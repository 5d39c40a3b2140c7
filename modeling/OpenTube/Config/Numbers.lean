import Mathlib.Data.List.TakeWhile
import OpenTube.Config.Passes
import OpenTube.Config.Print

/-!
# The bytes of numbers

A number in a configuration may be decimal, octal, hexadecimal or a floating point
number with an exponent. Whatever it is, `config_parse_int` passes over letters,
digits, points and signs only.
-/

namespace OpenTube

/-- The bytes of which numbers are made. -/
def isNumberByte (c : UInt8) : Bool := isAlnum c || c = dot || c = plus || c = hyphen

theorem isNumberByte_of_isDigitOf {base : Nat} {c : UInt8} (h : isDigitOf base c = true) :
    isNumberByte c = true := by
  have hall : ∀ c : UInt8, (hexValue c).isSome = true → isNumberByte c = true :=
    forall_byte (by decide)
  apply hall
  unfold isDigitOf at h
  split at h
  · rename_i v hv
    rw [hv]
    rfl
  · cases h

theorem isNumberByte_of_isDigit {c : UInt8} (h : isDigit c = true) : isNumberByte c = true := by
  have hall : ∀ c : UInt8, isDigit c = true → isNumberByte c = true :=
    forall_byte (by decide)
  exact hall c h

/-- A part at the begin of a text that consists of the bytes of numbers. -/
structure NumberPrefix (a s : List UInt8) : Prop where
  isPrefix : a <+: s
  bytes : ∀ c ∈ a, isNumberByte c = true

theorem numberPrefix_nil (s : List UInt8) : NumberPrefix [] s :=
  ⟨List.nil_prefix, fun _ hc => absurd hc List.not_mem_nil⟩

theorem numberPrefix_cons {c : UInt8} {a s : List UInt8} (hc : isNumberByte c = true)
    (ha : NumberPrefix a s) : NumberPrefix (c :: a) (c :: s) :=
  ⟨List.cons_prefix_cons.2 ⟨rfl, ha.isPrefix⟩, List.forall_mem_cons.2 ⟨hc, ha.bytes⟩⟩

theorem NumberPrefix.append {a b s : List UInt8} (ha : NumberPrefix a s)
    (hb : NumberPrefix b (s.drop a.length)) : NumberPrefix (a ++ b) s := by
  obtain ⟨⟨t, rfl⟩, ha⟩ := ha
  obtain ⟨hfront, hb⟩ := hb
  rw [List.drop_left] at hfront
  exact ⟨(List.prefix_append_right_inj a).2 hfront, List.forall_mem_append.2 ⟨ha, hb⟩⟩

theorem numberPrefix_digits (base : Nat) (s : List UInt8) :
    NumberPrefix (s.takeWhile (isDigitOf base)) s :=
  ⟨List.takeWhile_prefix _, fun _ hc => isNumberByte_of_isDigitOf (List.mem_takeWhile_imp hc)⟩

/-- A sign, if there is one. -/
theorem numberPrefix_sign (s : List UInt8) :
    NumberPrefix ((s.take 1).filter fun c => c = plus || c = hyphen) s := by
  cases s with
  | nil => exact numberPrefix_nil []
  | cons c s =>
      rw [List.take_succ_cons, List.take_zero, List.filter_cons]
      split
      · rename_i hsign
        have hc : isNumberByte c = true := by
          simp only [Bool.or_eq_true, decide_eq_true_eq] at hsign
          rcases hsign with rfl | rfl <;> decide
        exact numberPrefix_cons hc (numberPrefix_nil s)
      · exact numberPrefix_nil _

theorem numberPrefix_exponentText {mark upper : UInt8} (hmark : isNumberByte mark = true)
    (hupper : isNumberByte upper = true) (s : List UInt8) :
    NumberPrefix (exponentText mark upper s) s := by
  cases s with
  | nil => exact numberPrefix_nil []
  | cons c s =>
      simp only [exponentText]
      split_ifs with hletter hdigits
      · exact numberPrefix_nil _
      · have hc : isNumberByte c = true := by
          rcases hletter with rfl | rfl
          · exact hmark
          · exact hupper
        refine numberPrefix_cons hc ((numberPrefix_sign s).append ⟨List.takeWhile_prefix _, ?_⟩)
        exact fun d hd => isNumberByte_of_isDigit (List.mem_takeWhile_imp hd)
      · exact numberPrefix_nil _

/-- The prefix of a hexadecimal number. -/
theorem numberBase_cases (s : List UInt8) :
    (∃ x y m, s = 48 :: x :: y :: m ∧ (x = 120 ∨ x = 88) ∧ numberBase s = (16, y :: m)) ∨
      ((numberBase s).1 ≠ 16 ∧ (numberBase s).2 = s) := by
  unfold numberBase
  split
  · rename_i x y m
    split
    · rename_i hx
      exact .inl ⟨x, y, m, rfl, hx.1, rfl⟩
    · exact .inr ⟨by simp, rfl⟩
  · exact .inr ⟨by simp, rfl⟩
  · exact .inr ⟨by simp, rfl⟩

theorem numberPrefix_hexMark {x : UInt8} (hx : x = 120 ∨ x = 88) (s : List UInt8) :
    NumberPrefix [48, x] (48 :: x :: s) := by
  refine numberPrefix_cons (by decide) (numberPrefix_cons ?_ (numberPrefix_nil s))
  rcases hx with rfl | rfl <;> decide

/-- What `strtoll` passes over. -/
theorem numberPrefix_strtoll (s : List UInt8) :
    ∃ a, NumberPrefix a s ∧ s.drop a.length = (strtoll s).2 := by
  have hdrop : ∀ p : List UInt8, ∀ m : List UInt8, (p ++ m).drop
      (p ++ m.takeWhile (isDigitOf (numberBase s).1)).length =
        m.drop (m.takeWhile (isDigitOf (numberBase s).1)).length := by
    intro p m
    rw [List.length_append, ← List.drop_drop, List.drop_left]
  rcases numberBase_cases s with ⟨x, y, m, rfl, hx, hbase⟩ | ⟨-, hrest⟩
  · refine ⟨[48, x] ++ (y :: m).takeWhile (isDigitOf 16),
      (numberPrefix_hexMark hx _).append (numberPrefix_digits 16 _), ?_⟩
    have h := hdrop [48, x] (y :: m)
    rw [hbase] at h
    simp only [strtoll, hbase]
    exact h
  · refine ⟨s.takeWhile (isDigitOf (numberBase s).1), numberPrefix_digits _ _, ?_⟩
    simp only [strtoll, hrest]

/-- The point and the digits behind it. -/
def fractionText (base : Nat) : List UInt8 → List UInt8
  | c :: m => if c = dot then c :: m.takeWhile (isDigitOf base) else []
  | [] => []

/-- The parts of a floating point number. -/
theorem floatText_eq (s : List UInt8) {base : Nat} {front whole m : List UInt8}
    (hbase : (if (numberBase s).1 = 16 then 16 else 10) = base)
    (hfront : (if base = 16 then s.take 2 else []) = front)
    (hwhole : (s.drop front.length).takeWhile (isDigitOf base) = whole)
    (hm : s.drop (front.length + whole.length) = m) :
    floatText s = front ++ whole ++ fractionText base m ++
      if base = 16 then exponentText 112 80 (m.drop (fractionText base m).length)
      else exponentText 101 69 (m.drop (fractionText base m).length) := by
  subst hbase hfront hwhole hm
  rfl

theorem numberPrefix_fraction (base : Nat) (s : List UInt8) :
    NumberPrefix (fractionText base s) s := by
  cases s with
  | nil => exact numberPrefix_nil []
  | cons c m =>
      simp only [fractionText]
      split
      · rename_i hc
        exact numberPrefix_cons (by rw [hc]; decide) (numberPrefix_digits base m)
      · exact numberPrefix_nil _

/-- What `strtod` takes for a number. -/
theorem numberPrefix_floatText (s : List UInt8) : NumberPrefix (floatText s) s := by
  have hfront : ∀ base : Nat, (if (numberBase s).1 = 16 then 16 else 10) = base →
      NumberPrefix (if base = 16 then s.take 2 else []) s := by
    rintro base rfl
    rcases numberBase_cases s with ⟨x, y, m, rfl, hx, hbase⟩ | ⟨hbase, -⟩
    · rw [hbase]
      exact numberPrefix_hexMark hx (y :: m)
    · rw [if_neg hbase]
      exact numberPrefix_nil s
  rw [floatText_eq s rfl rfl rfl rfl]
  generalize hb : (if (numberBase s).1 = 16 then 16 else 10) = base
  refine NumberPrefix.append (NumberPrefix.append ((hfront base hb).append
    (numberPrefix_digits base _)) ?_) ?_
  · rw [List.length_append]
    exact numberPrefix_fraction base _
  · simp only [List.length_append, ← List.drop_drop]
    split
    · exact @numberPrefix_exponentText 112 80 (by decide) (by decide) _
    · exact @numberPrefix_exponentText 101 69 (by decide) (by decide) _

theorem NumberPrefix.take {a s : List UInt8} (h : NumberPrefix a s) : s.take a.length = a := by
  obtain ⟨t, rfl⟩ := h.isPrefix
  exact List.take_left

/-- `config_parse_int` passes over the bytes of a number. -/
theorem parseInt_eq (p : Place) :
    ∃ a, NumberPrefix a p.2 ∧ p.parseInt.2 = (p.1 ++ a, p.2.drop a.length) := by
  obtain ⟨a, ha, hrest⟩ := numberPrefix_strtoll p.2
  simp only [Place.parseInt]
  split
  · have hfloat := numberPrefix_floatText p.2
    refine ⟨floatText p.2, hfloat, ?_⟩
    rw [Place.pass, hfloat.take]
  · have hlen : p.2.length - (strtoll p.2).2.length = a.length := by
      have hle := ha.isPrefix.length_le
      rw [← hrest, List.length_drop]
      omega
    refine ⟨a, ha, ?_⟩
    rw [hlen, Place.pass, ha.take]

/-- A number has at least the digit with which it begins. -/
theorem length_strtoll {c : UInt8} {m : List UInt8} (hc : isDigit c = true) :
    (strtoll (c :: m)).2.length ≤ m.length := by
  rcases numberBase_cases (c :: m) with ⟨x, y, m', heq, -, hbase⟩ | ⟨hbase, hrest⟩
  · obtain ⟨rfl, rfl⟩ := List.cons.inj heq
    simp only [strtoll, hbase, List.length_drop, List.length_cons]
    omega
  · have hdigit : isDigitOf (numberBase (c :: m)).1 c = true := by
      by_cases hzero : c = 48
      · subst hzero
        have hall : ∀ base : Nat, base = 8 ∨ base = 10 ∨ base = 16 → isDigitOf base 48 = true := by
          rintro base (rfl | rfl | rfl) <;> decide
        apply hall
        unfold numberBase
        split
        · split <;> simp
        · simp
        · simp
      · rw [numberBase_ten (by simpa using hzero)]
        exact isDigitOf_ten hc
    simp only [strtoll, hrest, List.takeWhile_cons_of_pos hdigit, List.length_cons,
      List.drop_succ_cons, List.length_drop]
    omega

theorem floatText_ne_nil {c : UInt8} {m : List UInt8} (hc : isDigit c = true) :
    floatText (c :: m) ≠ [] := by
  simp only [floatText]
  by_cases hbase : (numberBase (c :: m)).1 = 16
  · simp [hbase]
  · have hten : ¬(10 : Nat) = 16 := by decide
    simp only [if_neg hbase, if_neg hten, List.length_nil, List.drop_zero,
      List.takeWhile_cons_of_pos (isDigitOf_ten hc)]
    simp

/-- A number that begins with a digit and the text behind it. -/
theorem parseInt_digit {c : UInt8} {m : List UInt8} (hc : isDigit c = true) :
    ∃ a, (∀ d ∈ c :: a, isNumberByte d = true) ∧
      c :: m = c :: (a ++ (Place.parseInt ([], c :: m)).2.2) := by
  obtain ⟨a, ⟨hfront, hbytes⟩, heq⟩ := parseInt_eq ([], c :: m)
  have hne : a ≠ [] := by
    rintro rfl
    have hall : (Place.parseInt ([], c :: m)).2.2 = c :: m := by rw [heq]; rfl
    simp only [Place.parseInt] at hall
    split at hall
    · have hlen := congrArg List.length hall
      have hpos := List.length_pos_of_ne_nil (floatText_ne_nil (m := m) hc)
      simp only [Place.pass, List.length_drop, List.length_cons] at hlen
      omega
    · have hlen := congrArg List.length hall
      have hle := length_strtoll (m := m) hc
      simp only [Place.pass, List.length_drop, List.length_cons] at hlen
      omega
  obtain ⟨e, a, rfl⟩ := List.exists_cons_of_ne_nil hne
  obtain ⟨rfl, -⟩ := List.cons_prefix_cons.1 hfront
  refine ⟨a, hbytes, ?_⟩
  rw [heq]
  obtain ⟨t, ht⟩ := hfront
  rw [← ht, List.drop_left]
  exact ht.symm

/-! ## What follows a number

A text behind the bytes of a number that begins with another byte makes no difference.
-/

section Append

variable {r : List UInt8} (hr : ∀ c ∈ r.head?, isNumberByte c = false)

include hr

theorem takeWhile_append_other {p : UInt8 → Bool} (hp : ∀ c, p c = true → isNumberByte c = true)
    (k : List UInt8) : (k ++ r).takeWhile p = k.takeWhile p := by
  induction k with
  | nil =>
      cases r with
      | nil => rfl
      | cons c m =>
          have hc : ¬p c = true := fun h => Bool.false_ne_true ((hr c rfl).symm.trans (hp c h))
          exact List.takeWhile_cons_of_neg hc
  | cons c k ih =>
      simp only [List.cons_append, List.takeWhile_cons, ih]

theorem head?_append_other {c : UInt8} (hc : isNumberByte c = true) (k : List UInt8) :
    (k ++ r).head? = some c ↔ k.head? = some c := by
  cases k with
  | nil =>
      simp only [List.nil_append, List.head?_nil, reduceCtorEq, iff_false]
      exact fun h => Bool.false_ne_true ((hr c h).symm.trans hc)
  | cons d k => rfl

theorem numberBase_append (k : List UInt8) :
    numberBase (k ++ r) = ((numberBase k).1, (numberBase k).2 ++ r) := by
  have hother : ∀ c ∈ r.head?, c ≠ 48 ∧ c ≠ 120 ∧ c ≠ 88 ∧ isDigitOf 16 c = false := by
    intro c hc
    have hnumber := hr c hc
    have hall : ∀ c : UInt8, isNumberByte c = false →
        c ≠ 48 ∧ c ≠ 120 ∧ c ≠ 88 ∧ isDigitOf 16 c = false := forall_byte (by decide)
    exact hall c hnumber
  match k with
  | [] =>
      cases r with
      | nil => rfl
      | cons c m =>
          have hc := hother c rfl
          have hhead : (c :: m).head? ≠ some 48 := fun h => hc.1 (Option.some.inj h)
          rw [List.nil_append, numberBase_ten hhead]
          rfl
  | [c] =>
      by_cases hzero : c = 48
      · subst hzero
        cases r with
        | nil => rfl
        | cons x m =>
            have hx := hother x rfl
            cases m with
            | nil => rfl
            | cons y m =>
                have hnot : ¬((x = 120 ∨ x = 88) ∧ isDigitOf 16 y = true) := fun h =>
                  h.1.elim hx.2.1 hx.2.2.1
                simp only [List.cons_append, List.nil_append, numberBase, if_neg hnot]
      · have hhead : ∀ m : List UInt8, (c :: m).head? ≠ some 48 := fun m h =>
          hzero (Option.some.inj h)
        rw [List.cons_append, numberBase_ten (hhead _), numberBase_ten (hhead _)]
        rfl
  | [c, x] =>
      by_cases hzero : c = 48
      · subst hzero
        cases r with
        | nil => rfl
        | cons y m =>
            have hnot : ¬((x = 120 ∨ x = 88) ∧ isDigitOf 16 y = true) := fun h =>
              Bool.false_ne_true ((hother y rfl).2.2.2.symm.trans h.2)
            simp only [List.cons_append, List.nil_append, numberBase, if_neg hnot]
      · have hhead : ∀ m : List UInt8, (c :: m).head? ≠ some 48 := fun m h =>
          hzero (Option.some.inj h)
        rw [List.cons_append, numberBase_ten (hhead _), numberBase_ten (hhead _)]
        rfl
  | c :: x :: y :: k =>
      by_cases hzero : c = 48
      · subst hzero
        simp only [List.cons_append, numberBase]
        split <;> rfl
      · have hhead : ∀ m : List UInt8, (c :: m).head? ≠ some 48 := fun m h =>
          hzero (Option.some.inj h)
        rw [List.cons_append, numberBase_ten (hhead _), numberBase_ten (hhead _)]
        rfl

theorem strtoll_append (k : List UInt8) :
    strtoll (k ++ r) = ((strtoll k).1, (strtoll k).2 ++ r) := by
  have hdigits := takeWhile_append_other hr (p := isDigitOf (numberBase k).1)
    (fun c h => isNumberByte_of_isDigitOf h) (numberBase k).2
  have hle := (List.takeWhile_prefix (l := (numberBase k).2)
    (isDigitOf (numberBase k).1)).length_le
  simp only [strtoll, numberBase_append hr, hdigits]
  rw [List.drop_append_of_le_length hle]

theorem exponentText_append {mark upper : UInt8} (hmark : isNumberByte mark = true)
    (hupper : isNumberByte upper = true) (k : List UInt8) :
    exponentText mark upper (k ++ r) = exponentText mark upper k := by
  cases k with
  | nil =>
      cases r with
      | nil => rfl
      | cons c m =>
          have hc : ¬(c = mark ∨ c = upper) := by
            rintro (rfl | rfl)
            · exact Bool.false_ne_true ((hr c rfl).symm.trans hmark)
            · exact Bool.false_ne_true ((hr c rfl).symm.trans hupper)
          simp only [List.nil_append, exponentText, if_neg hc]
  | cons c k =>
      have hsign : ((k ++ r).take 1).filter (fun c => c = plus || c = hyphen) =
          (k.take 1).filter fun c => c = plus || c = hyphen := by
        cases k with
        | nil =>
            cases r with
            | nil => rfl
            | cons d m =>
                have hd : (d = plus || d = hyphen) = false := by
                  have hall : ∀ c : UInt8, isNumberByte c = false →
                      (c = plus || c = hyphen) = false := forall_byte (by decide)
                  exact hall d (hr d rfl)
                simp [hd]
        | cons d k => rfl
      have hle : ((k.take 1).filter fun c => c = plus || c = hyphen).length ≤ k.length :=
        (List.length_filter_le _ _).trans (List.length_take_le' _ _)
      have hdigits := takeWhile_append_other hr (fun c h => isNumberByte_of_isDigit h)
        (k.drop ((k.take 1).filter fun c => c = plus || c = hyphen).length)
      rw [← List.drop_append_of_le_length hle] at hdigits
      simp only [List.cons_append, exponentText, hsign, hdigits]

theorem fractionText_append (base : Nat) (k : List UInt8) :
    fractionText base (k ++ r) = fractionText base k := by
  cases k with
  | nil =>
      cases r with
      | nil => rfl
      | cons c m =>
          have hc : c ≠ dot := by
            rintro rfl
            exact absurd (hr dot rfl) (by decide)
          simp only [List.nil_append, fractionText, if_neg hc]
  | cons c k =>
      have hdigits := takeWhile_append_other hr (p := isDigitOf base)
        (fun c h => isNumberByte_of_isDigitOf h) k
      simp only [List.cons_append, fractionText, hdigits]

theorem floatText_append (k : List UInt8) : floatText (k ++ r) = floatText k := by
  have hfront : ∀ base : Nat, (if (numberBase k).1 = 16 then 16 else 10) = base →
      (if base = 16 then (k ++ r).take 2 else []) = (if base = 16 then k.take 2 else []) ∧
        (if base = 16 then k.take 2 else []).length ≤ k.length := by
    rintro base rfl
    rcases numberBase_cases k with ⟨x, y, m, rfl, -, -⟩ | ⟨hbase, -⟩
    · split
      · exact ⟨rfl, by simp⟩
      · exact ⟨rfl, Nat.zero_le _⟩
    · simp [hbase]
  obtain ⟨base, hbase⟩ : ∃ base, (if (numberBase k).1 = 16 then 16 else 10) = base := ⟨_, rfl⟩
  obtain ⟨hfrontEq, hfrontLe⟩ := hfront base hbase
  obtain ⟨front, hfront⟩ : ∃ front, (if base = 16 then k.take 2 else []) = front := ⟨_, rfl⟩
  rw [hfront] at hfrontEq hfrontLe
  have hwhole := takeWhile_append_other hr (p := isDigitOf base)
    (fun c h => isNumberByte_of_isDigitOf h) (k.drop front.length)
  rw [← List.drop_append_of_le_length hfrontLe] at hwhole
  have hwholeLe := (List.takeWhile_prefix (l := k.drop front.length) (isDigitOf base)).length_le
  rw [List.length_drop] at hwholeLe
  have hdrop : (k ++ r).drop (front.length +
      ((k.drop front.length).takeWhile (isDigitOf base)).length) = k.drop (front.length +
        ((k.drop front.length).takeWhile (isDigitOf base)).length) ++ r :=
    List.drop_append_of_le_length (by omega)
  rw [floatText_eq (k ++ r) (by rw [numberBase_append hr]; exact hbase) hfrontEq hwhole hdrop,
    floatText_eq k hbase hfront rfl rfl, fractionText_append hr, List.drop_append_of_le_length
      (numberPrefix_fraction base _).isPrefix.length_le,
    @exponentText_append _ hr 112 80 (by decide) (by decide),
    @exponentText_append _ hr 101 69 (by decide) (by decide)]

/-- What follows a number makes no difference to it. -/
theorem parseInt_append (k : List UInt8) :
    Place.parseInt ([], k ++ r) = ((Place.parseInt ([], k)).1, (Place.parseInt ([], k)).2.1,
      (Place.parseInt ([], k)).2.2 ++ r) := by
  have hdot := head?_append_other hr (c := dot) (by decide) (strtoll k).2
  have hfloat := (numberPrefix_floatText k).isPrefix.length_le
  have hpass : ∀ n, n ≤ k.length →
      Place.pass ([], k ++ r) n = ((Place.pass ([], k) n).1, (Place.pass ([], k) n).2 ++ r) := by
    intro n hn
    simp only [Place.pass, List.take_append_of_le_length hn, List.drop_append_of_le_length hn]
  have hlen : (k ++ r).length - ((strtoll k).2 ++ r).length = k.length - (strtoll k).2.length := by
    rw [List.length_append, List.length_append]
    omega
  simp only [Place.parseInt, strtoll_append hr, hdot, floatText_append hr, hlen]
  split
  · rw [hpass _ hfloat]
  · rw [hpass _ (Nat.sub_le _ _)]

end Append

end OpenTube
