import Mathlib.Data.Nat.Digits.Lemmas
import OpenTube.Lib.CString
import OpenTube.Common.Numbers

/-!
# Printing an integer in any base

`int_to_str`, `long_to_str` and `int64_to_str` have one body and differ in the type of
the value. `printInt w` is this body for a signed type of `w` bits, as it runs: every
arithmetic operation has a value only if it stays inside the type, every character is
read from the table and written to the buffer, and the characters are reversed where
they stand. `xToStr` is the text it leaves there.

The digits of a number are those of its absolute value, because the quotient is
rounded towards zero and the table is the same on both sides of the digit `0`. The
least number therefore needs no case of its own.
-/

namespace OpenTube

open CString

/-! ## The functions as they run -/

/-- The result of an operation on a signed type of `w` bits, if it does not overflow. -/
def signed (w : Nat) (n : Int) : Option Int :=
  if -2 ^ (w - 1) ≤ n ∧ n < 2 ^ (w - 1) then some n else none

/-- `x_to_str_chartable[i]`, for an index inside the table. -/
def chartableAt (i : Int) : Option UInt8 :=
  if 0 ≤ i then xToStrChartable[i.toNat]? else none

/-- The `do ... while (value)` loop of the printing functions: the last `tmp_value`,
`ptr` and the buffer behind it. The second argument bounds the number of passes. -/
def printDigits (w : Nat) (base : Int) :
    Nat → Int → Nat → List UInt8 → Option (Int × Nat × List UInt8)
  | 0, _, _, _ => none
  | n + 1, tmpValue, ptr, m =>
      (signed w (tmpValue.tdiv base)).bind fun value =>
        (signed w (value * base)).bind fun product =>
          (signed w (tmpValue - product)).bind fun digit =>
            (signed w (35 + digit)).bind fun index =>
              (chartableAt index).bind fun c =>
                (put m.length m ptr c).bind fun m =>
                  if value ≠ 0 then printDigits w base n value (ptr + 1) m
                  else some (tmpValue, ptr + 1, m)

/-- The `while (ptr1 < ptr)` loop: the characters between the two are reversed. -/
def reverseBetween (ptr1 ptr : Nat) (m : List UInt8) : Option (List UInt8) :=
  if ptr1 < ptr then
    let tmpChar := m.getD ptr 0
    (put m.length m ptr (m.getD ptr1 0)).bind fun m =>
      (put m.length m ptr1 tmpChar).bind fun m => reverseBetween (ptr1 + 1) (ptr - 1) m
  else some m
termination_by ptr - ptr1

/-- What the printing functions do behind the sign: they end the text at `ptr` and put
its characters in order. -/
def closeText (ptr : Nat) (m : List UInt8) : Option (List UInt8) :=
  (put m.length m ptr nul).bind fun m => reverseBetween 0 (ptr - 1) m

/-- The body of the printing functions: what they leave in the buffer `result`. -/
def printInt (w : Nat) (result : List UInt8) (value base : Int) : Option (List UInt8) :=
  (printDigits w base w value 0 result).bind fun r =>
    if r.1 < 0 then (put r.2.2.length r.2.2 r.2.1 hyphen).bind fun m => closeText (r.2.1 + 1) m
    else closeText r.2.1 r.2.2

/-- `int_to_str`, with the buffer it writes to. -/
def intToStrInto (result : List UInt8) (value base : Int) : Option (List UInt8) :=
  printInt 32 result value base

/-- `long_to_str`, with the buffer it writes to; a `long` has 64 bits. -/
def longToStrInto (result : List UInt8) (value base : Int) : Option (List UInt8) :=
  printInt 64 result value base

/-- `int64_to_str`, with the buffer it writes to. -/
def int64ToStrInto (result : List UInt8) (value base : Int) : Option (List UInt8) :=
  printInt 64 result value base

/-- The text of `long_to_str`. -/
def longToStr (value base : Int) : List UInt8 := xToStr value base

/-- The loop of `digits_in_int`. -/
def digitsLoop (n : Int) (i : Nat) : Nat :=
  if n.tdiv 10 ≠ 0 then digitsLoop (n.tdiv 10) (i + 1) else i
termination_by n.natAbs
decreasing_by
  rw [Int.natAbs_tdiv]
  rename_i h
  have hne : n.natAbs ≠ 0 := by
    rintro hzero
    obtain rfl := Int.natAbs_eq_zero.1 hzero
    simp at h
  exact Nat.div_lt_self (by omega) (by decide)

/-- `digits_in_int`. -/
def digitsInInt (n : Int) : Nat := digitsLoop n 1

/-! ## Texts of numbers -/

/-- The character of a digit. -/
def digitChar (d : Nat) : UInt8 :=
  (ascii "0123456789abcdefghijklmnopqrstuvwxyz").getD d 0

/-- The digit a character stands for. -/
def charDigit (c : UInt8) : Option Nat :=
  if isDigit c then some (c.toNat - 48)
  else if isLower c then some (c.toNat - 87)
  else none

/-- The number that digits denote, read from the first. -/
def readDigits (base : Nat) (s : List UInt8) : Option Nat :=
  s.foldlM (fun value c =>
    (charDigit c).bind fun d => if d < base then some (value * base + d) else none) 0

/-- The number a text denotes: an optional sign and digits. -/
def numberValue (base : Nat) : List UInt8 → Option Int
  | [] => none
  | c :: s =>
      if c = hyphen then (readDigits base s).map fun n : Nat => -(n : Int)
      else (readDigits base (c :: s)).map fun n : Nat => (n : Int)

/-- The text is a number in the base: an optional sign, and digits with no zero in
front of them. -/
structure IsText (base : Nat) (value : Int) (text : List UInt8) : Prop where
  digits : ∃ ds : List Nat, text = (if value < 0 then [hyphen] else []) ++ ds.map digitChar ∧
    ds ≠ [] ∧ (∀ d ∈ ds, d < base) ∧ (ds.head? = some 0 → ds = [0])
  reads : numberValue base text = some value

/-- The digits of a number in the order they are written, the last one first. -/
def writtenDigits (base n : Nat) : List Nat :=
  if n = 0 then [0] else base.digits n

theorem writtenDigits_eq {base : Nat} (hbase : 2 ≤ base) (n : Nat) :
    writtenDigits base n =
      n % base :: if n / base = 0 then [] else writtenDigits base (n / base) := by
  by_cases hn : n = 0
  · simp [writtenDigits, hn]
  · rw [writtenDigits, if_neg hn, Nat.digits_def' hbase (by omega)]
    by_cases hrest : n / base = 0
    · rw [if_pos hrest, hrest, Nat.digits_zero]
    · rw [if_neg hrest, writtenDigits, if_neg hrest]

theorem writtenDigits_ne_nil {base : Nat} (hbase : 2 ≤ base) (n : Nat) :
    writtenDigits base n ≠ [] := by
  rw [writtenDigits_eq hbase]
  exact List.cons_ne_nil _ _

theorem writtenDigits_lt {base : Nat} (hbase : 2 ≤ base) (n : Nat) :
    ∀ d ∈ writtenDigits base n, d < base := by
  intro d hd
  rw [writtenDigits] at hd
  split at hd
  · obtain rfl := List.mem_singleton.1 hd
    omega
  · exact Nat.digits_lt_base (by omega) hd

theorem ofDigits_writtenDigits (base n : Nat) : Nat.ofDigits base (writtenDigits base n) = n := by
  rw [writtenDigits]
  split
  · rename_i hn
    simp [hn]
  · exact Nat.ofDigits_digits base n

/-- The digit written last is not zero, unless it is the only one. -/
theorem head?_reverse_writtenDigits {base n : Nat}
    (h : (writtenDigits base n).reverse.head? = some 0) : (writtenDigits base n).reverse = [0] := by
  rw [List.head?_reverse, writtenDigits] at h
  rw [writtenDigits]
  split
  · rfl
  · rename_i hn
    rw [if_neg hn] at h
    have hne : base.digits n ≠ [] := Nat.digits_ne_nil_iff_ne_zero.2 hn
    rw [List.getLast?_eq_some_getLast hne] at h
    exact absurd (Option.some.inj h) (Nat.getLast_digit_ne_zero base hn)

theorem length_writtenDigits_le {base n k : Nat} (hbase : 2 ≤ base) (hk : 0 < k)
    (h : n < 2 ^ k) : (writtenDigits base n).length ≤ k := by
  obtain ⟨b, rfl⟩ := Nat.exists_eq_add_of_le' hbase
  rw [writtenDigits]
  split
  · exact hk
  · rw [Nat.digits_length_le_iff (by omega)]
    exact Nat.lt_of_lt_of_le h (Nat.pow_le_pow_left hbase k)

/-! ## Reading back -/

theorem charDigit_digitChar : ∀ d < 36, charDigit (digitChar d) = some d := by
  decide +kernel

theorem digitChar_ne_hyphen : ∀ d < 36, digitChar d ≠ hyphen := by
  decide +kernel

/-- The digits are read back. -/
theorem readDigits_reverse {base : Nat} (h36 : base ≤ 36) {ds : List Nat}
    (hds : ∀ d ∈ ds, d < base) :
    readDigits base (ds.reverse.map digitChar) = some (Nat.ofDigits base ds) := by
  induction ds with
  | nil => rfl
  | cons d ds ih =>
      have hd := hds d List.mem_cons_self
      have hrest := ih fun x hx => hds x (List.mem_cons_of_mem d hx)
      rw [readDigits] at hrest
      rw [readDigits, List.reverse_cons, List.map_append, List.foldlM_append, hrest,
        Nat.ofDigits_cons]
      simp only [List.map_cons, List.map_nil, List.foldlM_cons, List.foldlM_nil,
        Option.bind_eq_bind, Option.bind_some, charDigit_digitChar d (by omega), if_pos hd,
        Option.pure_def, Option.some.injEq]
      rw [Nat.mul_comm, Nat.add_comm]

/-- The digits of the absolute value behind the sign are a text of the number. -/
theorem isText_writtenDigits {base : Nat} (hbase : 2 ≤ base) (h36 : base ≤ 36) (value : Int) :
    IsText base value ((if value < 0 then [hyphen] else []) ++
      (writtenDigits base value.natAbs).reverse.map digitChar) where
  digits := ⟨(writtenDigits base value.natAbs).reverse, rfl,
    fun h => writtenDigits_ne_nil hbase _ (List.reverse_eq_nil_iff.1 h),
    fun d hd => writtenDigits_lt hbase _ d (List.mem_reverse.1 hd),
    head?_reverse_writtenDigits⟩
  reads := by
    have hread := readDigits_reverse h36 (writtenDigits_lt hbase value.natAbs)
    rw [ofDigits_writtenDigits] at hread
    by_cases hneg : value < 0
    · rw [if_pos hneg, List.singleton_append, numberValue, if_pos rfl, hread, Option.map_some]
      congr 1
      omega
    · obtain ⟨d, ds, hds⟩ :=
        List.exists_cons_of_ne_nil fun h => writtenDigits_ne_nil hbase value.natAbs
          (List.reverse_eq_nil_iff.1 h)
      have hd : d < base := writtenDigits_lt hbase value.natAbs d (by
        rw [← List.mem_reverse, hds]
        exact List.mem_cons_self)
      rw [if_neg hneg, List.nil_append]
      rw [hds, List.map_cons] at hread ⊢
      rw [numberValue, if_neg (digitChar_ne_hyphen d (by omega)), hread, Option.map_some]
      congr 1
      omega

/-! ## The table and the arithmetic -/

theorem xToStrChartable_digit :
    ∀ d < 36, xToStrChartable[35 + d]? = some (digitChar d) ∧
      xToStrChartable[35 - d]? = some (digitChar d) := by
  decide +kernel

/-- The table gives a remainder and its negative the same character. -/
theorem chartableAt_eq {r : Int} (h : r.natAbs < 36) :
    chartableAt (35 + r) = some (digitChar r.natAbs) := by
  obtain ⟨hup, hdown⟩ := xToStrChartable_digit r.natAbs h
  rw [chartableAt, if_pos (by omega)]
  rcases Int.natAbs_eq r with hr | hr
  · have hindex : (35 + r).toNat = 35 + r.natAbs := by omega
    rw [hindex, hup]
  · have hindex : (35 + r).toNat = 35 - r.natAbs := by omega
    rw [hindex, hdown]

/-- What is left of a number after the division has the last digit as its absolute
value. -/
theorem natAbs_sub_tdiv_mul (value base : Int) :
    (value - value.tdiv base * base).natAbs = value.natAbs % base.natAbs := by
  have hmod : value - value.tdiv base * base = value.tmod base := by
    have hsum := Int.tmod_add_tdiv_mul value base
    omega
  rw [hmod, Int.natAbs_tmod]

/-- A result no greater than a value of the type does not overflow. -/
theorem signed_of_natAbs_le {w : Nat} {n value : Int} (h : n.natAbs ≤ value.natAbs)
    (hsign : value < 0 → n ≤ 0) (hlow : -2 ^ (w - 1) ≤ value) (hhigh : value < 2 ^ (w - 1)) :
    signed w n = some n := by
  rw [signed, if_pos ⟨by omega, by omega⟩]

theorem signed_of_lt {w : Nat} {n : Int} (hw : 8 ≤ w) (h : n.natAbs < 128) :
    signed w n = some n := by
  have hpow : (2 : Int) ^ 7 ≤ 2 ^ (w - 1) := pow_le_pow_right₀ (by decide) (by omega)
  rw [signed, if_pos ⟨by omega, by omega⟩]

/-- A quotient that is rounded towards zero has the sign of the number. -/
theorem tdiv_sign (value : Int) (base : Nat) :
    (0 ≤ value → 0 ≤ value.tdiv base) ∧ (value < 0 → value.tdiv base ≤ 0) := by
  refine ⟨fun h => Int.tdiv_nonneg h (Int.natCast_nonneg base), fun h => ?_⟩
  have hpos := Int.tdiv_nonneg (show 0 ≤ -value by omega) (Int.natCast_nonneg base)
  rw [Int.neg_tdiv] at hpos
  omega

theorem natAbs_tdiv_natCast (value : Int) (base : Nat) :
    (value.tdiv base).natAbs = value.natAbs / base := by
  rw [Int.natAbs_tdiv, Int.natAbs_natCast]
  rfl

/-! ## The loops -/

/-- The loop writes the digits of the absolute value, the last one first, and ends with
a number of the same sign. -/
theorem printDigits_eq {w base : Nat} (hw : 8 ≤ w) (hbase : 2 ≤ base) (h36 : base ≤ 36) {n : Nat}
    {value : Int} (hlow : -2 ^ (w - 1) ≤ value) (hhigh : value < 2 ^ (w - 1))
    {a mid b : List UInt8} (hn : (writtenDigits base value.natAbs).length ≤ n)
    (hmid : mid.length = (writtenDigits base value.natAbs).length) :
    ∃ last : Int, (last < 0 ↔ value < 0) ∧
      printDigits w base n value a.length (a ++ (mid ++ b)) =
        some (last, a.length + mid.length,
          a ++ ((writtenDigits base value.natAbs).map digitChar ++ b)) := by
  induction n generalizing value a mid with
  | zero =>
      have hnil := List.eq_nil_of_length_eq_zero (Nat.le_zero.1 hn)
      exact absurd hnil (writtenDigits_ne_nil hbase _)
  | succ n ih =>
      obtain ⟨hpos, hneg⟩ := tdiv_sign value base
      have hquotient := natAbs_tdiv_natCast value base
      have hle : (value.tdiv base).natAbs ≤ value.natAbs := hquotient ▸ Nat.div_le_self _ _
      have hdigit : (value - value.tdiv base * base).natAbs = value.natAbs % base := by
        rw [natAbs_sub_tdiv_mul, Int.natAbs_natCast]
      have hmod := Nat.mod_lt value.natAbs (show 0 < base by omega)
      -- no operation overflows
      have hdiv : signed w (value.tdiv base) = some (value.tdiv base) :=
        signed_of_natAbs_le hle hneg hlow hhigh
      have hmul : signed w (value.tdiv base * base) = some (value.tdiv base * base) := by
        refine signed_of_natAbs_le ?_ (fun h => ?_) hlow hhigh
        · rw [Int.natAbs_mul, hquotient, Int.natAbs_natCast]
          exact Nat.div_mul_le_self _ _
        · exact Int.mul_nonpos_of_nonpos_of_nonneg (hneg h) (Int.natCast_nonneg base)
      have hsub : signed w (value - value.tdiv base * base) =
          some (value - value.tdiv base * base) := signed_of_lt hw (by omega)
      have hadd : signed w (35 + (value - value.tdiv base * base)) =
          some (35 + (value - value.tdiv base * base)) := signed_of_lt hw (by omega)
      have hchar := chartableAt_eq (show (value - value.tdiv base * base).natAbs < 36 by omega)
      rw [hdigit] at hchar
      -- the digit is written in front of the others
      have hdigits := writtenDigits_eq hbase value.natAbs
      obtain ⟨x, mid, rfl⟩ : ∃ x t, mid = x :: t :=
        List.exists_cons_of_ne_nil fun h => writtenDigits_ne_nil hbase value.natAbs
          (List.eq_nil_of_length_eq_zero (by rw [← hmid, h, List.length_nil]))
      have hput : put (a ++ (x :: mid ++ b)).length (a ++ (x :: mid ++ b)) a.length
          (digitChar (value.natAbs % base)) =
            some (a ++ digitChar (value.natAbs % base) :: (mid ++ b)) :=
        put_mid x _ rfl (by simp)
      rw [printDigits, hdiv, Option.bind_some, hmul, Option.bind_some, hsub, Option.bind_some,
        hadd, Option.bind_some, hchar, Option.bind_some, hput, Option.bind_some]
      rw [hdigits] at hn hmid ⊢
      by_cases hrest : value.natAbs / base = 0
      · rw [if_pos hrest] at hn hmid ⊢
        obtain rfl : mid = [] := List.eq_nil_of_length_eq_zero (by simpa using hmid)
        rw [if_neg (by omega)]
        exact ⟨value, Iff.rfl, rfl⟩
      · rw [if_neg hrest, ← hquotient] at hn hmid ⊢
        rw [List.length_cons, Nat.add_le_add_iff_right] at hn
        rw [List.length_cons, List.length_cons, Nat.add_right_cancel_iff] at hmid
        obtain ⟨last, hlast, hloop⟩ := @ih (value.tdiv base) (by omega) (by omega)
          (a ++ [digitChar (value.natAbs % base)]) mid hn hmid
        rw [List.length_append, List.length_singleton, List.append_assoc,
          List.singleton_append] at hloop
        rw [if_pos (by omega), hloop, List.length_cons]
        refine ⟨last, hlast.trans ⟨fun h => ?_, fun h => ?_⟩, ?_⟩
        · omega
        · have := hneg h
          omega
        · simp [Nat.add_assoc, Nat.add_comm 1]

/-- The second loop reverses what lies between the pointers. -/
theorem reverseBetween_eq {ptr1 ptr : Nat} {a s b : List UInt8} (hptr1 : ptr1 = a.length)
    (hptr : ptr + 1 = a.length + s.length) :
    reverseBetween ptr1 ptr (a ++ (s ++ b)) = some (a ++ (s.reverse ++ b)) := by
  induction hs : s.length using Nat.strong_induction_on generalizing ptr1 ptr a s b with
  | _ n ih =>
    subst hptr1
    match s with
    | [] =>
        rw [reverseBetween, if_neg (by simp at hptr; omega)]
        rfl
    | [c] =>
        rw [reverseBetween, if_neg (by simp at hptr; omega)]
        rfl
    | c :: e :: t =>
        obtain ⟨inner, d, hinner⟩ : ∃ inner d, e :: t = inner ++ [d] :=
          ⟨(e :: t).dropLast, (e :: t).getLast (List.cons_ne_nil e t),
            (List.dropLast_append_getLast (List.cons_ne_nil e t)).symm⟩
        rw [hinner] at hs hptr ⊢
        simp only [List.length_cons, List.length_append, List.length_nil, Nat.zero_add] at hs hptr
        have hleft : a ++ (c :: (inner ++ [d]) ++ b) = a ++ c :: (inner ++ d :: b) := by simp
        have hright : ∀ x, a ++ x :: (inner ++ d :: b) = (a ++ x :: inner) ++ d :: b := by simp
        have hplace : ptr = (a ++ c :: inner).length := by
          rw [List.length_append, List.length_cons]
          omega
        have hlast : put (a ++ c :: (inner ++ d :: b)).length (a ++ c :: (inner ++ d :: b)) ptr c =
            some (a ++ c :: (inner ++ c :: b)) := by
          rw [hright, put_mid d c hplace (by simp)]
          simp
        have hfirst : put (a ++ c :: (inner ++ c :: b)).length (a ++ c :: (inner ++ c :: b))
            a.length d = some (a ++ d :: (inner ++ c :: b)) := put_mid c d rfl (by simp)
        have hrest := @ih inner.length (by omega) (a.length + 1) (ptr - 1) (a ++ [d]) inner (c :: b)
          (by simp) (by rw [List.length_append, List.length_singleton]; omega) rfl
        rw [List.append_assoc, List.singleton_append] at hrest
        rw [hleft, reverseBetween, if_pos (by omega), getD_mid c rfl, hlast]
        rw [hright, getD_mid d hplace, Option.bind_some, hfirst, Option.bind_some, hrest]
        simp

/-! ## The text and its place -/

/-- The characters in the order they are written: the digits from the last one on, and
the sign. -/
theorem toStrLoop_eq {base : Nat} (hbase : 2 ≤ base) (h36 : base ≤ 36) {n : Nat} {value : Int}
    (hn : (writtenDigits base value.natAbs).length ≤ n) :
    toStrLoop n base value = (writtenDigits base value.natAbs).map digitChar ++
      if value < 0 then [hyphen] else [] := by
  induction n generalizing value with
  | zero =>
      have hnil := List.eq_nil_of_length_eq_zero (Nat.le_zero.1 hn)
      exact absurd hnil (writtenDigits_ne_nil hbase _)
  | succ n ih =>
      obtain ⟨hpos, hneg⟩ := tdiv_sign value base
      have hquotient := natAbs_tdiv_natCast value base
      have hdigit : (value - value.tdiv base * base).natAbs = value.natAbs % base := by
        rw [natAbs_sub_tdiv_mul, Int.natAbs_natCast]
      have hmod := Nat.mod_lt value.natAbs (show 0 < base by omega)
      have hchar := chartableAt_eq (show (value - value.tdiv base * base).natAbs < 36 by omega)
      rw [hdigit, chartableAt, if_pos (by omega)] at hchar
      have hdigits := writtenDigits_eq hbase value.natAbs
      rw [toStrLoop, List.getD_eq_getElem?_getD, hchar, Option.getD_some]
      rw [hdigits] at hn ⊢
      by_cases hrest : value.natAbs / base = 0
      · rw [if_pos hrest, if_neg (by omega)]
        split <;> rfl
      · rw [if_neg hrest, ← hquotient] at hn ⊢
        rw [List.length_cons, Nat.add_le_add_iff_right] at hn
        rw [if_pos (by omega), ih hn, List.map_cons, List.cons_append]
        congr 3
        exact propext ⟨fun h => by omega, fun h => by have := hneg h; omega⟩

/-- The text is that of the number if the digits do not run out. -/
theorem xToStr_eq {base : Nat} (hbase : 2 ≤ base) (h36 : base ≤ 36) {value : Int}
    (h : value.natAbs < 2 ^ 64) :
    xToStr value base = (if value < 0 then [hyphen] else []) ++
      (writtenDigits base value.natAbs).reverse.map digitChar := by
  rw [xToStr, toStrLoop_eq hbase h36 (length_writtenDigits_le hbase (by decide) h),
    List.reverse_append, List.map_reverse]
  split <;> rfl

theorem isText_xToStr {base : Nat} (hbase : 2 ≤ base) (h36 : base ≤ 36) {value : Int}
    (h : value.natAbs < 2 ^ 64) : IsText base value (xToStr value base) := by
  rw [xToStr_eq hbase h36 h]
  exact isText_writtenDigits hbase h36 value

theorem closeText_eq {ptr : Nat} {s rest : List UInt8} {x : UInt8} (hs : s ≠ [])
    (hptr : ptr = s.length) :
    closeText ptr (s ++ x :: rest) = some (s.reverse ++ nul :: rest) := by
  have hpos := List.length_pos_of_ne_nil hs
  have hreverse := @reverseBetween_eq 0 (ptr - 1) [] s (nul :: rest) rfl
    (by rw [List.length_nil]; omega)
  rw [closeText, put_mid x _ hptr (by simp), Option.bind_some]
  exact hreverse

/-- A cell of a buffer that is long enough. -/
theorem exists_cell {α : Type*} {m : List α} {n : Nat} (h : n < m.length) :
    ∃ a x b, m = a ++ x :: b ∧ a.length = n :=
  ⟨m.take n, m[n], m.drop (n + 1), by rw [List.getElem_cons_drop, List.take_append_drop],
    by rw [List.length_take]; omega⟩

/-- The functions leave the text, a `NUL` and what stood behind it. -/
theorem printInt_eq {w base : Nat} (hw : 8 ≤ w) (hw64 : w ≤ 64) (hbase : 2 ≤ base)
    (h36 : base ≤ 36) {value : Int} (hlow : -2 ^ (w - 1) ≤ value) (hhigh : value < 2 ^ (w - 1))
    {result : List UInt8} (hroom : (xToStr value base).length < result.length) :
    printInt w result value base = some (xToStr value base ++
      nul :: result.drop ((xToStr value base).length + 1)) := by
  have hbits : value.natAbs < 2 ^ w := by
    have hpow : 2 ^ w = 2 * 2 ^ (w - 1) := by
      rw [← pow_succ', Nat.sub_add_cancel (by omega)]
    have hcast : ((2 ^ (w - 1) : Nat) : Int) = 2 ^ (w - 1) := by push_cast; rfl
    omega
  have hword : value.natAbs < 2 ^ 64 :=
    Nat.lt_of_lt_of_le hbits (Nat.pow_le_pow_right (by decide) hw64)
  have hdigits := length_writtenDigits_le hbase (by omega : 0 < w) hbits
  have htext := xToStr_eq hbase h36 hword
  have hnonempty : (writtenDigits base value.natAbs).map digitChar ≠ [] := by
    simpa using writtenDigits_ne_nil hbase _
  -- the buffer has a place for each character and one more
  obtain ⟨a, x, rest, rfl, ha⟩ := exists_cell hroom
  have hdrop : (a ++ x :: rest).drop ((xToStr value base).length + 1) = rest := by
    rw [← ha, ← List.drop_drop, List.drop_left, List.drop_one, List.tail_cons]
  rw [hdrop, printInt]
  by_cases hneg : value < 0
  · rw [if_pos hneg] at htext
    obtain ⟨mid, y, rfl⟩ : ∃ mid y, a = mid ++ [y] := by
      have hne : a ≠ [] := by
        rintro rfl
        rw [htext] at ha
        simp at ha
      exact ⟨a.dropLast, a.getLast hne, (List.dropLast_append_getLast hne).symm⟩
    have hmid : mid.length = (writtenDigits base value.natAbs).length := by
      rw [htext] at ha
      simpa [Nat.add_comm 1] using ha
    obtain ⟨last, hlast, hloop⟩ := @printDigits_eq w base hw hbase h36 w value hlow hhigh [] mid
      (y :: x :: rest) hdigits hmid
    rw [List.nil_append, List.nil_append, List.length_nil, Nat.zero_add] at hloop
    rw [List.append_assoc, List.singleton_append, hloop, Option.bind_some]
    simp only [hlast.2 hneg, if_true]
    rw [put_mid y _ (by rw [hmid, List.length_map]) (by simp), Option.bind_some, List.append_cons,
      closeText_eq (List.append_ne_nil_of_left_ne_nil hnonempty _)
        (by rw [hmid, List.length_append, List.length_map, List.length_singleton]),
      htext, List.reverse_append, List.map_reverse]
    rfl
  · rw [if_neg hneg, List.nil_append] at htext
    have hmid : a.length = (writtenDigits base value.natAbs).length := by
      rw [ha, htext, List.length_map, List.length_reverse]
    obtain ⟨last, hlast, hloop⟩ := @printDigits_eq w base hw hbase h36 w value hlow hhigh [] a
      (x :: rest) hdigits hmid
    rw [List.nil_append, List.nil_append, List.length_nil, Nat.zero_add] at hloop
    rw [hloop, Option.bind_some]
    simp only [mt hlast.1 hneg, if_false]
    rw [closeText_eq hnonempty (by rw [hmid, List.length_map]), htext, List.map_reverse]

/-! ## The round trip -/

/-- The function `print` leaves `text` in every buffer with a place for the text and its
end, and nothing else is written there. -/
def Prints (print : List UInt8 → Option (List UInt8)) (text : List UInt8) : Prop :=
  ∀ result : List UInt8, text.length < result.length →
    print result = some (text ++ nul :: result.drop (text.length + 1))

/-- The digits of an integer are counted as they are written. -/
theorem digitsLoop_eq (n : Int) (i : Nat) :
    digitsLoop n i + 1 = i + (writtenDigits 10 n.natAbs).length := by
  fun_induction digitsLoop n i with
  | case1 n i hrest ih =>
      have hquotient : (n.tdiv 10).natAbs = n.natAbs / 10 := natAbs_tdiv_natCast n 10
      rw [writtenDigits_eq (by decide) n.natAbs, if_neg (by omega), List.length_cons, ih]
      rw [← hquotient]
      omega
  | case2 n i hrest =>
      have hquotient : (n.tdiv 10).natAbs = n.natAbs / 10 := natAbs_tdiv_natCast n 10
      rw [writtenDigits_eq (by decide) n.natAbs, if_pos (by omega)]
      rfl

theorem digitsInInt_eq {n : Int} (hpos : 0 ≤ n) (h : n < 2 ^ 64) :
    digitsInInt n = (intToStr n 10).length := by
  have hcount := digitsLoop_eq n 1
  have htext := @xToStr_eq 10 (by decide) (by decide) n (by omega)
  rw [if_neg (by omega), List.nil_append] at htext
  rw [intToStr, show (10 : Int) = (10 : Nat) from rfl, htext, List.length_map, List.length_reverse,
    digitsInInt]
  omega

/-- Every value of its type is printed by each of the functions, without an overflow,
as a text that is read back as the value; and `digits_in_int` is the length of the text
of a number that is not negative. -/
theorem toStr_roundTrip {base : Nat} (hbase : 2 ≤ base) (h36 : base ≤ 36) :
    (∀ value : Int, -2 ^ 31 ≤ value → value < 2 ^ 31 →
      Prints (intToStrInto · value base) (intToStr value base) ∧
        IsText base value (intToStr value base)) ∧
    (∀ value : Int, -2 ^ 63 ≤ value → value < 2 ^ 63 →
      Prints (longToStrInto · value base) (longToStr value base) ∧
        IsText base value (longToStr value base)) ∧
    (∀ value : Int, -2 ^ 63 ≤ value → value < 2 ^ 63 →
      Prints (int64ToStrInto · value base) (int64ToStr value base) ∧
        IsText base value (int64ToStr value base)) ∧
    ∀ n : Int, 0 ≤ n → n < 2 ^ 31 → digitsInInt n = (intToStr n 10).length := by
  refine ⟨fun value hlow hhigh => ⟨fun result hroom => ?_, isText_xToStr hbase h36 (by omega)⟩,
    fun value hlow hhigh => ⟨fun result hroom => ?_, isText_xToStr hbase h36 (by omega)⟩,
    fun value hlow hhigh => ⟨fun result hroom => ?_, isText_xToStr hbase h36 (by omega)⟩,
    fun n hpos hn => digitsInInt_eq hpos (by omega)⟩
  · exact printInt_eq (by decide) (by decide) hbase h36 hlow hhigh hroom
  · exact printInt_eq (by decide) (by decide) hbase h36 hlow hhigh hroom
  · exact printInt_eq (by decide) (by decide) hbase h36 hlow hhigh hroom

/-- The least 64-bit number in base 16. -/
theorem toStr_roundTrip_min :
    Prints (int64ToStrInto · (-2 ^ 63) 16) (ascii "-8000000000000000") ∧
      IsText 16 (-2 ^ 63) (ascii "-8000000000000000") := by
  have htext : int64ToStr (-2 ^ 63) (16 : Nat) = ascii "-8000000000000000" := by decide +kernel
  have h := (@toStr_roundTrip 16 (by decide) (by decide)).2.2.1 (-2 ^ 63) (by decide) (by decide)
  rw [htext] at h
  exact h

end OpenTube
