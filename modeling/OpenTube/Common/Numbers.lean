import OpenTube.Common.Types

/-!
# Numbers and their texts

`atoi` of the C library and the printing functions of `common_functions.c`. The
printing loop divides towards zero and picks the digit from a table that is
symmetric around `0`, so the sign of the remainder does not matter; it writes
the digits from the last to the first and reverses them.
-/

namespace OpenTube

/-- Arithmetic of a 32-bit `int`. -/
def int32 (n : Int) : Int := (n + 2 ^ 31) % 2 ^ 32 - 2 ^ 31

/-- Arithmetic of a 64-bit `int64`. -/
def int64 (n : Int) : Int := (n + 2 ^ 63) % 2 ^ 64 - 2 ^ 63

/-- The characters `isspace` accepts. -/
def isSpace (c : UInt8) : Bool := c = space || (9 ≤ c && c ≤ 13)

/-- The value of the leading decimal digits. -/
def digitsValue : Nat → List UInt8 → Nat
  | acc, [] => acc
  | acc, c :: s => if isDigit c then digitsValue (acc * 10 + (c.toNat - 48)) s else acc

/-- A number as `atoi` returns it: `strtol` cuts it to the range of a `long`, and the
`long` is truncated to an `int`. -/
def intOfLong (n : Int) : Int := int32 (max (-2 ^ 63) (min n (2 ^ 63 - 1)))

/-- `atoi`: blanks, an optional sign and decimal digits. -/
def atoi (s : List UInt8) : Int :=
  match s.dropWhile isSpace with
  | [] => 0
  | c :: t =>
      if c = hyphen then intOfLong (-(digitsValue 0 t : Int))
      else if c = plus then intOfLong (digitsValue 0 t)
      else intOfLong (digitsValue 0 (c :: t))

theorem atoi_digits {ds : List UInt8} (h : ∀ c ∈ ds, isDigit c = true) :
    atoi ds = intOfLong (digitsValue 0 ds) := by
  cases ds with
  | nil => rfl
  | cons c ds =>
      have hc := h c List.mem_cons_self
      have hspace : isSpace c = false := by
        revert hc
        exact forall_byte (P := fun c => isDigit c = true → isSpace c = false) (by decide) c
      have hhyphen : c ≠ hyphen := by
        rintro rfl
        exact absurd hc (by decide)
      have hplus : c ≠ plus := by
        rintro rfl
        exact absurd hc (by decide)
      simp [atoi, hspace, hhyphen, hplus]

/-- `x_to_str_chartable`. -/
def xToStrChartable : List UInt8 :=
  ascii "zyxwvutsrqponmlkjihgfedcba9876543210123456789abcdefghijklmnopqrstuvwxyz"

/-- The `do ... while (value)` loop: the characters in the order they are
written, the sign included. The first argument bounds the number of digits; 64
is enough for a 64-bit value in any base. -/
def toStrLoop : Nat → Int → Int → List UInt8
  | 0, _, _ => []
  | n + 1, base, tmpValue =>
      let value := tmpValue.tdiv base
      let digit := xToStrChartable.getD (35 + (tmpValue - value * base)).toNat 0
      if value ≠ 0 then digit :: toStrLoop n base value
      else if tmpValue < 0 then [digit, hyphen] else [digit]

/-- The printing functions: the characters written are put in order. -/
def xToStr (value base : Int) : List UInt8 :=
  (toStrLoop 64 base value).reverse

/-- `int_to_str`. -/
def intToStr (value base : Int) : List UInt8 := xToStr value base

/-- `int64_to_str`. -/
def int64ToStr (value base : Int) : List UInt8 := xToStr value base

theorem isDigit_xToStrChartable :
    ∀ n < 10, isDigit (xToStrChartable.getD (35 + n) 0) = true := by
  decide

/-- A number that is not negative is printed with digits only. -/
theorem isDigit_of_mem_toStrLoop {n : Nat} {value : Int} (h : 0 ≤ value) :
    ∀ c ∈ toStrLoop n 10 value, isDigit c = true := by
  induction n generalizing value with
  | zero => simp [toStrLoop]
  | succ n ih =>
      have hdiv : value.tdiv 10 = value / 10 := Int.tdiv_eq_ediv_of_nonneg h
      have hdigit : isDigit (xToStrChartable.getD
          (35 + (value - value.tdiv 10 * 10)).toNat 0) = true := by
        have hindex : (35 + (value - value.tdiv 10 * 10)).toNat = 35 + (value % 10).toNat := by
          omega
        rw [hindex]
        exact isDigit_xToStrChartable _ (by omega)
      intro c hc
      rw [toStrLoop] at hc
      split at hc
      · rcases List.mem_cons.1 hc with rfl | hc
        · exact hdigit
        · exact ih (by omega) c hc
      · rw [if_neg (by omega)] at hc
        obtain rfl := List.mem_singleton.1 hc
        exact hdigit

theorem isDigit_of_mem_xToStr {value : Int} (h : 0 ≤ value) :
    ∀ c ∈ xToStr value 10, isDigit c = true := by
  intro c hc
  exact isDigit_of_mem_toStrLoop h c (List.mem_reverse.1 hc)

theorem digitsValue_concat {s : List UInt8} (hs : ∀ c ∈ s, isDigit c = true) {d : UInt8}
    (hd : isDigit d = true) (acc : Nat) :
    digitsValue acc (s ++ [d]) = digitsValue acc s * 10 + (d.toNat - 48) := by
  induction s generalizing acc with
  | nil => simp [digitsValue, hd]
  | cons c s ih =>
      have hc := hs c List.mem_cons_self
      simp only [List.cons_append, digitsValue, hc, if_true]
      exact ih (fun x hx => hs x (List.mem_cons_of_mem c hx)) _

theorem toNat_xToStrChartable : ∀ n < 10, (xToStrChartable.getD (35 + n) 0).toNat - 48 = n := by
  decide

/-- The characters of a number that is not negative denote it. -/
theorem digitsValue_toStrLoop {n : Nat} {value : Int} (h : 0 ≤ value) (hlt : value < 10 ^ n) :
    (digitsValue 0 (toStrLoop n 10 value).reverse : Int) = value := by
  induction n generalizing value with
  | zero => simp [toStrLoop, digitsValue]; omega
  | succ n ih =>
      have hdiv : value.tdiv 10 = value / 10 := Int.tdiv_eq_ediv_of_nonneg h
      have hindex : (35 + (value - value / 10 * 10)).toNat = 35 + (value % 10).toNat := by omega
      have hvalue := toNat_xToStrChartable (value % 10).toNat (by omega)
      have hdigit := isDigit_xToStrChartable (value % 10).toNat (by omega)
      rw [toStrLoop, hdiv]
      split
      · rename_i hne
        have hrest := ih (by omega : 0 ≤ value / 10) (by rw [Int.pow_succ] at hlt; omega)
        have hdigits := isDigit_of_mem_toStrLoop (n := n) (by omega : 0 ≤ value / 10)
        rw [List.reverse_cons, hindex,
          digitsValue_concat (fun c hc => hdigits c (List.mem_reverse.1 hc)) hdigit, hvalue]
        push_cast
        rw [hrest]
        omega
      · rw [if_neg (by omega), hindex]
        simp only [List.reverse_singleton, digitsValue, hdigit, if_true, Nat.zero_mul, Nat.zero_add,
          hvalue]
        omega

/-- A number that is printed is read back. -/
theorem digitsValue_xToStr {value : Int} (h : 0 ≤ value) (hlt : value < 2 ^ 63) :
    (digitsValue 0 (xToStr value 10) : Int) = value :=
  digitsValue_toStrLoop h (by omega)

/-- A number that is not negative is printed with as many characters as it has
digits. -/
theorem length_toStrLoop_le_iff {n : Nat} {value : Int} (h : 0 ≤ value) (hlt : value < 10 ^ n)
    (k : Nat) : (toStrLoop n 10 value).length ≤ k + 1 ↔ value < 10 ^ (k + 1) := by
  induction n generalizing value k with
  | zero =>
      have hpos : (0 : Int) < 10 ^ (k + 1) := Int.pow_pos (by decide)
      simp only [toStrLoop, List.length_nil, Nat.zero_le, true_iff]
      omega
  | succ n ih =>
      have hdiv : value.tdiv 10 = value / 10 := Int.tdiv_eq_ediv_of_nonneg h
      rw [toStrLoop, hdiv]
      split
      · rename_i hne
        rw [Int.pow_succ] at hlt
        have hrest := ih (by omega : 0 ≤ value / 10) (by omega)
        rw [List.length_cons, Nat.add_le_add_iff_right]
        cases k with
        | zero =>
            -- A number of at least two digits has at least one in front of the last.
            have hone : (toStrLoop n 10 (value / 10)).length ≠ 0 := by
              cases n with
              | zero => simp at hlt; omega
              | succ n =>
                  rw [toStrLoop]
                  split
                  · simp
                  · split <;> simp
            omega
        | succ k =>
            rw [hrest k, Int.pow_succ 10 (k + 1)]
            omega
      · have hpos : (0 : Int) < 10 ^ k := Int.pow_pos (by decide)
        rw [if_neg (by omega), Int.pow_succ]
        simp only [List.length_singleton, Nat.le_add_left, true_iff]
        omega

theorem length_xToStr_le_iff {value : Int} (h : 0 ≤ value) (hlt : value < 2 ^ 64) (k : Nat) :
    (xToStr value 10).length ≤ k + 1 ↔ value < 10 ^ (k + 1) := by
  rw [xToStr, List.length_reverse]
  exact length_toStrLoop_le_iff h (by omega) k

/-- The sign is one character more. -/
theorem length_toStrLoop_neg {n : Nat} {value : Int} (h : 0 < value) (hlt : value < 10 ^ n) :
    (toStrLoop n 10 (-value)).length = (toStrLoop n 10 value).length + 1 := by
  induction n generalizing value with
  | zero => simp at hlt; omega
  | succ n ih =>
      have hdiv : value.tdiv 10 = value / 10 := Int.tdiv_eq_ediv_of_nonneg (by omega)
      have hneg : (-value).tdiv 10 = -(value / 10) := by rw [Int.neg_tdiv, hdiv]
      rw [toStrLoop, toStrLoop, hdiv, hneg]
      by_cases hone : value / 10 = 0
      · simp only [hone, Int.neg_zero, ne_eq, not_true_eq_false, if_false]
        rw [if_pos (by omega), if_neg (by omega)]
        rfl
      · rw [Int.pow_succ] at hlt
        rw [if_pos (by omega), if_pos hone, List.length_cons, List.length_cons,
          ih (by omega) (by omega)]

/-- A 64-bit number takes at most twenty characters. -/
theorem length_int64ToStr_le (n : Int) : (int64ToStr (int64 n) 10).length ≤ 20 := by
  have hlow : -2 ^ 63 ≤ int64 n := by unfold int64; omega
  have hhigh : int64 n < 2 ^ 63 := by unfold int64; omega
  rw [int64ToStr]
  by_cases h : 0 ≤ int64 n
  · exact (length_xToStr_le_iff h (by omega) 19).2 (by omega)
  · have hneg := @length_toStrLoop_neg 64 (-int64 n) (by omega) (by omega)
    have hdigits := (@length_toStrLoop_le_iff 64 (-int64 n) (by omega) (by omega) 18).2 (by omega)
    rw [Int.neg_neg] at hneg
    rw [xToStr, List.length_reverse]
    omega

example : int64ToStr (-1203) 10 = ascii "-1203" := by decide

end OpenTube
