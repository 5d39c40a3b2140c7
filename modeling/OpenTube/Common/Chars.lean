import Mathlib.Algebra.Group.Int.Defs
import Mathlib.Algebra.GroupWithZero.Nat
import Mathlib.Data.List.Forall2

/-!
# Bytes and character classes

The program works on `uchar` throughout, so a byte is a `UInt8` and a text is a
`List UInt8`. The named bytes are the character literals the source compares
with; the predicates are the macros of `common_functions.h` under their own
names.
-/

namespace OpenTube

abbrev nul : UInt8 := 0
abbrev tab : UInt8 := 9
abbrev lf : UInt8 := 10
abbrev cr : UInt8 := 13
abbrev space : UInt8 := 32
abbrev quote : UInt8 := 34
abbrev hash : UInt8 := 35
abbrev dollar : UInt8 := 36
abbrev percent : UInt8 := 37
abbrev ampersand : UInt8 := 38
abbrev star : UInt8 := 42
abbrev plus : UInt8 := 43
abbrev comma : UInt8 := 44
abbrev hyphen : UInt8 := 45
abbrev dot : UInt8 := 46
abbrev slash : UInt8 := 47
abbrev colon : UInt8 := 58
abbrev semicolon : UInt8 := 59
abbrev equals : UInt8 := 61
abbrev question : UInt8 := 63
abbrev atSign : UInt8 := 64
abbrev underscore : UInt8 := 95
abbrev leftBrace : UInt8 := 123
abbrev rightBrace : UInt8 := 125
abbrev tilde : UInt8 := 126

/-- The bytes of a string literal of the source. -/
def ascii (s : String) : List UInt8 :=
  s.toList.map fun c => c.toNat.toUInt8

/-- Texts are compared byte by byte. -/
instance text_lawfulBEq : LawfulBEq (List UInt8) := inferInstance

/-- `IS_SYM`: printable ASCII. -/
def isSym (c : UInt8) : Bool :=
  space ≤ c && c ≤ tilde

/-- `IS_SPACE`. -/
def isSpaceChar (c : UInt8) : Bool :=
  c = space || c = tab || c = lf

/-- `TO_LOWER`. -/
def toLower (c : UInt8) : UInt8 :=
  if 65 ≤ c && c ≤ 90 then c + 32 else c

/-- `IS_DIGIT`. -/
def isDigit (c : UInt8) : Bool :=
  48 ≤ c && c ≤ 57

/-- The value of a hexadecimal digit of either case. -/
def hexValue (c : UInt8) : Option Nat :=
  if isDigit c then some (c.toNat - 48)
  else if 65 ≤ c ∧ c ≤ 70 then some (c.toNat - 55)
  else if 97 ≤ c ∧ c ≤ 102 then some (c.toNat - 87)
  else none

/-- The letters and digits the three URL macros have in common. -/
def isAlnum (c : UInt8) : Bool :=
  (97 ≤ c && c ≤ 122) || (65 ≤ c && c ≤ 90) || isDigit c

/-- `IS_VALID_PATH_CHARACTER`. -/
def isValidPathCharacter (c : UInt8) : Bool :=
  isAlnum c || c = slash || c = hyphen || c = underscore || c = dot ||
    c = comma || c = colon || c = tilde

/-- `IS_VALID_URL_KEY_CHARACTER`. -/
def isValidUrlKeyCharacter (c : UInt8) : Bool :=
  isAlnum c || c = hyphen || c = underscore

/-- `IS_VALID_URL_VALUE_CHARACTER`. -/
def isValidUrlValueCharacter (c : UInt8) : Bool :=
  isValidUrlKeyCharacter c || c = plus || c = percent

/-- `p` holds of the bytes whose numbers are `n` followed by `k` more bits. -/
def allBytes (p : UInt8 → Bool) : (k n : Nat) → Bool
  | 0, n => p (UInt8.ofNat n)
  | k + 1, n => allBytes p k (2 * n) && allBytes p k (2 * n + 1)

theorem allBytes_apply {p : UInt8 → Bool} (n : Nat) :
    ∀ {k : Nat}, allBytes p k (n / 2 ^ k) = true → p (UInt8.ofNat n) = true
  | 0, h => by simpa [allBytes] using h
  | k + 1, h => by
      rw [allBytes, Bool.and_eq_true, Nat.pow_succ, ← Nat.div_div_eq_div_mul] at h
      refine allBytes_apply n (k := k) ?_
      obtain hbit | hbit : n / 2 ^ k = 2 * (n / 2 ^ k / 2) ∨
          n / 2 ^ k = 2 * (n / 2 ^ k / 2) + 1 := by omega
      · rw [hbit]
        exact h.1
      · rw [hbit]
        exact h.2

/-- A statement on bytes that holds of all eight bits. -/
theorem forall_byte {P : UInt8 → Prop} [DecidablePred P]
    (h : allBytes (fun c => decide (P c)) 8 0 = true) (c : UInt8) : P c := by
  have hzero : c.toNat / 2 ^ 8 = 0 := Nat.div_eq_of_lt c.toNat_lt
  have hc := allBytes_apply c.toNat (k := 8) (by rw [hzero]; exact h)
  simpa using hc

theorem toLower_eq_nul {c : UInt8} (h : toLower c = nul) : c = nul :=
  forall_byte (P := fun c => toLower c = nul → c = nul) (by decide) c h

/-! ## Edits in place -/

/-- The letters `TO_LOWER` leaves alone. -/
def isLower (c : UInt8) : Bool :=
  97 ≤ c && c ≤ 122

/-- A byte is replaced by `d`, but not if it is a lower-case letter. -/
def Kept (c d : UInt8) : Prop :=
  isLower c = true → d = c

/-- A text is edited in place, and its lower-case letters stay. -/
abbrev KeptAll : List UInt8 → List UInt8 → Prop :=
  List.Forall₂ Kept

@[simp] theorem kept_self (c : UInt8) : Kept c c :=
  fun _ => rfl

theorem kept_of_not_lower {c d : UInt8} (h : isLower c = false) : Kept c d := by
  intro hc
  simp [h] at hc

theorem kept_toLower (c : UInt8) : Kept c (toLower c) := by
  intro hc
  have hlow : 97 ≤ c := by
    simp only [isLower, Bool.and_eq_true, decide_eq_true_eq] at hc
    exact hc.1
  have hnot : ¬ c ≤ 90 := fun hle => absurd (UInt8.le_trans hlow hle) (by decide)
  simp [toLower, hnot]

@[simp] theorem keptAll_refl (l : List UInt8) : KeptAll l l :=
  List.forall₂_same.2 fun c _ => kept_self c

theorem keptAll_trans : ∀ {l₁ l₂ l₃ : List UInt8}, KeptAll l₁ l₂ → KeptAll l₂ l₃ → KeptAll l₁ l₃
  | _, _, _, .nil, .nil => .nil
  | _, _, _, .cons hc h, .cons hd h' => .cons (fun hlow => by
      obtain rfl := hc hlow
      exact hd hlow) (keptAll_trans h h')

/-- A text of lower-case letters stays. -/
theorem eq_of_keptAll : ∀ {l₁ l₂ : List UInt8}, KeptAll l₁ l₂ →
    (∀ c ∈ l₁, isLower c = true) → l₂ = l₁
  | _, _, .nil, _ => rfl
  | _, _, .cons hc h, hlow => by
      rw [hc (hlow _ (by simp)), eq_of_keptAll h fun c hc => hlow c (by simp [hc])]

end OpenTube
