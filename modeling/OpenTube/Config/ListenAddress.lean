import OpenTube.Common.Numbers
import OpenTube.Lib.Scan

/-!
# The listen address

The branch of `process_directive_string` for `server.listen`. The value is a copy
in its own allocation, so the byte in front of it belongs to something else. The
loop that looks for the last colon ends one place in front of the value if there is
none, and the test behind the loop does not notice it.
-/

namespace OpenTube

/-- `is_num`. -/
def isNum (s : List UInt8) : Bool :=
  (if s.head? = some hyphen then s.tail else s).all isDigit

/-- How the branch ends: with one of the errors, or with the address and the port it
sets. -/
inductive ListenOutcome
  | addressEmpty
  | invalidPort (port : List UInt8)
  | invalidValue
  | accepted (addr : List UInt8) (port : Int)
deriving DecidableEq, Repr

/-- The loop over `port`, from the index in front of `n` downwards: the place behind
the colon, or the place in front of the value. -/
def portLoop (value : List UInt8) : Nat → Int
  | 0 => -1
  | n + 1 => if value[n]? = some colon then (n : Int) + 1 else portLoop value n

/-- The branch for `server.listen`: how it ends, and whether it reads the byte `before`
in front of the value. -/
def processListen (before : UInt8) (value : List UInt8) : ListenOutcome × Bool :=
  let port := portLoop value value.length
  let addr := if port < 0 then value else value.take (port - 1).toNat
  if port ≠ 0 then
    if addr = [] then (.addressEmpty, false)
    else
      let text :=
        if port < 0 then (before :: value).takeWhile (· ≠ nul) else value.drop port.toNat
      let httpPort := atoi text
      (if isNum text = false ∨ httpPort ≤ 0 ∨ 65535 < httpPort then .invalidPort text
        else .accepted addr httpPort, decide (port < 0))
  else (.invalidValue, false)

/-- An address, a colon and the decimal text of a port; the colon is the last one. -/
def ListenAddress (value addr : List UInt8) (port : Int) : Prop :=
  ∃ digits, value = addr ++ colon :: digits ∧ addr ≠ [] ∧ digits ≠ [] ∧
    (∀ c ∈ digits, isDigit c = true) ∧ port = digitsValue 0 digits ∧ 1 ≤ port ∧ port ≤ 65535

/-- Only the value is read, and exactly the listen addresses are accepted, with their
two parts. -/
def ListenParsed (before : UInt8) (value : List UInt8) : Prop :=
  (processListen before value).2 = false ∧
    ∀ addr port,
      (processListen before value).1 = .accepted addr port ↔ ListenAddress value addr port

/-- The number that `is_num` accepts. -/
def signedNumber (s : List UInt8) : Int :=
  if s.head? = some hyphen then -(digitsValue 0 s.tail : Int) else digitsValue 0 s

/-- The text behind the last colon is a number that is not a port, but that `atoi`
makes one. -/
def PortWraps (value : List UInt8) : Prop :=
  ∃ addr text, value = addr ++ colon :: text ∧ colon ∉ text ∧ addr ≠ [] ∧ isNum text = true ∧
    ¬ (1 ≤ signedNumber text ∧ signedNumber text ≤ 65535) ∧
    -2 ^ 63 ≤ signedNumber text ∧ signedNumber text < 2 ^ 63 ∧
    1 ≤ signedNumber text % 2 ^ 32 ∧ signedNumber text % 2 ^ 32 ≤ 65535

/-! ## Numbers -/

theorem intOfLong_port_iff (n : Int) :
    (1 ≤ intOfLong n ∧ intOfLong n ≤ 65535) ↔
      -2 ^ 63 ≤ n ∧ n < 2 ^ 63 ∧ 1 ≤ n % 2 ^ 32 ∧ n % 2 ^ 32 ≤ 65535 := by
  unfold intOfLong int32
  omega

theorem atoi_of_isNum {s : List UInt8} (h : isNum s = true) :
    atoi s = intOfLong (signedNumber s) := by
  by_cases hsign : s.head? = some hyphen
  · obtain ⟨m, rfl⟩ := List.head?_eq_some_iff.1 hsign
    have hspace : isSpace hyphen = false := by decide
    simp [atoi, signedNumber, hspace]
  · rw [isNum, if_neg hsign, List.all_eq_true] at h
    rw [atoi_digits h, signedNumber, if_neg hsign]

/-- A port is the value of digits. -/
theorem isNum_port_iff (s : List UInt8) :
    (isNum s = true ∧ 1 ≤ signedNumber s ∧ signedNumber s ≤ 65535) ↔
      s ≠ [] ∧ (∀ c ∈ s, isDigit c = true) ∧ 1 ≤ (digitsValue 0 s : Int) ∧
        (digitsValue 0 s : Int) ≤ 65535 := by
  by_cases hsign : s.head? = some hyphen
  · -- a number with a sign is not positive
    obtain ⟨m, rfl⟩ := List.head?_eq_some_iff.1 hsign
    constructor
    · rintro ⟨-, hpos, -⟩
      rw [signedNumber, if_pos hsign] at hpos
      omega
    · rintro ⟨-, hdigits, -⟩
      exact absurd (hdigits hyphen List.mem_cons_self) (by decide)
  · rw [isNum, if_neg hsign, List.all_eq_true, signedNumber, if_neg hsign]
    constructor
    · rintro ⟨hdigits, hpos, hle⟩
      refine ⟨?_, hdigits, hpos, hle⟩
      rintro rfl
      exact absurd hpos (by decide)
    · rintro ⟨-, hdigits, hpos, hle⟩
      exact ⟨hdigits, hpos, hle⟩

/-! ## The last colon -/

theorem portLoop_eq_neg {value : List UInt8} (h : colon ∉ value) (n : Nat) :
    portLoop value n = -1 := by
  induction n with
  | zero => rfl
  | succ n ih =>
      have hne : value[n]? ≠ some colon := fun heq => h (List.mem_of_getElem? heq)
      rw [portLoop, if_neg hne, ih]

theorem portLoop_append {addr text : List UInt8} (h : colon ∉ text) {n : Nat}
    (hn : n ≤ text.length) :
    portLoop (addr ++ colon :: text) (addr.length + 1 + n) = addr.length + 1 := by
  induction n with
  | zero => simp [portLoop]
  | succ n ih =>
      have hne : (addr ++ colon :: text)[addr.length + 1 + n]? ≠ some colon := by
        have hindex : (addr ++ colon :: text)[addr.length + 1 + n]? = text[n]? := by
          rw [List.getElem?_append_right (by omega)]
          have hi : addr.length + 1 + n - addr.length = n + 1 := by omega
          rw [hi, List.getElem?_cons_succ]
        rw [hindex]
        exact fun heq => h (List.mem_of_getElem? heq)
      rw [← Nat.add_assoc, portLoop, if_neg hne, ih (by omega)]

/-- A value with a colon is cut at the last one. -/
theorem exists_lastColon {value : List UInt8} (h : colon ∈ value) :
    ∃ addr text, value = addr ++ colon :: text ∧ colon ∉ text := by
  obtain ⟨a, b, hsplit, hb⟩ := List.eq_append_cons_of_mem (List.mem_reverse.2 h)
  have hvalue : value = b.reverse ++ colon :: a.reverse := by
    rw [← List.reverse_reverse value, hsplit]
    simp
  exact ⟨b.reverse, a.reverse, hvalue, by simpa using hb⟩

theorem lastColon_unique {a b t u : List UInt8} (ht : colon ∉ t) (hu : colon ∉ u)
    (h : a ++ colon :: t = b ++ colon :: u) : a = b ∧ t = u := by
  have hrev : t.reverse ++ colon :: a.reverse = u.reverse ++ colon :: b.reverse := by
    simpa using congrArg List.reverse h
  obtain ⟨htu, hab⟩ :=
    Scan.append_cons_inj (mt List.mem_reverse.1 ht) (mt List.mem_reverse.1 hu) hrev
  exact ⟨List.reverse_inj.1 hab, List.reverse_inj.1 htu⟩

theorem ListenAddress.colon_mem {value addr : List UInt8} {port : Int}
    (h : ListenAddress value addr port) : colon ∈ value := by
  obtain ⟨digits, rfl, -⟩ := h
  simp

/-- The parts of a listen address at its last colon. -/
theorem listenAddress_split_iff {addr text a : List UInt8} {port : Int} (htext : colon ∉ text) :
    ListenAddress (addr ++ colon :: text) a port ↔
      a = addr ∧ addr ≠ [] ∧ isNum text = true ∧ port = signedNumber text ∧ 1 ≤ port ∧
        port ≤ 65535 := by
  have hvalue : text.head? ≠ some hyphen → signedNumber text = digitsValue 0 text :=
    fun h => if_neg h
  constructor
  · rintro ⟨digits, hsplit, hne, hdigits, hall, rfl, hpos, hle⟩
    have hcolon : colon ∉ digits := fun h => absurd (hall colon h) (by decide)
    obtain ⟨rfl, rfl⟩ := lastColon_unique htext hcolon hsplit
    have hsign : text.head? ≠ some hyphen := fun h =>
      absurd (hall hyphen (List.mem_of_head? h)) (by decide)
    exact ⟨rfl, hne, ((isNum_port_iff text).2 ⟨hdigits, hall, hpos, hle⟩).1, (hvalue hsign).symm,
      hpos, hle⟩
  · rintro ⟨rfl, hne, hnum, rfl, hpos, hle⟩
    obtain ⟨hdigits, hall, -⟩ := (isNum_port_iff text).1 ⟨hnum, hpos, hle⟩
    have hsign : text.head? ≠ some hyphen := fun h =>
      absurd (hall hyphen (List.mem_of_head? h)) (by decide)
    exact ⟨text, rfl, hne, hdigits, hall, hvalue hsign, hpos, hle⟩

/-! ## The branch -/

/-- A value with a colon is cut at the last one, and nothing outside of it is read. -/
theorem processListen_split (before : UInt8) {addr text : List UInt8} (htext : colon ∉ text) :
    processListen before (addr ++ colon :: text) =
      (if addr = [] then .addressEmpty
        else if isNum text = false ∨ atoi text ≤ 0 ∨ 65535 < atoi text then .invalidPort text
        else .accepted addr (atoi text), false) := by
  have hlen : (addr ++ colon :: text).length = addr.length + 1 + text.length := by
    rw [List.length_append, List.length_cons]
    omega
  have hport : portLoop (addr ++ colon :: text) (addr.length + 1 + text.length) =
      addr.length + 1 := portLoop_append htext (Nat.le_refl text.length)
  have hneg : ¬ (addr.length : Int) + 1 < 0 := by omega
  have hzero : (addr.length : Int) + 1 ≠ 0 := by omega
  have hat : ((addr.length : Int) + 1 - 1).toNat = addr.length := by omega
  have hbehind : ((addr.length : Int) + 1).toNat = addr.length + 1 := by omega
  have hdrop : (addr ++ colon :: text).drop (addr.length + 1) = text := by
    rw [← List.drop_drop, List.drop_left, List.drop_one, List.tail_cons]
  rw [processListen, hlen, hport]
  simp only [hneg, hzero, hat, hbehind, hdrop, if_false, ne_eq, not_false_eq_true, if_true,
    List.take_left, decide_false]
  by_cases haddr : addr = []
  · rw [if_pos haddr, if_pos haddr]
  · rw [if_neg haddr, if_neg haddr]

/-- A value without a colon is refused if it is empty, and else the byte in front of it
is read. -/
theorem processListen_noColon (before : UInt8) {value : List UInt8} (h : colon ∉ value) :
    (value = [] ∧ processListen before value = (.addressEmpty, false)) ∨
      value ≠ [] ∧ (processListen before value).2 = true := by
  have hport := portLoop_eq_neg h value.length
  by_cases hempty : value = []
  · subst hempty
    exact .inl ⟨rfl, rfl⟩
  · right
    rw [processListen, hport]
    exact ⟨hempty, by simp [hempty]⟩

/-- The test of the port is right unless `atoi` makes the number another one. -/
theorem accepted_iff_listenAddress (addr text : List UInt8) :
    (∀ a p, (if addr = [] then ListenOutcome.addressEmpty
        else if isNum text = false ∨ atoi text ≤ 0 ∨ 65535 < atoi text then .invalidPort text
        else .accepted addr (atoi text)) = .accepted a p ↔
      a = addr ∧ addr ≠ [] ∧ isNum text = true ∧ p = signedNumber text ∧ 1 ≤ p ∧ p ≤ 65535) ↔
    ¬ (addr ≠ [] ∧ isNum text = true ∧ ¬ (1 ≤ signedNumber text ∧ signedNumber text ≤ 65535) ∧
      1 ≤ atoi text ∧ atoi text ≤ 65535) := by
  by_cases haddr : addr = []
  · simp [haddr]
  by_cases hnum : isNum text = true
  · have hread := atoi_of_isNum hnum
    by_cases hport : 1 ≤ signedNumber text ∧ signedNumber text ≤ 65535
    · -- a port is read as it is
      have hsame : atoi text = signedNumber text := by
        rw [hread]
        unfold intOfLong int32
        omega
      have htest : ¬ (isNum text = false ∨ atoi text ≤ 0 ∨ 65535 < atoi text) := by
        rintro (hnot | hrange)
        · exact absurd (hnum.symm.trans hnot) (by decide)
        · omega
      rw [if_neg haddr, if_neg htest, hsame]
      refine iff_of_true (fun a p => ?_) (fun h => h.2.2.1 hport)
      rw [ListenOutcome.accepted.injEq]
      constructor
      · rintro ⟨rfl, rfl⟩
        exact ⟨rfl, haddr, hnum, rfl, hport⟩
      · rintro ⟨rfl, -, -, rfl, -⟩
        exact ⟨rfl, rfl⟩
    · by_cases htest : 1 ≤ atoi text ∧ atoi text ≤ 65535
      · have hpass : ¬ (isNum text = false ∨ atoi text ≤ 0 ∨ 65535 < atoi text) := by
          rintro (hnot | hrange)
          · exact absurd (hnum.symm.trans hnot) (by decide)
          · omega
        rw [if_neg haddr, if_neg hpass]
        apply iff_of_false
        · intro hall
          obtain ⟨-, -, -, hvalue, hrange⟩ := (hall addr (atoi text)).1 rfl
          exact hport (hvalue ▸ hrange)
        · exact fun h => h ⟨haddr, hnum, hport, htest⟩
      · have hfail : isNum text = false ∨ atoi text ≤ 0 ∨ 65535 < atoi text := by omega
        rw [if_neg haddr, if_pos hfail]
        refine iff_of_true (fun a p => ?_) (fun h => htest h.2.2.2)
        apply iff_of_false (by simp)
        rintro ⟨-, -, -, rfl, hrange⟩
        exact hport hrange
  · simp [haddr, hnum]

/-- The listen address is parsed as it should be exactly if the value is empty or has a
colon, and the text behind the last colon is not a number beyond the ports that `atoi`
makes a port. -/
theorem listenParsed_iff (before : UInt8) (value : List UInt8) :
    ListenParsed before value ↔ (value = [] ∨ colon ∈ value) ∧ ¬ PortWraps value := by
  by_cases hcolon : colon ∈ value
  · obtain ⟨addr, text, rfl, htext⟩ := exists_lastColon hcolon
    have hwraps : PortWraps (addr ++ colon :: text) ↔
        addr ≠ [] ∧ isNum text = true ∧
          ¬ (1 ≤ signedNumber text ∧ signedNumber text ≤ 65535) ∧
          1 ≤ atoi text ∧ atoi text ≤ 65535 := by
      constructor
      · rintro ⟨a, t, hsplit, ht, hne, hnum, hout, hlong⟩
        obtain ⟨rfl, rfl⟩ := lastColon_unique htext ht hsplit
        rw [atoi_of_isNum hnum]
        exact ⟨hne, hnum, hout, (intOfLong_port_iff _).2 hlong⟩
      · rintro ⟨hne, hnum, hout, hport⟩
        rw [atoi_of_isNum hnum] at hport
        exact ⟨addr, text, rfl, htext, hne, hnum, hout, (intOfLong_port_iff _).1 hport⟩
    rw [ListenParsed, processListen_split before htext, hwraps, and_iff_right rfl,
      and_iff_right (.inr hcolon)]
    simp only [listenAddress_split_iff htext]
    exact accepted_iff_listenAddress addr text
  · have hnot : ∀ a p, ¬ ListenAddress value a p := fun a p h => hcolon h.colon_mem
    have hwraps : ¬ PortWraps value := by
      rintro ⟨a, t, rfl, -⟩
      exact hcolon (by simp)
    rcases processListen_noColon before hcolon with ⟨rfl, hrun⟩ | ⟨hne, hread⟩
    · rw [ListenParsed, hrun]
      simp [hnot, hwraps]
    · rw [ListenParsed, hread]
      simp [hne, hcolon]

/-- A value without a colon: the byte in front of it is read. -/
theorem not_listenParsed_noColon : ¬ ListenParsed nul (ascii "localhost") := by
  intro h
  exact absurd h.1 (by decide +kernel)

example : (processListen nul (ascii "a:4294967376")).1 = .accepted (ascii "a") 80 := by
  decide +kernel

end OpenTube
