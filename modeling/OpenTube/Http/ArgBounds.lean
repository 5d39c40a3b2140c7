import OpenTube.Http.Args

/-!
# The bounds of the argument parser

The second pass of `http_parse__` relies on the sizes of the first: it stops only
when it has read as many pairs as were counted, and it never looks at the end of
the buffer for the values. The two passes read a text in different ways. In the
first every separator ends a value; in the second a `%` takes the two characters
behind it, a separator among them. `plainSizes` and
`escapedSizes` are the sizes of a text in these two readings.

The second reading never has more pairs. If it has fewer, the second pass runs
past the `NUL` in search of the missing ones; if it has as many, its values may
still be longer than the buffer, because a key that was hidden by an escape has
become part of a value.
-/

namespace OpenTube

/-! ## The two readings of a text -/

/-- The pairs of a text and the characters of their values, from the given phase
on, when every separator ends a value. -/
def plainSizes (separator : UInt8) : ArgPhase → List UInt8 → ArgSizes
  | _, [] => ⟨0, 0⟩
  | .gap, c :: m =>
      if c = separator ∨ c = equals ∨ c = space then plainSizes separator .gap m
      else plainSizes separator .key m
  | .key, c :: m =>
      if c = equals then (plainSizes separator .value m).add 1 0
      else plainSizes separator .key m
  | .value, c :: m =>
      if c = separator then plainSizes separator .gap m
      else (plainSizes separator .value m).add 0 1

/-- The same when a `%` and the two characters behind it, whatever they are, make
one character of the value. -/
def escapedSizes (separator : UInt8) : ArgPhase → List UInt8 → ArgSizes
  | _, [] => ⟨0, 0⟩
  | .gap, c :: m =>
      if c = separator ∨ c = equals ∨ c = space then escapedSizes separator .gap m
      else escapedSizes separator .key m
  | .key, c :: m =>
      if c = equals then (escapedSizes separator .value m).add 1 0
      else escapedSizes separator .key m
  | .value, c :: m =>
      if c = separator then escapedSizes separator .gap m
      else if c = percent then
        match m with
        | [] => ⟨0, 1⟩
        | [x] => (escapedSizes separator .value [x]).add 0 1
        | _ :: _ :: m' => (escapedSizes separator .value m').add 0 1
      else (escapedSizes separator .value m).add 0 1

/-- The characters of a text are those the first pass accepts. -/
def validText (separator : UInt8) : ArgPhase → List UInt8 → Bool
  | _, [] => true
  | .gap, c :: m =>
      if c = separator ∨ c = equals ∨ c = space then validText separator .gap m
      else isValidUrlKeyCharacter c && validText separator .key m
  | .key, c :: m =>
      if c = equals then validText separator .value m
      else isValidUrlKeyCharacter c && validText separator .key m
  | .value, c :: m =>
      if c = separator then validText separator .gap m
      else isValidUrlValueCharacter c && validText separator .value m

theorem ArgSizes.add_values (a v : Nat) (n : ArgSizes) : (n.add a v).values = n.values + v := rfl

/-- The first pass gets to the `NUL` and returns the sizes of the first reading. -/
theorem countArgs_text {separator : UInt8} (hsep : separator ≠ nul) {s : List UInt8} (hs : nul ∉ s)
    (phase : ArgPhase) :
    countArgs separator phase (s ++ [nul]) =
      some (if validText separator phase s then some (plainSizes separator phase s)
        else none) := by
  induction s generalizing phase with
  | nil =>
      have hgap : ¬ (nul = separator ∨ nul = equals ∨ nul = space) := by
        rintro (h | h | h)
        · exact hsep h.symm
        all_goals exact absurd h (by decide)
      have hequals : nul ≠ equals := by decide
      cases phase
      · simp only [List.nil_append, countArgs, validText, plainSizes, if_neg hgap, if_true]
      · simp only [List.nil_append, countArgs, validText, plainSizes, if_neg hequals, if_true]
      · simp only [List.nil_append, countArgs, validText, plainSizes, if_neg hsep.symm, if_true]
  | cons c s ih =>
      have hc : c ≠ nul := fun h => hs (by simp [h])
      have hs : nul ∉ s := fun h => hs (by simp [h])
      cases phase with
      | gap =>
          simp only [List.cons_append, countArgs, validText, plainSizes, ih hs]
          by_cases hgap : c = separator ∨ c = equals ∨ c = space
          · simp only [if_pos hgap]
          · by_cases hvalid : isValidUrlKeyCharacter c = true <;> simp [hgap, hc, hvalid]
      | key =>
          simp only [List.cons_append, countArgs, validText, plainSizes, ih hs]
          by_cases heq : c = equals
          · by_cases hs : validText separator .value s = true <;> simp [heq, hs, ArgSizes.add]
          · by_cases hvalid : isValidUrlKeyCharacter c = true <;> simp [heq, hc, hvalid]
      | value =>
          simp only [List.cons_append, countArgs, validText, plainSizes, ih hs]
          by_cases heq : c = separator
          · simp only [if_pos heq]
          · by_cases hvalid : isValidUrlValueCharacter c = true <;>
              by_cases hs : validText separator .value s = true <;>
              simp [heq, hc, hvalid, hs, ArgSizes.add]

/-! ## The second pass follows the second reading -/

/-- Without a pair there is no value. -/
theorem escapedSizes_values_eq_zero {separator : UInt8} {phase : ArgPhase}
    (hphase : phase ≠ .value) {s : List UInt8}
    (h : (escapedSizes separator phase s).args = 0) :
    (escapedSizes separator phase s).values = 0 := by
  induction s generalizing phase with
  | nil => rfl
  | cons c s ih =>
      cases phase with
      | gap =>
          rw [escapedSizes] at h ⊢
          split at h
          · rw [if_pos ‹_›]
            exact ih (by simp) h
          · rw [if_neg ‹_›]
            exact ih (by simp) h
      | key =>
          rw [escapedSizes] at h ⊢
          split at h
          · simp [ArgSizes.add] at h
          · rw [if_neg ‹_›]
            exact ih (by simp) h
      | value => exact absurd rfl hphase

/-- The phase of a state. -/
def ArgState.phase : ArgState → ArgPhase
  | .gap => .gap
  | .key _ => .key
  | .value _ _ => .value

/-- The pairs a text has to have for the pass to finish. -/
def ArgState.missing : ArgState → Nat → Nat
  | .key _, n => n + 1
  | _, n => n

/-- The part of the values that was read before. -/
def ArgState.held : ArgState → Nat
  | .value _ v => v.length + 1
  | _ => 0

/-- A result is there if and only if `a` is enough, and its values take `k` bytes
if it is just enough. -/
structure ArgResult.Sized (r : ArgResult) (a n k : Nat) : Prop where
  short : a < n → r = none
  exact : a = n → ∃ e, r = some e ∧ valuesLength e.1 = k

theorem ArgResult.Sized.keep {r : ArgResult} {a n k : Nat} (h : r.Sized a n k) (c : UInt8) :
    (r.keep c).Sized a n k where
  short ha := by simp [ArgResult.keep, h.short ha]
  exact ha := by
    obtain ⟨e, he, hk⟩ := h.exact ha
    exact ⟨(e.1, c :: e.2), by simp [ArgResult.keep, he], hk⟩

theorem ArgResult.Sized.pair {r : ArgResult} {a n k : Nat} (h : r.Sized a n k)
    (key value : List UInt8) : (r.pair key value).Sized a n (k + value.length + 1) where
  short ha := by simp [ArgResult.pair, h.short ha]
  exact ha := by
    obtain ⟨e, he, hk⟩ := h.exact ha
    refine ⟨(⟨key, value⟩ :: e.1, e.2), by simp [ArgResult.pair, he], ?_⟩
    simp only [valuesLength, List.map_cons, List.sum_cons] at hk ⊢
    omega

/-- From every state on, the pass gets to the end of the text if it does not look
for more pairs than the second reading has. -/
def ReadsText (separator : UInt8) (s : List UInt8) : Prop :=
  ∀ (st : ArgState) (n : Nat),
    (readArgs separator st n (s ++ [nul])).Sized (escapedSizes separator st.phase s).args
      (st.missing n) ((escapedSizes separator st.phase s).values + st.missing n + st.held)

theorem readsText_nil {separator : UInt8} (hsep : separator ≠ nul) : ReadsText separator [] := by
  intro st n
  have hgap : ¬ (nul = separator ∨ nul = equals ∨ nul = space) := by
    rintro (h | h | h)
    · exact hsep h.symm
    all_goals exact absurd h (by decide)
  match st, n with
  | .gap, 0 => exact ⟨fun h => absurd h (by simp [ArgState.missing]), fun _ => ⟨_, rfl, rfl⟩⟩
  | .gap, n + 1 =>
      refine ⟨fun _ => ?_, fun h => absurd h (by simp [escapedSizes, ArgState.missing])⟩
      simp [readArgs, ArgResult.keep]
  | .key k, n =>
      refine ⟨fun _ => ?_, fun h => absurd h (by simp [escapedSizes, ArgState.missing])⟩
      rw [List.nil_append, readArgs, if_neg (by decide)]
      simp [readArgs, ArgResult.keep]
  | .value k v, 0 =>
      refine ⟨fun h => absurd h (by simp [ArgState.missing]), fun _ => ?_⟩
      rw [List.nil_append, readArgs_value (by decide), if_pos (.inr (by decide))]
      refine ⟨([⟨k, v⟩], [nul]), by simp [readArgs, ArgResult.pair, ArgResult.keep], ?_⟩
      simp [valuesLength, escapedSizes, ArgState.missing, ArgState.held]
  | .value k v, n + 1 =>
      refine ⟨fun _ => ?_, fun h => absurd h (by simp [escapedSizes, ArgState.missing])⟩
      rw [List.nil_append, readArgs_value (by decide), if_pos (.inr (by decide))]
      simp [readArgs, ArgResult.pair, ArgResult.keep]

theorem ReadsText.gap {separator : UInt8} {m : List UInt8} (h : ReadsText separator m) (c : UInt8)
    (n : Nat) :
    (readArgs separator .gap n (c :: m ++ [nul])).Sized
        (escapedSizes separator .gap (c :: m)).args n
      ((escapedSizes separator .gap (c :: m)).values + n) := by
  cases n with
  | zero =>
      refine ⟨fun h => absurd h (by simp), fun h => ⟨_, rfl, ?_⟩⟩
      have hzero : (escapedSizes separator .gap (c :: m)).values = 0 :=
        escapedSizes_values_eq_zero (by simp) h
      simp [hzero, valuesLength]
  | succ n =>
      rw [List.cons_append, readArgs, escapedSizes]
      split_ifs
      · exact (h .gap (n + 1)).keep c
      · exact (h (.key [c]) n).keep c

theorem ReadsText.key {separator : UInt8} {m : List UInt8} (h : ReadsText separator m) (c : UInt8)
    (k : List UInt8) (n : Nat) :
    (readArgs separator (.key k) n (c :: m ++ [nul])).Sized
      (escapedSizes separator .key (c :: m)).args (n + 1)
      ((escapedSizes separator .key (c :: m)).values + (n + 1)) := by
  rw [List.cons_append, readArgs, escapedSizes]
  split_ifs
  · have hvalue := (h (.value k []) n).keep nul
    refine ⟨fun ha => hvalue.short ?_, fun ha => ?_⟩
    · exact Nat.lt_of_succ_lt_succ ha
    · obtain ⟨e, he, hk⟩ := hvalue.exact (Nat.succ.inj ha)
      exact ⟨e, he, hk⟩
  · exact (h (.key (k ++ [c])) n).keep c

theorem ReadsText.value {separator c : UInt8} {m : List UInt8} (h : ReadsText separator m)
    (hc : c ≠ nul) (hm : nul ∉ m) (htail : ∀ x y m', m = x :: y :: m' → ReadsText separator m')
    (k v : List UInt8) (n : Nat) :
    (readArgs separator (.value k v) n (c :: m ++ [nul])).Sized
      (escapedSizes separator .value (c :: m)).args n
      ((escapedSizes separator .value (c :: m)).values + n + (v.length + 1)) := by
  -- a character of the value, whatever it stands for
  have hchar : ∀ {m : List UInt8} (d : UInt8), ReadsText separator m →
      (readArgs separator (.value k (v ++ [d])) n (m ++ [nul])).Sized
        ((escapedSizes separator .value m).add 0 1).args n
        (((escapedSizes separator .value m).add 0 1).values + n + (v.length + 1)) := by
    intro m d hm
    have hsize := hm (.value k (v ++ [d])) n
    simp only [ArgState.phase, ArgState.missing, ArgState.held, List.length_append,
      List.length_singleton] at hsize
    refine ⟨hsize.short, fun ha => ?_⟩
    obtain ⟨e, he, hk⟩ := hsize.exact ha
    refine ⟨e, he, ?_⟩
    rw [hk, ArgSizes.add_values]
    omega
  rw [List.cons_append, readArgs.eq_def, escapedSizes.eq_def]
  by_cases hsep : c = separator
  · simp only [if_pos hsep]
    exact ((h .gap n).pair k v).keep c
  simp only [if_neg hsep]
  by_cases hplus : c = plus
  · have hpercent : c ≠ percent := by
      rintro rfl
      exact absurd hplus (by decide)
    simp only [if_pos hplus, if_neg hpercent]
    exact (hchar space h).keep c
  simp only [if_neg hplus]
  by_cases hpercent : c = percent
  · simp only [if_pos hpercent]
    match m, h, hm, htail with
    | [], h, _, _ => exact (hchar c h).keep c
    | [x], h, _, _ =>
        simp only [List.cons_append, List.nil_append, or_true, if_true]
        exact (hchar c h).keep c
    | x :: y :: m', h, hm, htail =>
        have hnul : ¬ (x = nul ∨ y = nul) := by
          rintro (rfl | rfl) <;> simp at hm
        simp only [List.cons_append, if_neg hnul]
        exact (((hchar (httpHexToAscii x y) (htail x y m' rfl)).keep y).keep x).keep c
  · simp only [if_neg hpercent, if_neg hc]
    exact (hchar c h).keep c

theorem readsText {separator : UInt8} (hsep : separator ≠ nul) {s : List UInt8} (hs : nul ∉ s) :
    ReadsText separator s := by
  induction hlen : s.length using Nat.strongRecOn generalizing s with
  | _ len ih =>
      cases s with
      | nil => exact readsText_nil hsep
      | cons c m =>
          have hc : c ≠ nul := fun h => hs (by simp [h])
          have hm : nul ∉ m := fun h => hs (by simp [h])
          have hread : ReadsText separator m := ih m.length (by simp [← hlen]) hm rfl
          intro st n
          cases st with
          | gap => exact hread.gap c n
          | key k => exact hread.key c k n
          | value k v =>
              refine hread.value hc hm ?_ k v n
              rintro x y m' rfl
              refine ih m'.length ?_ (fun h => hm (by simp [h])) rfl
              rw [← hlen]
              simp only [List.length_cons]
              omega

/-! ## The second reading has no more pairs -/

/-- The phase after a character in the first reading. -/
def ArgPhase.next (separator : UInt8) : ArgPhase → UInt8 → ArgPhase
  | .gap, c => if c = separator ∨ c = equals ∨ c = space then .gap else .key
  | .key, c => if c = equals then .value else .key
  | .value, c => if c = separator then .gap else .value

theorem validText_next {separator c : UInt8} {phase : ArgPhase} {m : List UInt8}
    (h : validText separator phase (c :: m) = true) :
    validText separator (phase.next separator c) m = true := by
  cases phase <;> rw [validText] at h <;> rw [ArgPhase.next] <;> split_ifs at h ⊢ <;> simp_all

/-- A character more makes no pair less. -/
theorem plainSizes_next_le (separator c : UInt8) (phase : ArgPhase) (m : List UInt8) :
    (plainSizes separator (phase.next separator c) m).args ≤
      (plainSizes separator phase (c :: m)).args := by
  cases phase <;> rw [plainSizes, ArgPhase.next] <;> split_ifs <;> simp [ArgSizes.add]

/-- In a valid text a separator ends whatever it stands behind. -/
theorem next_separator {separator : UInt8} (hkey : isValidUrlKeyCharacter separator = false)
    (heq : separator ≠ equals) {phase : ArgPhase} {m : List UInt8}
    (h : validText separator phase (separator :: m) = true) :
    phase.next separator separator = .gap := by
  cases phase with
  | gap => simp [ArgPhase.next]
  | key => simp [validText, heq, hkey] at h
  | value => simp [ArgPhase.next]

theorem escapedSizes_args_le {separator : UInt8} (hkey : isValidUrlKeyCharacter separator = false)
    (heq : separator ≠ equals) {phase phase' : ArgPhase} {m : List UInt8}
    (hvalid : validText separator phase' m = true) (hphase : phase = .value ∨ phase = phase') :
    (escapedSizes separator phase m).args ≤ (plainSizes separator phase' m).args := by
  fun_induction escapedSizes separator phase m generalizing phase' with
  | case1 => exact Nat.zero_le _
  | case2 c m hgap ih =>
      obtain rfl : .gap = phase' := by simpa using hphase
      have hnext := ih (validText_next hvalid) (.inr (by rw [ArgPhase.next, if_pos hgap]))
      exact Nat.le_trans hnext (plainSizes_next_le separator c .gap m)
  | case3 c m hgap ih =>
      obtain rfl : .gap = phase' := by simpa using hphase
      have hnext := ih (validText_next hvalid) (.inr (by rw [ArgPhase.next, if_neg hgap]))
      exact Nat.le_trans hnext (plainSizes_next_le separator c .gap m)
  | case4 m ih =>
      obtain rfl : .key = phase' := by simpa using hphase
      rw [plainSizes, if_pos rfl]
      exact Nat.succ_le_succ (ih (validText_next hvalid) (.inl rfl))
  | case5 c m hne ih =>
      obtain rfl : .key = phase' := by simpa using hphase
      have hnext := ih (validText_next hvalid) (.inr (by rw [ArgPhase.next, if_neg hne]))
      exact Nat.le_trans hnext (plainSizes_next_le separator c .key m)
  | case6 m ih =>
      have hnext := ih (validText_next hvalid) (.inr (next_separator hkey heq hvalid).symm)
      exact Nat.le_trans hnext (plainSizes_next_le separator separator phase' m)
  | case7 => exact Nat.zero_le _
  | case8 x hsep ih =>
      have hnext := ih (validText_next hvalid) (.inl rfl)
      exact Nat.le_trans hnext (plainSizes_next_le separator percent phase' [x])
  | case9 x y m hsep ih =>
      have hnext := ih (validText_next (validText_next (validText_next hvalid))) (.inl rfl)
      calc (escapedSizes separator .value m).args ≤ _ := hnext
        _ ≤ _ := plainSizes_next_le separator y _ m
        _ ≤ _ := plainSizes_next_le separator x _ (y :: m)
        _ ≤ _ := plainSizes_next_le separator percent phase' (x :: y :: m)
  | case10 c m hsep hpercent ih =>
      have hnext := ih (validText_next hvalid) (.inl rfl)
      exact Nat.le_trans hnext (plainSizes_next_le separator c phase' m)

/-! ## The bounds -/

/-- Both passes stay within the text and its `NUL`, and the second stays within
the two buffers whose sizes the first computed. -/
def WithinBounds (separator : UInt8) (s : List UInt8) : Prop :=
  ∃ n, countArgs separator .gap (s ++ [nul]) = some n ∧
    ∀ sizes ∈ n, ∃ e, readArgs separator .gap sizes.args (s ++ [nul]) = some e ∧
      e.2.length = (s ++ [nul]).length ∧ e.1.length ≤ sizes.args ∧
      valuesLength e.1 ≤ sizes.values + sizes.args

/-- The parser stays within its bounds if and only if the text has a character
that is rejected, or reading escapes as one character loses no pair of the text
and makes the values no longer. -/
theorem withinBounds_iff {separator : UInt8} (hsep : separator = ampersand ∨ separator = semicolon)
    {s : List UInt8} (hs : nul ∉ s) :
    WithinBounds separator s ↔ (validText separator .gap s = true →
      (plainSizes separator .gap s).args ≤ (escapedSizes separator .gap s).args ∧
      (escapedSizes separator .gap s).values ≤ (plainSizes separator .gap s).values) := by
  have hnul : separator ≠ nul := by
    rintro rfl
    exact absurd hsep (by decide)
  have hkey : isValidUrlKeyCharacter separator = false := by
    obtain rfl | rfl := hsep <;> decide
  have heq : separator ≠ equals := by
    obtain rfl | rfl := hsep <;> decide
  have hread := readsText hnul hs .gap (plainSizes separator .gap s).args
  simp only [ArgState.phase, ArgState.missing, ArgState.held, Nat.add_zero] at hread
  rw [WithinBounds, countArgs_text hnul hs]
  cases hvalid : validText separator .gap s with
  | false => simp
  | true =>
      have hle := escapedSizes_args_le hkey heq hvalid (.inr rfl)
      simp only [if_true, Option.some.injEq, forall_const, exists_eq_left', Option.mem_def,
        forall_eq']
      constructor
      · rintro ⟨e, he, -, -, hvalues⟩
        have hge : (plainSizes separator .gap s).args ≤ (escapedSizes separator .gap s).args := by
          by_contra hlt
          rw [hread.short (Nat.lt_of_not_le hlt)] at he
          simp at he
        obtain ⟨e', he', hk⟩ := hread.exact (Nat.le_antisymm hle hge)
        obtain rfl := Option.some.inj (he.symm.trans he')
        exact ⟨hge, by omega⟩
      · rintro ⟨hge, hvalues⟩
        obtain ⟨e, he, hk⟩ := hread.exact (Nat.le_antisymm hle hge)
        obtain ⟨hlen, hkept⟩ := readArgs_edits separator .gap _ _ e he
        exact ⟨e, he, hkept.length_eq.symm, Nat.le_of_eq hlen, by omega⟩

theorem withinBounds_mixed : nul ∉ ascii "a=%41&b=%" ∧
    (WithinBounds ampersand (ascii "a=%41&b=%") ↔
      (validText ampersand .gap (ascii "a=%41&b=%") = true →
        (plainSizes ampersand .gap (ascii "a=%41&b=%")).args ≤
          (escapedSizes ampersand .gap (ascii "a=%41&b=%")).args ∧
        (escapedSizes ampersand .gap (ascii "a=%41&b=%")).values ≤
          (plainSizes ampersand .gap (ascii "a=%41&b=%")).values)) :=
  ⟨by decide +kernel, withinBounds_iff (.inl rfl) (by decide +kernel)⟩

/-- An escape that is cut short by a separator makes the second pass miss the pair
behind it and run past the `NUL` in search of it. -/
theorem not_withinBounds_cutEscape : nul ∉ ascii "a=%1&b=2" ∧
    readArgs ampersand .gap 2 (ascii "a=%1&b=2" ++ [nul]) = none ∧
    ¬ WithinBounds ampersand (ascii "a=%1&b=2") := by
  have hread : readArgs ampersand .gap 2 (ascii "a=%1&b=2" ++ [nul]) = none := by decide +kernel
  refine ⟨by decide +kernel, hread, ?_⟩
  rintro ⟨n, hn, hsizes⟩
  have hcount : countArgs ampersand .gap (ascii "a=%1&b=2" ++ [nul]) = some (some ⟨2, 3⟩) := by
    decide +kernel
  obtain rfl := Option.some.inj (hcount.symm.trans hn)
  obtain ⟨e, he, -⟩ := hsizes _ rfl
  rw [hread] at he
  simp at he

/-- A text whose second reading has as many pairs but longer values: five bytes are
written to a buffer of three. -/
example : countArgs ampersand .gap (ascii "a=%1&bcd" ++ [nul]) = some (some ⟨1, 2⟩) ∧
    ((readArgs ampersand .gap 1 (ascii "a=%1&bcd" ++ [nul])).map fun e => valuesLength e.1) =
      some 5 := by
  decide +kernel

end OpenTube
