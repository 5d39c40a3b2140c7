import OpenTube.Common.Types
import OpenTube.Http.Hex

/-!
# Pairs of keys and values

`http_parse__` reads the pairs of a query string, a cookie header or a form. It
walks over the text twice: the first pass checks the characters and counts, the
second cuts the keys off in place and decodes the values into a buffer of the
size the first pass arrived at. The text is given as the memory from its first
byte on, so that a pass which misses the terminating `NUL` reads what follows it;
`none` is a read past the memory or a value that does not fit.

The passes agree unless a `%` has a separator among the two characters behind it:
only the second pass skips them.
-/

namespace OpenTube

/-! ## The first pass -/

/-- Where the first pass is: between pairs, in a key or in a value. -/
inductive ArgPhase
  | gap
  | key
  | value
deriving DecidableEq, Repr

/-- The sizes the first pass computes. -/
structure ArgSizes where
  args : Nat
  values : Nat
deriving DecidableEq, Repr

/-- The sizes of a text with `args` pairs and `values` bytes of values in front. -/
def ArgSizes.add (args values : Nat) (n : ArgSizes) : ArgSizes :=
  ⟨n.args + args, n.values + values⟩

/-- The first pass, `some none` when it meets a character that is not allowed. -/
def countArgs (separator : UInt8) : ArgPhase → List UInt8 → Option (Option ArgSizes)
  | _, [] => none
  | .gap, c :: m =>
      if c = separator ∨ c = equals ∨ c = space then countArgs separator .gap m
      else if c = nul then some (some ⟨0, 0⟩)
      else if isValidUrlKeyCharacter c = false then some none
      else countArgs separator .key m
  | .key, c :: m =>
      if c = equals then
        (countArgs separator .value m).map fun n => n.map fun n => { n with args := n.args + 1 }
      else if c = nul then some (some ⟨0, 0⟩)
      else if isValidUrlKeyCharacter c = false then some none
      else countArgs separator .key m
  | .value, c :: m =>
      if c = separator then countArgs separator .gap m
      else if c = nul then some (some ⟨0, 0⟩)
      else if isValidUrlValueCharacter c = false then some none
      else (countArgs separator .value m).map fun n => n.map fun n =>
        { n with values := n.values + 1 }

/-! ## The second pass -/

/-- Where the second pass is, with the part of the pair it has read. -/
inductive ArgState
  | gap
  | key (key : List UInt8)
  | value (key value : List UInt8)
deriving DecidableEq, Repr

/-- The pairs that were read and the memory the pass leaves behind. -/
abbrev ArgResult := Option (List Arg × List UInt8)

/-- A byte of the memory in front of the rest. -/
def ArgResult.keep (c : UInt8) (e : ArgResult) : ArgResult := e.map fun e => (e.1, c :: e.2)

/-- A pair in front of the rest. -/
def ArgResult.pair (key value : List UInt8) (e : ArgResult) : ArgResult :=
  e.map fun e => (⟨key, value⟩ :: e.1, e.2)

/-- The second pass; the number counts the pairs that remain after the current
one. -/
def readArgs (separator : UInt8) : ArgState → Nat → List UInt8 → ArgResult
  | .gap, 0, m => some ([], m)
  | .gap, n + 1, c :: m =>
      if c = separator ∨ c = equals ∨ c = space then .keep c (readArgs separator .gap (n + 1) m)
      else .keep c (readArgs separator (.key [c]) n m)
  | .key k, n, c :: m =>
      if c = equals then .keep nul (readArgs separator (.value k []) n m)
      else .keep c (readArgs separator (.key (k ++ [c])) n m)
  | .value k v, n, c :: m =>
      if c = separator then .keep c (.pair k v (readArgs separator .gap n m))
      else if c = plus then .keep c (readArgs separator (.value k (v ++ [space])) n m)
      else if c = percent then
        match m with
        | [] => none
        | [x] => if x = nul then .keep c (readArgs separator (.value k (v ++ [c])) n [x]) else none
        | x :: y :: m' =>
            if x = nul ∨ y = nul then
              .keep c (readArgs separator (.value k (v ++ [c])) n (x :: y :: m'))
            else
              .keep c (.keep x (.keep y
                (readArgs separator (.value k (v ++ [httpHexToAscii x y])) n m')))
      else if c = nul then .keep c (.pair k v (readArgs separator .gap n m))
      else .keep c (readArgs separator (.value k (v ++ [c])) n m)
  | _, _, [] => none

/-- A byte of a value that is not the beginning of an escape. -/
theorem readArgs_value {separator c : UInt8} (hc : c ≠ percent) (k v : List UInt8) (n : Nat)
    (m : List UInt8) :
    readArgs separator (.value k v) n (c :: m) =
      if c = separator ∨ c = nul ∧ c ≠ plus then .keep c (.pair k v (readArgs separator .gap n m))
      else .keep c
        (readArgs separator (.value k (v ++ [if c = plus then space else c])) n m) := by
  rw [readArgs.eq_def]
  by_cases hsep : c = separator
  · simp [hsep]
  · by_cases hplus : c = plus
    · simp [hplus]
    · by_cases hnul : c = nul
      · subst hnul
        simp [hsep, hplus, hc]
      · simp [hsep, hplus, hc, hnul]

/-! ## What follows the text does not matter -/

theorem countArgs_append {separator : UInt8} (x : List UInt8) {phase : ArgPhase}
    {m : List UInt8} {n : Option ArgSizes} (h : countArgs separator phase m = some n) :
    countArgs separator phase (m ++ x) = some n := by
  induction m generalizing phase n with
  | nil => simp [countArgs] at h
  | cons c m ih =>
      have hmap : ∀ {phase : ArgPhase} (f : Option ArgSizes → Option ArgSizes),
          (countArgs separator phase m).map f = some n →
          (countArgs separator phase (m ++ x)).map f = some n := by
        intro phase f hf
        obtain ⟨k, hk, hn⟩ := Option.map_eq_some_iff.1 hf
        rw [ih hk, Option.map_some, hn]
      cases phase <;> simp only [countArgs, List.cons_append] at h ⊢ <;> split_ifs at h ⊢ <;>
        first | exact h | exact ih h | exact hmap _ h

/-- The result with more memory behind it. -/
def ArgResult.append (x : List UInt8) (e : List Arg × List UInt8) : List Arg × List UInt8 :=
  (e.1, e.2 ++ x)

theorem ArgResult.keep_append {c : UInt8} {x : List UInt8} {r r' : ArgResult}
    {e : List Arg × List UInt8} (h : r.keep c = some e)
    (hr : ∀ e, r = some e → r' = some (append x e)) : r'.keep c = some (append x e) := by
  obtain ⟨e', he', rfl⟩ := Option.map_eq_some_iff.1 h
  rw [keep, hr e' he', Option.map_some]
  rfl

theorem ArgResult.pair_append {k v x : List UInt8} {r r' : ArgResult}
    {e : List Arg × List UInt8} (h : r.pair k v = some e)
    (hr : ∀ e, r = some e → r' = some (append x e)) : r'.pair k v = some (append x e) := by
  obtain ⟨e', he', rfl⟩ := Option.map_eq_some_iff.1 h
  rw [pair, hr e' he', Option.map_some]
  rfl

theorem readArgs_append {separator : UInt8} (x : List UInt8) {st : ArgState} {n : Nat}
    {m : List UInt8} {e : List Arg × List UInt8} (h : readArgs separator st n m = some e) :
    readArgs separator st n (m ++ x) = some (ArgResult.append x e) := by
  fun_induction readArgs separator st n m generalizing e with
  | case1 m =>
      obtain rfl := Option.some.inj h
      cases m <;> simp [readArgs, ArgResult.append]
  | case2 n c m hgap ih =>
      rw [List.cons_append, readArgs, if_pos hgap]
      exact ArgResult.keep_append h fun _ => ih
  | case3 n c m hgap ih =>
      rw [List.cons_append, readArgs, if_neg hgap]
      exact ArgResult.keep_append h fun _ => ih
  | case4 k n m ih =>
      rw [List.cons_append, readArgs, if_pos rfl]
      exact ArgResult.keep_append h fun _ => ih
  | case5 k n c m hne ih =>
      rw [List.cons_append, readArgs, if_neg hne]
      exact ArgResult.keep_append h fun _ => ih
  | case6 k v n m ih =>
      rw [List.cons_append, readArgs.eq_def]
      simp only [if_true]
      exact ArgResult.keep_append h fun _ hp => ArgResult.pair_append hp fun _ => ih
  | case7 k v n m hsep ih =>
      rw [List.cons_append, readArgs_value (by decide)]
      simp only [hsep, false_or, ne_eq, not_true_eq_false, and_false, if_false, if_true]
      exact ArgResult.keep_append h fun _ => ih
  | case8 => simp at h
  | case9 k v n hsep hplus ih =>
      -- the byte behind the `NUL` is not looked at
      have hrest := ArgResult.keep_append h fun _ => ih
      cases x <;> simpa [readArgs, hsep, hplus] using hrest
  | case10 => simp at h
  | case11 k v n y z m hnul hsep hplus ih =>
      rw [List.cons_append, List.cons_append, List.cons_append, readArgs, if_neg hsep, if_neg hplus,
        if_pos rfl]
      simp only [hnul, if_true]
      exact ArgResult.keep_append h fun _ => ih
  | case12 k v n y z m hnul hsep hplus ih =>
      rw [List.cons_append, List.cons_append, List.cons_append, readArgs, if_neg hsep, if_neg hplus,
        if_pos rfl]
      simp only [hnul, if_false]
      exact ArgResult.keep_append h fun _ hy => ArgResult.keep_append hy fun _ hz =>
        ArgResult.keep_append hz fun _ => ih
  | case13 k v n m hsep hplus hpercent ih =>
      rw [List.cons_append, readArgs_value hpercent, if_pos (.inr ⟨rfl, hplus⟩)]
      exact ArgResult.keep_append h fun _ hp => ArgResult.pair_append hp fun _ => ih
  | case14 k v n c m hsep hplus hpercent hnul ih =>
      rw [List.cons_append, readArgs_value hpercent]
      simp only [hsep, hnul, hplus, false_and, or_false, if_false]
      exact ArgResult.keep_append h fun _ => ih
  | case15 => simp at h

/-- A result has `k` pairs, and its memory is an edit of `m`. -/
def ArgResult.Edits (r : ArgResult) (k : Nat) (m : List UInt8) : Prop :=
  ∀ e ∈ r, e.1.length = k ∧ KeptAll m e.2

theorem ArgResult.Edits.keep {r : ArgResult} {k : Nat} {m : List UInt8} (h : r.Edits k m)
    {c d : UInt8} (hc : Kept c d) : (r.keep d).Edits k (c :: m) := by
  intro e he
  obtain ⟨e', he', rfl⟩ := Option.map_eq_some_iff.1 he
  exact ⟨(h e' he').1, .cons hc (h e' he').2⟩

theorem ArgResult.Edits.pair {r : ArgResult} {k : Nat} {m : List UInt8} (h : r.Edits k m)
    (key value : List UInt8) : (r.pair key value).Edits (k + 1) m := by
  intro e he
  obtain ⟨e', he', rfl⟩ := Option.map_eq_some_iff.1 he
  simp [h e' he']

/-- The pairs that a pass in the given state still returns. -/
def ArgState.pairs : ArgState → Nat → Nat
  | .gap, n => n
  | _, n => n + 1

/-- The second pass returns as many pairs as it was asked for and edits the memory
in place. -/
theorem readArgs_edits (separator : UInt8) (st : ArgState) (n : Nat) (m : List UInt8) :
    (readArgs separator st n m).Edits (st.pairs n) m := by
  fun_induction readArgs separator st n m with
  | case1 m => simp [ArgResult.Edits, ArgState.pairs]
  | case2 n c m hgap ih => exact ih.keep (kept_self c)
  | case3 n c m hgap ih => exact ih.keep (kept_self c)
  | case4 k n m ih => exact ih.keep (kept_of_not_lower (by decide))
  | case5 k n c m hne ih => exact ih.keep (kept_self c)
  | case6 k v n m ih => exact (ih.pair k v).keep (kept_self separator)
  | case7 k v n m hsep ih => exact ih.keep (kept_self plus)
  | case8 => simp [ArgResult.Edits]
  | case9 k v n hsep hplus ih => exact ih.keep (kept_self percent)
  | case10 => simp [ArgResult.Edits]
  | case11 k v n x y m hnul hsep hplus ih => exact ih.keep (kept_self percent)
  | case12 k v n x y m hnul hsep hplus ih =>
      exact ((ih.keep (kept_self y)).keep (kept_self x)).keep (kept_self percent)
  | case13 k v n m hsep hplus hpercent ih => exact (ih.pair k v).keep (kept_self nul)
  | case14 k v n c m hsep hplus hpercent hnul ih => exact ih.keep (kept_self c)
  | case15 => simp [ArgResult.Edits]

/-- The bytes the values take, each with its `NUL`. -/
def valuesLength (args : List Arg) : Nat := (args.map fun a => a.value.length + 1).sum

/-- `http_parse__` on the memory `m` from the text on: the table `t` afterwards,
and the memory. -/
def httpParse (separator : UInt8) (t : Table Arg) (m : List UInt8) :
    Option (Table Arg × List UInt8) :=
  match countArgs separator .gap m with
  | none => none
  | some none => some ({ t with num := 0 }, m)
  | some (some n) =>
      (readArgs separator .gap n.args m).bind fun e =>
        if valuesLength e.1 ≤ n.values + n.args then
          some (⟨n.args, e.1 ++ t.entries.drop n.args⟩, e.2)
        else none

/-- What lies behind the memory that was read is left as it is. -/
theorem httpParse_append {separator : UInt8} {t : Table Arg} {m : List UInt8}
    {e : Table Arg × List UInt8} (h : httpParse separator t m = some e) (x : List UInt8) :
    httpParse separator t (m ++ x) = some (e.1, e.2 ++ x) := by
  unfold httpParse at h ⊢
  cases hcount : countArgs separator .gap m with
  | none => simp [hcount] at h
  | some n =>
      rw [countArgs_append x hcount]
      cases n with
      | none =>
          rw [hcount] at h
          obtain rfl := Option.some.inj h
          rfl
      | some n =>
          simp only [hcount] at h ⊢
          obtain ⟨r, hr, hif⟩ := Option.bind_eq_some_iff.1 h
          rw [readArgs_append x hr, Option.bind_some]
          split at hif
          · obtain rfl := Option.some.inj hif
            rw [if_pos ‹_›]
            rfl
          · simp at hif

/-- The table before the call has no influence on what is visible after it. -/
theorem httpParse_visible {separator : UInt8} {t : Table Arg} {m : List UInt8}
    {e : Table Arg × List UInt8} (h : httpParse separator t m = some e) (t' : Table Arg) :
    ∃ e', httpParse separator t' m = some e' ∧ e'.2 = e.2 ∧ e'.1.num = e.1.num ∧
      e'.1.visible = e.1.visible := by
  unfold httpParse at h ⊢
  split at h
  · simp at h
  · obtain rfl := Option.some.inj h
    exact ⟨_, rfl, rfl, rfl, by simp [Table.visible]⟩
  · rename_i n hn
    obtain ⟨r, hr, hif⟩ := Option.bind_eq_some_iff.1 h
    have hlen : r.1.length = n.args := (readArgs_edits separator .gap _ m r hr).1
    split at hif
    · obtain rfl := Option.some.inj hif
      refine ⟨(⟨n.args, r.1 ++ t'.entries.drop n.args⟩, r.2), ?_, rfl, rfl, ?_⟩
      · rw [hr, Option.bind_some, if_pos ‹_›]
      · simp [Table.visible, ← hlen]
    · simp at hif

/-- The memory is edited in place. -/
theorem httpParse_kept {separator : UInt8} {t : Table Arg} {m : List UInt8}
    {e : Table Arg × List UInt8} (h : httpParse separator t m = some e) : KeptAll m e.2 := by
  unfold httpParse at h
  split at h
  · simp at h
  · obtain rfl := Option.some.inj h
    exact keptAll_refl m
  · obtain ⟨r, hr, hif⟩ := Option.bind_eq_some_iff.1 h
    split at hif
    · obtain rfl := Option.some.inj hif
      exact (readArgs_edits separator .gap _ m r hr).2
    · simp at hif

example : httpParse ampersand ⟨0, []⟩ (ascii "a=1%32&b=+" ++ [nul]) =
    some (⟨2, [⟨ascii "a", ascii "12"⟩, ⟨ascii "b", ascii " "⟩]⟩,
      ascii "a" ++ nul :: (ascii "1%32&b" ++ nul :: (ascii "+" ++ [nul]))) := by decide +kernel

end OpenTube
