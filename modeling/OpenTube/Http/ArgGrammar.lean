import OpenTube.Http.UrlEncoding
import OpenTube.Http.ArgBounds
import OpenTube.Lib.Scan

/-!
# The grammar of pairs

What a text of keys and values means, without the two passes: between the pairs
there may be any number of separators, equals signs and spaces, a key goes up to
the next equals sign, and its value up to the next separator. A key at the end that
has no equals sign behind it is no pair. `argText` cuts a text into these pieces,
and `Pieces` says what they are.

`http_parse__` returns exactly these pairs, with the values decoded, as long as
every `%` of a value has two characters of the value behind it.
-/

namespace OpenTube

open Scan

/-- A character that is skipped between two pairs. -/
def isGap (separator c : UInt8) : Bool := c = separator || c = equals || c = space

/-- The pairs of a text, and the key at its end that has no value. -/
structure ArgPieces where
  pairs : List Arg
  tail : List UInt8
deriving DecidableEq, Repr

/-- The pieces of a text. The number bounds the number of pairs. -/
def argPieces (separator : UInt8) : Nat → List UInt8 → ArgPieces
  | 0, s => ⟨[], s⟩
  | n + 1, s =>
      let s := s.dropWhile (isGap separator)
      let key := s.takeWhile (· ≠ equals)
      match s.dropWhile (· ≠ equals) with
      | [] => ⟨[], key⟩
      | _ :: s =>
          let p := argPieces separator n (s.dropWhile (· ≠ separator))
          ⟨⟨key, s.takeWhile (· ≠ separator)⟩ :: p.pairs, p.tail⟩

/-- The pieces of a text, as they are written. -/
def argText (separator : UInt8) (s : List UInt8) : ArgPieces :=
  argPieces separator (s.length + 1) s

/-- The characters of the pieces are allowed. -/
def ArgPieces.valid (p : ArgPieces) : Bool :=
  (p.pairs.all fun a => a.key.all isValidUrlKeyCharacter && a.value.all isValidUrlValueCharacter) &&
    p.tail.all isValidUrlKeyCharacter

/-- A value that is decoded: a plus sign stands for a space, and a `%` with two
characters behind it for the character of that code. -/
def decodeValue : List UInt8 → List UInt8
  | [] => []
  | c :: m =>
      if c = plus then space :: decodeValue m
      else if c = percent then
        match m with
        | x :: y :: m => httpHexToAscii x y :: decodeValue m
        | m => c :: m
      else c :: decodeValue m

/-- The pair with its value decoded. -/
def Arg.decode (a : Arg) : Arg := { a with value := decodeValue a.value }

/-- Every `%` of a value has two characters of the value behind it. -/
def EscapesEnd (value : List UInt8) : Prop :=
  ∀ i < value.length, value[i]? = some percent → i + 2 < value.length

instance (value : List UInt8) : Decidable (EscapesEnd value) :=
  inferInstanceAs (Decidable (∀ i < value.length, value[i]? = some percent → i + 2 < value.length))

/-! ## The pieces -/

/-- How a text is made of its pieces. -/
inductive Pieces (separator : UInt8) : List UInt8 → ArgPieces → Prop
  | tail {gap key : List UInt8} (hgap : ∀ c ∈ gap, isGap separator c = true)
      (hhead : ∀ c ∈ key.head?, isGap separator c = false) (hkey : equals ∉ key) :
      Pieces separator (gap ++ key) ⟨[], key⟩
  | pair {gap key value s : List UInt8} {p : ArgPieces}
      (hgap : ∀ c ∈ gap, isGap separator c = true) (hne : key ≠ [])
      (hhead : ∀ c ∈ key.head?, isGap separator c = false) (hkey : equals ∉ key)
      (hvalue : separator ∉ value) (hend : ∀ c ∈ s.head?, c = separator)
      (hs : Pieces separator s p) :
      Pieces separator (gap ++ (key ++ equals :: (value ++ s))) ⟨⟨key, value⟩ :: p.pairs, p.tail⟩

theorem argPieces_pieces {separator : UInt8} {n : Nat} {s : List UInt8} (hn : s.length < n) :
    Pieces separator s (argPieces separator n s) := by
  induction n generalizing s with
  | zero => omega
  | succ n ih =>
      obtain ⟨gap, t, rfl, -, hdrop, hgap, hhead⟩ := exists_span (isGap separator) s
      rw [argPieces, hdrop]
      obtain ⟨key, r, rfl, hkey, hrest, hkeys, hequals⟩ :=
        exists_span (fun c => decide (c ≠ equals)) t
      have hkey' : equals ∉ key := fun hmem => by simpa using hkeys equals hmem
      simp only [hkey, hrest]
      cases r with
      | nil =>
          rw [List.append_nil] at hhead ⊢
          exact .tail hgap hhead hkey'
      | cons c r =>
          obtain rfl : c = equals := by simpa using hequals c rfl
          obtain ⟨value, u, rfl, hvalue, hnext, hvalues, hend⟩ :=
            exists_span (fun c => decide (c ≠ separator)) r
          have hne : key ≠ [] := by
            rintro rfl
            simpa [isGap] using hhead equals rfl
          have hhead' : ∀ c ∈ key.head?, isGap separator c = false := by
            obtain ⟨k, key, rfl⟩ := List.exists_cons_of_ne_nil hne
            exact hhead
          simp only [hvalue, hnext]
          refine .pair hgap hne hhead' hkey' (fun hmem => by simpa using hvalues separator hmem)
            (fun c hc => by simpa using hend c hc) (ih ?_)
          simp only [List.length_append, List.length_cons] at hn
          omega

/-! ## The first pass

What the first pass checks and counts on each piece of a text. -/

theorem text_gaps {separator : UInt8} {gap : List UInt8}
    (h : ∀ c ∈ gap, isGap separator c = true) (s : List UInt8) :
    validText separator .gap (gap ++ s) = validText separator .gap s ∧
      plainSizes separator .gap (gap ++ s) = plainSizes separator .gap s := by
  induction gap with
  | nil => exact ⟨rfl, rfl⟩
  | cons c gap ih =>
      obtain ⟨hc, hgap⟩ := List.forall_mem_cons.1 h
      have hskip : c = separator ∨ c = equals ∨ c = space := by simpa [isGap, or_assoc] using hc
      rw [List.cons_append, validText, plainSizes, if_pos hskip, if_pos hskip]
      exact ih hgap

theorem text_key {key : List UInt8} (h : equals ∉ key) (separator : UInt8) (s : List UInt8) :
    validText separator .key (key ++ s) =
        (key.all isValidUrlKeyCharacter && validText separator .key s) ∧
      plainSizes separator .key (key ++ s) = plainSizes separator .key s := by
  induction key with
  | nil => exact ⟨rfl, rfl⟩
  | cons c key ih =>
      obtain ⟨hc, hkey⟩ : equals ≠ c ∧ equals ∉ key := by simpa using h
      obtain ⟨hvalid, hsizes⟩ := ih hkey
      rw [List.cons_append, validText, plainSizes, if_neg hc.symm, if_neg hc.symm, hvalid,
        List.all_cons, Bool.and_assoc]
      exact ⟨rfl, hsizes⟩

theorem text_value {separator : UInt8} {value : List UInt8} (h : separator ∉ value)
    (s : List UInt8) :
    validText separator .value (value ++ s) =
        (value.all isValidUrlValueCharacter && validText separator .value s) ∧
      plainSizes separator .value (value ++ s) =
        (plainSizes separator .value s).add 0 value.length := by
  induction value with
  | nil => exact ⟨rfl, rfl⟩
  | cons c value ih =>
      obtain ⟨hc, hvalue⟩ : separator ≠ c ∧ separator ∉ value := by simpa using h
      obtain ⟨hvalid, hsizes⟩ := ih hvalue
      rw [List.cons_append, validText, plainSizes, if_neg hc.symm, if_neg hc.symm, hvalid, hsizes,
        List.all_cons, Bool.and_assoc]
      exact ⟨rfl, rfl⟩

/-- A key begins with a character that is not skipped. -/
theorem text_head {separator c : UInt8} (h : isGap separator c = false) (s : List UInt8) :
    validText separator .gap (c :: s) = validText separator .key (c :: s) ∧
      plainSizes separator .gap (c :: s) = plainSizes separator .key (c :: s) := by
  have hgap : ¬ (c = separator ∨ c = equals ∨ c = space) := by
    simpa [isGap, not_or, and_assoc] using h
  have hequals : c ≠ equals := fun hc => hgap (.inr (.inl hc))
  simp only [validText, plainSizes, if_neg hgap, if_neg hequals, and_self]

/-- Behind a value a new pair may begin. -/
theorem text_end {separator : UInt8} {s : List UInt8} (h : ∀ c ∈ s.head?, c = separator) :
    validText separator .value s = validText separator .gap s ∧
      plainSizes separator .value s = plainSizes separator .gap s := by
  cases s with
  | nil => exact ⟨rfl, rfl⟩
  | cons c s =>
      obtain rfl := h c rfl
      simp [validText, plainSizes]

/-- The first pass checks the pieces of the text and counts its pairs and the
characters of their values. -/
theorem Pieces.first_pass {separator : UInt8} {s : List UInt8} {p : ArgPieces}
    (h : Pieces separator s p) :
    validText separator .gap s = p.valid ∧
      plainSizes separator .gap s =
        ⟨p.pairs.length, (p.pairs.map fun a => a.value.length).sum⟩ := by
  induction h with
  | @tail gap key hgap hhead hkey =>
      obtain ⟨hvalid, hsizes⟩ := text_key hkey separator []
      rw [List.append_nil] at hvalid hsizes
      rw [(text_gaps hgap _).1, (text_gaps hgap _).2]
      cases key with
      | nil => exact ⟨rfl, rfl⟩
      | cons c key =>
          rw [(text_head (hhead c rfl) _).1, (text_head (hhead c rfl) _).2, hvalid, hsizes]
          simp [validText, plainSizes, ArgPieces.valid]
  | @pair gap key value s p hgap hne hhead hkey hvalue hend hs ih =>
      obtain ⟨c, key, rfl⟩ := List.exists_cons_of_ne_nil hne
      obtain ⟨hvalid, hsizes⟩ := text_key hkey separator (equals :: (value ++ s))
      rw [(text_gaps hgap _).1, (text_gaps hgap _).2, List.cons_append,
        (text_head (hhead c rfl) _).1, (text_head (hhead c rfl) _).2, ← List.cons_append, hvalid,
        hsizes, validText, plainSizes, if_pos rfl, if_pos rfl, (text_value hvalue s).1,
        (text_value hvalue s).2, (text_end hend).1, (text_end hend).2, ih.1, ih.2]
      refine ⟨by simp [ArgPieces.valid, Bool.and_assoc], ?_⟩
      simp [ArgSizes.add, Nat.add_comm]

/-! ## The second pass -/

/-- The pass returns the given pairs. -/
def ArgResult.Gives (r : ArgResult) (args : List Arg) : Prop := ∃ m, r = some (args, m)

theorem ArgResult.Gives.keep {r : ArgResult} {args : List Arg} (h : r.Gives args) (c : UInt8) :
    (r.keep c).Gives args := by
  obtain ⟨m, rfl⟩ := h
  exact ⟨c :: m, rfl⟩

theorem ArgResult.Gives.keepAll {r : ArgResult} {args : List Arg} (h : r.Gives args)
    (s : List UInt8) : (r.keepAll s).Gives args := by
  obtain ⟨m, rfl⟩ := h
  exact ⟨s ++ m, rfl⟩

theorem ArgResult.Gives.pair {r : ArgResult} {args : List Arg} (h : r.Gives args)
    (key value : List UInt8) : (r.pair key value).Gives (⟨key, value⟩ :: args) := by
  obtain ⟨m, rfl⟩ := h
  exact ⟨m, rfl⟩

theorem escapesEnd_tail {c : UInt8} {value : List UInt8} (h : EscapesEnd (c :: value)) :
    EscapesEnd value := by
  intro i hi hpercent
  have hlen := h (i + 1) (by simpa using hi) (by simpa using hpercent)
  rw [List.length_cons] at hlen
  omega

/-- The second pass decodes a value. -/
theorem readArgs_decode {separator : UInt8} {value : List UInt8} (hsep : separator ∉ value)
    (hnul : nul ∉ value) (hescapes : EscapesEnd value) (k v : List UInt8) (n : Nat)
    (m : List UInt8) :
    readArgs separator (.value k v) n (value ++ m) =
      .keepAll value (readArgs separator (.value k (v ++ decodeValue value)) n m) := by
  fun_induction decodeValue value generalizing v with
  | case1 => simp [ArgResult.keepAll_nil]
  | case2 value ih =>
      obtain ⟨hc, hsep⟩ : separator ≠ plus ∧ separator ∉ value := by simpa using hsep
      rw [List.cons_append, readArgs_value (by decide), if_neg (by simp [hc.symm]), if_pos rfl,
        ih hsep (fun h => hnul (by simp [h])) (escapesEnd_tail hescapes), List.append_assoc,
        ArgResult.keep_keepAll]
      rfl
  | case3 x y value hplus ih =>
      obtain ⟨hc, hx, hy, hsep⟩ : separator ≠ percent ∧ separator ≠ x ∧ separator ≠ y ∧
          separator ∉ value := by simpa using hsep
      obtain ⟨hx', hy', hnul⟩ : nul ≠ x ∧ nul ≠ y ∧ nul ∉ value := by
        simpa [show nul ≠ percent by decide] using hnul
      have hescape : ¬ (x = nul ∨ y = nul) := not_or.2 ⟨hx'.symm, hy'.symm⟩
      have htail := escapesEnd_tail (escapesEnd_tail (escapesEnd_tail hescapes))
      rw [List.cons_append, List.cons_append, List.cons_append, readArgs, if_neg hc.symm,
        if_neg hplus, if_pos rfl]
      simp only [if_neg hescape]
      rw [ih hsep hnul htail, List.append_assoc, ArgResult.keep_keepAll, ArgResult.keep_keepAll,
        ArgResult.keep_keepAll]
      rfl
  | case4 value hshort hplus =>
      have hlen := hescapes 0 (by simp) rfl
      rcases value with _ | ⟨x, _ | ⟨y, value⟩⟩
      · simp at hlen
      · simp at hlen
      · exact absurd rfl (hshort x y value)
  | case5 c value hplus hpercent ih =>
      obtain ⟨hc, hsep⟩ : separator ≠ c ∧ separator ∉ value := by simpa using hsep
      obtain ⟨hc', hnul⟩ : nul ≠ c ∧ nul ∉ value := by simpa using hnul
      rw [List.cons_append, readArgs_value hpercent, if_neg (by simp [hc.symm, hc'.symm]),
        if_neg hplus, ih hsep hnul (escapesEnd_tail hescapes), List.append_assoc,
        ArgResult.keep_keepAll]
      rfl

theorem readArgs_gaps {separator : UInt8} {gap : List UInt8}
    (h : ∀ c ∈ gap, isGap separator c = true) (n : Nat) (m : List UInt8) :
    readArgs separator .gap (n + 1) (gap ++ m) =
      .keepAll gap (readArgs separator .gap (n + 1) m) := by
  induction gap with
  | nil => simp [ArgResult.keepAll_nil]
  | cons c gap ih =>
      obtain ⟨hc, hgap⟩ := List.forall_mem_cons.1 h
      rw [List.cons_append, readArgs, if_pos (by simpa [isGap, or_assoc] using hc), ih hgap,
        ArgResult.keep_keepAll]

theorem readArgs_gap_zero (separator : UInt8) (m : List UInt8) :
    (readArgs separator .gap 0 m).Gives [] :=
  ⟨m, by simp [readArgs]⟩

/-- Behind a value the pair is complete, and what follows is read as before. -/
theorem readArgs_end {separator : UInt8} (hsep : separator ≠ nul) {s : List UInt8}
    (hend : ∀ c ∈ s.head?, c = separator) {n : Nat} {args : List Arg}
    (h : (readArgs separator .gap n (s ++ [nul])).Gives args) (k v : List UInt8) :
    (readArgs separator (.value k v) n (s ++ [nul])).Gives (⟨k, v⟩ :: args) := by
  cases s with
  | nil =>
      rw [List.nil_append] at h ⊢
      rw [readArgs_value (by decide), if_pos (.inr (by decide))]
      cases n with
      | zero =>
          obtain ⟨m, hm⟩ := h
          obtain ⟨m', hm'⟩ := readArgs_gap_zero separator [nul]
          obtain ⟨rfl, -⟩ := Prod.mk.inj (Option.some.inj (hm.symm.trans hm'))
          exact ((readArgs_gap_zero separator []).pair k v).keep nul
      | succ n =>
          obtain ⟨m, hm⟩ := h
          have hgap : ¬ (nul = separator ∨ nul = equals ∨ nul = space) := by
            rintro (h | h | h)
            · exact hsep h.symm
            all_goals exact absurd h (by decide)
          rw [readArgs, if_neg hgap] at hm
          simp [readArgs, ArgResult.keep] at hm
  | cons c s =>
      obtain rfl := hend c rfl
      have hvalue : readArgs c (.value k v) n (c :: s ++ [nul]) =
          .keep c (.pair k v (readArgs c .gap n (s ++ [nul]))) := by
        rw [List.cons_append, readArgs.eq_def]
        simp only [if_true]
      rw [hvalue]
      refine (ArgResult.Gives.pair ?_ k v).keep c
      cases n with
      | zero =>
          obtain ⟨m, hm⟩ := h
          obtain ⟨m', hm'⟩ := readArgs_gap_zero c (c :: s ++ [nul])
          obtain ⟨rfl, -⟩ := Prod.mk.inj (Option.some.inj (hm.symm.trans hm'))
          exact readArgs_gap_zero c _
      | succ n =>
          obtain ⟨m, hm⟩ := h
          rw [List.cons_append, readArgs, if_pos (.inl rfl)] at hm
          obtain ⟨e, he, heq⟩ := Option.map_eq_some_iff.1 hm
          obtain ⟨rfl, -⟩ := Prod.mk.inj heq
          exact ⟨e.2, he⟩

/-- The second pass returns the pairs of the text with their values decoded. -/
theorem Pieces.second_pass {separator : UInt8} (hsep : separator ≠ nul) {s : List UInt8}
    {p : ArgPieces} (h : Pieces separator s p) (hs : nul ∉ s) (hvalid : p.valid = true)
    (hescapes : ∀ a ∈ p.pairs, EscapesEnd a.value) :
    (readArgs separator .gap p.pairs.length (s ++ [nul])).Gives (p.pairs.map Arg.decode) := by
  induction h with
  | tail hgap hhead hkey => exact readArgs_gap_zero separator _
  | @pair gap key value s p hgap hne hhead hkey hvalue hend hs' ih =>
      obtain ⟨c, key, rfl⟩ := List.exists_cons_of_ne_nil hne
      obtain ⟨hkeys, hrest⟩ : (∀ d ∈ key, isValidUrlKeyCharacter d = true) ∧ p.valid = true := by
        simp only [ArgPieces.valid, List.all_cons, Bool.and_eq_true, List.all_eq_true] at hvalid ⊢
        exact ⟨hvalid.1.1.1.2, hvalid.1.2, hvalid.2⟩
      obtain ⟨hvalue', hs⟩ : nul ∉ value ∧ nul ∉ s :=
        ⟨fun h => hs (by simp [h]), fun h => hs (by simp [h])⟩
      obtain ⟨hescape, hescapes⟩ := List.forall_mem_cons.1 hescapes
      have hgap' : ¬ (c = separator ∨ c = equals ∨ c = space) := by
        simpa [isGap, not_or, and_assoc] using hhead c rfl
      have hend' := readArgs_end hsep hend (ih hs hrest hescapes) (c :: key) (decodeValue value)
      have hread : readArgs separator .gap (p.pairs.length + 1)
          (gap ++ (c :: key ++ equals :: (value ++ s)) ++ [nul]) =
          .keepAll gap (.keep c (.keepAll (key ++ [nul]) (.keepAll value
            (readArgs separator (.value (c :: key) (decodeValue value)) p.pairs.length
              (s ++ [nul]))))) := by
        rw [List.append_assoc, readArgs_gaps hgap, List.cons_append, List.cons_append, readArgs,
          if_neg hgap', List.append_assoc, List.cons_append, readArgs_key hkeys, List.append_assoc,
          readArgs_decode hvalue hvalue' hescape]
        rfl
      rw [List.length_cons, hread]
      exact (((hend'.keepAll value).keepAll (key ++ [nul])).keep c).keepAll gap

/-! ## Both passes -/

theorem length_decodeValue_le (value : List UInt8) :
    (decodeValue value).length ≤ value.length := by
  fun_induction decodeValue value with
  | case1 => exact Nat.le_refl _
  | case2 value ih => exact Nat.succ_le_succ ih
  | case3 x y value hplus ih =>
      simp only [List.length_cons]
      omega
  | case4 value hshort hplus => exact Nat.le_refl _
  | case5 c value hplus hpercent ih => exact Nat.succ_le_succ ih

/-- The values fit the buffer whose size was computed from the text. -/
theorem valuesLength_decode_le (args : List Arg) :
    valuesLength (args.map Arg.decode) ≤
      (args.map fun a => a.value.length).sum + args.length := by
  induction args with
  | nil => exact Nat.le_refl _
  | cons a args ih =>
      have ha := length_decodeValue_le a.value
      simp only [valuesLength, List.map_cons, List.sum_cons, List.length_cons, Arg.decode] at ih ⊢
      omega

/-- What `http_parse__` leaves in its table when it reads the text `s`: nothing if
there is a character that is not allowed, and else the pairs of the text. -/
def ParsesAs (separator : UInt8) (s x : List UInt8) (t : Table Arg) : Prop :=
  ∃ e, httpParse separator t (s ++ nul :: x) = some e ∧
    if (argText separator s).valid then
      e.1.num = (argText separator s).pairs.length ∧
        e.1.visible = (argText separator s).pairs.map Arg.decode
    else e.1.num = 0

/-- The pairs of a text are those of its grammar, whatever follows the `NUL` and
whatever the table held before. -/
theorem parsesAs_of_escapesEnd {separator : UInt8}
    (hsep : separator = ampersand ∨ separator = semicolon) {s : List UInt8} (hs : nul ∉ s)
    (hescapes : ∀ a ∈ (argText separator s).pairs, EscapesEnd a.value) (x : List UInt8)
    (t : Table Arg) : ParsesAs separator s x t := by
  have hnul : separator ≠ nul := by
    rintro rfl
    exact absurd hsep (by decide)
  have hpieces : Pieces separator s (argText separator s) := argPieces_pieces (Nat.lt_succ_self _)
  obtain ⟨hvalid, hsizes⟩ := hpieces.first_pass
  have hcount := countArgs_text hnul hs .gap
  have happend : s ++ nul :: x = s ++ [nul] ++ x := by simp
  rw [hvalid, hsizes] at hcount
  rw [ParsesAs, happend]
  cases htext : (argText separator s).valid with
  | false =>
      rw [htext] at hcount
      have hparse : httpParse separator t (s ++ [nul]) = some
        ({ t with num := 0 }, s ++ [nul]) := by
        rw [httpParse, hcount]
        rfl
      exact ⟨_, httpParse_append hparse x, rfl⟩
  | true =>
      rw [htext, if_pos rfl] at hcount
      obtain ⟨m, hread⟩ := hpieces.second_pass hnul hs htext hescapes
      have hfit := valuesLength_decode_le (argText separator s).pairs
      have hparse : httpParse separator t (s ++ [nul]) =
          some (⟨(argText separator s).pairs.length, (argText separator s).pairs.map Arg.decode ++
            t.entries.drop (argText separator s).pairs.length⟩, m) := by
        rw [httpParse, hcount]
        simp only
        rw [hread, Option.bind_some, if_pos hfit]
      refine ⟨_, httpParse_append hparse x, rfl, ?_⟩
      rw [Table.visible, List.take_left' (List.length_map _)]

/-- Gaps, an escape, a plus sign and a key without a value at the end. -/
theorem parsesAs_mixed : nul ∉ ascii "&=a=1%32&& b=+&c" ∧
    (∀ a ∈ (argText ampersand (ascii "&=a=1%32&& b=+&c")).pairs, EscapesEnd a.value) ∧
    (argText ampersand (ascii "&=a=1%32&& b=+&c")).pairs.map Arg.decode =
      [⟨ascii "a", ascii "12"⟩, ⟨ascii "b", ascii " "⟩] ∧
    ParsesAs ampersand (ascii "&=a=1%32&& b=+&c") [] ⟨0, []⟩ :=
  ⟨by decide +kernel, by decide +kernel, by decide +kernel,
    parsesAs_of_escapesEnd (.inl rfl) (by decide +kernel) (by decide +kernel) [] ⟨0, []⟩⟩

end OpenTube
