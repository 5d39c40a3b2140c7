import OpenTube.Http.Args

/-!
# URL-encoded forms

A form is sent as its pairs `key=value` joined by `&`, where a value has its
letters, digits, hyphens and underscores as they are, a plus sign for each space
and an escape for every other byte. `Encodes` says which texts are encodings of a
list of pairs: a hexadecimal digit may be written in either case, so there is
more than one.

Both passes of `http_parse__` follow such a text piece by piece, and the number
and the keys of the pairs come back. The values come back up to one entry of
`h2a_table_1`: the digit `0` stands for `0x20` there, so an escaped byte below
`0x10` is read as the byte 32 places further up.
-/

namespace OpenTube

/-! ## Encodings -/

/-- A text that stands for one byte of a value. -/
inductive EncodesByte : UInt8 → List UInt8 → Prop
  | literal {c : UInt8} (h : isValidUrlKeyCharacter c = true) : EncodesByte c [c]
  | blank : EncodesByte space [plus]
  | escape {c x y : UInt8} (h : isValidUrlKeyCharacter c = false) (hspace : c ≠ space)
      (hx : hexValue x = some (c.toNat / 16)) (hy : hexValue y = some (c.toNat % 16)) :
      EncodesByte c [percent, x, y]

/-- A text that stands for a value. -/
inductive EncodesValue : List UInt8 → List UInt8 → Prop
  | nil : EncodesValue [] []
  | cons {c : UInt8} {v e s : List UInt8} (hc : EncodesByte c e) (hv : EncodesValue v s) :
      EncodesValue (c :: v) (e ++ s)

/-- A text that stands for one pair. -/
structure EncodesPair (a : Arg) (s : List UInt8) : Prop where
  key_ne_nil : a.key ≠ []
  key_valid : ∀ c ∈ a.key, isValidUrlKeyCharacter c = true
  value_encoded : ∃ v, EncodesValue a.value v ∧ s = a.key ++ equals :: v

/-- A text that stands for a list of pairs. -/
inductive Encodes : List Arg → List UInt8 → Prop
  | nil : Encodes [] []
  | single {a : Arg} {s : List UInt8} (h : EncodesPair a s) : Encodes [a] s
  | cons {a b : Arg} {l : List Arg} {s s' : List UInt8} (h : EncodesPair a s)
      (hl : Encodes (b :: l) s') : Encodes (a :: b :: l) (s ++ ampersand :: s')

/-! ## The tables on a digit -/

/-- The byte an escaped byte is read as. -/
def decodedByte (c : UInt8) : UInt8 :=
  if c < 16 then c + 32 else c

/-- The pair that is read back. -/
def Arg.decoded (a : Arg) : Arg :=
  { a with value := a.value.map decodedByte }

theorem isValidUrlKeyCharacter_of_hexValue {x : UInt8} {n : Nat} :
    hexValue x = some n → isValidUrlKeyCharacter x = true := by
  have h : ∀ x : UInt8, hexValue x = none ∨ isValidUrlKeyCharacter x = true :=
    forall_byte (by decide)
  intro hx
  obtain hnone | hvalid := h x
  · simp [hnone] at hx
  · exact hvalid

theorem h2aTable1_hexValue {x : UInt8} {n : Nat} (hx : hexValue x = some n) :
    h2aTable1.getD (x &&& 127).toNat 0 = if n = 0 then 32 else UInt8.ofNat (16 * n) := by
  have h : ∀ x : UInt8, ∀ n ∈ hexValue x,
      h2aTable1.getD (x &&& 127).toNat 0 = if n = 0 then 32 else UInt8.ofNat (16 * n) :=
    forall_byte (by decide)
  exact h x n hx

theorem h2aTable2_hexValue {x : UInt8} {n : Nat} (hx : hexValue x = some n) :
    h2aTable2.getD (x &&& 127).toNat 0 = UInt8.ofNat n := by
  have h : ∀ x : UInt8, ∀ n ∈ hexValue x, h2aTable2.getD (x &&& 127).toNat 0 = UInt8.ofNat n :=
    forall_byte (by decide)
  exact h x n hx

theorem httpHexToAscii_escape {c x y : UInt8} (hx : hexValue x = some (c.toNat / 16))
    (hy : hexValue y = some (c.toNat % 16)) : httpHexToAscii x y = decodedByte c := by
  have h : ∀ c : UInt8, (if c.toNat / 16 = 0 then 32 else UInt8.ofNat (16 * (c.toNat / 16))) +
      UInt8.ofNat (c.toNat % 16) = decodedByte c := forall_byte (by decide)
  rw [httpHexToAscii, h2aTable1_hexValue hx, h2aTable2_hexValue hy, h c]

theorem decodedByte_of_valid : ∀ {c : UInt8}, isValidUrlKeyCharacter c = true →
    decodedByte c = c := by
  have h : ∀ c : UInt8, isValidUrlKeyCharacter c = true → decodedByte c = c :=
    forall_byte (by decide)
  exact fun {c} => h c

theorem decodedByte_eq_self_iff (c : UInt8) : decodedByte c = c ↔ 16 ≤ c := by
  have h : ∀ c : UInt8, decodedByte c = c ↔ 16 ≤ c := forall_byte (by decide)
  exact h c

theorem map_decodedByte_eq_self_iff (v : List UInt8) :
    v.map decodedByte = v ↔ ∀ c ∈ v, 16 ≤ c := by
  induction v with
  | nil => simp
  | cons c v ih => simp [decodedByte_eq_self_iff, ih]

theorem map_decoded_eq_self_iff (l : List Arg) :
    l.map Arg.decoded = l ↔ ∀ a ∈ l, ∀ c ∈ a.value, 16 ≤ c := by
  induction l with
  | nil => simp
  | cons a l ih =>
      have ha : a.decoded = a ↔ ∀ c ∈ a.value, 16 ≤ c := by
        rw [← map_decodedByte_eq_self_iff]
        exact ⟨fun h => congrArg Arg.value h, fun h => by rw [Arg.decoded, h]⟩
      rw [List.map_cons, List.cons.injEq, ha, ih, List.forall_mem_cons]

/-! ## The first pass over an encoding -/

theorem EncodesByte.valid {c : UInt8} {e : List UInt8} (h : EncodesByte c e) :
    1 ≤ e.length ∧ ∀ x ∈ e, isValidUrlValueCharacter x = true := by
  cases h with
  | literal hc => simp [isValidUrlValueCharacter, hc]
  | blank => simp [isValidUrlValueCharacter]
  | escape hc hspace hx hy =>
      simp [isValidUrlValueCharacter, isValidUrlKeyCharacter_of_hexValue hx,
        isValidUrlKeyCharacter_of_hexValue hy]

theorem EncodesValue.valid {v s : List UInt8} (h : EncodesValue v s) :
    v.length ≤ s.length ∧ ∀ x ∈ s, isValidUrlValueCharacter x = true := by
  induction h with
  | nil => simp
  | cons hc hv ih =>
      refine ⟨?_, fun x hx => (List.mem_append.1 hx).elim (hc.valid.2 x) (ih.2 x)⟩
      have := hc.valid.1
      simp only [List.length_cons, List.length_append]
      omega

theorem countArgs_key {k : List UInt8} (hk : ∀ c ∈ k, isValidUrlKeyCharacter c = true)
    (separator : UInt8) (m : List UInt8) :
    countArgs separator .key (k ++ m) = countArgs separator .key m := by
  induction k with
  | nil => rfl
  | cons c k ih =>
      obtain ⟨hc, hk⟩ := List.forall_mem_cons.1 hk
      have heq : c ≠ equals := by
        rintro rfl
        exact absurd hc (by decide)
      have hnul : c ≠ nul := by
        rintro rfl
        exact absurd hc (by decide)
      simp [countArgs, heq, hnul, hc, ih hk]

theorem countArgs_value {v : List UInt8} (hv : ∀ c ∈ v, isValidUrlValueCharacter c = true)
    (m : List UInt8) :
    countArgs ampersand .value (v ++ m) =
      (countArgs ampersand .value m).map (Option.map (ArgSizes.add 0 v.length)) := by
  induction v with
  | nil =>
      have hid : Option.map (ArgSizes.add 0 0) = id := by
        funext n
        cases n <;> rfl
      simp [hid]
  | cons c v ih =>
      obtain ⟨hc, hv⟩ := List.forall_mem_cons.1 hv
      have hsep : c ≠ ampersand := by
        rintro rfl
        exact absurd hc (by decide)
      have hnul : c ≠ nul := by
        rintro rfl
        exact absurd hc (by decide)
      simp only [List.cons_append, countArgs, hsep, hnul, hc, if_false, Bool.true_eq_false, ih hv,
        Option.map_map]
      congr 1
      funext n
      cases n <;> simp [ArgSizes.add, Nat.add_assoc]

/-- A key begins with a character that ends the gap in front of it. -/
theorem EncodesPair.key_eq_cons {a : Arg} {s : List UInt8} (h : EncodesPair a s) :
    ∃ c k, a.key = c :: k ∧ isValidUrlKeyCharacter c = true ∧
      (∀ d ∈ k, isValidUrlKeyCharacter d = true) ∧
      ¬ (c = ampersand ∨ c = equals ∨ c = space) ∧ c ≠ nul := by
  obtain ⟨c, k, hkey⟩ := List.exists_cons_of_ne_nil h.key_ne_nil
  have hvalid := h.key_valid
  rw [hkey] at hvalid
  obtain ⟨hc, hk⟩ := List.forall_mem_cons.1 hvalid
  refine ⟨c, k, hkey, hc, hk, ?_, ?_⟩
  · rintro (rfl | rfl | rfl) <;> exact absurd hc (by decide)
  · rintro rfl
    exact absurd hc (by decide)

theorem countArgs_pair {a : Arg} {s : List UInt8} (h : EncodesPair a s) (m : List UInt8) :
    ∃ k, a.value.length ≤ k ∧ countArgs ampersand .gap (s ++ m) =
      (countArgs ampersand .value m).map (Option.map (ArgSizes.add 1 k)) := by
  obtain ⟨v, hv, rfl⟩ := h.value_encoded
  refine ⟨v.length, hv.valid.1, ?_⟩
  obtain ⟨c, k, hkey, hc, hk, hgap, hnul⟩ := h.key_eq_cons
  rw [hkey]
  rw [List.append_assoc, List.cons_append, countArgs, if_neg hgap, if_neg hnul,
    if_neg (by simp [hc]), countArgs_key hk, List.cons_append, countArgs, if_pos rfl,
    countArgs_value hv.valid.2, Option.map_map]
  congr 1
  funext n
  cases n <;> rfl

theorem countArgs_encodes {l : List Arg} {s : List UInt8} (h : Encodes l s) (m : List UInt8) :
    ∃ n, countArgs ampersand .gap (s ++ nul :: m) = some (some n) ∧ n.args = l.length ∧
      valuesLength l ≤ n.values + n.args := by
  induction h with
  | nil =>
      refine ⟨⟨0, 0⟩, ?_, rfl, by simp [valuesLength]⟩
      rw [List.nil_append, countArgs, if_neg (by decide), if_pos rfl]
  | single h =>
      obtain ⟨k, hk, hcount⟩ := countArgs_pair h (nul :: m)
      refine ⟨ArgSizes.add 1 k ⟨0, 0⟩, ?_, rfl, by simp [valuesLength, ArgSizes.add, hk]⟩
      rw [hcount, countArgs, if_neg (by decide), if_pos rfl]
      rfl
  | @cons a b l s s' h hl ih =>
      obtain ⟨k, hk, hcount⟩ := countArgs_pair h (ampersand :: (s' ++ nul :: m))
      obtain ⟨n, hn, hargs, hvalues⟩ := ih
      refine ⟨n.add 1 k, ?_, by simp [ArgSizes.add, hargs], ?_⟩
      · rw [List.append_assoc, List.cons_append, hcount, countArgs, if_pos rfl, hn]
        rfl
      · simp only [valuesLength, List.map_cons, List.sum_cons, ArgSizes.add] at hvalues ⊢
        omega

/-! ## The second pass over an encoding -/

/-- Several bytes of the memory in front of the rest. -/
def ArgResult.keepAll (s : List UInt8) (r : ArgResult) : ArgResult := r.map fun e => (e.1, s ++ e.2)

theorem ArgResult.keep_keepAll (c : UInt8) (s : List UInt8) (r : ArgResult) :
    (r.keepAll s).keep c = r.keepAll (c :: s) := by
  simp [keep, keepAll, Option.map_map, Function.comp_def]

theorem ArgResult.keepAll_nil (r : ArgResult) : r.keepAll [] = r := by
  simp [keepAll]

theorem ArgResult.keepAll_append (s s' : List UInt8) (r : ArgResult) :
    (r.keepAll s').keepAll s = r.keepAll (s ++ s') := by
  simp [keepAll, Option.map_map, Function.comp_def]

theorem ArgResult.keep_eq_keepAll (c : UInt8) (r : ArgResult) : r.keep c = r.keepAll [c] := rfl

theorem readArgs_key {k : List UInt8} (hk : ∀ c ∈ k, isValidUrlKeyCharacter c = true)
    (separator : UInt8) (key : List UInt8) (n : Nat) (m : List UInt8) :
    readArgs separator (.key key) n (k ++ equals :: m) =
      .keepAll (k ++ [nul]) (readArgs separator (.value (key ++ k) []) n m) := by
  induction k generalizing key with
  | nil => simp [readArgs, ArgResult.keep_eq_keepAll]
  | cons c k ih =>
      obtain ⟨hc, hk⟩ := List.forall_mem_cons.1 hk
      have heq : c ≠ equals := by
        rintro rfl
        exact absurd hc (by decide)
      rw [List.cons_append, readArgs, if_neg heq, ih hk, ArgResult.keep_keepAll, List.append_assoc,
        List.singleton_append, List.cons_append]

theorem readArgs_byte {c : UInt8} {e : List UInt8} (h : EncodesByte c e)
    (k v : List UInt8) (n : Nat)
    (m : List UInt8) :
    readArgs ampersand (.value k v) n (e ++ m) =
      .keepAll e (readArgs ampersand (.value k (v ++ [decodedByte c])) n m) := by
  cases h with
  | literal hc =>
      have hne : ∀ d, isValidUrlKeyCharacter d = false → c ≠ d := by
        rintro d hd rfl
        simp [hc] at hd
      rw [List.singleton_append, readArgs_value (hne percent (by decide)), if_neg, if_neg,
        decodedByte_of_valid hc, ArgResult.keep_eq_keepAll]
      · exact hne plus (by decide)
      · rintro (h | ⟨h, -⟩)
        · exact hne ampersand (by decide) h
        · exact hne nul (by decide) h
  | blank =>
      rw [List.singleton_append, readArgs_value (by decide), if_neg (by decide), if_pos rfl,
        ArgResult.keep_eq_keepAll]
      rfl
  | @escape c x y hc hspace hx hy =>
      have hne : ∀ {d : UInt8} {n : Nat}, hexValue d = some n → d ≠ nul := by
        rintro d n hd rfl
        exact absurd hd (by simp [hexValue, isDigit])
      have hnul : ¬ (x = nul ∨ y = nul) := by
        rintro (h | h)
        · exact hne hx h
        · exact hne hy h
      rw [List.cons_append, List.cons_append, List.singleton_append, readArgs,
        if_neg (by decide), if_neg (by decide), if_pos rfl]
      simp only [hnul, if_false, httpHexToAscii_escape hx hy, ArgResult.keep_eq_keepAll,
        ArgResult.keepAll_append, List.singleton_append]

theorem readArgs_valueText {v s : List UInt8} (h : EncodesValue v s) (k w : List UInt8) (n : Nat)
    (m : List UInt8) :
    readArgs ampersand (.value k w) n (s ++ m) =
      .keepAll s (readArgs ampersand (.value k (w ++ v.map decodedByte)) n m) := by
  induction h generalizing w with
  | nil => simp [ArgResult.keepAll_nil]
  | cons hc hv ih =>
      rw [List.append_assoc, readArgs_byte hc, ih, ArgResult.keepAll_append, List.map_cons,
        List.append_assoc, List.singleton_append]

theorem readArgs_pair {a : Arg} {s : List UInt8} (h : EncodesPair a s) (n : Nat) (m : List UInt8) :
    ∃ s', readArgs ampersand .gap (n + 1) (s ++ m) =
      .keepAll s' (readArgs ampersand (.value a.key a.decoded.value) n m) := by
  obtain ⟨v, hv, rfl⟩ := h.value_encoded
  obtain ⟨c, k, hkey, -, hk, hgap, -⟩ := h.key_eq_cons
  rw [hkey]
  refine ⟨c :: (k ++ [nul] ++ v), ?_⟩
  rw [List.append_assoc, List.cons_append, readArgs, if_neg hgap, List.cons_append,
    readArgs_key hk, readArgs_valueText hv, ArgResult.keepAll_append, ArgResult.keep_keepAll,
    List.singleton_append, List.nil_append]
  rfl

theorem readArgs_encodes {l : List Arg} {s : List UInt8} (h : Encodes l s) (m : List UInt8) :
    ∃ m', readArgs ampersand .gap l.length (s ++ nul :: m) = some (l.map Arg.decoded, m') := by
  induction h with
  | nil => exact ⟨nul :: m, rfl⟩
  | @single a s h =>
      obtain ⟨s', hs⟩ := readArgs_pair h 0 (nul :: m)
      refine ⟨s' ++ nul :: m, ?_⟩
      rw [List.length_singleton, hs, readArgs_value (by decide), if_pos (by decide)]
      simp [readArgs, ArgResult.keepAll, ArgResult.keep, ArgResult.pair, Arg.decoded]
  | @cons a b l s s' h hl ih =>
      obtain ⟨m', hm⟩ := ih
      obtain ⟨t, ht⟩ := readArgs_pair h (b :: l).length (ampersand :: (s' ++ nul :: m))
      refine ⟨t ++ ampersand :: m', ?_⟩
      rw [List.append_assoc, List.cons_append, List.length_cons, ht, readArgs_value (by decide),
        if_pos (.inl rfl), hm]
      simp [ArgResult.keepAll, ArgResult.keep, ArgResult.pair, Arg.decoded]

/-! ## The round trip -/

/-- What `http_parse__` makes of an encoding. -/
theorem httpParse_encodes {l : List Arg} {s : List UInt8} (h : Encodes l s) (t : Table Arg)
    (m : List UInt8) :
    ∃ e, httpParse ampersand t (s ++ nul :: m) = some e ∧ e.1.num = l.length ∧
      e.1.visible = l.map Arg.decoded := by
  obtain ⟨n, hcount, hargs, hvalues⟩ := countArgs_encodes h m
  obtain ⟨m', hread⟩ := readArgs_encodes h m
  have hlen : valuesLength (l.map Arg.decoded) = valuesLength l := by
    simp [valuesLength, Arg.decoded, Function.comp_def]
  refine ⟨(⟨n.args, l.map Arg.decoded ++ t.entries.drop n.args⟩, m'), ?_, hargs, ?_⟩
  · simp only [httpParse, hcount]
    rw [hargs] at hvalues ⊢
    rw [hread, Option.bind_some, hlen, if_pos hvalues]
  · simp [Table.visible, hargs]

/-- The parser gives back the pairs that were encoded: as many, with the same keys
and the same bytes in the values, in the same order. -/
def DecodesTo (s : List UInt8) (t : Table Arg) (m : List UInt8) (l : List Arg) : Prop :=
  ∃ e, httpParse ampersand t (s ++ nul :: m) = some e ∧ e.1.num = l.length ∧ e.1.visible = l

/-- An encoding is read back as the pairs it was made of if and only if no value
has a byte below `0x10`. -/
theorem decodesTo_iff {l : List Arg} {s : List UInt8} (h : Encodes l s) (t : Table Arg)
    (m : List UInt8) : DecodesTo s t m l ↔ ∀ a ∈ l, ∀ c ∈ a.value, 16 ≤ c := by
  obtain ⟨e, he, hnum, hvisible⟩ := httpParse_encodes h t m
  rw [← map_decoded_eq_self_iff, ← hvisible]
  constructor
  · rintro ⟨e', he', -, hl⟩
    obtain rfl := Option.some.inj (he.symm.trans he')
    exact hl
  · intro hl
    exact ⟨e, he, hnum, hl⟩

/-- A value with a space and a byte that has to be escaped. -/
theorem encodes_example : Encodes [⟨ascii "key", ascii "a b/"⟩] (ascii "key=a+b%2f") := by
  refine .single ⟨by decide, by decide +kernel, ascii "a+b%2f", ?_, by decide⟩
  refine .cons (.literal (by decide)) (.cons .blank (.cons (.literal (by decide))
    (.cons (.escape ?_ ?_ ?_ ?_) .nil))) <;> decide

theorem decodesTo_key : Encodes [⟨ascii "key", ascii "a b/"⟩] (ascii "key=a+b%2f") ∧
    (DecodesTo (ascii "key=a+b%2f") ⟨0, []⟩ [] [⟨ascii "key", ascii "a b/"⟩] ↔
      ∀ a ∈ [(⟨ascii "key", ascii "a b/"⟩ : Arg)], ∀ c ∈ a.value, 16 ≤ c) :=
  ⟨encodes_example, decodesTo_iff encodes_example _ _⟩

/-- A newline, sent as `%0A`, comes back as a star. -/
theorem not_decodesTo_newline : Encodes [⟨ascii "a", [lf]⟩] (ascii "a=%0A") ∧
    ¬ DecodesTo (ascii "a=%0A") ⟨0, []⟩ [] [⟨ascii "a", [lf]⟩] := by
  have henc : Encodes [⟨ascii "a", [lf]⟩] (ascii "a=%0A") := by
    refine .single ⟨by decide, by decide +kernel, ascii "%0A", ?_, by decide +kernel⟩
    exact .cons (.escape (by decide) (by decide) (by decide) (by decide)) .nil
  refine ⟨henc, ?_⟩
  rintro ⟨e, he, -, hvisible⟩
  have hstar : httpParse ampersand ⟨0, []⟩ (ascii "a=%0A" ++ [nul]) =
      some (⟨1, [⟨ascii "a", ascii "*"⟩]⟩, ascii "a" ++ nul :: ascii "%0A" ++ [nul]) := by
    decide +kernel
  obtain rfl := Option.some.inj (hstar.symm.trans he)
  exact absurd hvisible (by decide +kernel)

end OpenTube
