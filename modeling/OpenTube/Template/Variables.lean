import OpenTube.Template.Flatten
import OpenTube.Template.Render

/-!
# Texts with variables

`fill` is a text with the values of its variables. `parse_variables` is given a
piece of a longer text and does not stop at its end; as long as no variable begins
behind the piece or goes beyond its end, it finds what it finds in the piece alone.
-/

namespace OpenTube

open Scan

/-- What an element of a text stands for. -/
def TplBlock.expand (scope : Scope) (own : Option (List AssocVariable)) (t : List UInt8)
    (b : TplBlock) : List UInt8 :=
  match b.type with
  | .text len => (t.drop b.contentOffset).take len
  | .var checksum => scope.value own checksum

/-- A text with the values of its variables. -/
def fill (scope : Scope) (own : Option (List AssocVariable)) (t : List UInt8) : List UInt8 :=
  ((parseVariables t t.length).getD []).flatMap (TplBlock.expand scope own t)

/-- A text without variables stands for itself. -/
theorem fill_eq_self {t : List UInt8} (h : ¬ cmdVar <:+: t) (hlen : t.length < 2 ^ 32)
    (scope : Scope)
    (own : Option (List AssocVariable)) : fill scope own t = t := by
  have hpiece : pieceVector t ⟨0, 0, 0⟩ 0 t.length = some [⟨0, .text t.length, 0, 0⟩] :=
    pieceVector_text (by simpa using h) _ _ hlen
  rw [pieceVector, List.drop_zero] at hpiece
  obtain ⟨v, hv, hmap⟩ := Option.map_eq_some_iff.1 hpiece
  obtain ⟨e, rfl, he⟩ := List.map_eq_singleton_iff.1 hmap
  rw [fill, hv]
  simp only [TplBlock.mk.injEq, Nat.add_zero] at he
  simp [TplBlock.expand, he.1, he.2.1]

/-! ## Pieces of a longer text -/

/-- Every variable command of `t ++ w` lies in `t`. -/
def VarsInside (t w : List UInt8) : Prop :=
  ∀ a r, t ++ w = a ++ r → cmdVar <+: r → a.length + cmdVar.length ≤ t.length

theorem parseVariablesLoop_none {s : List UInt8} (hs : strstr cmdVar s = none) (n offset : Nat) :
    parseVariablesLoop n offset s = some ([], offset) := by
  cases n with
  | zero => rfl
  | succ n => rw [parseVariablesLoop, hs]

/-- The text of an element lies in the first `n` bytes. -/
def TplBlock.Inside (n : Nat) (b : TplBlock) : Prop :=
  ∀ len, b.type = .text len → b.contentOffset + len ≤ n

theorem TplBlock.Inside.mono {n m : Nat} {b : TplBlock} (h : b.Inside n) (hle : n ≤ m) :
    b.Inside m := fun len hlen => Nat.le_trans (h len hlen) hle

/-- The elements of a round: the text in front of the variable, and the variable. -/
def roundElements (p : Nat) (a name : List UInt8) : List TplBlock :=
  (if a = [] then [] else [⟨p, .text (uint a.length), 0, 0⟩]) ++
    [⟨p + a.length + cmdVar.length, .var (calcChecksum (variableName name)), 0, 0⟩]

theorem mem_roundElements {p : Nat} {a name : List UInt8} {b : TplBlock}
    (hb : b ∈ roundElements p a name) : b.blockLength = 0 ∧ b.Inside (p + a.length) := by
  rcases List.mem_append.1 hb with hb | hb
  · split at hb
    · simp at hb
    · obtain rfl := List.mem_singleton.1 hb
      refine ⟨rfl, fun len hlen => ?_⟩
      obtain rfl := TplType.text.inj hlen
      simp only
      unfold uint
      omega
  · obtain rfl := List.mem_singleton.1 hb
    exact ⟨rfl, fun len hlen => by simp at hlen⟩

/-- A round of the loop that does not fail: there is no variable, or the loop goes on
behind the first one. -/
theorem parseVariablesLoop_succ {n p : Nat} {s : List UInt8} {es : List TplBlock} {e : Nat}
    (h : parseVariablesLoop (n + 1) p s = some (es, e)) :
    strstr cmdVar s = none ∧ es = [] ∧ e = p ∨ ∃ a name rest es',
      strstr cmdVar s = some (a, cmdVar ++ (name ++ rightBrace :: rest)) ∧ name ≠ [] ∧
      (∀ c ∈ name, isValidTplVariableCharacter c = true) ∧
      parseVariablesLoop n (p + a.length + cmdVar.length + name.length + 1) rest =
        some (es', e) ∧ es = roundElements p a name ++ es' := by
  cases hs : strstr cmdVar s with
  | none =>
      rw [parseVariablesLoop_none hs] at h
      obtain ⟨rfl, rfl⟩ := Prod.mk.inj (Option.some.inj h)
      exact .inl ⟨rfl, rfl, rfl⟩
  | some found =>
      right
      obtain ⟨a, r⟩ := found
      obtain ⟨-, m, rfl⟩ := strstr_eq_some hs
      obtain ⟨name, b, rfl, htake, -, hvalid, -⟩ := exists_span isValidTplVariableCharacter m
      simp only [parseVariablesLoop, hs, List.drop_left, htake] at h
      split at h
      · simp at h
      · rename_i hcond
        rw [not_or, not_not] at hcond
        obtain ⟨hhead, hne⟩ := hcond
        obtain ⟨rest, rfl⟩ : ∃ rest, b = rightBrace :: rest := by
          cases b with
          | nil => simp at hhead
          | cons x rest => exact ⟨rest, by rw [Option.some.inj hhead]⟩
        have hbehind : (name ++ rightBrace :: rest).drop (name.length + 1) = rest := by
          rw [← List.drop_drop, List.drop_left, List.drop_one, List.tail_cons]
        rw [hbehind] at h
        obtain ⟨⟨es', e'⟩, hrest, heq⟩ := Option.map_eq_some_iff.1 h
        obtain ⟨rfl, rfl⟩ := Prod.mk.inj heq
        exact ⟨a, name, rest, es', rfl, hne, hvalid, hrest, by simp [roundElements]⟩

/-- The elements lie in front of the place behind the last variable. -/
theorem parseVariablesLoop_inside {n offset : Nat} {s : List UInt8} {es : List TplBlock} {e : Nat}
    (h : parseVariablesLoop n offset s = some (es, e)) :
    offset ≤ e ∧ e ≤ offset + s.length ∧ ∀ b ∈ es, b.Inside e := by
  induction n generalizing offset s es with
  | zero =>
      obtain ⟨rfl, rfl⟩ := Prod.mk.inj (Option.some.inj h)
      exact ⟨Nat.le_refl _, Nat.le_add_right _ _, by simp⟩
  | succ n ih =>
      rcases parseVariablesLoop_succ h with
        ⟨-, rfl, rfl⟩ | ⟨a, name, rest, es', hs, -, -, hrest, rfl⟩
      · exact ⟨Nat.le_refl _, Nat.le_add_right _ _, by simp⟩
      · obtain ⟨rfl, -⟩ := strstr_eq_some hs
        obtain ⟨hlow, hhigh, hin⟩ := ih hrest
        simp only [List.length_append, List.length_cons]
        refine ⟨by omega, by omega, ?_⟩
        intro b hb
        rcases List.mem_append.1 hb with hb | hb
        · exact (mem_roundElements hb).2.mono (by omega)
        · exact hin b hb

/-- A text and what `parse_variables` finds in it. -/
theorem parseVariables_eq_some {s : List UInt8} {len : Int} {v : List TplBlock}
    (h : parseVariables s len = some v) :
    ∃ es e, parseVariablesLoop s.length 0 s = some (es, e) ∧ e ≤ s.length ∧
      (∀ b ∈ es, b.Inside e) ∧ v = es ++ [⟨e, .text (uint (len - e)), 0, 0⟩] := by
  obtain ⟨⟨es, e⟩, hloop, rfl⟩ := Option.map_eq_some_iff.1 h
  obtain ⟨-, hle, hin⟩ := parseVariablesLoop_inside hloop
  exact ⟨es, e, hloop, by omega, hin, rfl⟩

end OpenTube
