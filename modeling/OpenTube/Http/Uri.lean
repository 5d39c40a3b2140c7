import OpenTube.Lib.Components
import OpenTube.Http.Hex

/-!
# Dividing a request URI

`http_divide_uri` copies the part of the URI before the `?` into the path
buffer in one pass: it drops an escape that decodes to `/` or `.`, skips a
literal `../`, and refuses a character that is not allowed in a path.
`httpDivideUri uri` is that pass on the bytes of the URI.

`uriPieces` reads the same bytes as a sequence of pieces without deciding what
becomes of them. A path leaves the document root exactly when the pieces around
the removed ones bring a second slash to the front or two dots into one
component, which is `httpDivideUri_confined_iff`.
-/

namespace OpenTube

open Separated

/-! ## The pass over the URI -/

/-- Copy the character `c`, if it is allowed in a path, in front of what the
rest of the pass writes. -/
def copyPathCharacter (c : UInt8) (k : Option (List UInt8 × List UInt8)) :
    Option (List UInt8 × List UInt8) :=
  if isValidPathCharacter c then k.map fun r => (c :: r.1, r.2) else none

/-- Write the decoded escape `c`, unless it is a slash or a dot. -/
def writeEscape (c : UInt8) (r : List UInt8 × List UInt8) : List UInt8 × List UInt8 :=
  if c ≠ slash ∧ c ≠ dot then (c :: r.1, r.2) else r

/-- The loop of `http_divide_uri` at `d + i`: the bytes it writes to the path
and the rest `d + i` it stops at. The test `i < uri.len - 2` is the presence of
two more bytes. -/
def pathLoop : List UInt8 → Option (List UInt8 × List UInt8)
  | [] => some ([], [])
  | c :: d =>
      if c = question then some ([], c :: d)
      else
        match d with
        | x :: y :: d' =>
            if c = percent then (pathLoop d').map (writeEscape (httpHexToAscii x y))
            else if c = dot ∧ x = dot ∧ y = slash then pathLoop d'
            else copyPathCharacter c (pathLoop (x :: y :: d'))
        | [x] => copyPathCharacter c (pathLoop [x])
        | [] => copyPathCharacter c (pathLoop [])

/-- What `http_divide_uri` leaves in the request: the path, the offset of
`query_string.str` from the start of the URI, and the query string. -/
structure DividedUri where
  path : List UInt8
  queryOffset : Nat
  queryString : List UInt8
deriving DecidableEq, Repr

/-- `http_divide_uri` on the bytes of the URI; `none` when it returns false. -/
def httpDivideUri (uri : List UInt8) : Option DividedUri :=
  (pathLoop uri.tail).map fun r =>
    match r.2 with
    | c :: q =>
        if c = question then ⟨slash :: r.1, uri.length - q.length, q⟩
        else ⟨slash :: r.1, uri.length - r.2.length, []⟩
    | [] => ⟨slash :: r.1, uri.length, []⟩

/-- The path `http_response` hands to `http_send_file`: the C string at
`path.str + 1`. -/
def DividedUri.filePath (u : DividedUri) : List UInt8 :=
  u.path.tail.takeWhile fun c => c != nul

/-! ## The pieces of a URI -/

/-- What the pass meets at one position: an escape, a literal `../`, or a
single character. -/
inductive Piece
  | escape (x y : UInt8)
  | parent
  | char (c : UInt8)
deriving DecidableEq, Repr

/-- The pieces before the first `?` that is not part of an escape. -/
def uriPieces : List UInt8 → List Piece
  | [] => []
  | c :: d =>
      if c = question then []
      else
        match d with
        | x :: y :: d' =>
            if c = percent then .escape x y :: uriPieces d'
            else if c = dot ∧ x = dot ∧ y = slash then .parent :: uriPieces d'
            else .char c :: uriPieces (x :: y :: d')
        | [x] => .char c :: uriPieces [x]
        | [] => [.char c]

/-- The pieces that leave nothing in the path. -/
def Piece.removed : Piece → Bool
  | .escape x y => httpHexToAscii x y = slash ∨ httpHexToAscii x y = dot
  | .parent => true
  | .char _ => false

/-- The byte a piece leaves in the path. -/
def Piece.kept : Piece → Option UInt8
  | .escape x y => if (Piece.escape x y).removed then none else some (httpHexToAscii x y)
  | .parent => none
  | .char c => some c

theorem Piece.kept_eq_none_iff (p : Piece) : p.kept = none ↔ p.removed = true := by
  cases p with
  | escape x y => simp [Piece.kept]
  | parent => simp [Piece.kept, Piece.removed]
  | char c => simp [Piece.kept, Piece.removed]

/-- The pieces of the URI that make up the file path: those in front of a piece
that leaves a `NUL`. -/
def filePieces (uri : List UInt8) : List Piece :=
  (uriPieces uri.tail).takeWhile fun p => p.kept != some nul

theorem filterMap_kept_takeWhile (ps : List Piece) :
    (ps.takeWhile fun p => p.kept != some nul).filterMap Piece.kept =
      (ps.filterMap Piece.kept).takeWhile fun c => c != nul := by
  induction ps with
  | nil => rfl
  | cons p ps ih =>
      cases hp : p.kept with
      | none => simp [hp, ih]
      | some c =>
          by_cases hc : c = nul
          · simp [hp, hc]
          · simp [hp, hc, ih]

/-- Slashes and dots of the path come from the same character of the URI. -/
theorem Piece.kept_eq_some_iff_char {p : Piece} {c : UInt8} (hc : c = slash ∨ c = dot) :
    p.kept = some c ↔ p = .char c := by
  cases p with
  | escape x y =>
      simp only [Piece.kept, Piece.removed, decide_eq_true_eq, reduceCtorEq, iff_false]
      split
      · simp
      · rename_i h
        rintro ⟨rfl⟩
        exact h hc
  | parent => simp [Piece.kept]
  | char d => simp [Piece.kept]

theorem writeEscape_fst (x y : UInt8) (r : List UInt8 × List UInt8) :
    (writeEscape (httpHexToAscii x y) r).1 =
      [Piece.escape x y].filterMap Piece.kept ++ r.1 := by
  unfold writeEscape
  by_cases h : httpHexToAscii x y = slash ∨ httpHexToAscii x y = dot
  · simp [Piece.kept, Piece.removed, h, ← not_or]
  · simp [Piece.kept, Piece.removed, h, ← not_or]

theorem writeEscape_snd (c : UInt8) (r : List UInt8 × List UInt8) :
    (writeEscape c r).2 = r.2 := by
  unfold writeEscape
  split <;> rfl

theorem copyPathCharacter_eq_some {c : UInt8} {k : Option (List UInt8 × List UInt8)}
    {r : List UInt8 × List UInt8} (h : copyPathCharacter c k = some r) :
    isValidPathCharacter c = true ∧ ∃ s, k = some s ∧ r = (c :: s.1, s.2) := by
  unfold copyPathCharacter at h
  split at h
  · rename_i hc
    obtain ⟨s, hs, rfl⟩ := Option.map_eq_some_iff.1 h
    exact ⟨hc, s, hs, rfl⟩
  · simp at h

theorem uriPieces_question (d : List UInt8) : uriPieces (question :: d) = [] := by
  rcases d with _ | ⟨x, _ | ⟨y, d⟩⟩ <;> simp [uriPieces]

/-- The path is the URI with the removed pieces left out. -/
theorem pathLoop_fst {d : List UInt8} {r : List UInt8 × List UInt8}
    (h : pathLoop d = some r) : r.1 = (uriPieces d).filterMap Piece.kept := by
  fun_induction pathLoop d generalizing r with
  | case1 =>
      obtain rfl : ([], []) = r := by simpa using h
      rfl
  | case2 d =>
      obtain rfl := Option.some.inj h
      rw [uriPieces_question]
      rfl
  | case3 x y d hq ih =>
      obtain ⟨s, hs, rfl⟩ := Option.map_eq_some_iff.1 h
      rw [writeEscape_fst, ih hs, ← List.filterMap_append, uriPieces]
      simp [hq]
  | case4 c hq x y d hp hparent ih =>
      rw [uriPieces, if_neg hq, if_neg hp, if_pos hparent, ih h]
      rfl
  | case5 c hq x y d hp hparent ih =>
      obtain ⟨-, s, hs, rfl⟩ := copyPathCharacter_eq_some h
      rw [uriPieces]
      simp [hq, hp, hparent, Piece.kept, ih hs]
  | case6 c hq x ih =>
      obtain ⟨-, s, hs, rfl⟩ := copyPathCharacter_eq_some h
      rw [uriPieces]
      simp [hq, Piece.kept, ih hs]
  | case7 c hq ih =>
      obtain ⟨-, s, hs, rfl⟩ := copyPathCharacter_eq_some h
      have hnil := ih hs
      rw [uriPieces]
      simp [hq, Piece.kept, hnil, uriPieces]

/-! ## Staying inside the document root -/

/-- A path opened relative to the document root that cannot leave it: it is not
absolute and no component of it is `..`. -/
def Confined (file : List UInt8) : Prop :=
  file.head? ≠ some slash ∧ [dot, dot] ∉ file.splitOn slash

instance (file : List UInt8) : Decidable (Confined file) :=
  inferInstanceAs (Decidable (_ ∧ _))

/-- Every piece of the list leaves nothing in the path. -/
def AllRemoved (ps : List Piece) : Prop :=
  ∀ p ∈ ps, p.removed = true

/-- The first piece that is not removed is a slash, although the URI already
begins with one. -/
def SecondSlashInFront (ps : List Piece) : Prop :=
  ∃ x t, AllRemoved x ∧ ps = x ++ .char slash :: t

/-- Somewhere a slash, two dots and the end of the component follow one another,
with nothing but removed pieces between them. -/
def DotsMeet (ps : List Piece) : Prop :=
  ∃ a x y z t, AllRemoved x ∧ AllRemoved y ∧ AllRemoved z ∧
    .char slash :: ps =
      a ++ .char slash :: (x ++ .char dot :: (y ++ .char dot :: (z ++ t))) ∧
    EndsComponent (.char slash) t

theorem filterMap_kept_of_allRemoved {ps : List Piece} (h : AllRemoved ps) :
    ps.filterMap Piece.kept = [] :=
  List.filterMap_eq_nil_iff.2 fun p hp => p.kept_eq_none_iff.2 (h p hp)

/-- A slash or a dot in front of the path comes from a character of the URI in
front of which every piece was removed. -/
theorem filterMap_kept_eq_cons_iff {ps : List Piece} {c : UInt8} {l : List UInt8}
    (hc : c = slash ∨ c = dot) :
    ps.filterMap Piece.kept = c :: l ↔
      ∃ x t, AllRemoved x ∧ ps = x ++ .char c :: t ∧ t.filterMap Piece.kept = l := by
  rw [List.filterMap_eq_cons_iff]
  constructor
  · rintro ⟨x, p, t, rfl, hx, hp, ht⟩
    refine ⟨x, t, fun q hq => q.kept_eq_none_iff.1 (hx q hq), ?_, ht⟩
    rw [(Piece.kept_eq_some_iff_char hc).1 hp]
  · rintro ⟨x, t, hx, rfl, ht⟩
    exact ⟨x, .char c, t, rfl, fun q hq => q.kept_eq_none_iff.2 (hx q hq), rfl, ht⟩

theorem secondSlashInFront_iff (ps : List Piece) :
    SecondSlashInFront ps ↔ (ps.filterMap Piece.kept).head? = some slash := by
  rw [List.head?_eq_some_iff]
  constructor
  · rintro ⟨x, t, hx, rfl⟩
    exact ⟨t.filterMap Piece.kept,
      (filterMap_kept_eq_cons_iff (.inl rfl)).2 ⟨x, t, hx, rfl, rfl⟩⟩
  · rintro ⟨l, hl⟩
    obtain ⟨x, t, hx, rfl, -⟩ := (filterMap_kept_eq_cons_iff (.inl rfl)).1 hl
    exact ⟨x, t, hx, rfl⟩

/-- The component ends in the path where it ends among the pieces, up to removed
pieces. -/
theorem endsComponent_filterMap_kept_iff (ps : List Piece) :
    EndsComponent slash (ps.filterMap Piece.kept) ↔
      ∃ z t, AllRemoved z ∧ ps = z ++ t ∧ EndsComponent (.char slash) t := by
  constructor
  · rintro (hnil | hhead)
    · refine ⟨ps, [], fun p hp => ?_, by simp, .inl rfl⟩
      exact p.kept_eq_none_iff.1 (List.filterMap_eq_nil_iff.1 hnil p hp)
    · obtain ⟨x, t, hx, rfl⟩ := (secondSlashInFront_iff ps).2 hhead
      exact ⟨x, .char slash :: t, hx, rfl, .inr rfl⟩
  · rintro ⟨z, t, hz, rfl, ht⟩
    rw [List.filterMap_append, filterMap_kept_of_allRemoved hz, List.nil_append]
    rcases ht with rfl | ht
    · exact .inl rfl
    · obtain ⟨t, rfl⟩ := List.head?_eq_some_iff.1 ht
      exact .inr rfl

theorem dotsMeet_iff (ps : List Piece) :
    DotsMeet ps ↔ [dot, dot] ∈ (ps.filterMap Piece.kept).splitOn slash := by
  have hcons : slash :: ps.filterMap Piece.kept =
      (.char slash :: ps : List Piece).filterMap Piece.kept := rfl
  rw [mem_splitOn_iff, hcons]
  constructor
  · rintro ⟨a, x, y, z, t, hx, hy, hz, hps, ht⟩
    refine ⟨by decide, a.filterMap Piece.kept, (z ++ t).filterMap Piece.kept, ?_,
      (endsComponent_filterMap_kept_iff _).2 ⟨z, t, hz, rfl, ht⟩⟩
    rw [hps]
    simp [Piece.kept, filterMap_kept_of_allRemoved hx, filterMap_kept_of_allRemoved hy]
  · rintro ⟨-, a, t, hat, ht⟩
    obtain ⟨a', s, hps, rfl, hs⟩ := List.filterMap_eq_append_iff.1 hat
    obtain ⟨x₀, s₀, hx₀, rfl, hs₀⟩ := (filterMap_kept_eq_cons_iff (.inl rfl)).1 hs
    obtain ⟨x, s₁, hx, rfl, hs₁⟩ := (filterMap_kept_eq_cons_iff (.inr rfl)).1 hs₀
    obtain ⟨y, s₂, hy, rfl, rfl⟩ := (filterMap_kept_eq_cons_iff (.inr rfl)).1 hs₁
    obtain ⟨z, t, hz, rfl, hend⟩ := (endsComponent_filterMap_kept_iff s₂).1 ht
    exact ⟨a' ++ x₀, x, y, z, t, hx, hy, hz, by simp [hps], hend⟩

theorem httpDivideUri_path {uri : List UInt8} {u : DividedUri}
    (h : httpDivideUri uri = some u) :
    u.path = slash :: (uriPieces uri.tail).filterMap Piece.kept := by
  obtain ⟨r, hr, rfl⟩ := Option.map_eq_some_iff.1 h
  have hpath := pathLoop_fst hr
  split
  · split <;> simp [hpath]
  · simp [hpath]

/-- The path of an accepted URI stays inside the document root exactly when no
slash follows the leading one and no two dots make up a component, both read
over the removed pieces. -/
theorem httpDivideUri_confined_iff {uri : List UInt8} {u : DividedUri}
    (h : httpDivideUri uri = some u) :
    Confined u.filePath ↔
      ¬ SecondSlashInFront (filePieces uri) ∧ ¬ DotsMeet (filePieces uri) := by
  rw [DividedUri.filePath, httpDivideUri_path h, List.tail_cons, ← filterMap_kept_takeWhile,
    Confined, secondSlashInFront_iff, dotsMeet_iff]
  rfl

/-- The condition is met by `/a/../b`, whose literal `../` is skipped. -/
theorem httpDivideUri_confined_iff_parent :
    Confined (⟨ascii "/a/b", 7, []⟩ : DividedUri).filePath ↔
      ¬ SecondSlashInFront (filePieces (ascii "/a/../b")) ∧
        ¬ DotsMeet (filePieces (ascii "/a/../b")) := by
  have h : httpDivideUri (ascii "/a/../b") = some ⟨ascii "/a/b", 7, []⟩ := by
    decide +kernel
  exact httpDivideUri_confined_iff h

/-- A second slash at the front is copied, and the path opened is absolute; a
skipped `../` between two dots and a slash leaves the component `..`. -/
theorem httpDivideUri_not_confined :
    (∃ u, httpDivideUri (ascii "//etc/passwd") = some u ∧ ¬ Confined u.filePath) ∧
      ∃ u, httpDivideUri (ascii "/....//x") = some u ∧ ¬ Confined u.filePath :=
  ⟨⟨⟨ascii "//etc/passwd", 12, []⟩, by decide +kernel, by decide +kernel⟩,
    ⟨⟨ascii "/../x", 8, []⟩, by decide +kernel, by decide +kernel⟩⟩

end OpenTube
