import OpenTube.Http.PathBuffer

/-!
# The text of a path

The path of a request has a length and is also read as a C string, when the file is
opened. The two agree if no byte of the path is `NUL`. A character is copied only if
it is allowed in a path, which `NUL` is not, and no two characters behind a `%` are
decoded to it: the first table has no entry below `0x10` and the second none above
`0x0F`, so the sum is neither zero nor wraps around.

`scannedUri` is the part of the URI that the loop reads, and the query string is
what stands behind the `?` that ends it.
-/

namespace OpenTube

/-! ## The decoding tables -/

theorem toNat_h2aTable1 :
    ∀ i < 128, 0x10 ≤ (h2aTable1.getD i 0).toNat ∧ (h2aTable1.getD i 0).toNat ≤ 0xF0 := by
  decide +kernel

theorem toNat_h2aTable2 : ∀ i < 128, (h2aTable2.getD i 0).toNat ≤ 0x0F := by
  decide +kernel

/-- The low seven bits of a character are an index of the tables. -/
theorem toNat_and_127_lt (c : UInt8) : (c &&& 127).toNat < 128 := by
  have h : (c &&& 127).toNat ≤ 127 := by
    rw [UInt8.toNat_and]
    exact Nat.and_le_right
  omega

/-- No escape stands for `NUL`, whether its characters are hexadecimal or not. -/
theorem httpHexToAscii_ne_nul (x y : UInt8) : httpHexToAscii x y ≠ nul := by
  intro h
  obtain ⟨hlow, hhigh⟩ := toNat_h2aTable1 _ (toNat_and_127_lt x)
  have hsecond := toNat_h2aTable2 _ (toNat_and_127_lt y)
  have hsum : (httpHexToAscii x y).toNat = 0 := by
    rw [h]
    rfl
  rw [httpHexToAscii, UInt8.toNat_add] at hsum
  omega

/-! ## What the loop reads -/

/-- The characters a piece was read from. -/
def Piece.text : Piece → List UInt8
  | .escape x y => [percent, x, y]
  | .parent => [dot, dot, slash]
  | .char c => [c]

/-- The part of the URI that the loop of `http_divide_uri` reads. The first character
is passed without a test. -/
def scannedUri (uri : List UInt8) : List UInt8 :=
  uri.take 1 ++ (uriPieces uri.tail).flatMap Piece.text

/-- A piece leaves at most one byte. -/
theorem length_filterMap_kept_le (ps : List Piece) :
    (ps.filterMap Piece.kept).length ≤ (ps.flatMap Piece.text).length := by
  induction ps with
  | nil => exact Nat.le_refl 0
  | cons p ps ih =>
      have hone : 1 ≤ p.text.length := by cases p <;> simp [Piece.text]
      have hhead : ((p :: ps).filterMap Piece.kept).length ≤
          (ps.filterMap Piece.kept).length + 1 := by
        rw [List.filterMap_cons]
        split
        · exact Nat.le_succ _
        · exact Nat.le_refl _
      rw [List.flatMap_cons, List.length_append]
      omega

/-- The pieces and what the loop stops at make up what it was given. -/
theorem pathLoop_text {d : List UInt8} {r : List UInt8 × List UInt8} (h : pathLoop d = some r) :
    d = (uriPieces d).flatMap Piece.text ++ r.2 := by
  fun_induction pathLoop d generalizing r with
  | case1 =>
      obtain rfl : ([], []) = r := by simpa using h
      rfl
  | case2 d =>
      obtain rfl := Option.some.inj h
      rw [uriPieces_question]
      rfl
  | case3 x y d hq ih =>
      obtain ⟨s, hs, rfl⟩ := Option.map_eq_some_iff.1 h
      rw [uriPieces, if_neg hq, writeEscape_snd]
      simpa [Piece.text] using ih hs
  | case4 c hq x y d hp hparent ih =>
      have hrest := ih h
      rw [uriPieces, if_neg hq, if_neg hp, if_pos hparent]
      obtain ⟨rfl, rfl, rfl⟩ := hparent
      simpa [Piece.text] using hrest
  | case5 c hq x y d hp hparent ih =>
      obtain ⟨-, s, hs, rfl⟩ := copyPathCharacter_eq_some h
      rw [uriPieces, if_neg hq]
      simpa [hp, hparent, Piece.text] using ih hs
  | case6 c hq x ih =>
      obtain ⟨-, s, hs, rfl⟩ := copyPathCharacter_eq_some h
      rw [uriPieces, if_neg hq]
      simpa [Piece.text] using ih hs
  | case7 c hq ih =>
      obtain ⟨-, s, hs, rfl⟩ := copyPathCharacter_eq_some h
      rw [uriPieces, if_neg hq]
      simpa [Piece.text, uriPieces] using ih hs

/-- No character that is read on its own is a `?`. -/
theorem question_notMem_uriPieces (d : List UInt8) : Piece.char question ∉ uriPieces d := by
  fun_induction uriPieces d with
  | case1 => simp
  | case2 d => simp
  | case3 x y d hq ih => simpa using ih
  | case4 c hq x y d hp hparent ih => simpa using ih
  | case5 c hq x y d hp hparent ih => simpa [Ne.symm hq] using ih
  | case6 c hq x ih => simpa [Ne.symm hq] using ih
  | case7 c hq => simpa using Ne.symm hq

/-- The characters that were copied are allowed in a path. -/
theorem valid_of_mem_uriPieces {d : List UInt8} {r : List UInt8 × List UInt8}
    (h : pathLoop d = some r) :
    ∀ c, Piece.char c ∈ uriPieces d → isValidPathCharacter c = true := by
  intro c hc
  fun_induction pathLoop d generalizing r with
  | case1 => simp [uriPieces] at hc
  | case2 d => simp [uriPieces_question] at hc
  | case3 x y d hq ih =>
      obtain ⟨s, hs, rfl⟩ := Option.map_eq_some_iff.1 h
      rw [uriPieces, if_neg hq] at hc
      exact ih hs (by simpa using hc)
  | case4 b hq x y d hp hparent ih =>
      rw [uriPieces, if_neg hq, if_neg hp, if_pos hparent] at hc
      exact ih h (by simpa using hc)
  | case5 b hq x y d hp hparent ih =>
      obtain ⟨hvalid, s, hs, rfl⟩ := copyPathCharacter_eq_some h
      rw [uriPieces, if_neg hq, if_neg hp, if_neg hparent, List.mem_cons] at hc
      rcases hc with hc | hc
      · obtain rfl := Piece.char.inj hc
        exact hvalid
      · exact ih hs hc
  | case6 b hq x ih =>
      obtain ⟨hvalid, s, hs, rfl⟩ := copyPathCharacter_eq_some h
      rw [uriPieces, if_neg hq, List.mem_cons] at hc
      rcases hc with hc | hc
      · obtain rfl := Piece.char.inj hc
        exact hvalid
      · exact ih hs hc
  | case7 b hq ih =>
      obtain ⟨hvalid, -⟩ := copyPathCharacter_eq_some h
      rw [uriPieces, if_neg hq, List.mem_singleton] at hc
      obtain rfl := Piece.char.inj hc
      exact hvalid

/-! ## The path and the query -/

/-- The path of a divided URI has no hidden end and the query string is what is left
of the URI. -/
structure PlainPath (uri : List UInt8) (u : DividedUri) : Prop where
  slash : u.path.head? = some slash
  nul : nul ∉ u.path
  length : u.path.length ≤ uri.length
  /-- The `?` that ends the path is the first one that the loop reads as a character
  of its own, and the query string stands behind it. -/
  query : Piece.char question ∉ uriPieces uri.tail ∧
    ((uri = scannedUri uri ∧ u.queryString = [] ∧ u.queryOffset = uri.length) ∨
      (uri = scannedUri uri ++ question :: u.queryString ∧
        u.queryOffset = (scannedUri uri).length + 1))
  /-- Whatever stood in the path buffer before, the C string in it is the path. -/
  cString : ∀ m : List UInt8,
    (((divideWrites uri).foldl writeAt m).takeWhile fun c => c != OpenTube.nul) = u.path
  /-- The file that is opened has the whole path behind the slash as its name. -/
  file : u.filePath = u.path.tail

/-- A path that comes out of `http_divide_uri` has no byte that ends it. -/
theorem nul_notMem_path {uri : List UInt8} {u : DividedUri} (h : httpDivideUri uri = some u) :
    nul ∉ u.path := by
  rw [httpDivideUri_path h]
  obtain ⟨r, hr, -⟩ := Option.map_eq_some_iff.1 h
  intro hmem
  rcases List.mem_cons.1 hmem with hslash | hmem
  · exact absurd hslash (by decide)
  · obtain ⟨p, hp, hkept⟩ := List.mem_filterMap.1 hmem
    cases p with
    | escape x y =>
        rw [Piece.kept] at hkept
        split at hkept
        · simp at hkept
        · exact httpHexToAscii_ne_nul x y (Option.some.inj hkept)
    | parent => simp [Piece.kept] at hkept
    | char c =>
        obtain rfl := Option.some.inj hkept
        exact absurd (valid_of_mem_uriPieces hr _ hp) (by decide)

theorem ne_nul_of_mem_path {uri : List UInt8} {u : DividedUri} (h : httpDivideUri uri = some u) :
    ∀ c ∈ u.path, (c != nul) = true := by
  intro c hc
  rw [bne_iff_ne]
  rintro rfl
  exact nul_notMem_path h hc

/-- The query string is what stands behind the `?` the loop stops at. -/
theorem httpDivideUri_scanned {uri : List UInt8} {u : DividedUri}
    (h : httpDivideUri uri = some u) :
    (uri = scannedUri uri ∧ u.queryString = [] ∧ u.queryOffset = uri.length) ∨
      (uri = scannedUri uri ++ question :: u.queryString ∧
        u.queryOffset = (scannedUri uri).length + 1) := by
  obtain ⟨r, hr, hu⟩ := Option.map_eq_some_iff.1 h
  have huri : uri = scannedUri uri ++ r.2 := by
    rw [scannedUri, List.append_assoc, ← pathLoop_text hr]
    cases uri <;> rfl
  rcases pathLoop_snd hr with ⟨hnil, -⟩ | ⟨hquestion, -⟩
  · rw [hnil] at hu huri
    obtain rfl := hu
    exact .inl ⟨by simpa using huri, rfl, rfl⟩
  · have hlen := congrArg List.length huri
    rw [hquestion] at hu huri hlen
    simp only [if_true] at hu
    obtain rfl := hu
    rw [List.length_append, List.length_cons] at hlen
    exact .inr ⟨huri, by simp only; omega⟩

/-- The path of every accepted URI is plain text. The URI of a request is not empty:
`http_parse_headers` takes one that begins with a slash. -/
theorem httpDivideUri_plainPath {uri : List UInt8} {u : DividedUri} (hne : uri ≠ [])
    (h : httpDivideUri uri = some u) : PlainPath uri u where
  slash := by rw [httpDivideUri_path h, List.head?_cons]
  nul := nul_notMem_path h
  length := by
    have hscanned : (scannedUri uri).length ≤ uri.length := by
      rcases httpDivideUri_scanned h with ⟨huri, -⟩ | ⟨huri, -⟩
      · exact Nat.le_of_eq (congrArg List.length huri.symm)
      · have hlen := congrArg List.length huri
        rw [List.length_append] at hlen
        omega
    have hkept := length_filterMap_kept_le (uriPieces uri.tail)
    have hfirst : (uri.take 1).length = 1 := by
      cases uri with
      | nil => exact absurd rfl hne
      | cons c d => rfl
    rw [scannedUri, List.length_append, hfirst] at hscanned
    rw [httpDivideUri_path h, List.length_cons]
    omega
  query := ⟨question_notMem_uriPieces _, httpDivideUri_scanned h⟩
  cString m := by
    rw [foldl_divideWrites h, List.takeWhile_append_of_pos (ne_nul_of_mem_path h)]
    simp
  file := by
    rw [DividedUri.filePath, ← List.append_nil u.path.tail, List.takeWhile_append_of_pos
      fun c hc => ne_nul_of_mem_path h c (List.mem_of_mem_tail hc)]
    simp

/-- A path with an escape that is no hexadecimal number, and a query. -/
theorem httpDivideUri_plainPath_escape :
    PlainPath (ascii "/a%zz../b?x=1") ⟨ascii "/a b", 10, ascii "x=1"⟩ :=
  httpDivideUri_plainPath (by decide +kernel) (by decide +kernel)

end OpenTube
