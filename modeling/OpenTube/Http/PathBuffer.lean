import OpenTube.Lib.Run
import OpenTube.Http.Route

/-!
# The path buffer

The path of a request is written to a buffer that is kept from one request to the
next. It begins with `HTTP_PATH_PREALLOC` bytes, and `http_divide_uri` gives it
as many bytes as the URI has if these are more, which may also make it smaller.
`divideWrites` lists the writes of `http_divide_uri` in order, so that each can
be compared with the size of the buffer at that time.

The loop never writes more bytes than it has read. Only the `NUL` behind the path
can lie outside, and it does when nothing of the URI was left out.
-/

namespace OpenTube

/-! ## The writes -/

/-- The size of the path buffer while a URI is divided. -/
def pathAlloc (size : Nat) (uri : List UInt8) : Nat :=
  if httpPathPrealloc < uri.length then uri.length else size

/-- The writes of the loop of `http_divide_uri` and the `NUL` behind it, the
pointer into the path being at `c`. A character that is not allowed ends them. -/
def pathWrites : Nat → List UInt8 → List (Nat × UInt8)
  | c, [] => [(c, nul)]
  | c, x :: d =>
      if x = question then [(c, nul)]
      else
        match d with
        | y :: z :: d' =>
            if x = percent then
              let b := httpHexToAscii y z
              (c, b) :: pathWrites (if b ≠ slash ∧ b ≠ dot then c + 1 else c) d'
            else if x = dot ∧ y = dot ∧ z = slash then pathWrites c d'
            else if isValidPathCharacter x then (c, x) :: pathWrites (c + 1) (y :: z :: d')
            else []
        | [y] => if isValidPathCharacter x then (c, x) :: pathWrites (c + 1) [y] else []
        | [] => if isValidPathCharacter x then (c, x) :: pathWrites (c + 1) [] else []

/-- The writes of `http_divide_uri` to the path. -/
def divideWrites (uri : List UInt8) : List (Nat × UInt8) :=
  (0, slash) :: pathWrites 1 uri.tail

/-- The bytes `m` after a write. -/
def writeAt (m : List UInt8) (w : Nat × UInt8) : List UInt8 := m.take w.1 ++ [w.2]

theorem writeAt_end (m x : List UInt8) (b : UInt8) : writeAt (m ++ x) (m.length, b) = m ++ [b] := by
  simp [writeAt]

/-- A character that is copied, in front of the rest. -/
theorem foldl_pathWrites_cons {d r m : List UInt8} {b : UInt8}
    (h : (pathWrites (m ++ [b]).length d).foldl writeAt ((m ++ [b]) ++ []) =
      (m ++ [b]) ++ (r ++ [nul])) (x : List UInt8) :
    ((m.length, b) :: pathWrites (m.length + 1) d).foldl writeAt (m ++ x) =
      m ++ (b :: r ++ [nul]) := by
  rw [List.length_append, List.append_nil] at h
  rw [List.foldl_cons, writeAt_end]
  simpa using h

/-- What the loop leaves at the front of the buffer is the path and its `NUL`. -/
theorem foldl_pathWrites {d : List UInt8} {r : List UInt8 × List UInt8} (h : pathLoop d = some r)
    (m x : List UInt8) :
    (pathWrites m.length d).foldl writeAt (m ++ x) = m ++ (r.1 ++ [nul]) := by
  fun_induction pathLoop d generalizing r m x with
  | case1 =>
      obtain rfl : ([], []) = r := by simpa using h
      simp [pathWrites, writeAt_end]
  | case2 d =>
      obtain rfl := Option.some.inj h
      rcases d with _ | ⟨y, _ | ⟨z, d⟩⟩ <;> simp [pathWrites, writeAt_end]
  | case3 y z d hq ih =>
      obtain ⟨s, hs, rfl⟩ := Option.map_eq_some_iff.1 h
      rw [pathWrites]
      simp only [hq, if_false, if_true, writeEscape]
      by_cases hkept : httpHexToAscii y z ≠ slash ∧ httpHexToAscii y z ≠ dot
      · rw [if_pos hkept, if_pos hkept]
        exact foldl_pathWrites_cons (ih hs (m ++ [_]) []) x
      · rw [if_neg hkept, if_neg hkept, List.foldl_cons, writeAt_end]
        exact ih hs m _
  | case4 c hq y z d hp hparent ih =>
      rw [pathWrites, if_neg hq, if_neg hp, if_pos hparent]
      exact ih h m x
  | case5 c hq y z d hp hparent ih =>
      obtain ⟨hvalid, s, hs, rfl⟩ := copyPathCharacter_eq_some h
      rw [pathWrites, if_neg hq, if_neg hp, if_neg hparent, if_pos hvalid]
      exact foldl_pathWrites_cons (ih hs (m ++ [_]) []) x
  | case6 c hq y ih =>
      obtain ⟨hvalid, s, hs, rfl⟩ := copyPathCharacter_eq_some h
      rw [pathWrites, if_neg hq, if_pos hvalid]
      exact foldl_pathWrites_cons (ih hs (m ++ [_]) []) x
  | case7 c hq ih =>
      obtain ⟨hvalid, s, hs, rfl⟩ := copyPathCharacter_eq_some h
      rw [pathWrites, if_neg hq, if_pos hvalid]
      exact foldl_pathWrites_cons (ih hs (m ++ [_]) []) x

/-- The writes leave the path of the request with a `NUL` behind it. -/
theorem foldl_divideWrites {uri : List UInt8} {u : DividedUri} (h : httpDivideUri uri = some u)
    (m : List UInt8) : (divideWrites uri).foldl writeAt m = u.path ++ [nul] := by
  obtain ⟨r, hr, rfl⟩ := Option.map_eq_some_iff.1 h
  have hwrites := foldl_pathWrites hr [slash] []
  rw [divideWrites, List.foldl_cons]
  have hfirst : writeAt m (0, slash) = [slash] ++ [] := by simp [writeAt]
  rw [hfirst]
  refine hwrites.trans ?_
  split
  · split <;> rfl
  · simp_all

/-! ## Where they lie -/

/-- The characters of the URI behind its first are all copied: they are allowed in
a path, and no `../` is among them. -/
def CopiedWhole (uri : List UInt8) : Prop :=
  (∀ c ∈ uri.tail, isValidPathCharacter c = true) ∧ ¬ [dot, dot, slash] <:+: uri.tail

/-- The writes of the loop lie at most as far as the characters read; only the
`NUL` can lie behind them, and only if all of them are copied. -/
theorem lt_of_mem_pathWrites {c : Nat} {d : List UInt8} {w : Nat × UInt8} (h : w ∈ pathWrites c d) :
    w.1 < c + d.length ∨ w.1 = c + d.length ∧
      (∀ x ∈ d, isValidPathCharacter x = true) ∧ ¬ [dot, dot, slash] <:+: d := by
  fun_induction pathWrites c d with
  | case1 c =>
      obtain rfl := List.mem_singleton.1 h
      exact .inr ⟨rfl, by simp, by simp⟩
  | case2 c d =>
      obtain rfl := List.mem_singleton.1 h
      exact .inl (by simp)
  | case3 c y z d hq b ih =>
      refine .inl ?_
      simp only [List.length_cons]
      rcases List.mem_cons.1 h with rfl | h
      · simp only
        omega
      · have hnext := ih h
        split_ifs at hnext <;> omega
  | case4 c x hq y z d hp hparent ih =>
      refine .inl ?_
      have hnext := ih h
      simp only [List.length_cons]
      omega
  | case5 c x hq y z d hp hparent hvalid ih =>
      simp only [List.length_cons]
      rcases List.mem_cons.1 h with rfl | h
      · exact .inl (by simp only; omega)
      · rcases ih h with hlt | ⟨heq, hall, hinfix⟩
        · simp only [List.length_cons] at hlt
          exact .inl (by omega)
        · simp only [List.length_cons] at heq
          refine .inr ⟨by omega, by simpa [hvalid] using hall, fun hin => ?_⟩
          rcases List.infix_cons_iff.1 hin with hpre | hin
          · simp only [List.cons_prefix_cons, List.nil_prefix, and_true] at hpre
            exact hparent ⟨hpre.1.symm, hpre.2.1.symm, hpre.2.2.symm⟩
          · exact hinfix hin
  | case6 => simp at h
  | case7 c x hq y hvalid ih =>
      simp only [List.length_cons, List.length_nil]
      rcases List.mem_cons.1 h with rfl | h
      · exact .inl (by simp only; omega)
      · rcases ih h with hlt | ⟨heq, hall, -⟩
        · simp only [List.length_cons, List.length_nil] at hlt
          exact .inl (by omega)
        · simp only [List.length_cons, List.length_nil] at heq
          refine .inr ⟨by omega, by simpa [hvalid] using hall, fun hin => ?_⟩
          have hlen := hin.length_le
          simp at hlen
  | case8 => simp at h
  | case9 c x hq hvalid ih =>
      simp only [List.length_cons, List.length_nil]
      rcases List.mem_cons.1 h with rfl | h
      · exact .inl (by simp only; omega)
      · rcases ih h with hlt | ⟨heq, -, -⟩
        · simp only [List.length_nil] at hlt
          exact .inl (by omega)
        · simp only [List.length_nil] at heq
          refine .inr ⟨by omega, by simpa using hvalid, fun hin => ?_⟩
          have hlen := hin.length_le
          simp at hlen
  | case10 => simp at h

/-- If all characters are copied the `NUL` is written right behind them. -/
theorem nul_mem_pathWrites {d : List UInt8} (hall : ∀ x ∈ d, isValidPathCharacter x = true)
    (hparent : ¬ [dot, dot, slash] <:+: d) (c : Nat) : (c + d.length, nul) ∈ pathWrites c d := by
  induction d generalizing c with
  | nil => simp [pathWrites]
  | cons x d ih =>
      have hvalid := hall x List.mem_cons_self
      have hq : x ≠ question := by
        rintro rfl
        exact absurd hvalid (by decide)
      have hp : x ≠ percent := by
        rintro rfl
        exact absurd hvalid (by decide)
      have hnext := ih (fun y hy => hall y (List.mem_cons_of_mem x hy))
        (fun hin => hparent (List.infix_cons_iff.2 (.inr hin))) (c + 1)
      have hplace : c + (x :: d).length = c + 1 + d.length := by
        simp only [List.length_cons]
        omega
      rw [hplace]
      rcases d with _ | ⟨y, _ | ⟨z, d⟩⟩
      · rw [pathWrites, if_neg hq, if_pos hvalid]
        exact List.mem_cons_of_mem _ hnext
      · rw [pathWrites, if_neg hq, if_pos hvalid]
        exact List.mem_cons_of_mem _ hnext
      · have hnot : ¬ (x = dot ∧ y = dot ∧ z = slash) := by
          rintro ⟨rfl, rfl, rfl⟩
          exact hparent ⟨[], d, rfl⟩
        rw [pathWrites, if_neg hq, if_neg hp, if_neg hnot, if_pos hvalid]
        exact List.mem_cons_of_mem _ hnext

/-! ## The buffer from request to request -/

/-- Every byte `http_divide_uri` writes lies in the buffer, which had the given
size before. -/
def PathFits (size : Nat) (uri : List UInt8) : Prop :=
  ∀ w ∈ divideWrites uri, w.1 < pathAlloc size uri

/-- The size of the buffer from one URI to the next. -/
def pathStep (size : Nat) (uri : List UInt8) : Option Nat := some (pathAlloc size uri)

theorem length_le_pathAlloc {size : Nat} (hsize : httpPathPrealloc ≤ size) (uri : List UInt8) :
    uri.length ≤ pathAlloc size uri ∧ httpPathPrealloc ≤ pathAlloc size uri := by
  unfold pathAlloc
  split <;> omega

/-- The `NUL` lies behind the buffer if nothing of the URI was left out and the
buffer is as long as the URI. -/
theorem pathFits_iff {size : Nat} (hsize : httpPathPrealloc ≤ size) (uri : List UInt8) :
    PathFits size uri ↔ ¬ (CopiedWhole uri ∧ pathAlloc size uri = uri.length) := by
  obtain ⟨hle, hpre⟩ := length_le_pathAlloc hsize uri
  have hpos : 1 < httpPathPrealloc := by decide
  have htail : uri.tail.length = uri.length - 1 := List.length_tail
  constructor
  · rintro hfits ⟨hwhole, heq⟩
    have hnul := nul_mem_pathWrites hwhole.1 hwhole.2 1
    have hlt := hfits _ (List.mem_cons_of_mem _ hnul)
    simp only at hlt
    omega
  · intro hnot w hw
    rcases List.mem_cons.1 hw with rfl | hw
    · simp only
      omega
    · rcases lt_of_mem_pathWrites hw with hlt | ⟨heq, hall, hparent⟩
      · omega
      · have hne : pathAlloc size uri ≠ uri.length := fun h => hnot ⟨⟨hall, hparent⟩, h⟩
        omega

/-- A buffer of the initial size has never held a longer URI. -/
theorem pathFits_run_iff_of_size {size : Nat} (hsize : httpPathPrealloc ≤ size)
    (uris : List (List UInt8)) :
    Machine.Meets pathStep PathFits size uris ↔
      ∀ pre uri post, uris = pre ++ uri :: post → CopiedWhole uri →
        uri.length < httpPathPrealloc ∨ uri.length = httpPathPrealloc ∧
          (httpPathPrealloc < size ∨ ∃ v ∈ pre, httpPathPrealloc < v.length) := by
  induction uris generalizing size with
  | nil => simp [Machine.Meets]
  | cons u uris ih =>
      have hnext := ih (length_le_pathAlloc hsize u).2
      have hfirst : PathFits size u ↔ (CopiedWhole u → u.length < httpPathPrealloc ∨
          u.length = httpPathPrealloc ∧ httpPathPrealloc < size) := by
        rw [pathFits_iff hsize, not_and]
        refine imp_congr_right fun _ => ?_
        unfold pathAlloc
        split <;> omega
      have hgrown : httpPathPrealloc < pathAlloc size u ↔
          httpPathPrealloc < size ∨ httpPathPrealloc < u.length := by
        unfold pathAlloc
        split <;> omega
      simp only [Machine.Meets, pathStep, Option.some.injEq, forall_eq', hnext, hfirst, hgrown]
      constructor
      · rintro ⟨hu, hrest⟩ pre uri post hsplit hwhole
        cases pre with
        | nil =>
            obtain ⟨rfl, rfl⟩ := List.cons_eq_cons.1 hsplit
            rcases hu hwhole with hlt | ⟨heq, hlarge⟩
            · exact .inl hlt
            · exact .inr ⟨heq, .inl hlarge⟩
        | cons v pre =>
            obtain ⟨rfl, htail⟩ := List.cons_eq_cons.1 hsplit
            rcases hrest pre uri post htail hwhole
              with hlt | ⟨heq, (hlarge | hlarge) | ⟨x, hx, hlong⟩⟩
            · exact .inl hlt
            · exact .inr ⟨heq, .inl hlarge⟩
            · exact .inr ⟨heq, .inr ⟨u, by simp, hlarge⟩⟩
            · exact .inr ⟨heq, .inr ⟨x, by simp [hx], hlong⟩⟩
      · intro hall
        refine ⟨fun hwhole => ?_, fun pre uri post hsplit hwhole => ?_⟩
        · rcases hall [] u uris rfl hwhole with hlt | ⟨heq, hlarge | ⟨v, hv, -⟩⟩
          · exact .inl hlt
          · exact .inr ⟨heq, hlarge⟩
          · simp at hv
        · rcases hall (u :: pre) uri post (by rw [hsplit, List.cons_append]) hwhole with
            hlt | ⟨heq, hlarge | ⟨v, hv, hlong⟩⟩
          · exact .inl hlt
          · exact .inr ⟨heq, .inl (.inl hlarge)⟩
          · rcases List.mem_cons.1 hv with rfl | hv
            · exact .inr ⟨heq, .inl (.inr hlong)⟩
            · exact .inr ⟨heq, .inr ⟨v, hv, hlong⟩⟩

/-- Along every sequence of URIs all writes lie in the buffer if and only if each
URI that is copied whole is shorter than the initial buffer, or exactly as long
while a longer URI was served before it. -/
theorem pathFits_run_iff (uris : List (List UInt8)) :
    Machine.Meets pathStep PathFits httpPathPrealloc uris ↔
      ∀ pre uri post, uris = pre ++ uri :: post → CopiedWhole uri →
        uri.length < httpPathPrealloc ∨ uri.length = httpPathPrealloc ∧
          ∃ v ∈ pre, httpPathPrealloc < v.length := by
  have hrun := pathFits_run_iff_of_size (Nat.le_refl httpPathPrealloc) uris
  simpa using hrun

/-- The size in the request structure follows the same rule. -/
theorem Request.divideUri_pathSize {r r' : Request} (h : r.divideUri = some r') :
    ∃ uri, r.b.deref r.headersIn.uri = some uri ∧
      r'.headersIn.pathSize = pathAlloc r.headersIn.pathSize uri := by
  obtain ⟨uri, huri, hmap⟩ := Option.bind_eq_some_iff.1 h
  obtain ⟨u, -, rfl⟩ := Option.map_eq_some_iff.1 hmap
  exact ⟨uri, huri, rfl⟩

/-- A URI of 128 plain characters fills the buffer, and its `NUL` lies behind it. -/
theorem not_pathFits_run_plain :
    ¬ Machine.Meets pathStep PathFits httpPathPrealloc [slash :: List.replicate 127 97] := by
  rintro ⟨hfits, -⟩
  refine (pathFits_iff (Nat.le_refl _) _).1 hfits ⟨?_, by decide +kernel⟩
  exact ⟨by decide +kernel, by decide +kernel⟩

end OpenTube
