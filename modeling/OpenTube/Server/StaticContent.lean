import OpenTube.Server.Memcache

/-!
# Static content

`static_content_preprocess_and_cache` joins some files, without their spaces if that is
asked for, stores the text in the cache and returns the URI under which `http_response`
finds it there: the name behind `http.cache.prefix`. Nothing else stores in the cache, and
the callback of these entries returns no text.

The joined text has a 64-bit length, and the text that is stored a 32-bit one.
-/

namespace OpenTube

/-! ## Spaces -/

/-- The loop of `_strip_spaces` over the memory `m`, from `i` on. The first argument is the
number of turns; the result is the memory and `k`. -/
def stripLoop : Nat → List UInt8 → (i k : Nat) → List UInt8 × Nat
  | 0, m, _, k => (m, k)
  | n + 1, m, i, k =>
      let c := m.getD i 0
      if isSpaceChar c then stripLoop n m (i + 1) k
      else stripLoop n (if i ≠ k then m.set k c else m) (i + 1) (k + 1)

/-- `_strip_spaces`. -/
def stripSpaces (content : List UInt8) : List UInt8 :=
  let r := stripLoop content.length content 0 0
  r.1.take r.2

/-- The files below the directory of the templates. -/
abbrev StaticFiles := List UInt8 → Option (List UInt8)

/-- The first loop over `path_list`, with `load_file_contents`. -/
def loadContents (files : StaticFiles) (strip : Bool) : List (List UInt8) →
    Option (List (List UInt8))
  | [] => some []
  | path :: paths =>
      (files path).bind fun c =>
        (loadContents files strip paths).map fun cs => (if strip then stripSpaces c else c) :: cs

section

variable (deflate : List UInt8 → Option (List UInt8)) (crc32 : List UInt8 → Nat)
  (cachePrefix : List UInt8)

/-- The calls that use the cache. -/
inductive StaticCall
  | preprocess (name path : List UInt8) (paths : List (List UInt8)) (strip : Bool)
      (files : Option StaticFiles) (time : Nat) (addr : Int)
  | request (path : List UInt8) (cacheUpdate acceptGzip : Bool) (time : Nat)

end

/-- The texts of some files one behind the other, with or without their spaces. -/
def joinedText (strip : Bool) (contents : List (List UInt8)) : List UInt8 :=
  if strip then contents.flatten.filter fun c => !isSpaceChar c else contents.flatten

/-- What a call adds to the cache, if all files can be read. -/
def StaticCall.stored : StaticCall → Option (List UInt8 × Cached)
  | .preprocess name path paths strip files time _ =>
      (files.bind fun files => loadContents files false (path :: paths)).map fun contents =>
        (name, ⟨joinedText strip contents, true, time⟩)
  | .request _ _ _ _ => none

section

variable {deflate : List UInt8 → Option (List UInt8)} {crc32 : List UInt8 → Nat}
  {cachePrefix : List UInt8} {s : Cache} {l : List (List UInt8 × Cached)}

end

end OpenTube
