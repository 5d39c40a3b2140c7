import OpenTube.Http.Accept
import OpenTube.Http.Post

/-!
# What a handler asks for

A handler calls `http_parse_query_string`, `http_parse_cookies` and
`http_parse_post`, in any order and as often as it likes, and then reads the
tables they fill. The functions work on the bytes the request was received with;
`none` is a read past these bytes, or a body without the `NUL` the receiver puts
behind it.
-/

namespace OpenTube

/-! ## The three functions -/

/-- The bytes from a place of the body on. -/
def Request.bodyFrom (r : Request) : Option (List UInt8) :=
  match r.body.dataStr with
  | .heap a => r.b.from a
  | .mapped o => r.temp.file.bind fun m => if o ≤ m.length then some (m.drop o) else none

/-- `http_parse_query_string`. -/
def Request.httpParseQueryString (r : Request) : Option Request :=
  (r.b.from r.headersIn.queryString.str).bind fun m =>
    (httpParse ampersand r.headersIn.args m).map fun e =>
      { r with
        b := r.b.write r.headersIn.queryString.str e.2
        headersIn := { r.headersIn with args := e.1 } }

/-- The loop over the headers for the first whose key is `cookie`. -/
def Buf.findCookie (b : Buf) : List Header → Option (Option Header)
  | [] => some none
  | h :: hs =>
      if h.key.len = 6 then
        (b.deref h.key).bind fun key => if key = ascii "cookie" then some
            (some h) else b.findCookie hs
      else b.findCookie hs

/-- `http_parse_cookies`, which leaves the table alone when there is no such
header. -/
def Request.httpParseCookies (r : Request) : Option Request :=
  (r.b.findCookie r.headersIn.p).bind fun found =>
    match found with
    | none => some r
    | some h =>
        (r.b.from h.value.str).bind fun m =>
          (httpParse semicolon r.headersIn.cookies m).map fun e =>
            { r with
              b := r.b.write h.value.str e.2
              headersIn := { r.headersIn with cookies := e.1 } }

/-- The part of `http_parse_post` for a form, which leaves the files alone. -/
def Request.parseForm (r : Request) : Option Request :=
  r.bodyFrom.bind fun m =>
    (httpParse ampersand r.body.post m).map fun e =>
      { r.writeBody 0 e.2 with body := { r.body with post := e.1 } }

/-- The part of `http_parse_post` for any other body. -/
def Request.parseParts (r : Request) : Option Request :=
  if r.body.dataLen < 12 then
    some { r with body := { r.body with
      post := { r.body.post with num := 0 }, files := { r.body.files with num := 0 } } }
  else
    r.bodyFrom.bind fun m =>
      if m[r.body.dataLen]? = some nul then
        let e := readMultipart (m.take r.body.dataLen)
        some { r.writeBody 0 e.text with body := { r.body with
          post := ⟨e.post.length, e.post ++ r.body.post.entries.drop e.post.length⟩
          files := ⟨e.files.length, e.files ++ r.body.files.entries.drop e.files.length⟩ } }
      else none

/-- `http_parse_post`. -/
def Request.httpParsePost (r : Request) : Option Request :=
  if r.headersIn.urlenc then r.parseForm else r.parseParts

/-- The functions a handler may call. -/
inductive HandlerCall
  | queryString
  | cookies
  | post
deriving DecidableEq, Repr

/-- One call. -/
def Request.call (r : Request) : HandlerCall → Option Request
  | .queryString => r.httpParseQueryString
  | .cookies => r.httpParseCookies
  | .post => r.httpParsePost

/-- Some calls, one after another. -/
def Request.calls : Request → List HandlerCall → Option Request
  | r, [] => some r
  | r, c :: cs => (r.call c).bind fun r => r.calls cs

/-- A counter and the entries below it. -/
def Table.seen {α : Type} (t : Table α) : Nat × List α := (t.num, t.visible)

/-- What a handler reads after a call: the counters and the entries. -/
def Request.seen (r : Request) : HandlerCall → (Nat × List Arg) × (Nat × List PostFile)
  | .queryString => (r.headersIn.args.seen, (0, []))
  | .cookies => (r.headersIn.cookies.seen, (0, []))
  | .post => (r.body.post.seen, r.body.files.seen)

/-! ## The bytes the functions work on -/

/-- The place of the body, relative to the buffer. -/
def Ptr.relative (p : Ptr) (data : Int) : Ptr :=
  match p with
  | .heap a => .heap (a - data)
  | .mapped o => .mapped o

/-- The functions find the same bytes in `r` as in `r₀`, wherever the two buffers
are, and `x` behind them. -/
structure Follows (x : List UInt8) (r₀ r : Request) : Prop where
  mem : r.b.mem = r₀.b.mem ++ x
  query : r.headersIn.queryString.str - r.b.data = r₀.headersIn.queryString.str - r₀.b.data
  p : r.headersIn.p.map (fun h => h.shift (-r.b.data)) =
    r₀.headersIn.p.map fun h => h.shift (-r₀.b.data)
  urlenc : r.headersIn.urlenc = r₀.headersIn.urlenc
  dataStr : r.body.dataStr.relative r.b.data = r₀.body.dataStr.relative r₀.b.data
  dataLen : r.body.dataLen = r₀.body.dataLen
  file : r.temp.file = r₀.temp.file

/-! ## Reading and writing in a longer buffer -/

section Longer

variable {b₀ b : Buf} {a₀ a : Int} {x s : List UInt8}

theorem Buf.from_append (hmem : b.mem = b₀.mem ++ x) (ha : a - b.data = a₀ - b₀.data)
    (h : b₀.from a₀ = some s) : b.from a = some (s ++ x) := by
  unfold Buf.from at h ⊢
  split at h
  · rename_i hrange
    obtain rfl := Option.some.inj h
    rw [hmem, ha, List.length_append, if_pos (by omega), List.drop_append_of_le_length (by omega)]
  · simp at h

/-- Where a text begins, the bytes before it end. -/
theorem Buf.from_split (h : b.from a = some s) :
    ∃ front, b.mem = front ++ s ∧ a = b.data + (front.length : Nat) := by
  unfold Buf.from at h
  split at h
  · rename_i hrange
    obtain rfl := Option.some.inj h
    refine ⟨b.mem.take (a - b.data).toNat, (List.take_append_drop _ _).symm, ?_⟩
    rw [List.length_take]
    omega
  · simp at h

/-- A write inside a text. -/
theorem Buf.write_mem (h : b.from a = some s) (bytes : List UInt8) :
    ∃ front, b.mem = front ++ s ∧ (b.write a bytes).mem = front ++
      (bytes ++ s.drop bytes.length) := by
  obtain ⟨front, hmem, ha⟩ := Buf.from_split h
  exact ⟨front, hmem, by rw [Buf.write_at hmem ha]⟩

/-- An edit of a text is an edit of the buffer. -/
theorem Buf.write_kept (h : b.from a = some s) {bytes : List UInt8}
    (hbytes : KeptAll (s.take bytes.length) bytes) : KeptAll b.mem (b.write a bytes).mem := by
  obtain ⟨front, hmem, hwrite⟩ := Buf.write_mem h bytes
  rw [hmem, hwrite]
  refine List.rel_append (keptAll_refl front) ?_
  have hs : KeptAll (s.take bytes.length ++ s.drop bytes.length)
      (bytes ++ s.drop bytes.length) := List.rel_append hbytes (keptAll_refl _)
  rwa [List.take_append_drop] at hs

/-- The same write in both buffers. -/
theorem Buf.write_append (hmem : b.mem = b₀.mem ++ x) (ha : a - b.data = a₀ - b₀.data)
    (h : b₀.from a₀ = some s) {bytes : List UInt8} (hlen : bytes.length ≤ s.length) :
    (b.write a bytes).mem = (b₀.write a₀ bytes).mem ++ x := by
  obtain ⟨front, hmem₀, ha₀⟩ := Buf.from_split h
  have hmem' : b.mem = front ++ (s ++ x) := by rw [hmem, hmem₀, List.append_assoc]
  have ha' : a = b.data + (front.length : Nat) := by omega
  rw [Buf.write_at hmem₀ ha₀, Buf.write_at hmem' ha', List.drop_append_of_le_length hlen]
  simp

/-- A write of the whole rest of both buffers. -/
theorem Buf.write_append_all (hmem : b.mem = b₀.mem ++ x) (ha : a - b.data = a₀ - b₀.data)
    (h : b₀.from a₀ = some s) {bytes : List UInt8} (hlen : bytes.length = s.length) :
    (b.write a (bytes ++ x)).mem = (b₀.write a₀ bytes).mem ++ x := by
  obtain ⟨front, hmem₀, ha₀⟩ := Buf.from_split h
  have hmem' : b.mem = front ++ (s ++ x) := by rw [hmem, hmem₀, List.append_assoc]
  have ha' : a = b.data + (front.length : Nat) := by omega
  rw [Buf.write_at hmem₀ ha₀, Buf.write_at hmem' ha', List.drop_eq_nil_of_le (by simp [hlen]),
    List.drop_eq_nil_of_le (by simp [hlen])]
  simp

theorem Buf.deref_append {u₀ u : UStr} (hmem : b.mem = b₀.mem ++ x) (hlen : u.len = u₀.len)
    (ha : u.str - b.data = u₀.str - b₀.data) {t : List UInt8} (h : b₀.deref u₀ = some t) :
    b.deref u = some t := by
  obtain ⟨s, hs, hif⟩ := Option.bind_eq_some_iff.1 h
  split at hif
  · rename_i hle
    obtain rfl := Option.some.inj hif
    rw [Buf.deref, Buf.from_append hmem ha hs, Option.bind_some, hlen, List.length_append,
      if_pos (by omega), List.take_append_of_le_length hle]
  · simp at hif

theorem Buf.findCookie_append (hmem : b.mem = b₀.mem ++ x) :
    ∀ {p₀ p : List Header} {o₀ : Option Header},
      p.map (fun h => h.shift (-b.data)) = p₀.map (fun h => h.shift (-b₀.data)) →
      b₀.findCookie p₀ = some o₀ →
      ∃ o, b.findCookie p = some o ∧
        o.map (fun h => h.shift (-b.data)) = o₀.map fun h => h.shift (-b₀.data)
  | [], [], _, _, h => ⟨none, rfl, by
      obtain rfl := Option.some.inj h
      rfl⟩
  | [], _ :: _, _, hp, _ => by simp at hp
  | _ :: _, [], _, hp, _ => by simp at hp
  | h₀ :: p₀, h :: p, o₀, hp, hfind => by
      obtain ⟨hhead, htail⟩ : h.shift (-b.data) = h₀.shift (-b₀.data) ∧ p.map _ = p₀.map _ :=
        List.cons.inj hp
      have hkey : h.key.len = h₀.key.len ∧ h.key.str - b.data = h₀.key.str - b₀.data := by
        simp only [Header.shift, UStr.shift, Header.mk.injEq, UStr.mk.injEq] at hhead
        omega
      simp only [Buf.findCookie, hkey.1] at hfind ⊢
      split at hfind
      · obtain ⟨key, hk, hif⟩ := Option.bind_eq_some_iff.1 hfind
        rw [if_pos ‹_›, Buf.deref_append hmem hkey.1 hkey.2 hk, Option.bind_some]
        split at hif
        · obtain rfl := Option.some.inj hif
          rw [if_pos ‹_›]
          exact ⟨some h, rfl, congrArg some hhead⟩
        · rw [if_neg ‹_›]
          exact Buf.findCookie_append hmem htail hif
      · rw [if_neg ‹_›]
        exact Buf.findCookie_append hmem htail hfind

end Longer

/-! ## The calls on two structures -/

section Calls

variable {x : List UInt8} {r₀ r r₀' : Request}

theorem seen_of_visible {t t' : Table Arg} (hnum : t'.num = t.num)
    (hvisible : t'.visible = t.visible) : t'.seen = t.seen := by
  rw [Table.seen, hnum, hvisible]
  rfl

/-- A parser that works on a text of the buffer. -/
theorem Follows.parse (hf : Follows x r₀ r) {separator : UInt8} {a₀ a : Int} {m : List UInt8}
    {t₀ : Table Arg} {e : Table Arg × List UInt8} (ha : a - r.b.data = a₀ - r₀.b.data)
    (hm : r₀.b.from a₀ = some m) (he : httpParse separator t₀ m = some e) (t : Table Arg) :
    ∃ t', (r.b.from a).bind (httpParse separator t) = some (t', e.2 ++ x) ∧ t'.seen = e.1.seen ∧
      (r.b.write a (e.2 ++ x)).mem = (r₀.b.write a₀ e.2).mem ++ x := by
  obtain ⟨e', he', hmem', hnum, hvisible⟩ := httpParse_visible he t
  refine ⟨e'.1, ?_, seen_of_visible hnum hvisible, ?_⟩
  · rw [Buf.from_append hf.mem ha hm, Option.bind_some, httpParse_append he' x, hmem']
  · exact Buf.write_append_all hf.mem ha hm (httpParse_kept he).length_eq.symm

theorem Follows.httpParseQueryString (hf : Follows x r₀ r)
    (h : r₀.httpParseQueryString = some r₀') :
    ∃ r', r.httpParseQueryString = some r' ∧ Follows x r₀' r' ∧
      r'.seen .queryString = r₀'.seen .queryString := by
  obtain ⟨m, hm, hmap⟩ := Option.bind_eq_some_iff.1 h
  obtain ⟨e, he, rfl⟩ := Option.map_eq_some_iff.1 hmap
  obtain ⟨t', ht', hseen, hwrite⟩ := hf.parse hf.query hm he r.headersIn.args
  obtain ⟨m', hm', hparse⟩ := Option.bind_eq_some_iff.1 ht'
  refine ⟨{ r with
      b := r.b.write r.headersIn.queryString.str (e.2 ++ x)
      headersIn := { r.headersIn with args := t' } }, ?_,
    ⟨hwrite, ?_, ?_, hf.urlenc, ?_, hf.dataLen, hf.file⟩, ?_⟩
  · rw [Request.httpParseQueryString, hm', Option.bind_some, hparse]
    rfl
  · simpa using hf.query
  · simpa using hf.p
  · simpa using hf.dataStr
  · simp [Request.seen, hseen]

theorem Follows.httpParseCookies (hf : Follows x r₀ r) {h₀ : Header}
    (hfound : r₀.b.findCookie r₀.headersIn.p = some (some h₀))
    (h : r₀.httpParseCookies = some r₀') :
    ∃ r', r.httpParseCookies = some r' ∧ Follows x r₀' r' ∧
      r'.seen .cookies = r₀'.seen .cookies := by
  obtain ⟨o, ho, hmap⟩ := Buf.findCookie_append hf.mem hf.p hfound
  obtain ⟨h₁, rfl, hshift⟩ := Option.map_eq_some_iff.1 hmap
  have hvalue : h₁.value.str - r.b.data = h₀.value.str - r₀.b.data := by
    simp only [Header.shift, UStr.shift, Header.mk.injEq, UStr.mk.injEq] at hshift
    omega
  rw [Request.httpParseCookies, hfound, Option.bind_some] at h
  obtain ⟨m, hm, hmap⟩ := Option.bind_eq_some_iff.1 h
  obtain ⟨e, he, rfl⟩ := Option.map_eq_some_iff.1 hmap
  obtain ⟨t', ht', hseen, hwrite⟩ := hf.parse hvalue hm he r.headersIn.cookies
  obtain ⟨m', hm', hparse⟩ := Option.bind_eq_some_iff.1 ht'
  refine ⟨{ r with
      b := r.b.write h₁.value.str (e.2 ++ x)
      headersIn := { r.headersIn with cookies := t' } }, ?_,
    ⟨hwrite, ?_, ?_, hf.urlenc, ?_, hf.dataLen, hf.file⟩, ?_⟩
  · simp only [Request.httpParseCookies, ho, Option.bind_some, hm', hparse]
    rfl
  · simpa using hf.query
  · simpa using hf.p
  · simpa using hf.dataStr
  · simp [Request.seen, hseen]

/-- The body of the longer structure, and a write to it. -/
theorem Follows.bodyFrom (hf : Follows x r₀ r) {m : List UInt8} (h : r₀.bodyFrom = some m) :
    ∃ y, r.bodyFrom = some (m ++ y) ∧ ∀ bytes : List UInt8, bytes.length ≤ m.length →
      (r.writeBody 0 bytes).b.mem = (r₀.writeBody 0 bytes).b.mem ++ x ∧
      (r.writeBody 0 bytes).temp.file = (r₀.writeBody 0 bytes).temp.file := by
  have hstr := hf.dataStr
  unfold Request.bodyFrom at h ⊢
  unfold Request.writeBody
  cases hp₀ : r₀.body.dataStr with
  | heap a₀ =>
      cases hp : r.body.dataStr with
      | mapped o => simp [hp₀, hp, Ptr.relative] at hstr
      | heap a =>
          have ha : a - r.b.data = a₀ - r₀.b.data := by
            simpa [hp₀, hp, Ptr.relative] using hstr
          simp only [hp₀] at h
          refine ⟨x, Buf.from_append hf.mem ha h, fun bytes hlen => ⟨?_, hf.file⟩⟩
          simp only [Int.natCast_zero, Int.add_zero]
          exact Buf.write_append hf.mem ha h hlen
  | mapped o =>
      cases hp : r.body.dataStr with
      | heap a => simp [hp₀, hp, Ptr.relative] at hstr
      | mapped o' =>
          obtain rfl : o' = o := by simpa [hp₀, hp, Ptr.relative] using hstr
          simp only [hp₀] at h
          refine ⟨[], ?_, fun bytes _ => ⟨hf.mem, ?_⟩⟩
          · simpa [hf.file] using h
          · simp [hf.file]

@[simp] theorem Request.writeBody_data (r : Request) (o : Nat) (bytes : List UInt8) :
    (r.writeBody o bytes).b.data = r.b.data := by
  unfold Request.writeBody
  split
  · exact Buf.write_data _ _ _
  · rfl

theorem Follows.parseParts (hf : Follows x r₀ r) (h : r₀.parseParts = some r₀') :
    ∃ r', r.parseParts = some r' ∧ Follows x r₀' r' ∧ r'.seen .post = r₀'.seen .post := by
  unfold Request.parseParts at h ⊢
  rw [hf.dataLen]
  split at h
  · obtain rfl := Option.some.inj h
    rw [if_pos ‹_›]
    refine ⟨_, rfl, ⟨hf.mem, hf.query, hf.p, hf.urlenc, hf.dataStr, hf.dataLen, hf.file⟩, ?_⟩
    simp [Request.seen, Table.seen, Table.visible]
  · rw [if_neg ‹_›]
    obtain ⟨m, hm, hif⟩ := Option.bind_eq_some_iff.1 h
    split at hif
    · rename_i hnul
      obtain rfl := Option.some.inj hif
      obtain ⟨y, hy, hwrite⟩ := hf.bodyFrom hm
      have hlt : r₀.body.dataLen < m.length := (List.getElem?_eq_some_iff.1 hnul).1
      have htake : (m ++ y).take r₀.body.dataLen = m.take r₀.body.dataLen :=
        List.take_append_of_le_length (by omega)
      have hnul' : (m ++ y)[r₀.body.dataLen]? = some nul := by
        rw [List.getElem?_append_left hlt, hnul]
      have hlen : (readMultipart (m.take r₀.body.dataLen)).text.length ≤ m.length := by
        rw [← (readMultipart_kept _).length_eq, List.length_take]
        omega
      obtain ⟨hmem, hfile⟩ := hwrite _ hlen
      rw [hy, Option.bind_some, if_pos hnul', htake]
      refine ⟨_, rfl, ⟨hmem, ?_, ?_, ?_, ?_, hf.dataLen, hfile⟩, ?_⟩
      · simpa using hf.query
      · simpa using hf.p
      · simpa using hf.urlenc
      · simpa using hf.dataStr
      · simp [Request.seen, Table.seen, Table.visible]
    · simp at hif

end Calls

/-! ## What a call leaves alone -/

/-- A call edits the texts in place and fills the tables that are its own. -/
structure CallFrame (c : HandlerCall) (r r' : Request) : Prop where
  kept : KeptAll r.b.mem r'.b.mem
  data : r'.b.data = r.b.data
  p : r'.headersIn.p = r.headersIn.p
  urlenc : r'.headersIn.urlenc = r.headersIn.urlenc
  seen : ∀ d, d ≠ c → r'.seen d = r.seen d

variable {r r' : Request}

/-- An edit of the body is an edit of the buffer, if the body lies there. -/
theorem Request.writeBody_kept {m : List UInt8} (hm : r.bodyFrom = some m) {bytes : List UInt8}
    (hbytes : KeptAll (m.take bytes.length) bytes) :
    KeptAll r.b.mem (r.writeBody 0 bytes).b.mem := by
  unfold Request.bodyFrom at hm
  unfold Request.writeBody
  cases hp : r.body.dataStr with
  | heap a =>
      simp only [hp] at hm
      simp only [Int.natCast_zero, Int.add_zero]
      exact Buf.write_kept hm hbytes
  | mapped o => exact keptAll_refl _

theorem callFrame_of_call {c : HandlerCall} (h : r.call c = some r') : CallFrame c r r' := by
  have hwhole : ∀ {separator : UInt8} {t : Table Arg} {m : List UInt8}
      {e : Table Arg × List UInt8}, httpParse separator t m = some e →
      KeptAll (m.take e.2.length) e.2 := by
    intro separator t m e he
    have hkept := httpParse_kept he
    rwa [← hkept.length_eq, List.take_length]
  cases c with
  | queryString =>
      obtain ⟨m, hm, hmap⟩ := Option.bind_eq_some_iff.1 h
      obtain ⟨e, he, rfl⟩ := Option.map_eq_some_iff.1 hmap
      refine ⟨Buf.write_kept hm (hwhole he), by simp, rfl, rfl, fun d hd => ?_⟩
      cases d <;> simp_all [Request.seen]
  | cookies =>
      obtain ⟨o, ho, hfound⟩ := Option.bind_eq_some_iff.1 h
      cases o with
      | none =>
          obtain rfl := Option.some.inj hfound
          exact ⟨keptAll_refl _, rfl, rfl, rfl, fun _ _ => rfl⟩
      | some h₁ =>
          obtain ⟨m, hm, hmap⟩ := Option.bind_eq_some_iff.1 hfound
          obtain ⟨e, he, rfl⟩ := Option.map_eq_some_iff.1 hmap
          refine ⟨Buf.write_kept hm (hwhole he), by simp, rfl, rfl, fun d hd => ?_⟩
          cases d <;> simp_all [Request.seen]
  | post =>
      simp only [Request.call, Request.httpParsePost] at h
      split at h
      · obtain ⟨m, hm, hmap⟩ := Option.bind_eq_some_iff.1 h
        obtain ⟨e, he, rfl⟩ := Option.map_eq_some_iff.1 hmap
        refine ⟨Request.writeBody_kept hm (hwhole he), by simp, by simp, by simp, fun d hd => ?_⟩
        cases d <;> simp_all [Request.seen]
      · unfold Request.parseParts at h
        split at h
        · obtain rfl := Option.some.inj h
          refine ⟨keptAll_refl _, rfl, rfl, rfl, fun d hd => ?_⟩
          cases d <;> simp_all [Request.seen]
        · obtain ⟨m, hm, hif⟩ := Option.bind_eq_some_iff.1 h
          split at hif
          · rename_i hnul
            obtain rfl := Option.some.inj hif
            have hlt : r.body.dataLen < m.length := (List.getElem?_eq_some_iff.1 hnul).1
            have hkept := readMultipart_kept (m.take r.body.dataLen)
            have htext : KeptAll (m.take (readMultipart (m.take r.body.dataLen)).text.length)
                (readMultipart (m.take r.body.dataLen)).text := by
              rwa [← hkept.length_eq, List.length_take, Nat.min_eq_left (by omega)]
            refine ⟨Request.writeBody_kept hm htext, by simp, by simp, by simp, fun d hd => ?_⟩
            cases d <;> simp_all [Request.seen]
          · simp at hif

/-! ## A whole handler -/

/-- A body in parts and a cookie header: every call fills its tables anew. -/
structure Ready (r : Request) : Prop where
  urlenc : r.headersIn.urlenc = false
  cookie : ∃ h, r.b.findCookie r.headersIn.p = some (some h)

theorem Buf.deref_kept {b b' : Buf} {u : UStr} {t : List UInt8} (h : b.deref u = some t)
    (hkept : KeptAll b.mem b'.mem) (hdata : b'.data = b.data) :
    ∃ t', b'.deref u = some t' ∧ KeptAll t t' := by
  obtain ⟨s, hs, hif⟩ := Option.bind_eq_some_iff.1 h
  unfold Buf.from at hs
  split at hs
  · obtain rfl := Option.some.inj hs
    split at hif
    · obtain rfl := Option.some.inj hif
      have hdrop := List.forall₂_drop (u.str - b.data).toNat hkept
      refine ⟨(b'.mem.drop (u.str - b.data).toNat).take u.len, ?_, List.forall₂_take _ hdrop⟩
      rw [Buf.deref, Buf.from, hdata, ← hkept.length_eq, if_pos ‹_›, Option.bind_some,
        ← hdrop.length_eq, if_pos ‹_›]
    · simp at hif
  · simp at hs

/-- An edit in place leaves a cookie header. -/
theorem Buf.findCookie_kept {b b' : Buf} (hkept : KeptAll b.mem b'.mem) (hdata : b'.data = b.data) :
    ∀ {p : List Header} {h : Header}, b.findCookie p = some (some h) →
      ∃ h', b'.findCookie p = some (some h')
  | [], _, hfind => by simp [Buf.findCookie] at hfind
  | h₁ :: p, h, hfind => by
      rw [Buf.findCookie] at hfind ⊢
      split at hfind
      · obtain ⟨key, hkey, hif⟩ := Option.bind_eq_some_iff.1 hfind
        obtain ⟨key', hkey', hk⟩ := Buf.deref_kept hkey hkept hdata
        rw [if_pos ‹_›, hkey', Option.bind_some]
        split at hif
        · rename_i heq
          have hcookie : key' = ascii "cookie" :=
            (eq_of_keptAll hk (heq ▸ by decide +kernel)).trans heq
          exact ⟨h₁, if_pos hcookie⟩
        · split
          · exact ⟨h₁, rfl⟩
          · exact Buf.findCookie_kept hkept hdata hif
      · rw [if_neg ‹_›]
        exact Buf.findCookie_kept hkept hdata hfind

theorem Ready.call {c : HandlerCall} (hr : Ready r) (h : r.call c = some r') : Ready r' := by
  obtain ⟨hkept, hdata, hp, hurlenc, -⟩ := callFrame_of_call h
  obtain ⟨h₁, hfind⟩ := hr.cookie
  refine ⟨hurlenc.trans hr.urlenc, ?_⟩
  rw [hp]
  exact Buf.findCookie_kept hkept hdata hfind

variable {x : List UInt8} {r₀ r₀' : Request}

/-- One call on both structures. -/
theorem Follows.call {c : HandlerCall} (hf : Follows x r₀ r) (hr : Ready r₀)
    (h : r₀.call c = some r₀') :
    ∃ r', r.call c = some r' ∧ Follows x r₀' r' ∧ r'.seen c = r₀'.seen c := by
  cases c with
  | queryString => exact hf.httpParseQueryString h
  | cookies =>
      obtain ⟨h₀, hfound⟩ := hr.cookie
      exact hf.httpParseCookies hfound h
  | post =>
      have hurlenc := hf.urlenc
      simp only [Request.call, Request.httpParsePost, hurlenc, hr.urlenc, Bool.false_eq_true,
        if_false] at h ⊢
      exact hf.parseParts h

/-- Whatever was seen before or is asked for now is the same in both structures
after the calls. -/
theorem Follows.calls {cs done : List HandlerCall} (hf : Follows x r₀ r) (hr : Ready r₀)
    (hdone : ∀ c ∈ done, r.seen c = r₀.seen c) (h : r₀.calls cs = some r₀') :
    ∃ r', r.calls cs = some r' ∧ ∀ c ∈ cs ++ done, r'.seen c = r₀'.seen c := by
  induction cs generalizing r₀ r done with
  | nil =>
      obtain rfl := Option.some.inj h
      exact ⟨r, rfl, hdone⟩
  | cons c cs ih =>
      obtain ⟨r₁, hcall, hrest⟩ := Option.bind_eq_some_iff.1 h
      obtain ⟨r₂, hcall', hf', hsame⟩ := hf.call hr hcall
      have hdone' : ∀ d ∈ c :: done, r₂.seen d = r₁.seen d := by
        intro d hd
        by_cases heq : d = c
        · rw [heq]
          exact hsame
        · rw [(callFrame_of_call hcall').seen d heq, (callFrame_of_call hcall).seen d heq]
          exact hdone d ((List.mem_cons.1 hd).resolve_left heq)
      obtain ⟨r', hcalls, hseen⟩ := ih hf' (hr.call hcall) hdone' hrest
      refine ⟨r', by rw [Request.calls, hcall', Option.bind_some, hcalls], fun d hd => ?_⟩
      exact hseen d (by simp only [List.mem_append, List.mem_cons] at hd ⊢; tauto)

end OpenTube
