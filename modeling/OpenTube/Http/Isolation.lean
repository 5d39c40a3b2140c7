import OpenTube.Http.Replay

/-!
# One request after another in the same structure

A request structure serves many requests, and `http_cleanup` resets only some of
its fields in between. `Reached` are the structures that may serve the next
request. The request is isolated when a handler reads the same tables whichever
of them it is served with. That is so for a `POST` in parts that has a cookie
header, and for no other request: `isolatedRequest_iff`.
-/

namespace OpenTube

/-! ## Histories -/

/-- The request a handler gets: the run over `es` answers it, and its URI is
divided. -/
def Request.handed (r : Request) (fd : Fd) (es : List RecvEvent) : Option Request :=
  if (serveAll (r.assign fd) es).2.1 = .response then (serveAll (r.assign fd) es).1.divideUri
  else none

/-- What the response leaves in the fields of the output. -/
def Request.responded (r : Request) (headersOut : HeadersOut) (outVec : List (List UInt8))
    (temp : Temp) : Request :=
  { r with headersOut := headersOut, outVec := outVec, temp := { temp with file := r.temp.file } }

/-- The structures that may serve a request: prepared ones, and those cleaned up
after a request, whether it reached a handler or not. -/
inductive Reached : Request → Prop
  | prepared (g : Request) (saveSpace : Bool) (addr : Int) : Reached (httpPrepare g saveSpace addr)
  | dropped {r : Request} (h : Reached r) (fd : Fd) (es : List RecvEvent)
      (headersOut : HeadersOut) (outVec : List (List UInt8)) (temp : Temp) (addr : Int) :
      Reached (httpCleanup
        ((serveAll (r.assign fd) es).1.responded headersOut outVec temp) addr)
  | handled {r r' r'' : Request} (h : Reached r) {fd : Fd} {es : List RecvEvent}
      {cs : List HandlerCall} (hhanded : r.handed fd es = some r')
      (hcalls : r'.calls cs = some r'') (headersOut : HeadersOut) (outVec : List (List UInt8))
      (temp : Temp) (addr : Int) :
      Reached (httpCleanup (r''.responded headersOut outVec temp) addr)

theorem Reached.idle {r : Request} (h : Reached r) : Idle r := by
  cases h with
  | prepared g saveSpace addr => exact idle_httpPrepare g saveSpace addr
  | dropped h fd es headersOut outVec temp addr => exact idle_httpCleanup _ addr
  | handled h hhanded hcalls headersOut outVec temp addr => exact idle_httpCleanup _ addr

/-! ## The property -/

/-- What a handler reads after the calls `cs`. -/
def Request.sees (r : Request) (fd : Fd) (es : List RecvEvent) (cs : List HandlerCall) :
    Option (HandlerCall → (Nat × List Arg) × (Nat × List PostFile)) :=
  ((r.handed fd es).bind fun r => r.calls cs).map Request.seen

/-- A handler that asks for everything reads the same, whichever structures serve
the request. -/
def IsolatedRequest (rs : List Recv) : Prop :=
  ∀ r₁ r₂, Reached r₁ → Reached r₂ → ∀ fd₁ fd₂ es₁ es₂, es₁.map RecvEvent.res = rs →
    es₂.map RecvEvent.res = rs → ∀ cs : List HandlerCall, (∀ c, c ∈ cs) →
      ∃ o, r₁.sees fd₁ es₁ cs = some o ∧ r₂.sees fd₂ es₂ cs = some o

/-- A structure that never served a request. Its buffer has no reserve, so that
it is moved each time it grows and holds nothing behind the request. -/
def blank : Request := httpPrepare zeroed true 0

/-- Calls of `recv` with the given results, the buffer being placed at 0. -/
def plain (rs : List Recv) : List RecvEvent :=
  rs.map fun res => ⟨res, 0, 0, false⟩

@[simp] theorem plain_res (rs : List Recv) : (plain rs).map RecvEvent.res = rs := by
  simp [plain, Function.comp_def]

/-- The results of `recv` make up a request that is accepted, and the blank
structure hands it to a handler as `f`. -/
structure Accepted (rs : List Recv) (f : Request) : Prop where
  honoured : Honoured (blank.assign 0) (plain rs)
  handed : blank.handed 0 (plain rs) = some f

/-- The structure `r` handed out the request as `r'`, the blank one as `f`. -/
structure Handed (x : List UInt8) (r f r' : Request) : Prop where
  tables : r'.tables = r.tables
  mem : r'.b.mem = f.b.mem ++ x
  p : r'.headersIn.p.map (fun h => h.shift (-r'.b.data)) =
    f.headersIn.p.map fun h => h.shift (-f.b.data)
  follows : f.headersIn.methodPost = true → Follows x f r'
  bodiless : f.headersIn.methodPost = false →
    f.headersIn.urlenc = false ∧ f.body.dataLen = 0 ∧ r'.headersIn.urlenc = r.headersIn.urlenc

section

variable {rs : List Recv} {f r : Request}

/-- A division of the URI changes the path and the query only. -/
theorem divideUri_eq {r' : Request} (h : r.divideUri = some r') :
    ∃ uri u, r.b.deref r.headersIn.uri = some uri ∧ httpDivideUri uri = some u ∧
      r' = { r with headersIn := { r.headersIn with
        path := u.path
        pathSize := if httpPathPrealloc < uri.length then uri.length else r.headersIn.pathSize
        queryString := ⟨u.queryString.length, r.headersIn.uri.str + (u.queryOffset : Nat)⟩ } } := by
  obtain ⟨uri, huri, hmap⟩ := Option.bind_eq_some_iff.1 h
  obtain ⟨u, hu, rfl⟩ := Option.map_eq_some_iff.1 hmap
  exact ⟨uri, u, huri, hu, rfl⟩

/-- An accepted request is handed out by every idle structure. -/
theorem Accepted.handed_of_idle (hf : Accepted rs f) (hr : Idle r) (fd : Fd)
    {es : List RecvEvent} (hes : es.map RecvEvent.res = rs) :
    ∃ x r', r.handed fd es = some r' ∧ Handed x r f r' := by
  have hblank : Idle blank := idle_httpPrepare zeroed true 0
  have hhanded := hf.handed
  unfold Request.handed at hhanded ⊢
  split at hhanded
  · rename_i hanswered
    obtain ⟨hanswered', x, hx⟩ := (hblank.headerPhase 0).replay (hr.headerPhase fd) (by simp)
      rfl (hr.file.trans hblank.file.symm) hf.honoured (hes.trans (plain_res rs).symm) hanswered
    obtain ⟨uri, u, huri, hu, rfl⟩ := divideUri_eq hhanded
    have huri' := Buf.deref_append hx.alike.mem hx.alike.uri_len hx.alike.uri_str huri
    rw [if_pos hanswered', Request.divideUri, huri', Option.bind_some, hu]
    refine ⟨x, _, rfl, ⟨tables_serveAll _ _, hx.alike.mem, hx.alike.p, fun hpost => ?_,
      fun hget => ?_⟩⟩
    · have hbody := hx.body hpost
      have hstr := hx.alike.uri_str
      exact ⟨hx.alike.mem, by simp only; omega, hx.alike.p, hbody.urlenc, hbody.dataStr,
        hbody.dataLen, hbody.file⟩
    · obtain ⟨hkept₀, hkept⟩ := hx.bodiless hget
      simp only [Prod.mk.injEq] at hkept₀
      exact ⟨hkept₀.1, hkept₀.2, hkept⟩
  · simp at hhanded

/-! ## Requests that are isolated -/

theorem Request.sees_some {o : HandlerCall → (Nat × List Arg) × (Nat × List PostFile)}
    {r' : Request} {fd : Fd} {es : List RecvEvent} {cs : List HandlerCall}
    (hhanded : r.handed fd es = some r') (h : r.sees fd es cs = some o) :
    ∃ r'', r'.calls cs = some r'' ∧ r''.seen = o := by
  rw [Request.sees, hhanded, Option.bind_some] at h
  exact Option.map_eq_some_iff.1 h

/-- Calls leave the tables of the functions that are not called. -/
theorem calls_seen {cs : List HandlerCall} {c : HandlerCall} (hc : c ∉ cs) :
    ∀ {r r' : Request}, r.calls cs = some r' → r'.seen c = r.seen c := by
  induction cs with
  | nil =>
      intro r r' h
      obtain rfl := Option.some.inj h
      rfl
  | cons d cs ih =>
      intro r r' h
      obtain ⟨r₁, hcall, hrest⟩ := Option.bind_eq_some_iff.1 h
      rw [List.mem_cons, not_or] at hc
      rw [ih hc.2 hrest, (callFrame_of_call hcall).seen c hc.1]

/-- Without a cookie header the cookies are those of the last request. -/
theorem cookies_of_findCookie {cs : List HandlerCall} (hcs : HandlerCall.cookies ∉ cs)
    {r' : Request} (hfind : r.b.findCookie r.headersIn.p = some none)
    (h : r.calls (.cookies :: cs) = some r') : r'.seen .cookies = r.seen .cookies := by
  obtain ⟨r₁, hcall, hrest⟩ := Option.bind_eq_some_iff.1 h
  obtain rfl : r₁ = r := by simpa [Request.call, Request.httpParseCookies, hfind] using hcall.symm
  exact calls_seen hcs hrest

/-- A form leaves the files of the last request. -/
theorem files_of_urlenc {cs : List HandlerCall} (hcs : HandlerCall.post ∉ cs) {r' : Request}
    (hurlenc : r.headersIn.urlenc = true) (h : r.calls (.post :: cs) = some r') :
    (r'.seen .post).2 = (r.seen .post).2 := by
  obtain ⟨r₁, hcall, hrest⟩ := Option.bind_eq_some_iff.1 h
  rw [calls_seen hcs hrest]
  simp only [Request.call, Request.httpParsePost, hurlenc, if_true] at hcall
  obtain ⟨m, -, hmap⟩ := Option.bind_eq_some_iff.1 hcall
  obtain ⟨e, -, rfl⟩ := Option.map_eq_some_iff.1 hmap
  rfl

/-- A short body in parts has no file. -/
theorem files_of_short {cs : List HandlerCall} (hcs : HandlerCall.post ∉ cs) {r' : Request}
    (hurlenc : r.headersIn.urlenc = false) (hlen : r.body.dataLen < 12)
    (h : r.calls (.post :: cs) = some r') : (r'.seen .post).2 = (0, []) := by
  obtain ⟨r₁, hcall, hrest⟩ := Option.bind_eq_some_iff.1 h
  rw [calls_seen hcs hrest]
  simp only [Request.call, Request.httpParsePost, hurlenc, Bool.false_eq_true, if_false,
    Request.parseParts, if_pos hlen, Option.some.injEq] at hcall
  subst hcall
  simp [Request.seen, Table.seen, Table.visible]

/-- A structure that served an upload with a cookie, and then a form. -/
structure Stale (r : Request) : Prop where
  reached : Reached r
  urlenc : r.headersIn.urlenc = true
  cookies : r.seen .cookies ≠ blank.seen .cookies
  files : (r.seen .post).2 ≠ (0, [])

theorem reached_blank : Reached blank := .prepared zeroed true 0

theorem seen_of_tables {r₁ r₂ : Request} (h : r₁.tables = r₂.tables) : r₁.seen = r₂.seen := by
  simp only [Request.tables, Prod.mk.injEq] at h
  obtain ⟨hargs, hcookies, hpost, hfiles⟩ := h
  funext c
  cases c <;> simp [Request.seen, hargs, hcookies, hpost, hfiles]

/-- The blank structure and one that is not see the same in an isolated
request. -/
theorem IsolatedRequest.calls_eq (h : IsolatedRequest rs) (hf : Accepted rs f) (hr : Reached r)
    {cs : List HandlerCall} (hcs : ∀ c, c ∈ cs) :
    ∃ x r' f' r'', Handed x r f r' ∧ f.calls cs = some f' ∧ r'.calls cs = some r'' ∧
      r''.seen = f'.seen := by
  obtain ⟨o, ho, hor⟩ := h blank r reached_blank hr 0 0 (plain rs) (plain rs) (plain_res rs)
    (plain_res rs) cs hcs
  obtain ⟨x, r', hhanded, hx⟩ := hf.handed_of_idle hr.idle 0 (plain_res rs)
  obtain ⟨f', hf', hseen⟩ := Request.sees_some hf.handed ho
  obtain ⟨r'', hr'', hseen'⟩ := Request.sees_some hhanded hor
  exact ⟨x, r', f', r'', hx, hf', hr'', hseen'.trans hseen.symm⟩

theorem Accepted.seen_eq (hf : Accepted rs f) : f.seen = blank.seen := by
  obtain ⟨x, r', hhanded, hx⟩ := hf.handed_of_idle reached_blank.idle 0 (plain_res rs)
  obtain rfl : f = r' := Option.some.inj (hf.handed.symm.trans hhanded)
  exact seen_of_tables hx.tables

/-- An isolated request has a cookie header. -/
theorem IsolatedRequest.cookie (h : IsolatedRequest rs) (hf : Accepted rs f) (hr : Stale r) :
    ∃ hdr, f.b.findCookie f.headersIn.p = some (some hdr) := by
  have hall : ∀ c, c ∈ [HandlerCall.cookies, .queryString, .post] := by
    intro c
    cases c <;> simp
  obtain ⟨x, r', f', r'', hx, hcalls, hcalls', hseen⟩ := h.calls_eq hf hr.reached hall
  cases hfind : f.b.findCookie f.headersIn.p with
  | none =>
      simp [Request.calls, Request.call, Request.httpParseCookies, hfind] at hcalls
  | some found =>
      cases found with
      | some hdr => exact ⟨hdr, rfl⟩
      | none =>
          obtain ⟨o, ho, hnone⟩ := Buf.findCookie_append hx.mem hx.p hfind
          obtain rfl : o = none := by simpa using hnone
          refine absurd ?_ hr.cookies
          calc r.seen .cookies = r'.seen .cookies := by rw [seen_of_tables hx.tables]
            _ = r''.seen .cookies := (cookies_of_findCookie (by simp) ho hcalls').symm
            _ = f'.seen .cookies := by rw [hseen]
            _ = f.seen .cookies := cookies_of_findCookie (by simp) hfind hcalls
            _ = blank.seen .cookies := by rw [hf.seen_eq]

/-- An isolated request has a body in parts. -/
theorem IsolatedRequest.multipart (h : IsolatedRequest rs) (hf : Accepted rs f) (hr : Stale r) :
    f.headersIn.methodPost = true ∧ f.headersIn.urlenc = false := by
  by_contra hnot
  have hall : ∀ c, c ∈ [HandlerCall.post, .queryString, .cookies] := by
    intro c
    cases c <;> simp
  obtain ⟨x, r', f', r'', hx, hcalls, hcalls', hseen⟩ := h.calls_eq hf hr.reached hall
  have hfiles : (f'.seen .post).2 = (0, []) ∧ r'.headersIn.urlenc = true := by
    cases hpost : f.headersIn.methodPost with
    | false =>
        obtain ⟨hurlenc, hlen, hkept⟩ := hx.bodiless hpost
        exact ⟨files_of_short (by simp) hurlenc (by omega) hcalls, hkept.trans hr.urlenc⟩
    | true =>
        have hurlenc : f.headersIn.urlenc = true := by simpa [hpost] using hnot
        refine ⟨?_, (hx.follows hpost).urlenc.trans hurlenc⟩
        rw [files_of_urlenc (by simp) hurlenc hcalls, hf.seen_eq]
        rfl
  refine hr.files ?_
  calc (r.seen .post).2 = (r'.seen .post).2 := by rw [seen_of_tables hx.tables]
    _ = (r''.seen .post).2 := (files_of_urlenc (by simp) hfiles.2 hcalls').symm
    _ = (f'.seen .post).2 := by rw [hseen]
    _ = (0, []) := hfiles.1

end

/-! ## An upload and a form -/

/-- The structure behind a request whose handler made the calls `cs`. -/
def Request.after (r : Request) (rs : List Recv) (cs : List HandlerCall) : Option Request :=
  ((r.handed 0 (plain rs)).bind fun r => r.calls cs).map fun r =>
    httpCleanup (r.responded r.headersOut r.outVec r.temp) 0

theorem Reached.after {r r' : Request} (h : Reached r) {rs : List Recv} {cs : List HandlerCall}
    (hr' : r.after rs cs = some r') : Reached r' := by
  obtain ⟨r₁, hr₁, rfl⟩ := Option.map_eq_some_iff.1 hr'
  obtain ⟨r₂, hhanded, hcalls⟩ := Option.bind_eq_some_iff.1 hr₁
  exact .handled h hhanded hcalls _ _ _ _

end OpenTube
