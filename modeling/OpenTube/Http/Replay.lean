import OpenTube.Http.PostBody
import OpenTube.Http.Route
import OpenTube.Http.Handler

/-!
# The same bytes in two structures

Two structures receive the same bytes in the same chunks. Their buffers lie at
different addresses and are moved at different times, so the runs are compared
relative to the buffers: `Alike` for what the header block determines,
`AlikeBody` for the body of a `POST`. The second buffer may hold more bytes
behind the request, because only a buffer that is moved is cut off there.
-/

namespace OpenTube

open Scan

/-! ## Tables that receiving leaves alone -/

/-- The tables a handler reads. -/
def Request.tables (r : Request) : Table Arg × Table Arg × Table Arg × Table PostFile :=
  (r.headersIn.args, r.headersIn.cookies, r.body.post, r.body.files)

@[simp] theorem tables_expand (r : Request) (add addr : Int) :
    (r.expand add addr).tables = r.tables := by
  rw [Request.expand_eq]
  rfl

@[simp] theorem tables_received (r : Request) (chunk : List UInt8) (addr : Int) :
    (r.received chunk addr).tables = r.tables := by
  have h := tables_expand r httpRecvBuffer addr
  simpa only [Request.received, Request.tables] using h

@[simp] theorem tables_writeBody (r : Request) (o : Nat) (bytes : List UInt8) :
    (r.writeBody o bytes).tables = r.tables := by
  simp [Request.tables]

@[simp] theorem tables_servePost (r : Request) : (servePost r).1.tables = r.tables := by
  unfold servePost
  split
  · simp only [tables_writeBody]
    rfl
  · rfl

@[simp] theorem tables_servePostHeaders (r : Request) (q : ParsedRequest) (extra : List UInt8)
    (a bodyAddr : Int) : (servePostHeaders r q extra a bodyAddr).1.tables = r.tables := by
  unfold servePostHeaders
  simp only
  split
  · rfl
  · rfl
  · split
    · rfl
    · split
      · rfl
      · split
        · simp only [tables_servePost]
          rfl
        · simp only [tables_servePost, tables_expand]
          rfl

@[simp] theorem tables_serveHeader (r : Request) (chunk : List UInt8) (e : RecvEvent) :
    (serveHeader r chunk e).1.tables = r.tables := by
  unfold serveHeader
  split
  · split
    · rfl
    · simp only
      split
      · rfl
      · rfl
      · split
        · simp only [tables_servePostHeaders]
          rfl
        · rfl
  · split
    · rfl
    · split <;> rfl

@[simp] theorem tables_serveData (r : Request) (chunk : List UInt8) (e : RecvEvent) :
    (serveData r chunk e).1.tables = r.tables := by
  unfold serveData
  split
  · simp
  · split
    · rfl
    · simp only [tables_servePost]
      rfl

@[simp] theorem tables_serveNoData (r : Request) (res : Recv) :
    (serveNoData r res).1.tables = r.tables := by
  unfold serveNoData
  split <;> rfl

@[simp] theorem tables_serveRecv (r : Request) (e : RecvEvent) :
    (serveRecv r e).1.tables = r.tables := by
  unfold serveRecv
  split
  · split <;> simp
  · split <;> simp

/-- Receiving a request leaves the tables of the last one. -/
@[simp] theorem tables_serveAll (r : Request) (es : List RecvEvent) :
    (serveAll r es).1.tables = r.tables := by
  induction es generalizing r with
  | nil => rfl
  | cons e es ih =>
      rw [serveAll]
      split
      · simp [ih]
      · simp

/-! ## Two structures -/

/-- Both structures hold the same header block, and the second `x` behind the
bytes of the first. -/
structure Alike (x : List UInt8) (r₀ r : Request) : Prop where
  mem : r.b.mem = r₀.b.mem ++ x
  uri : r.headersIn.uri.shift (-r.b.data) = r₀.headersIn.uri.shift (-r₀.b.data)
  p : r.headersIn.p.map (fun h => h.shift (-r.b.data)) =
    r₀.headersIn.p.map fun h => h.shift (-r₀.b.data)
  methodPost : r.headersIn.methodPost = r₀.headersIn.methodPost

/-- Both structures have received the same part of a body. -/
structure AlikeBody (r₀ r : Request) : Prop where
  urlenc : r.headersIn.urlenc = r₀.headersIn.urlenc
  contentLengthVal : r.headersIn.contentLengthVal = r₀.headersIn.contentLengthVal
  dataStr : r.body.dataStr.relative r.b.data = r₀.body.dataStr.relative r₀.b.data
  dataLen : r.body.dataLen = r₀.body.dataLen
  file : r.temp.file = r₀.temp.file

section

variable {x : List UInt8} {r₀ r : Request}

theorem Alike.uri_len (h : Alike x r₀ r) : r.headersIn.uri.len = r₀.headersIn.uri.len := by
  have huri := h.uri
  simp only [UStr.shift, UStr.mk.injEq] at huri
  exact huri.1

theorem Alike.uri_str (h : Alike x r₀ r) :
    r.headersIn.uri.str - r.b.data = r₀.headersIn.uri.str - r₀.b.data := by
  have huri := h.uri
  simp only [UStr.shift, UStr.mk.injEq] at huri
  omega

/-- Writes at the same place of two equal buffers. -/
theorem Buf.write_same {b₀ b : Buf} {a₀ a : Int} (hmem : b.mem = b₀.mem)
    (ha : a - b.data = a₀ - b₀.data) (bytes : List UInt8) :
    (b.write a bytes).mem = (b₀.write a₀ bytes).mem := by
  simp only [Buf.write, hmem, ha]
  split
  · rfl
  · exact hmem

/-- The same bytes are written to both bodies, inside the body if the second
buffer holds more than the first. -/
theorem Alike.writeBody (h : Alike x r₀ r) (hb : AlikeBody r₀ r) (o : Nat) (bytes : List UInt8)
    (hroom : x = [] ∨ ∃ s, r₀.bodyFrom = some s ∧ o + bytes.length ≤ s.length) :
    Alike x (r₀.writeBody o bytes) (r.writeBody o bytes) ∧
      AlikeBody (r₀.writeBody o bytes) (r.writeBody o bytes) := by
  have hstr := hb.dataStr
  have hmem : (r.writeBody o bytes).b.mem = (r₀.writeBody o bytes).b.mem ++ x ∧
      (r.writeBody o bytes).temp.file = (r₀.writeBody o bytes).temp.file := by
    unfold Request.bodyFrom at hroom
    unfold Request.writeBody
    cases hp₀ : r₀.body.dataStr with
    | heap a₀ =>
        cases hp : r.body.dataStr with
        | mapped o' => simp [hp₀, hp, Ptr.relative] at hstr
        | heap a =>
            have ha : a - r.b.data = a₀ - r₀.b.data := by
              simpa [hp₀, hp, Ptr.relative] using hstr
            refine ⟨?_, hb.file⟩
            rcases hroom with rfl | ⟨s, hs, hlen⟩
            · have hmem := h.mem
              rw [List.append_nil] at hmem ⊢
              exact Buf.write_same hmem (by omega) bytes
            · simp only [hp₀] at hs
              obtain ⟨front, hfront, ha₀⟩ := Buf.from_split hs
              have hfrom : r₀.b.from (a₀ + (o : Nat)) = some (s.drop o) := by
                have hoff : a₀ + (o : Nat) - r₀.b.data = (front.length + o : Nat) := by omega
                rw [Buf.from, hoff, hfront, if_pos, Int.toNat_natCast, List.drop_append]
                · simp
                · simp only [List.length_append]
                  omega
              exact Buf.write_append h.mem (by omega) hfrom (by rw [List.length_drop]; omega)
    | mapped o₀ =>
        cases hp : r.body.dataStr with
        | heap a => simp [hp₀, hp, Ptr.relative] at hstr
        | mapped o' =>
            obtain rfl : o' = o₀ := by simpa [hp₀, hp, Ptr.relative] using hstr
            exact ⟨h.mem, by simp [hb.file]⟩
  refine ⟨⟨hmem.1, ?_, ?_, ?_⟩, ⟨?_, ?_, ?_, ?_, hmem.2⟩⟩
  · simpa using h.uri
  · simpa using h.p
  · simpa using h.methodPost
  · simpa using hb.urlenc
  · simpa using hb.contentLengthVal
  · simpa using hb.dataStr
  · simpa using hb.dataLen

/-- The end of a pass over the body. -/
theorem Alike.servePost (h : Alike x r₀ r) (hb : AlikeBody r₀ r)
    (hroom : x = [] ∨
      ∃ s, r₀.bodyFrom = some s ∧ r₀.headersIn.contentLengthVal < s.length) :
    (servePost r).2 = (servePost r₀).2 ∧ Alike x (servePost r₀).1 (servePost r).1 ∧
      AlikeBody (servePost r₀).1 (servePost r).1 := by
  have hlen := hb.dataLen
  have hcl := hb.contentLengthVal
  unfold OpenTube.servePost
  rw [hcl, hlen]
  split
  · refine ⟨rfl, ?_⟩
    have hset : Alike x
        { r₀ with body := { r₀.body with dataLen := r₀.headersIn.contentLengthVal } }
        { r with body := { r.body with dataLen := r₀.headersIn.contentLengthVal } } :=
      ⟨h.mem, h.uri, h.p, h.methodPost⟩
    have hset' : AlikeBody
        { r₀ with body := { r₀.body with dataLen := r₀.headersIn.contentLengthVal } }
        { r with body := { r.body with dataLen := r₀.headersIn.contentLengthVal } } :=
      ⟨hb.urlenc, hcl, hb.dataStr, rfl, hb.file⟩
    refine hset.writeBody hset' _ _ (hroom.imp_right ?_)
    rintro ⟨s, hs, hlt⟩
    exact ⟨s, hs, hlt⟩
  · exact ⟨rfl, h, hb⟩

/-! ## Waiting for a body -/

/-- One pass over the body. -/
theorem Alike.serveRecv (h : Alike [] r₀ r) (hb : AlikeBody r₀ r) {e₀ e : RecvEvent}
    (he : e.res = e₀.res) (hpost : r₀.headersIn.methodPost = true)
    (huri : r₀.headersIn.uri.len ≠ 0) :
    (serveRecv r e).2 = (serveRecv r₀ e₀).2 ∧ Alike [] (serveRecv r₀ e₀).1 (serveRecv r e).1 ∧
      AlikeBody (serveRecv r₀ e₀).1 (serveRecv r e).1 := by
  have hpost' : r.headersIn.methodPost = true := h.methodPost.trans hpost
  have huri' : r.headersIn.uri.len ≠ 0 := h.uri_len ▸ huri
  have hnoData : ∀ res, (serveNoData r res).2 = (serveNoData r₀ res).2 ∧
      Alike [] (serveNoData r₀ res).1 (serveNoData r res).1 ∧
      AlikeBody (serveNoData r₀ res).1 (serveNoData r res).1 := by
    intro res
    unfold serveNoData
    split
    · exact ⟨rfl, ⟨h.mem, h.uri, h.p, h.methodPost⟩,
        ⟨hb.urlenc, hb.contentLengthVal, hb.dataStr, hb.dataLen, hb.file⟩⟩
    · exact ⟨rfl, ⟨h.mem, h.uri, h.p, h.methodPost⟩,
        ⟨hb.urlenc, hb.contentLengthVal, hb.dataStr, hb.dataLen, hb.file⟩⟩
  cases hres : e₀.res with
  | wouldBlock => simpa [OpenTube.serveRecv, hpost, hpost', he, hres] using hnoData .wouldBlock
  | closed => simpa [OpenTube.serveRecv, hpost, hpost', he, hres] using hnoData .closed
  | data chunk =>
      obtain ⟨hw, hwb⟩ := h.writeBody hb r₀.body.dataLen chunk (.inl rfl)
      have hset : Alike []
          { r₀.writeBody r₀.body.dataLen chunk with
            body := { r₀.body with dataLen := r₀.body.dataLen + chunk.length } }
          { r.writeBody r.body.dataLen chunk with
            body := { r.body with dataLen := r.body.dataLen + chunk.length } } := by
        rw [hb.dataLen]
        exact ⟨hw.mem, hw.uri, hw.p, hw.methodPost⟩
      have hset' : AlikeBody
          { r₀.writeBody r₀.body.dataLen chunk with
            body := { r₀.body with dataLen := r₀.body.dataLen + chunk.length } }
          { r.writeBody r.body.dataLen chunk with
            body := { r.body with dataLen := r.body.dataLen + chunk.length } } := by
        rw [hb.dataLen]
        exact ⟨hwb.urlenc, hwb.contentLengthVal, by simpa using hb.dataStr, rfl,
          hwb.file⟩
      have hpass := hset.servePost hset' (.inl rfl)
      simpa [OpenTube.serveRecv, hpost, hpost', he, hres, serveData, huri, huri'] using hpass

@[simp] theorem servePost_headersIn (r : Request) :
    (OpenTube.servePost r).1.headersIn = r.headersIn := by
  unfold OpenTube.servePost
  split
  · simp
  · rfl

/-- A pass over the body keeps what marks the request as a `POST`. -/
theorem serveRecv_keeps_post {e : RecvEvent} (hpost : r.headersIn.methodPost = true)
    (huri : r.headersIn.uri.len ≠ 0) :
    (serveRecv r e).1.headersIn.methodPost = true ∧ (serveRecv r e).1.headersIn.uri.len ≠ 0 := by
  have hnoData : ∀ res, (serveNoData r res).1.headersIn = r.headersIn := by
    intro res
    unfold serveNoData
    split <;> rfl
  cases hres : e.res with
  | wouldBlock => simp [OpenTube.serveRecv, hpost, hres, hnoData, huri]
  | closed => simp [OpenTube.serveRecv, hpost, hres, hnoData, huri]
  | data chunk => simp [OpenTube.serveRecv, hpost, hres, serveData, huri]

/-- A run over the rest of the body. -/
theorem Alike.serveAll_body {es₀ : List RecvEvent} :
    ∀ {r₀ r : Request} {es : List RecvEvent}, Alike [] r₀ r → AlikeBody r₀ r →
      r₀.headersIn.methodPost = true → r₀.headersIn.uri.len ≠ 0 →
      es.map RecvEvent.res = es₀.map RecvEvent.res →
      (serveAll r es).2.1 = (serveAll r₀ es₀).2.1 ∧
        Alike [] (serveAll r₀ es₀).1 (serveAll r es).1 ∧
        AlikeBody (serveAll r₀ es₀).1 (serveAll r es).1 ∧
        (serveAll r₀ es₀).1.headersIn.methodPost = true := by
  induction es₀ with
  | nil =>
      intro r₀ r es h hb hpost _ hes
      obtain rfl : es = [] := by simpa using hes
      exact ⟨rfl, h, hb, hpost⟩
  | cons e₀ es₀ ih =>
      intro r₀ r es h hb hpost huri hes
      obtain ⟨e, es, rfl, he, hes⟩ := List.map_eq_cons_iff.1 hes
      obtain ⟨hserved, hnext, hbnext⟩ := h.serveRecv hb he hpost huri
      obtain ⟨hpost', huri'⟩ := serveRecv_keeps_post (e := e₀) hpost huri
      rw [serveAll, serveAll, hserved]
      split
      · exact ih hnext hbnext hpost' huri' hes
      · exact ⟨rfl, hnext, hbnext, hpost'⟩

/-! ## Behind the header block -/

theorem Request.expand_uri_relative (r : Request) (add addr : Int) :
    (r.expand add addr).headersIn.uri.shift (-(r.expand add addr).b.data) =
      r.headersIn.uri.shift (-r.b.data) := by
  have hdata := r.b.expand_data add addr
  rw [Request.expand_eq]
  simp only [httpBufferMoved, UStr.shift, UStr.mk.injEq, true_and]
  omega

theorem Request.expand_p_relative (r : Request) (add addr : Int) :
    (r.expand add addr).headersIn.p.map (fun h => h.shift (-(r.expand add addr).b.data)) =
      r.headersIn.p.map fun h => h.shift (-r.b.data) := by
  have hdata := r.b.expand_data add addr
  rw [Request.expand_eq]
  simp only [httpBufferMoved, List.map_map]
  refine List.map_congr_left fun h _ => ?_
  simp only [Function.comp_apply, Header.shift, UStr.shift, Header.mk.injEq, UStr.mk.injEq,
    true_and]
  omega

theorem Request.expand_dataStr_relative {r : Request} {a : Int} (h : r.body.dataStr = .heap a)
    (add addr : Int) :
    (r.expand add addr).body.dataStr.relative (r.expand add addr).b.data =
      .heap (a - r.b.data) := by
  have hdata := r.b.expand_data add addr
  rw [Request.expand_eq]
  simp only [httpBufferMoved, h, Ptr.shift, Ptr.relative, Ptr.heap.injEq]
  omega

/-- The bytes behind a place of the buffer. -/
theorem Buf.from_add {b : Buf} {a : Int} {j : Nat} (ha : a - b.data = (j : Nat))
    (hj : j ≤ b.mem.length) : b.from a = some (b.mem.drop j) := by
  rw [Buf.from, ha, if_pos ⟨by omega, by exact_mod_cast hj⟩, Int.toNat_natCast]

/-- The room made for a body, behind the `j` bytes of a block. -/
theorem Buf.expand_body {b : Buf} {j n : Nat} (hcur : b.curLen = b.mem.length)
    (hj : j ≤ b.mem.length) (hjmax : j ≤ httpMaxHeadersSize) (hn : n ≤ httpMaxRequestBodySize)
    (addr : Int) :
    (b.expand ((n : Int) - (b.mem.drop j).length + 1) addr).1.mem =
      if b.reservedLen < j + (n + 1) then b.mem.take (j + (n + 1)) else b.mem := by
  have hroom : uint (b.curLen + ((n : Int) - (b.mem.drop j).length + 1)) = j + (n + 1) := by
    have hsizes : httpMaxHeadersSize + httpMaxRequestBodySize + 1 < 2 ^ 32 := by decide
    rw [hcur, List.length_drop]
    unfold uint
    omega
  simp only [Buf.expand, hroom]
  by_cases hmove : b.reservedLen < j + (n + 1)
  · simp only [if_pos hmove]
  · simp only [if_neg hmove]

/-- Both structures make room for the rest of the body. The first one cuts off
what lies behind the body. -/
theorem Alike.startBody (h : Alike [] r₀ r) (hfile : r.temp.file = r₀.temp.file)
    (hcur₀ : r₀.b.curLen = r₀.b.mem.length) (hcur : r.b.curLen = r.b.mem.length)
    (hreserved : r₀.b.reservedLen = 0) {j : Nat} (hj : j ≤ r₀.b.mem.length)
    (hjmax : j ≤ httpMaxHeadersSize) {k : PostInfo} (hk : k.length ≤ httpMaxRequestBodySize)
    {extra : List UInt8} (hextra : extra = r₀.b.mem.drop j) (addr₀ addr : Int) :
    ∃ x, Alike x (r₀.startBody k extra (r₀.b.data + j) addr₀)
        (r.startBody k extra (r.b.data + j) addr) ∧
      AlikeBody (r₀.startBody k extra (r₀.b.data + j) addr₀)
        (r.startBody k extra (r.b.data + j) addr) ∧
      (x = [] ∨ (k.length < extra.length ∧
        ∃ s, (r₀.startBody k extra (r₀.b.data + j) addr₀).bodyFrom = some s ∧
          k.length < s.length)) := by
  have hmem : r.b.mem = r₀.b.mem := by simpa using h.mem
  unfold Request.startBody
  by_cases hstore : httpRequestBodySizeStoreInFile < k.length
  · simp only [if_pos hstore]
    exact ⟨[], ⟨h.mem, h.uri, h.p, h.methodPost⟩, ⟨rfl, rfl, rfl, rfl, rfl⟩, .inl rfl⟩
  · simp only [if_neg hstore]
    generalize hs₀ : r₀.storePostInfo k extra (r₀.b.data + j) = s₀
    generalize hs : r.storePostInfo k extra (r.b.data + j) = s
    have hb₀ : s₀.b = r₀.b := by rw [← hs₀]; rfl
    have hb : s.b = r.b := by rw [← hs]; rfl
    have hdata₀ : s₀.body.dataStr = .heap (r₀.b.data + j) := by rw [← hs₀]; rfl
    have hdata : s.body.dataStr = .heap (r.b.data + j) := by rw [← hs]; rfl
    have hexp₀ := Buf.expand_body hcur₀ hj hjmax hk addr₀
    have hexp := Buf.expand_body hcur (hmem ▸ hj) hjmax hk addr
    rw [hmem] at hexp
    rw [← hextra] at hexp₀ hexp
    rw [if_pos (by omega)] at hexp₀
    have hrel := Request.expand_dataStr_relative hdata (k.length - extra.length + 1) addr
    have hrel₀ := Request.expand_dataStr_relative hdata₀ (k.length - extra.length + 1) addr₀
    have hbody : AlikeBody (s₀.expand (k.length - extra.length + 1) addr₀)
        (s.expand (k.length - extra.length + 1) addr) := by
      refine ⟨?_, ?_, ?_, ?_, ?_⟩
      · rw [Request.expand_eq, Request.expand_eq, ← hs₀, ← hs]
        rfl
      · rw [Request.expand_eq, Request.expand_eq, ← hs₀, ← hs]
        rfl
      · rw [hrel, hrel₀, hb, hb₀]
        congr 1
        omega
      · rw [Request.expand_eq, Request.expand_eq, ← hs₀, ← hs]
        rfl
      · rw [Request.expand_eq, Request.expand_eq, ← hs₀, ← hs]
        exact hfile
    have halike : ∀ x, (s.expand (k.length - extra.length + 1) addr).b.mem =
        (s₀.expand (k.length - extra.length + 1) addr₀).b.mem ++ x →
        Alike x (s₀.expand (k.length - extra.length + 1) addr₀)
          (s.expand (k.length - extra.length + 1) addr) := by
      intro x hx
      refine ⟨hx, ?_, ?_, ?_⟩
      · rw [Request.expand_uri_relative, Request.expand_uri_relative, ← hs₀, ← hs]
        exact h.uri
      · rw [Request.expand_p_relative, Request.expand_p_relative, ← hs₀, ← hs]
        exact h.p
      · rw [Request.expand_methodPost, Request.expand_methodPost, ← hs₀, ← hs]
        exact h.methodPost
    rw [← hb₀, ← Request.expand_b] at hexp₀
    rw [← hb, ← Request.expand_b] at hexp
    by_cases hmove : s.b.reservedLen < j + (k.length + 1)
    · rw [if_pos hmove, hb₀.symm] at hexp
      exact ⟨[], halike [] (by rw [hexp, hexp₀, List.append_nil]), hbody, .inl rfl⟩
    · rw [if_neg hmove, hb₀.symm] at hexp
      refine ⟨s₀.b.mem.drop (j + (k.length + 1)), halike _ ?_, hbody, ?_⟩
      · rw [hexp, hexp₀, List.take_append_drop]
      · -- bytes behind the body are there only if there is a byte behind it
        by_cases hlong : s₀.b.mem.length ≤ j + (k.length + 1)
        · exact .inl (List.drop_eq_nil_of_le hlong)
        · have hlen : (s₀.b.mem.take (j + (k.length + 1))).length = j + (k.length + 1) := by
            rw [List.length_take]
            omega
          have hex : extra.length = s₀.b.mem.length - j := by
            rw [hextra, List.length_drop, hb₀]
          refine .inr ⟨by omega, (s₀.b.mem.take (j + (k.length + 1))).drop j, ?_, ?_⟩
          · unfold Request.bodyFrom
            cases hp : (s₀.expand (k.length - extra.length + 1) addr₀).body.dataStr with
            | mapped o => simp [hp, Ptr.relative] at hrel₀
            | heap a =>
                simp only
                rw [hp, hb₀] at hrel₀
                simp only [Ptr.relative, Ptr.heap.injEq] at hrel₀
                rw [Buf.from_add (j := j) (by omega) (by rw [hexp₀, hlen]; omega), hexp₀]
          · rw [List.length_drop, hlen]
            omega

/-- The rest of the pass that finds the block of a `POST`. -/
theorem Alike.servePost_startBody (h : Alike [] r₀ r) (hfile : r.temp.file = r₀.temp.file)
    (hcur₀ : r₀.b.curLen = r₀.b.mem.length) (hcur : r.b.curLen = r.b.mem.length)
    (hreserved : r₀.b.reservedLen = 0) {j : Nat} (hj : j ≤ r₀.b.mem.length)
    (hjmax : j ≤ httpMaxHeadersSize) {k : PostInfo} (hk : k.length ≤ httpMaxRequestBodySize)
    {extra : List UInt8} (hextra : extra = r₀.b.mem.drop j)
    (hpost : r₀.headersIn.methodPost = true) (huri : r₀.headersIn.uri.len ≠ 0)
    (addr₀ addr : Int) {s₀ s : Request × Served}
    (hs₀ : s₀ = OpenTube.servePost (r₀.startBody k extra (r₀.b.data + j) addr₀))
    (hs : s = OpenTube.servePost (r.startBody k extra (r.b.data + j) addr)) :
    s.2 = s₀.2 ∧ s₀.1.headersIn.methodPost = true ∧ s₀.1.headersIn.uri.len ≠ 0 ∧
      ∃ x, Alike x s₀.1 s.1 ∧ AlikeBody s₀.1 s.1 ∧ (s₀.2 ≠ .response → x = []) := by
  obtain ⟨x, hx, hbody, hroom⟩ :=
    h.startBody hfile hcur₀ hcur hreserved hj hjmax hk hextra addr₀ addr
  have hcl := Request.startBody_contentLengthVal r₀ k extra (r₀.b.data + j) addr₀
  have hdata := Request.startBody_dataLen r₀ k extra (r₀.b.data + j) addr₀
  obtain ⟨hpost', huri'⟩ := Request.startBody_keeps_post r₀ k extra (r₀.b.data + j) addr₀
  obtain ⟨hsame, hx', hbody'⟩ := hx.servePost hbody (hroom.imp_right fun ⟨_, s, hs, hlt⟩ =>
    ⟨s, hs, hcl.symm ▸ hlt⟩)
  subst hs₀ hs
  refine ⟨hsame, ?_, ?_, x, hx', hbody', fun hne => ?_⟩
  · rw [servePost_headersIn, hpost', hpost]
  · rw [servePost_headersIn, huri']
    exact huri
  · -- a body that waits for more bytes has none behind it
    refine hroom.resolve_right fun hlong => hne ?_
    rw [OpenTube.servePost, if_pos (by rw [hcl, hdata]; omega)]

/-! ## While the block is incomplete -/

/-- What receiving a part of a block leaves alone. -/
def Request.carried (r : Request) : Bool × Nat × Option (List UInt8) × Nat :=
  (r.headersIn.urlenc, r.body.dataLen, r.temp.file, r.b.reservedLen)

@[simp] theorem Buf.write_reservedLen (b : Buf) (a : Int) (bytes : List UInt8) :
    (b.write a bytes).reservedLen = b.reservedLen := by
  simp only [Buf.write]
  split <;> rfl

@[simp] theorem carried_expand (r : Request) (add addr : Int) :
    (r.expand add addr).carried = r.carried := by
  have hreserved : (r.b.expand add addr).1.reservedLen = r.b.reservedLen := by
    unfold Buf.expand
    by_cases h : r.b.reservedLen < uint (r.b.curLen + add)
    · simp [h]
    · simp [h]
  rw [Request.expand_eq]
  simp [Request.carried, httpBufferMoved, hreserved]

@[simp] theorem carried_received (r : Request) (chunk : List UInt8) (addr : Int) :
    (r.received chunk addr).carried = r.carried := by
  have h := carried_expand r httpRecvBuffer addr
  simpa only [Request.received, Request.carried, Buf.write_reservedLen] using h

@[simp] theorem carried_serveNoData (r : Request) (res : Recv) :
    (serveNoData r res).1.carried = r.carried := by
  unfold serveNoData
  split <;> rfl

/-- The structures `r₀` and `r` became `r₀'` and `r'` by the same bytes. A
request without a body leaves the fields of the last body. -/
structure Replayed (x : List UInt8) (r₀ r r₀' r' : Request) : Prop where
  alike : Alike x r₀' r'
  body : r₀'.headersIn.methodPost = true → AlikeBody r₀' r'
  bodiless : r₀'.headersIn.methodPost = false →
    (r₀'.headersIn.urlenc, r₀'.body.dataLen) = (r₀.headersIn.urlenc, r₀.body.dataLen) ∧
      r'.headersIn.urlenc = r.headersIn.urlenc

theorem alike_storeParsed (r₀ r : Request) (q : ParsedRequest) (keepalive₀ keepalive : Bool) :
    Alike [] (r₀.storeParsed q keepalive₀) (r.storeParsed q keepalive) := by
  refine ⟨by simp [Request.storeParsed], ?_, ?_, rfl⟩
  · simp only [Request.storeParsed, UStr.shift, UStr.mk.injEq, true_and]
    omega
  · simp only [Request.storeParsed, lineHeaders_shift, ParsedRequest.versionAddr]
    congr 1
    omega

/-- The pass that finds the terminator. -/
theorem HeaderPhase.replay_found {acc chunk : List UInt8} {i : Nat}
    (h₀ : HeaderPhase r₀ (acc ++ chunk)) (h : HeaderPhase r (acc ++ chunk))
    (hi : findTerminator chunk = some i) (hmax : (acc ++ chunk).length ≤ httpMaxHeadersSize)
    (hreserved : r₀.b.reservedLen = 0) (hfile : r.temp.file = r₀.temp.file) (e₀ e : RecvEvent)
    (hserved : (serveHeader r₀ chunk e₀).2 = .response ∨ (serveHeader r₀ chunk e₀).2 = .waiting ∨
      (serveHeader r₀ chunk e₀).2 = .more) :
    (serveHeader r chunk e).2 = (serveHeader r₀ chunk e₀).2 ∧
      ∃ x, Replayed x r₀ r (serveHeader r₀ chunk e₀).1 (serveHeader r chunk e).1 ∧
        ((serveHeader r₀ chunk e₀).2 ≠ .response →
          x = [] ∧ (serveHeader r₀ chunk e₀).1.headersIn.methodPost = true ∧
            (serveHeader r₀ chunk e₀).1.headersIn.uri.len ≠ 0) := by
  obtain ⟨-, hlt⟩ := findTerminator_lt hi
  have hfound₀ := h₀.serveHeader_found hi hmax rfl e₀
  have hfound := h.serveHeader_found hi hmax rfl e
  revert hfound₀ hfound
  have hmarked : (markAt (acc ++ chunk) (acc.length + i - 1)).length = (acc ++ chunk).length := by
    apply markAt_length
    rw [List.length_append]
    omega
  generalize markAt (acc ++ chunk) (acc.length + i - 1) = m at hmarked
  intro hfound₀ hfound
  cases hq : httpParseHeaders m with
  | overrun => simp [hfound₀, hq] at hserved
  | error code lines => simp [hfound₀, hq] at hserved
  | ok q =>
      have hqlen : q.mem.length = (acc ++ chunk).length :=
        (httpParseHeaders_ok_length hq).trans hmarked
      have hj : acc.length + i + 1 ≤ q.mem.length := by
        rw [hqlen, List.length_append]
        omega
      have hjmax : acc.length + i + 1 ≤ httpMaxHeadersSize := by
        rw [List.length_append] at hmax
        omega
      have halike := alike_storeParsed (r₀.holding m) (r.holding m) q e₀.keepalive e.keepalive
      by_cases hmethod : q.method = .post
      · simp only [hq, if_pos hmethod] at hfound₀ hfound
        cases hk : q.postInfo with
        | error code => simp [hfound₀, servePostHeaders_error hk] at hserved
        | ok k =>
            rw [servePostHeaders_ok hk] at hfound₀ hfound
            obtain ⟨hsame, hpost, huri, x, hx, hbody, hwait⟩ := halike.servePost_startBody hfile
              (h₀.curLen.trans hqlen.symm) (h.curLen.trans hqlen.symm) hreserved hj hjmax
              (q.postInfo_length hk) rfl (by simp [Request.storeParsed, hmethod])
              (by simpa [Request.storeParsed] using httpParseHeaders_ok_uri_ne_nil hq)
              e₀.bodyAddr e.bodyAddr hfound₀ hfound
            refine ⟨hsame, x, ⟨hx, fun _ => hbody, fun hget => ?_⟩,
              fun hne => ⟨hwait hne, hpost, huri⟩⟩
            exact absurd (hpost.symm.trans hget) (by simp)
      · simp only [hq, if_neg hmethod] at hfound₀ hfound
        rw [hfound₀, hfound]
        refine ⟨rfl, [], ⟨halike, ?_, fun _ => ⟨rfl, rfl⟩⟩, fun hne => absurd rfl hne⟩
        intro hpost
        simp [Request.storeParsed, hmethod] at hpost

/-- Structures that receive the block from here on may be replaced by those they
became. -/
theorem Replayed.of_carried {s₀ s r₀' r' : Request} (h : Replayed x s₀ s r₀' r')
    (hc₀ : s₀.carried = r₀.carried) (hc : s.carried = r.carried) : Replayed x r₀ r r₀' r' := by
  simp only [Request.carried, Prod.mk.injEq] at hc₀ hc
  refine ⟨h.alike, h.body, fun hget => ?_⟩
  obtain ⟨hkept₀, hkept⟩ := h.bodiless hget
  exact ⟨by rw [hkept₀, hc₀.1, hc₀.2.1], hkept.trans hc.1⟩

/-- The rest of the runs from the pass that finds the terminator on. -/
theorem HeaderPhase.replay_terminator {acc chunk : List UInt8} {i : Nat} {e₀ e : RecvEvent}
    {es₀ es : List RecvEvent} (h₀ : HeaderPhase r₀ acc) (h : HeaderPhase r acc)
    (hacc : acc.length ≤ httpMaxHeadersSize) (hreserved : r₀.b.reservedLen = 0)
    (hfile : r.temp.file = r₀.temp.file) (hdata₀ : e₀.res = .data chunk)
    (hdata : e.res = .data chunk) (hroom : chunk.length ≤ httpRecvBuffer)
    (hmax : (acc ++ chunk).length ≤ httpMaxHeadersSize) (hfind : findTerminator chunk = some i)
    (hes : es.map RecvEvent.res = es₀.map RecvEvent.res)
    (hanswered : (serveAll r₀ (e₀ :: es₀)).2.1 = .response) :
    (serveAll r (e :: es)).2.1 = .response ∧
      ∃ x, Replayed x r₀ r (serveAll r₀ (e₀ :: es₀)).1 (serveAll r (e :: es)).1 := by
  have hcarried₀ := carried_received r₀ chunk e₀.addr
  have hcarried := carried_received r chunk e.addr
  have hc₀ := hcarried₀
  have hc := hcarried
  simp only [Request.carried, Prod.mk.injEq] at hc₀ hc
  have hfound := (h₀.received hacc hroom e₀.addr).replay_found (h.received hacc hroom e.addr)
    hfind hmax (hc₀.2.2.2.trans hreserved) (by rw [hc₀.2.2.1, hc.2.2.1, hfile]) e₀ e
  rw [← h₀.serveRecv_data hacc hroom hdata₀, ← h.serveRecv_data hacc hroom hdata] at hfound
  by_cases hgo : (serveRecv r₀ e₀).2 = .more ∨ (serveRecv r₀ e₀).2 = .waiting
  · obtain ⟨hsame, x, hx, hwait⟩ := hfound (.inr hgo.symm)
    obtain ⟨rfl, hpost, huri⟩ := hwait (by rcases hgo with hgo | hgo <;> simp [hgo])
    have hall₀ : serveAll r₀ (e₀ :: es₀) = serveAll (serveRecv r₀ e₀).1 es₀ := by
      rw [serveAll, if_pos hgo]
    have hall : serveAll r (e :: es) = serveAll (serveRecv r e).1 es := by
      rw [serveAll, if_pos (hsame ▸ hgo)]
    obtain ⟨hend, halike, hbody, hpost'⟩ :=
      hx.alike.serveAll_body (hx.body hpost) hpost huri hes
    rw [hall₀] at hanswered ⊢
    rw [hall]
    refine ⟨hend.trans hanswered, [], halike, fun _ => hbody, fun hget => ?_⟩
    exact absurd (hpost'.symm.trans hget) (by simp)
  · have hall₀ : serveAll r₀ (e₀ :: es₀) = ((serveRecv r₀ e₀).1, (serveRecv r₀ e₀).2, es₀) := by
      rw [serveAll, if_neg hgo]
    rw [hall₀] at hanswered ⊢
    obtain ⟨hsame, x, hx, -⟩ := hfound (.inl hanswered)
    have hall : serveAll r (e :: es) = ((serveRecv r e).1, (serveRecv r e).2, es) := by
      rw [serveAll, if_neg (hsame ▸ hgo)]
    rw [hall]
    exact ⟨hsame.trans hanswered, x, hx.of_carried hcarried₀ hcarried⟩

/-- A request that the first structure answers is answered by the second one. -/
theorem HeaderPhase.replay {es₀ : List RecvEvent} :
    ∀ {r₀ r : Request} {acc : List UInt8} {es : List RecvEvent}, HeaderPhase r₀ acc →
      HeaderPhase r acc → acc.length ≤ httpMaxHeadersSize → r₀.b.reservedLen = 0 →
      r.temp.file = r₀.temp.file → Honoured r₀ es₀ →
      es.map RecvEvent.res = es₀.map RecvEvent.res → (serveAll r₀ es₀).2.1 = .response →
      (serveAll r es).2.1 = .response ∧
        ∃ x, Replayed x r₀ r (serveAll r₀ es₀).1 (serveAll r es).1 := by
  induction es₀ with
  | nil =>
      intro r₀ r acc es _ _ _ _ _ _ _ hanswered
      simp [serveAll] at hanswered
  | cons e₀ es₀ ih =>
      intro r₀ r acc es h₀ h hacc hreserved hfile hhonoured hes hanswered
      obtain ⟨e, es, rfl, he, hes⟩ := List.map_eq_cons_iff.1 hes
      obtain ⟨hres, hnext⟩ := hhonoured
      -- a pass that leaves both structures waiting for the block
      have hwaits : ∀ {s₀ s : Request} {acc' : List UInt8}, HeaderPhase s₀ acc' →
          HeaderPhase s acc' → acc'.length ≤ httpMaxHeadersSize → s₀.carried = r₀.carried →
          s.carried = r.carried → Honoured s₀ es₀ → (serveAll s₀ es₀).2.1 = .response →
          (serveAll s es).2.1 = .response ∧
            ∃ x, Replayed x r₀ r (serveAll s₀ es₀).1 (serveAll s es).1 := by
        intro s₀ s acc' hs₀ hs hlen hc₀ hc hhon hans
        have hc₀' := hc₀
        have hc' := hc
        simp only [Request.carried, Prod.mk.injEq] at hc₀' hc'
        obtain ⟨hanswered', x, hx⟩ := ih hs₀ hs hlen (hc₀'.2.2.2.trans hreserved)
          (by rw [hc₀'.2.2.1, hc'.2.2.1, hfile]) hhon hes hans
        exact ⟨hanswered', x, hx.of_carried hc₀ hc⟩
      rcases hres with hwb | ⟨chunk, hdata, -, hroom⟩
      · have hrecv₀ := h₀.serveRecv_wouldBlock hwb
        have hrecv := h.serveRecv_wouldBlock (he.trans hwb)
        obtain ⟨hphase₀, hwait₀⟩ := h₀.noData hacc e₀.addr
        obtain ⟨hphase, hwait⟩ := h.noData hacc e.addr
        have hall₀ : serveAll r₀ (e₀ :: es₀) =
            serveAll (serveNoData (r₀.expand httpRecvBuffer e₀.addr) .wouldBlock).1 es₀ := by
          rw [serveAll, hrecv₀, if_pos (.inr hwait₀)]
        have hall : serveAll r (e :: es) =
            serveAll (serveNoData (r.expand httpRecvBuffer e.addr) .wouldBlock).1 es := by
          rw [serveAll, hrecv, if_pos (.inr hwait)]
        rw [hrecv₀] at hnext
        rw [hall₀] at hanswered ⊢
        rw [hall]
        exact hwaits hphase₀ hphase hacc (by simp) (by simp) (hnext (.inr hwait₀)) hanswered
      · rw [h₀.recvRoom_eq] at hroom
        have hdata' : e.res = .data chunk := he.trans hdata
        by_cases hmax : (acc ++ chunk).length ≤ httpMaxHeadersSize
        · cases hfind : findTerminator chunk with
          | none =>
              obtain ⟨hr₀, hmore₀⟩ := h₀.serveRecv_noTerminator hdata hroom hmax hfind
              have hhon := hnext hmore₀
              rw [hr₀] at hhon
              rw [h₀.serveAll_noTerminator hdata hroom hmax hfind] at hanswered ⊢
              rw [h.serveAll_noTerminator hdata' hroom hmax hfind]
              exact hwaits (h₀.received hacc hroom e₀.addr) (h.received hacc hroom e.addr) hmax
                (carried_received ..) (carried_received ..) hhon hanswered
          | some i =>
              exact h₀.replay_terminator h hacc hreserved hfile hdata hdata' hroom hmax hfind hes
                hanswered
        · have herr := h₀.serveRecv_tooLong hacc hdata hroom (by omega)
          simp [serveAll, herr] at hanswered

end

end OpenTube
