import OpenTube.Http.Accept

/-!
# How a block is cut into chunks

The terminator is searched in the chunk just received, from index 4 on. A block
whose last chunk has at least five bytes is therefore recognised, whatever the
other chunks are; a block whose last chunk is shorter waits for ever. What a
recognised block leads to, `blockOutcome`, is a function of the block.
-/

namespace OpenTube

open Scan

/-! ## Chunks -/

/-- The chunks the calls of `recv` returned. -/
def chunks (es : List RecvEvent) : List (List UInt8) :=
  es.filterMap fun e =>
    match e.res with
    | .data chunk => some chunk
    | _ => none

/-- Every call of `recv` would block or returns a chunk that fits the buffer. -/
def Receives (es : List RecvEvent) : Prop :=
  ∀ e ∈ es, e.res = .wouldBlock ∨
    ∃ chunk, e.res = .data chunk ∧ chunk ≠ [] ∧ chunk.length ≤ httpRecvBuffer

/-- The chunks of `es` are a way of splitting `block`. -/
def Splits (es : List RecvEvent) (block : List UInt8) : Prop :=
  Receives es ∧ (chunks es).flatten = block

/-- The last chunk. -/
def lastChunk (es : List RecvEvent) : List UInt8 := (chunks es).getLastD []

@[simp] theorem chunks_nil : chunks [] = [] := rfl

@[simp] theorem chunks_cons_data {e : RecvEvent} {chunk : List UInt8} (h : e.res = .data chunk)
    (es : List RecvEvent) : chunks (e :: es) = chunk :: chunks es := by
  simp [chunks, h]

@[simp] theorem chunks_cons_wouldBlock {e : RecvEvent} (h : e.res = .wouldBlock)
    (es : List RecvEvent) : chunks (e :: es) = chunks es := by
  simp [chunks, h]

theorem Receives.tail {e : RecvEvent} {es : List RecvEvent} (h : Receives (e :: es)) :
    Receives es := fun e' he' => h e' (by simp [he'])

/-- Calls of `recv` that return no byte all would block. -/
theorem Splits.wouldBlock {es : List RecvEvent} (h : Splits es []) :
    ∀ e ∈ es, e.res = .wouldBlock := by
  induction es with
  | nil => simp
  | cons e es ih =>
      obtain ⟨hrec, hflat⟩ := h
      rcases hrec e (by simp) with hwb | ⟨chunk, hdata, hne, -⟩
      · rw [chunks_cons_wouldBlock hwb] at hflat
        intro e' he'
        rcases List.mem_cons.1 he' with rfl | he'
        · exact hwb
        · exact ih ⟨hrec.tail, hflat⟩ e' he'
      · rw [chunks_cons_data hdata, List.flatten_cons] at hflat
        exact absurd (List.append_eq_nil_iff.1 hflat).1 hne

/-! ## Outcomes -/

/-- What a client gets for a block: an error, the dispatch of the request, or an
accepted request that waits for its body. -/
inductive Outcome
  | error (code : Nat)
  | dispatched (v : RequestView)
  | awaitsBody (v : RequestView)
deriving DecidableEq, Repr

/-- The outcome of a run, if it reached one. -/
def outcome (s : Request × Served × List RecvEvent) : Option Outcome :=
  match s.2.1 with
  | .error code => some (.error code)
  | .response => s.1.view.map .dispatched
  | .waiting => if s.1.headersIn.uri.len = 0 then none else s.1.view.map .awaitsBody
  | _ => none

/-- What the checks behind the block of an accepted request lead to. -/
def ParsedRequest.outcome (q : ParsedRequest) : Outcome :=
  if q.method = .post then
    match q.postInfo with
    | .error code => .error code
    | .ok k => if k.length = 0 then .dispatched q.view else .awaitsBody q.view
  else .dispatched q.view

/-- The outcome of a block that was recognised. -/
def blockOutcome (block : List UInt8) : Option Outcome :=
  match httpParseHeaders (markEnd block) with
  | .overrun => none
  | .error code _ => some (.error code)
  | .ok q => some q.outcome

theorem blockOutcome_ne_none_iff {block : List UInt8} (h : IsHeaderBlock block) :
    blockOutcome block ≠ none ↔ UriEnds block := by
  have hover := httpParseHeaders_markEnd_eq_overrun_iff h
  unfold blockOutcome
  cases hp : httpParseHeaders (markEnd block) with
  | overrun => simpa [hp] using hover
  | error code lines => simpa [hp] using hover
  | ok q => simpa [hp] using hover

/-! ## The run -/

/-- A request that waits for its block keeps waiting as long as nothing
arrives. -/
theorem HeaderPhase.outcome_wouldBlock {es : List RecvEvent}
    (hes : ∀ e ∈ es, e.res = .wouldBlock) :
    ∀ {r : Request} {acc : List UInt8}, HeaderPhase r acc → acc.length ≤ httpMaxHeadersSize →
      outcome (serveAll r es) = none := by
  induction es with
  | nil =>
      intro r acc h _
      simp [serveAll, outcome, h.uriLen]
  | cons e es ih =>
      intro r acc h hacc
      obtain ⟨hphase, hwait⟩ := h.noData hacc e.addr
      have hrecv := h.serveRecv_wouldBlock (hes e List.mem_cons_self)
      rw [serveAll, hrecv, if_pos (.inr hwait)]
      exact ih (fun e' he' => hes e' (by simp [he'])) hphase hacc

/-- An accepted `POST` keeps waiting for its body as long as nothing arrives. -/
theorem ParsedIn.outcome_wouldBlock {es : List RecvEvent} {q : ParsedRequest}
    (hes : ∀ e ∈ es, e.res = .wouldBlock) (hmethod : q.method = .post) (huri : q.uri ≠ []) :
    ∀ {r : Request}, ParsedIn r q → outcome (serveAll r es) = some (.awaitsBody q.view) := by
  induction es with
  | nil =>
      intro r h
      have hlen : r.headersIn.uri.len ≠ 0 := by simpa [h.uri] using huri
      simp [serveAll, outcome, hlen, h.view_eq]
  | cons e es ih =>
      intro r h
      have hrecv : serveRecv r e = serveNoData r .wouldBlock := by
        simp [serveRecv, h.methodPost, hmethod, hes e (by simp)]
      have hparsed : ParsedIn (serveNoData r .wouldBlock).1 q :=
        ⟨h.front, h.methodGet, h.methodPost, h.methodHead, h.uri, h.httpVersion, h.p⟩
      rw [serveAll, hrecv, if_pos (.inr rfl)]
      exact ih (fun e' he' => hes e' (by simp [he'])) hparsed

/-- A chunk without the terminator leaves the request waiting for its block. -/
theorem HeaderPhase.serveRecv_noTerminator {r : Request} {acc chunk : List UInt8} {e : RecvEvent}
    (h : HeaderPhase r acc) (he : e.res = .data chunk) (hchunk : chunk.length ≤ httpRecvBuffer)
    (hmax : (acc ++ chunk).length ≤ httpMaxHeadersSize) (hfind : findTerminator chunk = none) :
    (serveRecv r e).1 = r.received chunk e.addr ∧
      ((serveRecv r e).2 = .more ∨ (serveRecv r e).2 = .waiting) := by
  have hacc : acc.length ≤ httpMaxHeadersSize := by
    rw [List.length_append] at hmax
    omega
  have hcur : ¬ httpMaxHeadersSize < (r.received chunk e.addr).b.curLen := by
    rw [(h.received hacc hchunk e.addr).curLen]
    omega
  rw [h.serveRecv_data hacc hchunk he]
  by_cases hfull : chunk.length < httpRecvBuffer
  · simp [serveHeader, hfind, hcur, hfull]
  · simp [serveHeader, hfind, hcur, hfull]

theorem HeaderPhase.serveAll_noTerminator {r : Request} {acc chunk : List UInt8} {e : RecvEvent}
    (h : HeaderPhase r acc) (he : e.res = .data chunk) (hchunk : chunk.length ≤ httpRecvBuffer)
    (hmax : (acc ++ chunk).length ≤ httpMaxHeadersSize) (hfind : findTerminator chunk = none)
    (es : List RecvEvent) :
    serveAll r (e :: es) = serveAll (r.received chunk e.addr) es := by
  obtain ⟨hr, hmore⟩ := h.serveRecv_noTerminator he hchunk hmax hfind
  rw [serveAll, if_pos hmore, hr]

/-- The pass that receives the last chunk of a block, and the rest of the run. -/
theorem HeaderPhase.outcome_found {r : Request} {acc part : List UInt8} {e : RecvEvent}
    (h : HeaderPhase r acc) (he : e.res = .data part) (hpart : part.length ≤ httpRecvBuffer)
    (hblock : IsHeaderBlock (acc ++ part)) (hmax : (acc ++ part).length ≤ httpMaxHeadersSize)
    (hlen : 5 ≤ part.length) {es : List RecvEvent} (hes : ∀ e ∈ es, e.res = .wouldBlock) :
    outcome (serveAll r (e :: es)) = blockOutcome (acc ++ part) := by
  have hacc : acc.length ≤ httpMaxHeadersSize := by
    rw [List.length_append] at hmax
    omega
  have hphase : HeaderPhase (r.received part e.addr) (acc ++ part ++ []) := by
    simpa using h.received hacc hpart e.addr
  have hmax' : (acc ++ part ++ []).length ≤ httpMaxHeadersSize := by simpa using hmax
  have hpass := hphase.serveHeader_block hblock hlen hmax' rfl e
  rw [List.append_nil, List.append_nil] at hpass
  rw [serveAll, h.serveRecv_data hacc hpart he, blockOutcome]
  cases hq : httpParseHeaders (markEnd (acc ++ part)) with
  | overrun => simp [hpass, hq, outcome]
  | error code lines => simp [hpass, hq, outcome]
  | ok q =>
      by_cases hmethod : q.method = .post
      · cases hk : q.postInfo with
        | error code =>
            simp [hpass, hq, hmethod, servePostHeaders_error hk, outcome, ParsedRequest.outcome, hk]
        | ok k =>
            obtain ⟨r', body, hserve, hbody, htake, hle, hlen', hcl⟩ :=
              hphase.serveHeader_post hblock hlen hmax' e hq hmethod hk
            obtain rfl : body = [] := by simpa using hle
            rw [List.append_nil] at hserve
            by_cases hzero : k.length = 0
            · have hcl' : r'.headersIn.contentLengthVal = 0 := by rw [hcl, hzero]
              obtain ⟨r'', hpost, hparsed, -⟩ :=
                hbody.servePost_response (by rw [hcl']; omega) (by rw [hcl']; simp)
              simp [hserve, hpost, outcome, hparsed.view_eq, ParsedRequest.outcome, hmethod, hk,
                hzero]
            · have hpost : servePost r' = (r', .waiting) := by
                refine if_neg ?_
                rw [hcl, hlen', List.length_nil]
                omega
              have hwait := ParsedIn.outcome_wouldBlock hes hmethod
                (httpParseHeaders_ok_uri_ne_nil hq) hbody.parsed
              simpa [hserve, hpost, ParsedRequest.outcome, hmethod, hk, hzero] using hwait
      · obtain ⟨r', hserve, hparsed⟩ :=
          hphase.serveHeader_response hblock hlen hmax' e hq hmethod
        rw [List.append_nil] at hserve
        simp [hserve, outcome, hparsed.view_eq, ParsedRequest.outcome, hmethod]

/-- The outcome of a run over the rest of a block. -/
theorem HeaderPhase.outcome_splits {es : List RecvEvent} :
    ∀ {r : Request} {acc rest : List UInt8}, HeaderPhase r acc → Splits es rest → rest ≠ [] →
      IsHeaderBlock (acc ++ rest) → (acc ++ rest).length ≤ httpMaxHeadersSize →
      outcome (serveAll r es) =
        if 5 ≤ (lastChunk es).length then blockOutcome (acc ++ rest) else none := by
  induction es with
  | nil =>
      intro r acc rest _ hsplit hne
      exact absurd hsplit.2.symm hne
  | cons e es ih =>
      intro r acc rest h hsplit hne hblock hmax
      have hacc : acc.length ≤ httpMaxHeadersSize := by
        rw [List.length_append] at hmax
        omega
      rcases hsplit.1 e (by simp) with hwb | ⟨chunk, hdata, hchunk, hfit⟩
      · obtain ⟨hphase, hwait⟩ := h.noData hacc e.addr
        have hrecv := h.serveRecv_wouldBlock hwb
        have hsplit' : Splits es rest := ⟨hsplit.1.tail, by simpa [hwb] using hsplit.2⟩
        rw [serveAll, hrecv, if_pos (.inr hwait), ih hphase hsplit' hne hblock hmax]
        simp [lastChunk, hwb]
      · obtain ⟨rest, rfl⟩ : ∃ t, rest = chunk ++ t :=
          ⟨(chunks es).flatten, by rw [← hsplit.2, chunks_cons_data hdata, List.flatten_cons]⟩
        have hsplit' : Splits es rest := by
          refine ⟨hsplit.1.tail, ?_⟩
          have hflat := hsplit.2
          rw [chunks_cons_data hdata, List.flatten_cons] at hflat
          exact List.append_cancel_left hflat
        rw [← List.append_assoc] at hblock hmax ⊢
        have hmax' : (acc ++ chunk).length ≤ httpMaxHeadersSize := by
          rw [List.length_append] at hmax
          omega
        by_cases hrest : rest = []
        · subst hrest
          rw [List.append_nil] at hblock hmax ⊢
          have hlast : lastChunk (e :: es) = chunk := by
            have hnil : chunks es = [] := by
              rw [chunks, List.filterMap_eq_nil_iff]
              intro e' he'
              simp [hsplit'.wouldBlock e' he']
            simp [lastChunk, hdata, hnil]
          rw [hlast]
          by_cases hlen : 5 ≤ chunk.length
          · rw [if_pos hlen]
            exact h.outcome_found hdata hfit hblock hmax hlen hsplit'.wouldBlock
          · rw [if_neg hlen, h.serveAll_noTerminator hdata hfit hmax
              (findTerminator_eq_none_of_length (by omega))]
            exact (h.received hacc hfit e.addr).outcome_wouldBlock hsplit'.wouldBlock hmax
        · -- the block is still incomplete, so the chunk has no terminator
          have hinfix : ¬ crlfcrlf <:+: chunk := by
            intro hinf
            refine FirstAtEnd.not_infix hblock hrest ?_
            exact hinf.trans (List.suffix_append _ _).isInfix
          rw [h.serveAll_noTerminator hdata hfit hmax' (findTerminator_eq_none hinfix),
            ih (h.received hacc hfit e.addr) hsplit' hrest hblock hmax]
          have hlast : lastChunk (e :: es) = lastChunk es := by
            have hne' : chunks es ≠ [] := by
              intro hnil
              exact hrest (by rw [← hsplit'.2, hnil]; rfl)
            obtain ⟨c, cs, hcs⟩ := List.exists_cons_of_ne_nil hne'
            simp [lastChunk, hdata, hcs]
          rw [hlast]

/-! ## Two ways of splitting one block -/

/-- Both runs reach an outcome, and it is the same. -/
def SameOutcome (s₁ s₂ : Request × Served × List RecvEvent) : Prop :=
  ∃ o, outcome s₁ = some o ∧ outcome s₂ = some o

/-- Two ways of splitting a block lead to the same outcome exactly when both have
at least five bytes in the last chunk and the parser finds the end of the URI
inside the block. -/
theorem serveAll_sameOutcome_iff {r₁ r₂ : Request} (h₁ : Idle r₁) (h₂ : Idle r₂) (fd₁ fd₂ : Fd)
    {block : List UInt8} (hblock : IsHeaderBlock block)
    (hmax : block.length ≤ httpMaxHeadersSize) {es₁ es₂ : List RecvEvent}
    (hs₁ : Splits es₁ block) (hs₂ : Splits es₂ block) :
    SameOutcome (serveAll (r₁.assign fd₁) es₁) (serveAll (r₂.assign fd₂) es₂) ↔
      UriEnds block ∧ 5 ≤ (lastChunk es₁).length ∧ 5 ≤ (lastChunk es₂).length := by
  have hne : block ≠ [] := by
    rintro rfl
    have := (FirstAtEnd.suffix hblock).length_le
    simp [crlfcrlf] at this
  have ho₁ := (h₁.headerPhase fd₁).outcome_splits hs₁ hne hblock hmax
  have ho₂ := (h₂.headerPhase fd₂).outcome_splits hs₂ hne hblock hmax
  rw [List.nil_append] at ho₁ ho₂
  rw [← blockOutcome_ne_none_iff hblock, SameOutcome, ho₁, ho₂]
  constructor
  · rintro ⟨o, hsome₁, hsome₂⟩
    by_cases hl₁ : 5 ≤ (lastChunk es₁).length
    · by_cases hl₂ : 5 ≤ (lastChunk es₂).length
      · rw [if_pos hl₁] at hsome₁
        exact ⟨by simp [hsome₁], hl₁, hl₂⟩
      · simp [hl₂] at hsome₂
    · simp [hl₁] at hsome₁
  · rintro ⟨hsome, hl₁, hl₂⟩
    obtain ⟨o, ho⟩ := Option.ne_none_iff_exists'.1 hsome
    exact ⟨o, by rw [if_pos hl₁, ho], by rw [if_pos hl₂, ho]⟩

/-- The events that deliver the given chunks, without moving the buffer. -/
def deliver (cs : List (List UInt8)) : List RecvEvent :=
  cs.map fun c => ⟨.data c, 0, 0, false⟩

theorem splits_deliver {cs : List (List UInt8)}
    (h : ∀ c ∈ cs, c ≠ [] ∧ c.length ≤ httpRecvBuffer) : Splits (deliver cs) cs.flatten := by
  refine ⟨?_, ?_⟩
  · intro e he
    obtain ⟨c, hc, rfl⟩ := List.mem_map.1 he
    exact .inr ⟨c, rfl, h c hc⟩
  · have hchunks : chunks (deliver cs) = cs := by
      simp [chunks, deliver]
    rw [hchunks]

theorem isHeaderBlock_getRoot : IsHeaderBlock (ascii "GET / HTTP/1.1" ++ crlfcrlf) :=
  ⟨ascii "GET / HTTP/1.1", by decide⟩

/-- The block in one chunk and the block cut behind its twelfth byte. -/
theorem serveAll_sameOutcome_iff_getRoot :
    SameOutcome
      (serveAll ((httpPrepare zeroed false 0).assign 5)
        (deliver [ascii "GET / HTTP/1.1" ++ crlfcrlf]))
      (serveAll ((httpPrepare zeroed false 0).assign 6)
        (deliver [ascii "GET / HTTP/1", ascii ".1" ++ crlfcrlf])) := by
  refine (serveAll_sameOutcome_iff (idle_httpPrepare _ _ _) (idle_httpPrepare _ _ _) 5 6
    isHeaderBlock_getRoot (by decide +kernel) (splits_deliver (by decide +kernel))
    (splits_deliver (by decide +kernel))).2 ⟨?_, by decide +kernel, by decide +kernel⟩
  exact (blockOutcome_ne_none_iff isHeaderBlock_getRoot).1 (by decide +kernel)

/-- The block in one chunk is answered, and cut inside its terminator it is
not. -/
theorem serveAll_not_sameOutcome :
    IsHeaderBlock (ascii "GET / HTTP/1.1" ++ crlfcrlf) ∧
      (ascii "GET / HTTP/1.1" ++ crlfcrlf).length ≤ httpMaxHeadersSize ∧
      Splits (deliver [ascii "GET / HTTP/1.1" ++ crlfcrlf])
        (ascii "GET / HTTP/1.1" ++ crlfcrlf) ∧
      Splits (deliver [ascii "GET / HTTP/1.1" ++ crlf, crlf])
        (ascii "GET / HTTP/1.1" ++ crlfcrlf) ∧
      ¬ SameOutcome
        (serveAll ((httpPrepare zeroed false 0).assign 5)
          (deliver [ascii "GET / HTTP/1.1" ++ crlfcrlf]))
        (serveAll ((httpPrepare zeroed false 0).assign 6)
          (deliver [ascii "GET / HTTP/1.1" ++ crlf, crlf])) := by
  refine ⟨isHeaderBlock_getRoot, by decide +kernel, splits_deliver (by decide +kernel),
    splits_deliver (by decide +kernel), ?_⟩
  rintro ⟨o, -, ho⟩
  have hnone : outcome (serveAll ((httpPrepare zeroed false 0).assign 6)
      (deliver [ascii "GET / HTTP/1.1" ++ crlf, crlf])) = none := by decide +kernel
  rw [hnone] at ho
  exact absurd ho (by simp)

end OpenTube
