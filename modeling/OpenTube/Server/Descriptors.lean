import OpenTube.Lib.Run
import OpenTube.Lib.Slots
import OpenTube.Http.File

/-!
# The descriptors of files

A run of static-file responses over a number of request structures: connections
are accepted, requests are answered with `http_send_file`, the answers are
continued by `events_out_data`, and a client may hang up at any time. The
descriptors that are open are exactly those the request structures hold, as long
as none of the three exits is taken that forget to close the file.
-/

namespace OpenTube

open Machine Slots

/-! ## The table of open descriptors -/

/-- The open descriptors, and whether only open ones were closed so far. -/
structure OpenFiles where
  fds : List Fd
  clean : Bool
deriving DecidableEq, Repr

/-- The kernel's part of an effect. -/
def OpenFiles.apply (o : OpenFiles) : Effect → OpenFiles
  | .opened fd => { o with fds := fd :: o.fds }
  | .closed fd => if fd ∈ o.fds then { o with fds := o.fds.erase fd } else { o with clean := false }
  | _ => o

/-- The effects of one call, in their order. -/
def OpenFiles.applyAll (o : OpenFiles) (es : List Effect) : OpenFiles :=
  es.foldl OpenFiles.apply o

@[simp] theorem OpenFiles.applyAll_nil (o : OpenFiles) : o.applyAll [] = o := rfl

@[simp] theorem OpenFiles.applyAll_cons (o : OpenFiles) (e : Effect) (es : List Effect) :
    o.applyAll (e :: es) = (o.apply e).applyAll es := rfl

@[simp] theorem OpenFiles.apply_wrote (o : OpenFiles) (bytes : List UInt8) :
    o.apply (.wrote bytes) = o := rfl

@[simp] theorem OpenFiles.apply_sent (o : OpenFiles) (fd : Fd) (offset : Int) (count : Nat) :
    o.apply (.sent fd offset count) = o := rfl

/-- A file that is opened and closed again leaves the table as it was. -/
@[simp] theorem OpenFiles.apply_opened_closed (o : OpenFiles) (fd : Fd) :
    (o.apply (.opened fd)).apply (.closed fd) = o := by
  simp [OpenFiles.apply]

/-! ## What one call does with the descriptor -/

/-- The socket a request structure serves and the file it holds. -/
def Request.holds (r : Request) : Option Fd × Option Fd := (r.sock, r.temp.sendfileFd)

@[simp] theorem appendAll_holds (r : Request) (l : List (List UInt8)) :
    (appendAll r l).holds = r.holds := by
  rw [appendAll_eq]
  rfl

@[simp] theorem httpSend_holds (r : Request) (res : IoRes) :
    (httpSend r res).1.holds = r.holds := by
  unfold httpSend
  split
  · rfl
  · split
    · split
      · simp only
        split <;> rfl
      · rfl
    · rfl

@[simp] theorem fileError_holds (c : Config) (r : Request) (code : Nat) (env : FileEnv) :
    (fileError c r code env).1.holds = r.holds := by
  rw [fileError, httpError, httpSend_holds, errorOutput, appendAll_holds, httpAppendHeaders,
    appendAll_holds]
  rfl

@[simp] theorem fileHeaders_holds (c : Config) (r : Request) (code : Nat) (st : FileStat)
    (env : FileEnv) : (fileHeaders c r code st env).holds = r.holds := by
  have hlast : ∀ (r : Request) (bytes : List UInt8),
      (httpAppendToOutputBuf r bytes).holds = r.holds := fun _ _ => rfl
  rw [fileHeaders, hlast]
  split
  · rw [hlast, appendAll_holds, httpAppendHeaders, appendAll_holds]
    rfl
  · rw [appendAll_holds, httpAppendHeaders, appendAll_holds]
    rfl

@[simp] theorem selectRange_holds (st : FileStat) (r : Request) (h : Header)
    (value : List UInt8) : (selectRange st r h value).holds = r.holds := by
  unfold selectRange
  split <;> rfl

theorem rangeLoop_holds (st : FileStat) (hs : List Header) (r : Request) (code : Nat) :
    (rangeLoop st hs r code).1.holds = r.holds := by
  have hnarrow : ∀ r : Request, r.narrow.holds = r.holds := by
    intro r
    unfold Request.narrow
    split <;> rfl
  have hcases := rangeLoop_invariant st (fun s => s.holds = r.holds) (fun s => s.holds = r.holds)
    (fun s h value hs _ => by rw [hnarrow, selectRange_holds, hs])
    (fun s h value hs => by rw [selectRange_holds, hs]) hs r code rfl
  exact hcases.elim (fun h => h.2) id

@[simp] theorem selectPart_holds (st : FileStat) (r : Request) :
    (selectPart st r).1.holds = r.holds := by
  rw [selectPart, rangeLoop_holds]
  rfl

/-- How a call leaves the descriptor it opened: the table is as before and the
request holds none, or the request holds the one that is open now. -/
def KeepsTrack (o : OpenFiles) (sock : Option Fd) (s : Request × Bool × List Effect) : Prop :=
  (o.applyAll s.2.2 = o ∧ s.1.holds = (sock, none)) ∨
    ∃ fd, o.applyAll s.2.2 = o.apply (.opened fd) ∧ s.1.holds = (sock, some fd) ∧ s.2.1 = false

theorem holds_hold {r : Request} {sock f : Option Fd} (h : r.holds = (sock, f)) (fd : Fd) :
    ({ r with temp := { r.temp with sendfileFd := some fd } } : Request).holds =
      (sock, some fd) := by
  have hsock : r.sock = sock := congrArg Prod.fst h
  simp [Request.holds, hsock]

/-- The first `sendfile`, unless it fails. -/
theorem keepsTrack_sendFileBody {r : Request} {sock : Option Fd} (h : r.holds = (sock, none))
    (o : OpenFiles) (fd : Fd) {res : IoRes} (hres : res ≠ .error) (wrote : List UInt8) :
    KeepsTrack o sock ((sendFileBody r fd res).1, (sendFileBody r fd res).2.1,
      .opened fd :: .wrote wrote :: (sendFileBody r fd res).2.2) := by
  unfold sendFileBody
  rw [if_neg hres]
  by_cases hlt : uint64 res.value < r.headersOut.contentLength
  · simp only [hlt, if_true]
    exact .inr ⟨fd, by simp, holds_hold (f := none) h fd, rfl⟩
  · simp only [hlt, if_false]
    exact .inl ⟨by simp, h⟩

theorem keepsTrack_sendPart {r : Request} {sock : Option Fd} (h : r.holds = (sock, none))
    (o : OpenFiles) (c : Config) (code : Nat) (fd : Fd) (st : FileStat) {env : FileEnv}
    (henv : env.sendfile ≠ .error) :
    KeepsTrack o sock ((sendPart c r code fd st env).1, (sendPart c r code fd st env).2.1,
      .opened fd :: (sendPart c r code fd st env).2.2) := by
  have hsent : (httpSend (fileHeaders c r code st env) env.write).1.holds = (sock, none) := by
    simp [h]
  unfold sendPart
  by_cases h416 : code = 416
  · simp only [h416, if_true]
    exact .inl ⟨by simp [fileError], by simp [h]⟩
  · by_cases h304 : code = 304
    · simp only [h304, if_true]
      exact .inl ⟨by simp, by simp [h]⟩
    · simp only [h416, h304, if_false]
      split
      · exact .inr ⟨fd, by simp, holds_hold hsent fd, rfl⟩
      · exact keepsTrack_sendFileBody hsent o fd henv _

/-- A call of `http_send_file` whose `sendfile` does not fail either closes the
file it opened or leaves it to the request. -/
theorem keepsTrack_httpSendFile {r : Request} {sock : Option Fd} (h : r.holds = (sock, none))
    (o : OpenFiles) (c : Config) (filepath : List UInt8) {env : FileEnv}
    (henv : env.sendfile ≠ .error) : KeepsTrack o sock (httpSendFile c r filepath env) := by
  have herror : ∀ code, KeepsTrack o sock (fileError c r code env) :=
    fun code => .inl ⟨by simp [fileError], by simp [h]⟩
  unfold httpSendFile
  by_cases hpath : filepath = []
  · rw [if_pos hpath]
    exact herror 403
  · rw [if_neg hpath]
    cases env.openRes with
    | notFound => exact herror 404
    | denied => exact herror 403
    | failed => exact herror 500
    | ok fd =>
        cases env.stat with
        | none => exact .inl ⟨by simp [fileError], by simp [h]⟩
        | some st =>
            by_cases hreg : st.isReg = false
            · simp only [hreg, if_true]
              exact .inl ⟨by simp [fileError], by simp [h]⟩
            · simp only [hreg]
              exact keepsTrack_sendPart (by simp [h]) o c _ fd st henv

/-! ## Runs of file responses -/

/-- A request structure; `responding` is set while a response is being sent. -/
structure FileSlot where
  r : Request
  responding : Bool
deriving DecidableEq, Repr

/-- The request structures and the open descriptors. -/
structure FileServer where
  slots : List FileSlot
  files : OpenFiles
deriving DecidableEq, Repr

/-- What can happen: a connection is assigned to an idle structure, a received
request is answered with a file, the socket can be written again, the client
hangs up. A request is what the parser left in the structure, and `addr` is where
`http_cleanup` places the buffer. -/
inductive FileEvent
  | accept (i : Nat) (fd : Fd)
  | respond (i : Nat) (b : Buf) (headersIn : HeadersIn) (keepalive : Bool)
      (filepath : List UInt8) (env : FileEnv) (addr : Int)
  | writable (i : Nat) (res : IoRes) (addr : Int)
  | hangUp (i : Nat) (addr : Int)
deriving DecidableEq, Repr

/-- The descriptor `open` returns is not in use. -/
def OpenFiles.fresh (o : OpenFiles) : OpenRes → Bool
  | .ok fd => fd ∉ o.fds
  | _ => true

/-- The structure behind a call of `http_send_file`, after `end_request` if it
returned true. -/
def FileSlot.afterSend (s : Request × Bool × List Effect) (addr : Int) : FileSlot :=
  if s.2.1 then ⟨httpCleanup s.1 addr, false⟩ else ⟨s.1, true⟩

/-- One event. -/
def FileServer.step (c : Config) (s : FileServer) : FileEvent → Option FileServer
  | .accept i fd =>
      (s.slots[i]?).bind fun x =>
        if x.r.sock = none then some { s with slots := s.slots.set i ⟨x.r.assign fd, false⟩ }
        else none
  | .respond i b headersIn keepalive filepath env addr =>
      (s.slots[i]?).bind fun x =>
        if x.r.sock ≠ none ∧ x.responding = false ∧ s.files.fresh env.openRes = true then
          let e := httpSendFile c
            { x.r with b := b, headersIn := headersIn, keepalive := keepalive }
            filepath env
          some ⟨s.slots.set i (.afterSend e addr), s.files.applyAll e.2.2⟩
        else none
  | .writable i res addr =>
      (s.slots[i]?).bind fun x =>
        if x.responding = true then
          let e := eventsOutData x.r res addr
          some ⟨s.slots.set i ⟨e.1, e.2.1 = .pending⟩, s.files.applyAll e.2.2⟩
        else none
  | .hangUp i addr =>
      (s.slots[i]?).bind fun x =>
        if x.r.sock ≠ none then
          let r := httpCleanup { x.r with keepalive := false } addr
          some { s with slots := s.slots.set i ⟨r, false⟩ }
        else none

/-- The exits at which the file is closed: the first `sendfile` does not fail,
and while a request holds a file its header block is not refused by `writev` and
the client does not hang up. -/
def FileServer.ok (s : FileServer) : FileEvent → Prop
  | .accept _ _ => True
  | .respond _ _ _ _ _ env _ => env.sendfile ≠ .error
  | .writable i res _ =>
      ∀ x ∈ s.slots[i]?, x.r.temp.sendfileFd ≠ none → 0 < x.r.temp.writevTotal → 0 ≤ res.value
  | .hangUp i _ => ∀ x ∈ s.slots[i]?, x.r.temp.sendfileFd = none

instance FileServer.decidableOk (s : FileServer) : (l : FileEvent) → Decidable (s.ok l)
  | .accept _ _ => inferInstanceAs (Decidable True)
  | .respond _ _ _ _ _ env _ => inferInstanceAs (Decidable (env.sendfile ≠ .error))
  | .writable i _ _ => inferInstanceAs (Decidable (∀ x ∈ s.slots[i]?, _ → _ → _))
  | .hangUp i _ => inferInstanceAs (Decidable (∀ x ∈ s.slots[i]?, _))

/-- A structure serves a request. -/
def FileSlot.inProgress (x : FileSlot) : Bool := x.r.sock.isSome

/-- Every descriptor that was opened is closed exactly once: those that are open
are held by a structure, a structure that was cleaned up holds none, and none was
closed twice. So there are no more of them than requests in progress. -/
structure FilesTracked (s : FileServer) : Prop where
  clean : s.files.clean = true
  held : s.files.fds.Perm (s.slots.filterMap fun x => x.r.temp.sendfileFd)
  cleanedUp : ∀ x ∈ s.slots, x.r.sock = none → x.r.temp.sendfileFd = none
  bounded : s.files.fds.length ≤ s.slots.countP FileSlot.inProgress

/-- The invariant of one structure: only a response in progress holds a file. -/
structure FileSlot.Sound (x : FileSlot) : Prop where
  idle : x.responding = false → x.r.temp.sendfileFd = none
  busy : x.responding = true → x.r.sock ≠ none

/-- The invariant of a run. -/
structure FileInv (s : FileServer) : Prop where
  clean : s.files.clean = true
  held : s.files.fds.Perm (s.slots.filterMap fun x => x.r.temp.sendfileFd)
  sound : ∀ x ∈ s.slots, x.Sound

theorem FileInv.filesTracked {s : FileServer} (h : FileInv s) : FilesTracked s := by
  have hholder : ∀ x ∈ s.slots, x.r.temp.sendfileFd.isSome = true → x.inProgress = true := by
    intro x hx hsome
    have hresp : x.responding = true := by
      by_contra hne
      simp [(h.sound x hx).idle (by simpa using hne)] at hsome
    simpa [FileSlot.inProgress, Option.isSome_iff_ne_none] using (h.sound x hx).busy hresp
  refine ⟨h.clean, h.held, fun x hx hsock => ?_, ?_⟩
  · by_contra hne
    have hin := hholder x hx (Option.isSome_iff_ne_none.2 hne)
    simp [FileSlot.inProgress, hsock] at hin
  · rw [h.held.length_eq, List.length_filterMap_eq_countP]
    exact List.countP_mono_left hholder

/-- A structure may be replaced by one that holds the same file. -/
theorem FileInv.set {s : FileServer} (h : FileInv s) {i : Nat} {x y : FileSlot}
    (hx : s.slots[i]? = some x) (hfd : y.r.temp.sendfileFd = x.r.temp.sendfileFd)
    (hy : y.Sound) : FileInv { s with slots := s.slots.set i y } := by
  obtain ⟨rest, hold, hnew⟩ := exists_filterMap_set_perm hx fun x => x.r.temp.sendfileFd
  refine ⟨h.clean, h.held.trans (hold.trans ?_), forall_mem_set h.sound hy⟩
  rw [← hfd]
  exact (hnew y).symm

/-- The structure holds the file that was opened. -/
theorem FileInv.set_opened {s : FileServer} (h : FileInv s) {i : Nat} {x y : FileSlot}
    (hx : s.slots[i]? = some x) (hnone : x.r.temp.sendfileFd = none) {fd : Fd}
    (hfd : y.r.temp.sendfileFd = some fd) (hy : y.Sound) :
    FileInv ⟨s.slots.set i y, s.files.apply (.opened fd)⟩ := by
  obtain ⟨rest, hold, hnew⟩ := exists_filterMap_set_perm hx fun x => x.r.temp.sendfileFd
  refine ⟨h.clean, ?_, forall_mem_set h.sound hy⟩
  have hrest : s.files.fds.Perm rest := by
    simpa [hnone] using h.held.trans hold
  refine (hrest.cons fd).trans ?_
  simpa [hfd] using (hnew y).symm

/-- The structure no longer holds the file that was closed. -/
theorem FileInv.set_closed {s : FileServer} (h : FileInv s) {i : Nat} {x y : FileSlot}
    (hx : s.slots[i]? = some x) {fd : Fd} (hfd : x.r.temp.sendfileFd = some fd)
    (hnone : y.r.temp.sendfileFd = none) (hy : y.Sound) :
    FileInv ⟨s.slots.set i y, s.files.apply (.closed fd)⟩ := by
  obtain ⟨rest, hold, hnew⟩ := exists_filterMap_set_perm hx fun x => x.r.temp.sendfileFd
  have hrest : s.files.fds.Perm (fd :: rest) := by
    simpa [hfd] using h.held.trans hold
  have hmem : fd ∈ s.files.fds := hrest.symm.subset (by simp)
  have happly : s.files.apply (.closed fd) = { s.files with fds := s.files.fds.erase fd } := by
    simp [OpenFiles.apply, hmem]
  rw [happly]
  refine ⟨h.clean, ?_, forall_mem_set h.sound hy⟩
  have herase : (s.files.fds.erase fd).Perm rest := by
    simpa using hrest.erase fd
  refine herase.trans ?_
  simpa [hnone] using (hnew y).symm

/-! ## Every step -/

theorem FileInv.respond {c : Config} {s : FileServer} (h : FileInv s) {i : Nat} {x : FileSlot}
    (hx : s.slots[i]? = some x) (hsock : x.r.sock ≠ none) (hidle : x.responding = false)
    (b : Buf) (headersIn : HeadersIn) (keepalive : Bool) (filepath : List UInt8) {env : FileEnv}
    (henv : env.sendfile ≠ .error) (addr : Int) :
    let e := httpSendFile c { x.r with b := b, headersIn := headersIn, keepalive := keepalive }
      filepath env
    FileInv ⟨s.slots.set i (.afterSend e addr), s.files.applyAll e.2.2⟩ := by
  intro e
  have hnone : x.r.temp.sendfileFd = none := (h.sound x (List.mem_of_getElem? hx)).idle hidle
  have hholds : ({ x.r with b := b, headersIn := headersIn, keepalive := keepalive } :
      Request).holds = (x.r.sock, none) := by
    simp [Request.holds, hnone]
  rcases keepsTrack_httpSendFile hholds s.files c filepath henv with
    ⟨hfiles, hheld⟩ | ⟨fd, hfiles, hheld, hfalse⟩
  · have hsock' : e.1.sock = x.r.sock := congrArg Prod.fst hheld
    have hfd : e.1.temp.sendfileFd = none := congrArg Prod.snd hheld
    rw [hfiles]
    refine h.set hx ?_ ?_
    · rw [hnone, FileSlot.afterSend]
      split
      · rfl
      · exact hfd
    · rw [FileSlot.afterSend]
      split
      · exact ⟨fun _ => rfl, by simp⟩
      · exact ⟨by simp, fun _ => hsock' ▸ hsock⟩
  · have hsock' : e.1.sock = x.r.sock := congrArg Prod.fst hheld
    have hfd : e.1.temp.sendfileFd = some fd := congrArg Prod.snd hheld
    have hafter : FileSlot.afterSend e addr = ⟨e.1, true⟩ := by
      rw [FileSlot.afterSend, hfalse]
      rfl
    rw [hfiles, hafter]
    exact h.set_opened hx hnone hfd ⟨by simp, fun _ => hsock' ▸ hsock⟩

theorem FileInv.writable {s : FileServer} (h : FileInv s) {i : Nat} {x : FileSlot}
    (hx : s.slots[i]? = some x) (hresp : x.responding = true) {res : IoRes}
    (hok : x.r.temp.sendfileFd ≠ none → 0 < x.r.temp.writevTotal → 0 ≤ res.value) (addr : Int) :
    let e := eventsOutData x.r res addr
    FileInv ⟨s.slots.set i ⟨e.1, e.2.1 = .pending⟩, s.files.applyAll e.2.2⟩ := by
  have hsock := (h.sound x (List.mem_of_getElem? hx)).busy hresp
  have hcleanup : FileSlot.Sound ⟨httpCleanup x.r addr, false⟩ := ⟨fun _ => rfl, by simp⟩
  unfold eventsOutData
  by_cases htotal : 0 < x.r.temp.writevTotal
  · rw [if_pos htotal]
    cases hres : res with
    | count n =>
        have hresume : (resumeWrite x.r n).temp.sendfileFd = x.r.temp.sendfileFd ∧
            (resumeWrite x.r n).sock = x.r.sock := by
          simp only [resumeWrite]
          split <;> exact ⟨rfl, rfl⟩
        exact h.set hx hresume.1 ⟨by simp, fun _ => hresume.2 ▸ hsock⟩
    | wouldBlock =>
        have hnone : x.r.temp.sendfileFd = none := by
          by_contra hne
          have := hok hne htotal
          simp [hres, IoRes.value] at this
        exact h.set hx hnone.symm hcleanup
    | error =>
        have hnone : x.r.temp.sendfileFd = none := by
          by_contra hne
          have := hok hne htotal
          simp [hres, IoRes.value] at this
        exact h.set hx hnone.symm hcleanup
  · rw [if_neg htotal]
    cases hfd : x.r.temp.sendfileFd with
    | none => exact h.set hx hfd.symm hcleanup
    | some fd =>
        by_cases herror : res = .error
        · simp only [herror, if_true]
          exact h.set_closed hx hfd rfl hcleanup
        · simp only [herror, if_false]
          split
          · exact h.set hx rfl ⟨by simp, fun _ => hsock⟩
          · exact h.set_closed hx hfd rfl hcleanup

theorem FileInv.step {c : Config} {s t : FileServer} {l : FileEvent} (h : FileInv s)
    (hok : s.ok l) (hstep : s.step c l = some t) : FileInv t := by
  cases l with
  | accept i fd =>
      obtain ⟨x, hx, hif⟩ := Option.bind_eq_some_iff.1 hstep
      split at hif
      · rename_i hfree
        obtain rfl := Option.some.inj hif
        have hsound := h.sound x (List.mem_of_getElem? hx)
        have hidle : x.responding = false := by
          by_contra hne
          exact hsound.busy (by simpa using hne) hfree
        exact h.set hx rfl ⟨fun _ => hsound.idle hidle, by simp⟩
      · simp at hif
  | respond i b headersIn keepalive filepath env addr =>
      obtain ⟨x, hx, hif⟩ := Option.bind_eq_some_iff.1 hstep
      split at hif
      · rename_i hcan
        obtain rfl := Option.some.inj hif
        exact h.respond hx hcan.1 hcan.2.1 b headersIn keepalive filepath hok addr
      · simp at hif
  | writable i res addr =>
      obtain ⟨x, hx, hif⟩ := Option.bind_eq_some_iff.1 hstep
      split at hif
      · rename_i hresp
        obtain rfl := Option.some.inj hif
        exact h.writable hx hresp (hok x hx) addr
      · simp at hif
  | hangUp i addr =>
      obtain ⟨x, hx, hif⟩ := Option.bind_eq_some_iff.1 hstep
      split at hif
      · obtain rfl := Option.some.inj hif
        exact h.set hx (hok x hx).symm ⟨fun _ => rfl, by simp⟩
      · simp at hif

/-- A server whose structures serve no request and which has no file open. -/
structure FileServer.Initial (s : FileServer) : Prop where
  idle : ∀ x ∈ s.slots, Idle x.r ∧ x.responding = false
  files : s.files = ⟨[], true⟩

theorem FileServer.Initial.fileInv {s : FileServer} (h : s.Initial) : FileInv s := by
  have hnone : ∀ x ∈ s.slots, x.r.temp.sendfileFd = none := fun x hx => (h.idle x hx).1.sendfileFd
  refine ⟨by rw [h.files], ?_, fun x hx => ⟨fun _ => hnone x hx, fun hresp => ?_⟩⟩
  · rw [h.files, List.filterMap_eq_nil_iff.2 hnone]
  · simp [(h.idle x hx).2] at hresp

/-- In every run that avoids the three exits at which a file is forgotten, every
descriptor is closed exactly once and there are no more open ones than requests
in progress. -/
theorem filesTracked_of_run {c : Config} {s t : FileServer} (hs : s.Initial)
    {ls : List FileEvent} (hok : Meets (FileServer.step c) FileServer.ok s ls)
    (hrun : run (FileServer.step c) s ls = some t) : FilesTracked t :=
  (run_invariant (fun _ _ _ h hok hstep => h.step hok hstep) ls s t hs.fileInv hok
    hrun).filesTracked

/-- A server with one request structure. -/
def oneSlot : FileServer := ⟨[⟨httpPrepare zeroed false 0, false⟩], ⟨[], true⟩⟩

/-- The answers of the kernel for a file of four bytes: the header block of 269
bytes is sent at once and `sendfile` returns `res`. -/
def fourBytes (res : IoRes) : FileEnv :=
  { openRes := .ok 9
    stat := some ⟨true, 4, ascii "Sat, 01 Jan 2011 00:00:00 GMT"⟩
    date := ascii "Sat, 01 Jan 2011 00:00:00 GMT"
    expires := ascii "Mon, 03 Jan 2011 00:00:00 GMT"
    write := .count 269
    sendfile := res }

theorem oneSlot_initial : oneSlot.Initial := by
  refine ⟨fun x hx => ?_, rfl⟩
  obtain rfl := List.mem_singleton.1 hx
  exact ⟨idle_httpPrepare _ _ _, rfl⟩

/-- Two bytes of the file are sent at once and the others later. -/
theorem filesTracked_of_run_fourBytes :
    ∃ t, run (FileServer.step defaultConfig) oneSlot
        [.accept 0 5,
          .respond 0 ⟨0, 0, 0, []⟩ zeroed.headersIn false (ascii "a") (fourBytes (.count 2)) 0,
          .writable 0 .wouldBlock 0, .writable 0 (.count 2) 0] = some t ∧ FilesTracked t := by
  have hsome : (run (FileServer.step defaultConfig) oneSlot
      [.accept 0 5,
        .respond 0 ⟨0, 0, 0, []⟩ zeroed.headersIn false (ascii "a") (fourBytes (.count 2)) 0,
        .writable 0 .wouldBlock 0, .writable 0 (.count 2) 0]).isSome = true := by decide +kernel
  obtain ⟨t, ht⟩ := Option.isSome_iff_exists.1 hsome
  exact ⟨t, ht, filesTracked_of_run oneSlot_initial (by decide +kernel) ht⟩

/-- A client that hangs up while its file is being sent, and a first `sendfile`
that fails, leave the file open although no request is in progress. -/
theorem not_filesTracked_of_run :
    (∃ t, run (FileServer.step defaultConfig) oneSlot
        [.accept 0 5,
          .respond 0 ⟨0, 0, 0, []⟩ zeroed.headersIn false (ascii "a") (fourBytes (.count 2)) 0,
          .hangUp 0 0] = some t ∧ ¬ FilesTracked t) ∧
    ∃ t, run (FileServer.step defaultConfig) oneSlot
        [.accept 0 5,
          .respond 0 ⟨0, 0, 0, []⟩ zeroed.headersIn false (ascii "a") (fourBytes .error) 0] =
      some t ∧ ¬ FilesTracked t := by
  constructor
  · have hleft : ((run (FileServer.step defaultConfig) oneSlot
        [.accept 0 5,
          .respond 0 ⟨0, 0, 0, []⟩ zeroed.headersIn false (ascii "a") (fourBytes (.count 2)) 0,
          .hangUp 0 0]).map fun t =>
            (t.files.fds.length, t.slots.countP FileSlot.inProgress)) = some (1, 0) := by
      decide +kernel
    obtain ⟨t, ht, hcounts⟩ := Option.map_eq_some_iff.1 hleft
    simp only [Prod.mk.injEq] at hcounts
    refine ⟨t, ht, fun h => ?_⟩
    have hbounded := h.bounded
    omega
  · have hleft : ((run (FileServer.step defaultConfig) oneSlot
        [.accept 0 5,
          .respond 0 ⟨0, 0, 0, []⟩ zeroed.headersIn false (ascii "a") (fourBytes .error) 0]).map
            fun t => (t.files.fds.length, t.slots.countP FileSlot.inProgress)) = some (1, 0) := by
      decide +kernel
    obtain ⟨t, ht, hcounts⟩ := Option.map_eq_some_iff.1 hleft
    simp only [Prod.mk.injEq] at hcounts
    refine ⟨t, ht, fun h => ?_⟩
    have hbounded := h.bounded
    omega

end OpenTube
