import Mathlib.Logic.Function.Basic
import OpenTube.Lib.Run
import OpenTube.Http.Lifecycle
import OpenTube.Server.Keepalive

/-!
# The event loop and the workers

The event loop assigns request structures to descriptors, answers a request
itself or pushes it onto `wr_queue`; the workers take requests off the queue, run
the handler and send what it returned. The state has the open connections, the
request structures with the fields both sides read, the queue, the workers and
the registry. Connections are numbered as they are accepted, since a descriptor
is used again after it was closed; the numbers, the request a pending response
belongs to and the two logs are not in the source.

An event carries what the system decides: whether a request is complete, whether
a response was sent at once, what the clock and `getpeername` return.
-/

namespace OpenTube

open Slots

/-! ## The state -/

/-- The event mask of a descriptor. -/
inductive Mask
  | input
  | output
  | off
deriving DecidableEq, Repr

/-- An open connection. `kept` is whether the latest response completed on it kept
it alive. -/
structure Conn where
  id : Nat
  mask : Mask
  kept : Option Bool
deriving DecidableEq, Repr

/-- An element of `requests_vector`, with its address. `pending` is the connection
whose request is answered by what remains to be written. -/
structure Slot where
  addr : Nat
  sock : Option Fd
  keepalive : Bool
  pending : Option Nat
deriving DecidableEq, Repr

/-- A request structure that was queued, and the connection its request was
received on. -/
structure Job where
  slot : Nat
  origin : Nat
deriving DecidableEq, Repr

/-- Where a worker is in `http_pass_to_handlers_routine`: waiting, running the
handler, or behind the first test of `r->sock`. -/
inductive Worker
  | idle
  | handling (j : Job)
  | composed (j : Job)
deriving DecidableEq, Repr

/-- The job a worker has. -/
def Worker.job : Worker → Option Job
  | .idle => none
  | .handling j => some j
  | .composed j => some j

/-- The whole process. `written` records for each write of a response the
connection it went to and the one whose request it answers, `expired` for each
descriptor the timer closed the connection it belonged to and the one that had
registered it. -/
structure Server where
  conns : Fd → Option Conn
  nextConn : Nat
  slots : List Slot
  nextSlot : Nat
  queue : List Job
  workers : List Worker
  pool : FragPool KeepaliveSock
  written : List (Nat × Nat)
  expired : List (Nat × Nat)

namespace Server

/-- The jobs that are queued or in the hands of a worker. -/
def busy (s : Server) : List Job := s.queue ++ s.workers.filterMap Worker.job

/-- `event_startup` and the start of the workers. -/
def start (c : ServerConfig) : Server :=
  { conns := fun _ => none
    nextConn := 0
    slots := (List.range c.preallocRequestStructures).map fun i => ⟨i, none, false, none⟩
    nextSlot := c.preallocRequestStructures
    queue := []
    workers := List.replicate c.workerThreads .idle
    pool := .create httpKeepaliveSocketsPoolReservedSize
    written := []
    expired := [] }

/-! ## The parts of a step -/

/-- Set the event mask of a descriptor. -/
def setMask (s : Server) (fd : Fd) (mask : Mask) : Server :=
  { s with conns := Function.update s.conns fd ((s.conns fd).map fun c => { c with mask := mask }) }

theorem setMask_conns_self {s : Server} {fd : Fd} {conn : Conn} (h : s.conns fd = some conn)
    (mask : Mask) : (s.setMask fd mask).conns fd = some { conn with mask := mask } := by
  simp [setMask, h]

theorem setMask_conns_of_ne (s : Server) {fd fd' : Fd} (h : fd' ≠ fd) (mask : Mask) :
    (s.setMask fd mask).conns fd' = s.conns fd' :=
  Function.update_of_ne h _ _

/-- Replace the request structure that has the address of `y`. -/
def putSlot (s : Server) (y : Slot) : Server := { s with slots := put Slot.addr y s.slots }

/-- The connection behind `http_cleanup`: it waits for the next request or is
closed. -/
def endConn (s : Server) (fd : Fd) (keepalive : Bool) : Server :=
  if keepalive then
    let conn := (s.conns fd).map fun c => { c with mask := .input, kept := some keepalive }
    { s with conns := Function.update s.conns fd conn }
  else { s with conns := Function.update s.conns fd none }

/-- `http_cleanup` of the structure `x`. -/
def cleanup (s : Server) (x : Slot) : Server :=
  putSlot (match x.sock with
    | some fd => s.endConn fd x.keepalive
    | none => s) ⟨x.addr, none, false, none⟩

/-- `http_send` of a response to the request of `origin`, and `end_request` if all
of it was sent. -/
def respond (s : Server) (x : Slot) (fd : Fd) (origin : Nat) (sent : Bool) : Server :=
  let t := { s with written := s.written ++ (s.conns fd).toList.map fun c : Conn => (c.id, origin) }
  if sent then t.cleanup x
  else (t.setMask fd .output).putSlot { x with pending := some origin }

/-- The structure that holds the descriptor. -/
def holder (s : Server) (fd : Fd) : Option Slot := s.slots.find? fun x => x.sock == some fd

/-- The first structure that holds none. -/
def idleSlot (s : Server) : Option Slot := s.slots.find? fun x => x.sock == none

/-- `event_find_request`. -/
def eventFindRequest (s : Server) (fd : Fd) : Option (Server × Slot) :=
  match s.holder fd with
  | some x => some (s, x)
  | none =>
      match s.idleSlot with
      | some x => some (s.putSlot { x with sock := some fd }, { x with sock := some fd })
      | none => none

/-- `event_fetch_request`. -/
def eventFetchRequest (s : Server) (fd : Fd) : Server × Slot :=
  match s.eventFindRequest fd with
  | some e => e
  | none =>
      let x : Slot := ⟨s.nextSlot, some fd, false, none⟩
      ({ s with slots := s.slots ++ [x], nextSlot := s.nextSlot + 1 }, x)

/-- One turn of the loop of `event_iter` over the registry. -/
def expire (c : ServerConfig) (curtime : Int) (s : Server) (i : Nat) : Server :=
  match s.pool.e[i]? with
  | some (some k) =>
      if curtime - k.time > c.keepaliveTimeoutVal ∨ curtime - k.time < 0 then
        match s.holder k.sock with
        | some _ => s
        | none =>
            { s with
              conns := Function.update s.conns k.sock none
              pool := s.pool.freeAlt i
              expired := s.expired ++ (s.conns k.sock).toList.map fun c : Conn => (c.id, k.conn) }
      else s
  | _ => s

/-- The loop over the registry. The array does not grow in it, so that places
behind its end are reached only after the loop of the source has ended. -/
def expireAll (c : ServerConfig) (curtime : Int) (s : Server) : Server :=
  (List.range s.pool.e.length).foldl (expire c curtime) s

/-- The structures behind the preallocated ones are destroyed when idle. -/
def freeIdle (c : ServerConfig) (s : Server) : Server :=
  if c.idleRequestStructures then
    { s with
      slots := s.slots.take c.preallocRequestStructures ++
        (s.slots.drop c.preallocRequestStructures).filter fun x => x.sock.isSome }
  else s

end Server

/-! ## The steps -/

/-- How a call of `http_serve_client` ends: more bytes are needed, the request is
queued, the event loop sent all or a part of a response, the client closed. -/
inductive ReadOutcome
  | waiting
  | queued
  | replied (sent : Bool)
  | closed
deriving DecidableEq, Repr

/-- What can happen next. A worker is given by its number; `raise` is an exception
in the handler or a failed compression, both of which answer with `http_error`. -/
inductive ServerEvent
  | accept (fd : Fd)
  | readable (fd : Fd) (registrations : List Registration) (outcome : ReadOutcome)
  | writable (fd : Fd) (ended : Bool)
  | hangUp (fd : Fd)
  | eventIter (curtime : Int)
  | fetch (w : Nat)
  | handled (w : Nat)
  | send (w : Nat) (sent : Bool)
  | raise (w : Nat) (sent : Bool)

namespace Server

/-- The structure `x` of the connection `conn` behind `http_serve_client`. -/
def serve (s : Server) (x : Slot) (fd : Fd) (conn : Nat) : ReadOutcome → Server
  | .waiting => s
  | .queued => { s.setMask fd .off with queue := s.queue ++ [⟨x.addr, conn⟩] }
  | .replied sent => s.respond x fd conn sent
  | .closed =>
      { s with pool := removeKeepaliveSocket s.pool fd }.cleanup { x with keepalive := false }

/-- The structure a readable descriptor is served with, after the keep-alive
headers of the request. -/
def receive (c : ServerConfig) (s : Server) (fd : Fd) (conn : Nat) (qs : List Registration) :
    Server × Slot :=
  let e := s.eventFetchRequest fd
  let k := registerAll c conn fd qs e.2.keepalive e.1.pool
  let x := { e.2 with keepalive := k.1 }
  ({ e.1 with pool := k.2 }.putSlot x, x)

/-- The structure with an address. -/
def slotAt (s : Server) (a : Nat) : Option Slot := s.slots.find? fun x => x.addr == a

/-- The worker `w` waits again. -/
def rest (s : Server) (w : Nat) : Server := { s with workers := s.workers.set w .idle }

/-- One step. A worker whose structure was destroyed has no step. -/
def step (c : ServerConfig) (s : Server) : ServerEvent → Option Server
  | .accept fd =>
      match s.conns fd with
      | some _ => none
      | none =>
          some { s with
            conns := Function.update s.conns fd (some ⟨s.nextConn, .input, none⟩)
            nextConn := s.nextConn + 1 }
  | .readable fd registrations outcome =>
      (s.conns fd).bind fun conn =>
        if conn.mask = .input then
          let e := s.receive c fd conn.id registrations
          some (e.1.serve e.2 fd conn.id outcome)
        else none
  | .writable fd ended =>
      (s.conns fd).bind fun conn =>
        if conn.mask = .output then
          match s.holder fd with
          | none => some s
          | some x =>
              let t := { s with
                written := s.written ++ x.pending.toList.map fun origin => (conn.id, origin) }
              some (if ended then t.cleanup x else t)
        else none
  | .hangUp fd =>
      (s.conns fd).bind fun _ =>
        match s.eventFindRequest fd with
        | none => some s
        | some e =>
            some ({ e.1 with pool := removeKeepaliveSocket e.1.pool fd }.cleanup
              { e.2 with keepalive := false })
  | .eventIter curtime => some ((s.expireAll c curtime).freeIdle c)
  | .fetch w =>
      match s.workers[w]?, s.queue.getLast? with
      | some .idle, some j =>
          some { s with queue := s.queue.dropLast, workers := s.workers.set w (.handling j) }
      | _, _ => none
  | .handled w =>
      match s.workers[w]? with
      | some (.handling j) =>
          (s.slotAt j.slot).map fun x =>
            match x.sock with
            | none => s.rest w
            | some _ => { s with workers := s.workers.set w (.composed j) }
      | _ => none
  | .send w sent =>
      match s.workers[w]? with
      | some (.composed j) =>
          (s.slotAt j.slot).map fun x =>
            match x.sock with
            | none => s.rest w
            | some fd => (s.rest w).respond x fd j.origin sent
      | _ => none
  | .raise w sent =>
      ((s.workers[w]?).bind Worker.job).bind fun j =>
        (s.slotAt j.slot).map fun x =>
          match x.sock with
          | none => (s.rest w).cleanup x
          | some fd => (s.rest w).respond x fd j.origin sent

end Server

/-! ## What the searches find -/

section Searches

variable {s : Server} {x : Slot} {fd : Fd}

theorem holder_some (hx : s.holder fd = some x) : x ∈ s.slots ∧ x.sock = some fd :=
  ⟨List.mem_of_find?_eq_some hx, by simpa using List.find?_some hx⟩

theorem holder_none (h : s.holder fd = none) : ∀ x ∈ s.slots, x.sock ≠ some fd := by
  simpa [Server.holder] using h

theorem idleSlot_some (hx : s.idleSlot = some x) : x ∈ s.slots ∧ x.sock = none :=
  ⟨List.mem_of_find?_eq_some hx, by simpa using List.find?_some hx⟩

/-- A request structure is found because it holds the descriptor or because it is
idle and none does. -/
theorem eventFindRequest_cases {e : Server × Slot} (he : s.eventFindRequest fd = some e) :
    (s.holder fd = some e.2 ∧ e.1 = s) ∨
      s.holder fd = none ∧ ∃ x, s.idleSlot = some x ∧
        e = (s.putSlot { x with sock := some fd }, { x with sock := some fd }) := by
  unfold Server.eventFindRequest at he
  cases hholder : s.holder fd with
  | some x =>
      rw [hholder] at he
      obtain rfl := Option.some.inj he
      exact .inl ⟨rfl, rfl⟩
  | none =>
      cases hidle : s.idleSlot with
      | none => simp [hholder, hidle] at he
      | some x =>
          simp only [hholder, hidle] at he
          exact .inr ⟨rfl, x, rfl, (Option.some.inj he).symm⟩

theorem slotAt_some {a : Nat} (h : s.slotAt a = some x) : x ∈ s.slots ∧ x.addr = a :=
  ⟨List.mem_of_find?_eq_some h, by simpa using List.find?_some h⟩

/-- The searches change the request structures only, and what they find holds the
descriptor. -/
theorem eventFindRequest_spec {e : Server × Slot} (he : s.eventFindRequest fd = some e) :
    e.2.sock = some fd ∧ e.1.conns = s.conns ∧ e.1.pool = s.pool ∧ e.1.expired = s.expired := by
  rcases eventFindRequest_cases he with ⟨hholder, hsame⟩ | ⟨-, x, -, rfl⟩
  · rw [hsame]
    exact ⟨(holder_some hholder).2, rfl, rfl, rfl⟩
  · exact ⟨rfl, rfl, rfl, rfl⟩

theorem eventFetchRequest_spec (s : Server) (fd : Fd) :
    (s.eventFetchRequest fd).2.sock = some fd ∧ (s.eventFetchRequest fd).1.conns = s.conns ∧
      (s.eventFetchRequest fd).1.pool = s.pool ∧
      (s.eventFetchRequest fd).1.expired = s.expired := by
  unfold Server.eventFetchRequest
  cases he : s.eventFindRequest fd with
  | some e => exact eventFindRequest_spec he
  | none => exact ⟨rfl, rfl, rfl, rfl⟩

end Searches

/-! ## The request structures of the lower level -/

/-- What the event loop and the workers read of a request structure. -/
def Request.slot (r : Request) (addr : Nat) (pending : Option Nat) : Slot :=
  ⟨addr, r.sock, r.keepalive, pending⟩

/-- `http_cleanup` frees the structure in both models. -/
theorem slot_httpCleanup (r : Request) (addr : Nat) (at' : Int) :
    (httpCleanup r at').slot addr none = ⟨addr, none, false, none⟩ := rfl

end OpenTube
