import Mathlib.Data.Finset.Insert
import Mathlib.Data.List.Nodup
import OpenTube.Lib.Assoc
import OpenTube.Lib.Unordered
import OpenTube.Server.Events

/-!
# The event loop over select

`event_wrapper_select.c` keeps the descriptors it watches in two arrays of a fixed
size. A new connection is added at the end, a closed one is removed by moving the
last one into its place, and before each `select` the descriptors that were closed
by the timer alone are swept out while the three sets are filled. What the sets have
is compared with the event masks of the server of the event loop.

The descriptors here are those of connections, so that `fcntl` fails on all others,
and the event loop does not accept between `event_iter` and the sweep.
-/

namespace OpenTube

/-! ## The arrays -/

/-- `SELECT_MAX_CONNECTIONS`. -/
def selectMaxConnections : Nat := 10000

/-- `socklist` and `sockmask` up to `socklist_len`, and `maxfd_plus_one`. -/
structure SelectList where
  socks : List (Fd × Mask)
  maxfdPlusOne : Nat

/-- `recalc_maxfd_plus_one`. -/
def recalcMaxfdPlusOne (sockfd : Fd) (socks : List (Fd × Mask)) : Nat :=
  socks.foldl (fun (m : Nat) e => if m ≤ e.1 then e.1 + 1 else m) (sockfd + 1)

namespace SelectList

/-- `_add`, which drops the descriptor when the arrays are full. -/
def add (sockfd : Fd) (l : SelectList) (fd : Fd) : SelectList :=
  if selectMaxConnections ≤ l.socks.length then l
  else
    let socks := l.socks ++ [(fd, .input)]
    ⟨socks, recalcMaxfdPlusOne sockfd socks⟩

/-- `_select_socket_del_from_event_list`. -/
def selectSocketDel (sockfd : Fd) (l : SelectList) (fd : Fd) : SelectList :=
  let socks :=
    match l.socks.findIdx? fun e => e.1 = fd with
    | some i => Unordered.removeAt l.socks i
    | none => l.socks
  ⟨socks, recalcMaxfdPlusOne sockfd socks⟩

/-- `set_select_event_mask`. -/
def setSelectEventMask (l : SelectList) (fd : Fd) (mask : Mask) : SelectList :=
  { l with socks := Assoc.adjust fd (fun _ => mask) l.socks }

end SelectList

/-- `rfds`, `wfds` and `exfds`. -/
structure FdSets where
  rfds : Finset Fd
  wfds : Finset Fd
  exfds : Finset Fd

/-- The bits of one socket. -/
def FdSets.include (sets : FdSets) (e : Fd × Mask) : FdSets :=
  { rfds := if e.2 = .input then insert e.1 sets.rfds else sets.rfds
    wfds := if e.2 = .output then insert e.1 sets.wfds else sets.wfds
    exfds := insert e.1 sets.exfds }

/-- The loop of `event_routine` before `select`. `maxfd_plus_one` is computed again
with each descriptor that is swept out, the last time with what is left. -/
def SelectList.buildSets (sockfd : Fd) (alive : Fd → Bool) (l : SelectList) :
    SelectList × FdSets :=
  let r := Unordered.sweep (fun e => alive e.1) FdSets.include l.socks.length 0 l.socks
    ⟨{sockfd}, ∅, ∅⟩
  (⟨r.1, if r.1.length = l.socks.length then l.maxfdPlusOne else recalcMaxfdPlusOne sockfd r.1⟩,
    r.2)

/-! ## What the arrays say -/

section Arrays

variable {sockfd : Fd} {socks : List (Fd × Mask)}

/-- The largest descriptor and one more. -/
theorem lt_recalcMaxfdPlusOne_iff (n : Nat) :
    n < recalcMaxfdPlusOne sockfd socks ↔ n ≤ sockfd ∨ ∃ fd ∈ socks.map Prod.fst, n ≤ fd := by
  have hall : ∀ m : Nat, n < socks.foldl (fun (m : Nat) e => if m ≤ e.1 then e.1 + 1 else m) m ↔
      n < m ∨ ∃ fd ∈ socks.map Prod.fst, n ≤ fd := by
    induction socks with
    | nil => simp
    | cons e socks ih =>
        intro m
        rw [List.foldl_cons, ih, List.map_cons, List.exists_mem_cons_iff, ← or_assoc]
        refine or_congr_left ?_
        split_ifs <;> omega
  rw [recalcMaxfdPlusOne, hall, Nat.lt_succ_iff]

theorem recalcMaxfdPlusOne_congr {socks' : List (Fd × Mask)}
    (h : ∀ fd, fd ∈ socks'.map Prod.fst ↔ fd ∈ socks.map Prod.fst) :
    recalcMaxfdPlusOne sockfd socks' = recalcMaxfdPlusOne sockfd socks := by
  have hiff : ∀ n, n < recalcMaxfdPlusOne sockfd socks' ↔ n < recalcMaxfdPlusOne sockfd socks := by
    intro n
    simp only [lt_recalcMaxfdPlusOne_iff, h]
  exact Nat.le_antisymm (Nat.le_of_not_lt fun hlt => absurd ((hiff _).1 hlt) (Nat.lt_irrefl _))
    (Nat.le_of_not_lt fun hlt => absurd ((hiff _).2 hlt) (Nat.lt_irrefl _))

theorem selectSocketDel_lookup {l : SelectList} (hl : (l.socks.map Prod.fst).Nodup) (fd : Fd) :
    ((l.selectSocketDel sockfd fd).socks.map Prod.fst).Nodup ∧
      ∀ fd', (l.selectSocketDel sockfd fd).socks.lookup fd' =
        if fd' = fd then none else l.socks.lookup fd' := by
  rw [SelectList.selectSocketDel]
  cases hfind : l.socks.findIdx? fun e => e.1 = fd with
  | none =>
      have hnone : fd ∉ l.socks.map Prod.fst := by
        intro hmem
        obtain ⟨e, he, rfl⟩ := List.mem_map.1 hmem
        simpa using List.findIdx?_eq_none_iff.1 hfind e he
      refine ⟨hl, fun fd' => ?_⟩
      split_ifs with h
      · rw [h, Assoc.lookup_eq_none_of_notMem hnone]
      · rfl
  | some i =>
      obtain ⟨hi, hfd, -⟩ := List.findIdx?_eq_some_iff_getElem.1 hfind
      have hperm := Unordered.perm_cons_removeAt (List.getElem?_eq_getElem hi)
      have hkeys := (hperm.map Prod.fst).nodup_iff.1 hl
      rw [List.map_cons, List.nodup_cons] at hkeys
      refine ⟨hkeys.2, fun fd' => ?_⟩
      rw [Assoc.lookup_perm hperm hl, ← Prod.mk.eta (p := l.socks[i]), Assoc.lookup_cons_eq,
        of_decide_eq_true hfd]
      split_ifs with h
      · rw [h, ← of_decide_eq_true hfd]
        exact Assoc.lookup_eq_none_of_notMem hkeys.1
      · rfl

theorem buildSets_lookup {l : SelectList} (hl : (l.socks.map Prod.fst).Nodup)
    (alive : Fd → Bool) :
    ((l.buildSets sockfd alive).1.socks.map Prod.fst).Nodup ∧
      ∀ fd, (l.buildSets sockfd alive).1.socks.lookup fd =
        if alive fd then l.socks.lookup fd else none := by
  obtain ⟨rest, hrest, heq⟩ := Unordered.sweep_spec (fun e : Fd × Mask => alive e.1)
    FdSets.include (s := ⟨{sockfd}, ∅, ∅⟩) (Nat.add_zero l.socks.length)
  rw [List.drop_zero] at hrest
  have hsocks : (l.buildSets sockfd alive).1.socks = rest := by
    rw [SelectList.buildSets, heq]
    rfl
  have hkept := (List.filter_sublist (p := fun e : Fd × Mask => alive e.1)).map Prod.fst
    |>.nodup hl
  have hnodup := (hrest.map Prod.fst).nodup_iff.2 hkept
  rw [hsocks]
  refine ⟨hnodup, fun fd => ?_⟩
  rw [Assoc.lookup_perm hrest hnodup, Assoc.lookup_filter_key]

/-- `maxfd_plus_one` is what `recalc_maxfd_plus_one` makes of the arrays. -/
def SelectList.MaxfdKept (sockfd : Fd) (l : SelectList) : Prop :=
  l.maxfdPlusOne = recalcMaxfdPlusOne sockfd l.socks

theorem maxfdKept_buildSets {l : SelectList} (h : l.MaxfdKept sockfd) (alive : Fd → Bool) :
    (l.buildSets sockfd alive).1.MaxfdKept sockfd := by
  obtain ⟨rest, hrest, heq⟩ := Unordered.sweep_spec (fun e : Fd × Mask => alive e.1)
    FdSets.include (s := ⟨{sockfd}, ∅, ∅⟩) (Nat.add_zero l.socks.length)
  rw [List.drop_zero] at hrest
  simp only [SelectList.buildSets, SelectList.MaxfdKept, heq, List.take_zero, List.nil_append]
  split_ifs with hlen
  · -- nothing was swept out
    rw [hrest.length_eq, List.length_filter_eq_length_iff] at hlen
    rw [List.filter_eq_self.2 hlen] at hrest
    rw [h, recalcMaxfdPlusOne_congr fun fd => (hrest.map Prod.fst).mem_iff]
  · rfl

end Arrays

/-! ## The calls of the server -/

/-- A call that changes the entry of a descriptor. -/
inductive SelectCall
  | mask (fd : Fd) (mask : Mask)
  | del (fd : Fd)

def SelectList.call (sockfd : Fd) (l : SelectList) : SelectCall → SelectList
  | .mask fd mask => l.setSelectEventMask fd mask
  | .del fd => l.selectSocketDel sockfd fd

/-- What a call does to the masks of the descriptors. -/
def SelectCall.apply (masks : Fd → Option Mask) : SelectCall → Fd → Option Mask
  | .mask fd m => Function.update masks fd ((masks fd).map fun _ => m)
  | .del fd => Function.update masks fd none

/-- `http_cleanup`. -/
def Slot.cleanupCalls (x : Slot) : List SelectCall :=
  match x.sock with
  | none => []
  | some fd => if x.keepalive then [.mask fd .input] else [.del fd]

/-- `http_send`, and `end_request` if all was sent. -/
def Slot.respondCalls (x : Slot) (fd : Fd) (sent : Bool) : List SelectCall :=
  if sent then x.cleanupCalls else [.mask fd .output]

namespace Server

/-- The calls behind `http_serve_client`. -/
def serveCalls (x : Slot) (fd : Fd) : ReadOutcome → List SelectCall
  | .waiting => []
  | .queued => [.mask fd .off]
  | .replied sent => x.respondCalls fd sent
  | .closed => ({ x with keepalive := false } : Slot).cleanupCalls

/-- The calls that are made in a step besides `_add`. The timer closes descriptors
without one. -/
def calls (c : ServerConfig) (s : Server) : ServerEvent → List SelectCall
  | .accept _ => []
  | .readable fd registrations outcome =>
      match s.conns fd with
      | none => []
      | some conn => serveCalls (s.receive c fd conn.id registrations).2 fd outcome
  | .writable fd ended =>
      match s.holder fd with
      | none => []
      | some x => if ended then x.cleanupCalls else []
  | .hangUp fd =>
      match s.eventFindRequest fd with
      | none => []
      | some e => ({ e.2 with keepalive := false } : Slot).cleanupCalls
  | .eventIter _ => []
  | .fetch _ => []
  | .handled _ => []
  | .send w sent =>
      match s.workers[w]? with
      | some (.composed j) =>
          match s.slotAt j.slot with
          | none => []
          | some x =>
              match x.sock with
              | none => []
              | some fd => x.respondCalls fd sent
      | _ => []
  | .raise w sent =>
      match ((s.workers[w]?).bind Worker.job).bind fun j => s.slotAt j.slot with
      | none => []
      | some x =>
          match x.sock with
          | none => []
          | some fd => x.respondCalls fd sent

/-- The masks of the connections, apart from those in `deaf`. -/
def watched (deaf : List Fd) (s : Server) (fd : Fd) : Option Mask :=
  if fd ∈ deaf then none else (s.conns fd).map Conn.mask

section Watched

variable {deaf : List Fd} {s t : Server} {c : ServerConfig}

theorem watched_setMask (fd : Fd) (mask : Mask) :
    (s.setMask fd mask).watched deaf = SelectCall.apply (s.watched deaf) (.mask fd mask) := by
  funext fd'
  by_cases h : fd' = fd
  · subst h
    rw [watched, SelectCall.apply, Function.update_self, watched]
    split_ifs
    · rfl
    · cases hconn : s.conns fd' <;> simp [setMask, hconn]
  · rw [watched, setMask_conns_of_ne s h, SelectCall.apply, Function.update_of_ne h, watched]

theorem watched_congr (h : t.conns = s.conns) : t.watched deaf = s.watched deaf := by
  funext fd
  rw [watched, watched, h]

theorem watched_cleanup (x : Slot) :
    (s.cleanup x).watched deaf = x.cleanupCalls.foldl SelectCall.apply (s.watched deaf) := by
  rw [cleanup, Slot.cleanupCalls]
  cases x.sock with
  | none => rfl
  | some fd =>
      dsimp only
      have hput : ((s.endConn fd x.keepalive).putSlot ⟨x.addr, none, false, none⟩).watched deaf =
          (s.endConn fd x.keepalive).watched deaf := watched_congr rfl
      rw [hput, endConn]
      split_ifs with hkeep
      · rw [List.foldl_cons, List.foldl_nil, ← watched_setMask]
        funext fd'
        by_cases h : fd' = fd
        · subst h
          cases hconn : s.conns fd' <;> simp [watched, setMask, hconn]
        · simp [watched, setMask, h]
      · funext fd'
        by_cases h : fd' = fd <;> simp [watched, SelectCall.apply, h]

theorem watched_respond (x : Slot) (fd : Fd) (origin : Nat) (sent : Bool) :
    (s.respond x fd origin sent).watched deaf =
      (x.respondCalls fd sent).foldl SelectCall.apply (s.watched deaf) := by
  rw [respond, Slot.respondCalls]
  split_ifs
  · exact watched_cleanup x
  · exact watched_setMask fd .output

theorem watched_serve (x : Slot) (fd : Fd) (conn : Nat) (outcome : ReadOutcome) :
    (s.serve x fd conn outcome).watched deaf =
      (serveCalls x fd outcome).foldl SelectCall.apply (s.watched deaf) := by
  cases outcome with
  | waiting => rfl
  | queued => exact watched_setMask fd .off
  | replied sent => exact watched_respond x fd conn sent
  | closed =>
      have hpool : ({ s with pool := removeKeepaliveSocket s.pool fd } : Server).watched deaf =
          s.watched deaf := watched_congr rfl
      rw [serveCalls, ← hpool]
      exact watched_cleanup _

/-- Apart from a new connection and the timer, the masks change as the calls say. -/
theorem watched_step {e : ServerEvent} (h : s.step c e = some t) (haccept : ∀ fd, e ≠ .accept fd)
    (hiter : ∀ curtime, e ≠ .eventIter curtime) :
    t.watched deaf = (s.calls c e).foldl SelectCall.apply (s.watched deaf) := by
  cases e with
  | accept fd => exact absurd rfl (haccept fd)
  | eventIter curtime => exact absurd rfl (hiter curtime)
  | readable fd registrations outcome =>
      obtain ⟨conn, hconn, h⟩ := Option.bind_eq_some_iff.1 h
      split_ifs at h
      obtain rfl := Option.some.inj h
      have hreceive : (s.receive c fd conn.id registrations).1.watched deaf = s.watched deaf :=
        watched_congr (eventFetchRequest_spec s fd).2.1
      rw [calls, hconn, watched_serve, hreceive]
  | writable fd ended =>
      obtain ⟨conn, -, h⟩ := Option.bind_eq_some_iff.1 h
      by_cases hmask : conn.mask = .output
      swap
      · simp [hmask] at h
      rw [if_pos hmask] at h
      rw [calls]
      cases hholder : s.holder fd with
      | none =>
          rw [hholder] at h
          obtain rfl := Option.some.inj h
          rfl
      | some x =>
          rw [hholder] at h
          obtain rfl := Option.some.inj h
          dsimp only
          split_ifs
          · rw [watched_cleanup]
            rfl
          · rfl
  | hangUp fd =>
      obtain ⟨conn, -, h⟩ := Option.bind_eq_some_iff.1 h
      rw [calls]
      cases hfind : s.eventFindRequest fd with
      | none =>
          rw [hfind] at h
          obtain rfl := Option.some.inj h
          rfl
      | some e =>
          rw [hfind] at h
          obtain rfl := Option.some.inj h
          have hsame : ({ e.1 with pool := removeKeepaliveSocket e.1.pool fd } : Server).watched
              deaf = s.watched deaf := watched_congr (eventFindRequest_spec hfind).2.1
          rw [watched_cleanup, hsame]
  | fetch w =>
      rw [step] at h
      split at h
      · obtain rfl := Option.some.inj h
        rfl
      · exact absurd h (by simp)
  | handled w =>
      rw [step] at h
      split at h
      · obtain ⟨x, -, rfl⟩ := Option.map_eq_some_iff.1 h
        cases x.sock <;> rfl
      · exact absurd h (by simp)
  | send w sent =>
      rw [step] at h
      split at h
      · rename_i j hw
        obtain ⟨x, hx, rfl⟩ := Option.map_eq_some_iff.1 h
        simp only [calls, hw, hx]
        cases x.sock with
        | none => rfl
        | some fd => exact watched_respond x fd j.origin sent
      · exact absurd h (by simp)
  | raise w sent =>
      obtain ⟨j, hj, h⟩ := Option.bind_eq_some_iff.1 h
      obtain ⟨x, hx, rfl⟩ := Option.map_eq_some_iff.1 h
      simp only [calls, hj, Option.bind_some, hx]
      cases hsock : x.sock with
      | none =>
          rw [watched_cleanup, Slot.cleanupCalls, hsock]
          rfl
      | some fd => exact watched_respond x fd j.origin sent

/-- The timer closes connections and changes nothing else. -/
theorem conns_eventIter (curtime : Int) (fd : Fd) :
    ((s.expireAll c curtime).freeIdle c).conns fd = none ∨
      ((s.expireAll c curtime).freeIdle c).conns fd = s.conns fd := by
  have hconns : ((s.expireAll c curtime).freeIdle c).conns = (s.expireAll c curtime).conns := by
    rw [freeIdle]
    split_ifs <;> rfl
  rw [hconns, expireAll]
  have hall : ∀ (places : List Nat) (t : Server),
      (places.foldl (expire c curtime) t).conns fd = none ∨
        (places.foldl (expire c curtime) t).conns fd = t.conns fd := by
    intro places
    induction places with
    | nil => exact fun t => .inr rfl
    | cons i places ih =>
        intro t
        have hone : (expire c curtime t i).conns fd = none ∨
            (expire c curtime t i).conns fd = t.conns fd := by
          rw [expire]
          split
          · split_ifs
            · split
              · exact .inr rfl
              · rename_i k _ _ _ _
                by_cases hfd : fd = k.sock <;> simp [hfd]
            · exact .inr rfl
          · exact .inr rfl
        rw [List.foldl_cons]
        rcases ih (expire c curtime t i) with h | h
        · exact .inl h
        · rw [h]
          exact hone
  exact hall _ s

/-- Closed connections count as closed, deaf or not. -/
theorem watched_filter (deaf : List Fd) (s : Server) :
    s.watched (deaf.filter fun fd => (s.conns fd).isSome) = s.watched deaf := by
  funext fd
  rw [watched, watched]
  cases hconn : s.conns fd with
  | none => simp
  | some conn => simp [hconn]

theorem conns_eq_none_of_watched {fd : Fd} (h : s.watched [] fd = none) : s.conns fd = none := by
  cases hconn : s.conns fd with
  | none => rfl
  | some conn => simp [watched, hconn] at h

end Watched

end Server

/-! ## The loop -/

/-- The server and the arrays it runs over. `swept` is whether the loop is behind the
sweep of its turn; `deaf` has the open connections that `_add` dropped. -/
structure SelectServer where
  server : Server
  list : SelectList
  swept : Bool
  deaf : List Fd
  sets : FdSets

/-- A step of the server, or the loop before `select`. -/
inductive SelectEvent
  | server (e : ServerEvent)
  | buildSets

/-- The steps of the event loop, in whose turn the sweep is; the others are of workers. -/
def ServerEvent.ofLoop : ServerEvent → Bool
  | .accept _ | .readable .. | .writable .. | .hangUp _ | .eventIter _ => true
  | .fetch _ | .handled _ | .send .. | .raise .. => false

namespace SelectServer

variable (c : ServerConfig) (sockfd : Fd)

def start : SelectServer :=
  { server := .start c
    list := ⟨[], sockfd + 1⟩
    swept := true
    deaf := []
    sets := ⟨∅, ∅, ∅⟩ }

/-- The arrays behind a step of the server to `t`. `event_iter` begins a turn. -/
def serve (s : SelectServer) (e : ServerEvent) (t : Server) : SelectServer :=
  let deaf := s.deaf.filter fun fd => (t.conns fd).isSome
  match e with
  | .accept fd =>
      { s with
        server := t
        list := s.list.add sockfd fd
        deaf := if selectMaxConnections ≤ s.list.socks.length then fd :: deaf else deaf }
  | .eventIter _ => { s with server := t, swept := false, deaf := deaf }
  | e =>
      { s with
        server := t
        list := (s.server.calls c e).foldl (.call sockfd) s.list
        deaf := deaf }

/-- One step. The loop waits for the sweep of its turn. -/
def step (s : SelectServer) : SelectEvent → Option SelectServer
  | .buildSets =>
      if s.swept then none
      else
        let r := s.list.buildSets sockfd fun fd => (s.server.conns fd).isSome
        some { s with list := r.1, swept := true, sets := r.2 }
  | .server e =>
      if e.ofLoop && !s.swept then none
      else (s.server.step c e).map (s.serve c sockfd e)

end SelectServer

/-! ## What the arrays have -/

/-- The arrays have the masks, and besides them entries of stale descriptors. -/
structure SelectList.Shows (sockfd : Fd) (stale : Fd → Prop) (l : SelectList)
    (masks : Fd → Option Mask) : Prop where
  nodup : (l.socks.map Prod.fst).Nodup
  maxfd : l.MaxfdKept sockfd
  masks : ∀ fd, l.socks.lookup fd = masks fd ∨ stale fd ∧ masks fd = none

section Shows

variable {sockfd : Fd} {stale : Fd → Prop} {l : SelectList} {masks : Fd → Option Mask}

theorem SelectList.Shows.call (h : l.Shows sockfd stale masks) (x : SelectCall) :
    (l.call sockfd x).Shows sockfd stale (x.apply masks) := by
  cases x with
  | mask fd m =>
      have hkeys : (l.setSelectEventMask fd m).socks.map Prod.fst = l.socks.map Prod.fst :=
        Assoc.map_fst_adjust _ _ _
      refine ⟨hkeys ▸ h.nodup, ?_, fun fd' => ?_⟩
      · change l.maxfdPlusOne = recalcMaxfdPlusOne sockfd (l.setSelectEventMask fd m).socks
        rw [h.maxfd, recalcMaxfdPlusOne_congr fun fd => by rw [hkeys]]
      · change (Assoc.adjust fd (fun _ => m) l.socks).lookup fd' = _ ∨ _
        rw [Assoc.lookup_adjust, SelectCall.apply]
        by_cases hfd : fd' = fd
        · subst hfd
          rw [if_pos rfl, Function.update_self]
          rcases h.masks fd' with hmask | ⟨hstale, hnone⟩
          · rw [hmask]
            exact .inl rfl
          · rw [hnone]
            exact .inr ⟨hstale, rfl⟩
        · rw [if_neg hfd, Function.update_of_ne hfd]
          exact h.masks fd'
  | del fd =>
      obtain ⟨hnodup, hlookup⟩ := @selectSocketDel_lookup sockfd _ h.nodup fd
      refine ⟨hnodup, rfl, fun fd' => ?_⟩
      rw [SelectList.call, hlookup, SelectCall.apply]
      by_cases hfd : fd' = fd
      · subst hfd
        rw [if_pos rfl, Function.update_self]
        exact .inl rfl
      · rw [if_neg hfd, Function.update_of_ne hfd]
        exact h.masks fd'

theorem SelectList.Shows.calls (h : l.Shows sockfd stale masks) (xs : List SelectCall) :
    (xs.foldl (.call sockfd) l).Shows sockfd stale (xs.foldl SelectCall.apply masks) := by
  induction xs generalizing l masks with
  | nil => exact h
  | cons x xs ih => exact ih (h.call x)

theorem SelectList.Shows.add (h : l.Shows sockfd stale masks) {fd : Fd}
    (hfd : l.socks.lookup fd = none)
    (hroom : l.socks.length < selectMaxConnections) :
    (l.add sockfd fd).Shows sockfd stale (Function.update masks fd (some .input)) := by
  have hnew : fd ∉ l.socks.map Prod.fst := by
    intro hmem
    obtain ⟨e, he, rfl⟩ := List.mem_map.1 hmem
    have hsome := (Assoc.lookup_eq_some_iff_mem (v := e.2) h.nodup).2 he
    exact absurd (hsome.symm.trans hfd) (by simp)
  rw [SelectList.add, if_neg (Nat.not_le_of_lt hroom)]
  refine ⟨?_, rfl, fun fd' => ?_⟩
  · rw [List.map_append, List.map_singleton]
    refine List.nodup_append.2 ⟨h.nodup, List.nodup_singleton _, ?_⟩
    intro fd' hfd' b hb heq
    rw [heq, List.mem_singleton.1 hb] at hfd'
    exact hnew hfd'
  · rw [Assoc.lookup_concat _ _ hfd]
    by_cases hne : fd' = fd
    · rw [if_pos hne, hne, Function.update_self]
      exact .inl rfl
    · rw [if_neg hne, Function.update_of_ne hne]
      exact h.masks fd'

/-- A closed descriptor stays closed. -/
theorem foldl_apply_eq_none {fd : Fd} (h : masks fd = none) (xs : List SelectCall) :
    xs.foldl SelectCall.apply masks fd = none := by
  induction xs generalizing masks with
  | nil => exact h
  | cons x xs ih =>
      refine ih ?_
      cases x with
      | mask fd' m =>
          by_cases hfd : fd = fd'
          · subst hfd
            simp [SelectCall.apply, h]
          · rw [SelectCall.apply, Function.update_of_ne hfd, h]
      | del fd' =>
          by_cases hfd : fd = fd'
          · subst hfd
            simp [SelectCall.apply]
          · rw [SelectCall.apply, Function.update_of_ne hfd, h]

end Shows

namespace SelectServer

variable {c : ServerConfig} {sockfd : Fd} {s t : SelectServer}

/-- The arrays have the masks of the connections that were added, and until the sweep
what is left of closed ones. -/
structure Kept (sockfd : Fd) (s : SelectServer) : Prop where
  shows : s.list.Shows sockfd (fun fd => s.swept = false ∧ s.server.conns fd = none)
    (s.server.watched s.deaf)
  deaf : ∀ fd ∈ s.deaf, s.server.conns fd ≠ none

theorem Kept.buildSets (h : s.Kept sockfd) (hstep : step c sockfd s .buildSets = some t) :
    t.Kept sockfd := by
  rw [step] at hstep
  split_ifs at hstep with hswept
  obtain rfl := Option.some.inj hstep
  obtain ⟨hnodup, hlookup⟩ := @buildSets_lookup sockfd _ h.shows.nodup
    fun fd => (s.server.conns fd).isSome
  have hmaxfd := maxfdKept_buildSets h.shows.maxfd fun fd => (s.server.conns fd).isSome
  refine ⟨⟨hnodup, hmaxfd, fun fd => .inl ?_⟩, h.deaf⟩
  rw [hlookup]
  cases hconn : s.server.conns fd with
  | none => simp [Server.watched, hconn]
  | some conn =>
      rcases h.shows.masks fd with hmask | ⟨⟨-, hnone⟩, -⟩
      · simpa using hmask
      · exact absurd hnone (by simp [hconn])

theorem deaf_filter (u : Server) :
    ∀ fd ∈ s.deaf.filter fun fd => (u.conns fd).isSome, u.conns fd ≠ none := by
  intro fd hfd
  simpa [Option.isSome_iff_ne_none] using (List.mem_filter.1 hfd).2

theorem step_server_eq_some {e : ServerEvent} (h : step c sockfd s (.server e) = some t) :
    (e.ofLoop = true → s.swept = true) ∧
      ∃ u, s.server.step c e = some u ∧ t = s.serve c sockfd e u := by
  rw [step] at h
  by_cases hswept : (e.ofLoop && !s.swept) = true
  · rw [if_pos hswept] at h
    exact absurd h (by simp)
  · rw [if_neg hswept] at h
    obtain ⟨u, hu, rfl⟩ := Option.map_eq_some_iff.1 h
    exact ⟨fun hloop => by simpa [hloop] using hswept, u, hu, rfl⟩

/-- Behind the sweep the arrays have nothing else. -/
theorem Kept.lookup (h : s.Kept sockfd) (hswept : s.swept = true) (fd : Fd) :
    s.list.socks.lookup fd = s.server.watched s.deaf fd :=
  (h.shows.masks fd).resolve_right fun hstale => absurd hstale.1.1 (by simp [hswept])

theorem Kept.accept (h : s.Kept sockfd) (hswept : s.swept = true) {fd : Fd} {u : Server}
    (hu : s.server.step c (.accept fd) = some u) :
    (s.serve c sockfd (.accept fd) u).Kept sockfd := by
  rw [Server.step] at hu
  split at hu
  · exact absurd hu (by simp)
  rename_i hfree
  have hu := Option.some.inj hu
  have hlookup : s.list.socks.lookup fd = none := by
    rw [h.lookup hswept]
    simp [Server.watched, hfree]
  have hother : ∀ fd', fd' ≠ fd → u.watched s.deaf fd' = s.server.watched s.deaf fd' := by
    intro fd' hne
    simp [← hu, Server.watched, hne]
  by_cases hfull : selectMaxConnections ≤ s.list.socks.length
  · have hserve : s.serve c sockfd (.accept fd) u =
        { s with
          server := u
          deaf := fd :: s.deaf.filter fun fd => (u.conns fd).isSome } := by
      simp only [serve, SelectList.add, if_pos hfull]
    rw [hserve]
    refine ⟨⟨h.shows.nodup, h.shows.maxfd, fun fd' => .inl ?_⟩, fun fd' hfd' => ?_⟩
    · dsimp only
      by_cases hne : fd' = fd
      · rw [hne, hlookup]
        simp [Server.watched]
      · rw [h.lookup hswept, ← hother fd' hne, ← Server.watched_filter]
        simp [Server.watched, hne]
    · rcases List.mem_cons.1 hfd' with rfl | hmem
      · simp [← hu]
      · exact deaf_filter u fd' hmem
  · have hserve : s.serve c sockfd (.accept fd) u =
        { s with
          server := u
          list := s.list.add sockfd fd
          deaf := s.deaf.filter fun fd => (u.conns fd).isSome } := by
      simp only [serve, if_neg hfull]
    have hadd := h.shows.add hlookup (Nat.lt_of_not_le hfull)
    rw [hserve]
    refine ⟨⟨hadd.nodup, hadd.maxfd, fun fd' => .inl ?_⟩, deaf_filter u⟩
    dsimp only
    rw [Server.watched_filter]
    by_cases hne : fd' = fd
    · have hdeaf : fd ∉ s.deaf := fun hmem => h.deaf fd hmem hfree
      rw [hne, (hadd.masks fd).resolve_right fun hstale => by simp at hstale]
      simp [← hu, Server.watched, hdeaf]
    · have hmask := (hadd.masks fd').resolve_right fun hstale =>
        absurd hstale.1.1 (by simp [hswept])
      rw [hmask, Function.update_of_ne hne, hother fd' hne]

theorem Kept.eventIter (h : s.Kept sockfd) (hswept : s.swept = true) {curtime : Int} {u : Server}
    (hu : s.server.step c (.eventIter curtime) = some u) :
    (s.serve c sockfd (.eventIter curtime) u).Kept sockfd := by
  obtain rfl := Option.some.inj hu
  refine ⟨⟨h.shows.nodup, h.shows.maxfd, fun fd => ?_⟩, deaf_filter _⟩
  dsimp only [serve]
  rw [Server.watched_filter]
  rcases Server.conns_eventIter (c := c) (s := s.server) curtime fd with hnone | hsame
  · exact .inr ⟨⟨rfl, hnone⟩, by simp [Server.watched, hnone]⟩
  · refine .inl ?_
    rw [Server.watched, hsame]
    exact h.lookup hswept fd

theorem Kept.served (h : s.Kept sockfd) {e : ServerEvent} {u : Server}
    (hu : s.server.step c e = some u) (haccept : ∀ fd, e ≠ .accept fd)
    (hiter : ∀ curtime, e ≠ .eventIter curtime) :
    Kept sockfd { s with
      server := u
      list := (s.server.calls c e).foldl (.call sockfd) s.list
      deaf := s.deaf.filter fun fd => (u.conns fd).isSome } := by
  have hshows := h.shows.calls (s.server.calls c e)
  rw [← Server.watched_step hu haccept hiter] at hshows
  refine ⟨⟨hshows.nodup, hshows.maxfd, fun fd => ?_⟩, deaf_filter u⟩
  dsimp only
  rw [Server.watched_filter]
  refine (hshows.masks fd).imp_right fun hstale => ⟨⟨hstale.1.1, ?_⟩, hstale.2⟩
  -- a closed descriptor is not opened by another step
  refine Server.conns_eq_none_of_watched ?_
  rw [Server.watched_step hu haccept hiter]
  exact foldl_apply_eq_none (by simp [Server.watched, hstale.1.2]) _

theorem Kept.step (h : s.Kept sockfd) {x : SelectEvent} (hstep : step c sockfd s x = some t) :
    t.Kept sockfd := by
  cases x with
  | buildSets => exact h.buildSets hstep
  | server e =>
      obtain ⟨hloop, u, hu, rfl⟩ := step_server_eq_some hstep
      cases e with
      | accept fd => exact h.accept (hloop rfl) hu
      | eventIter curtime => exact h.eventIter (hloop rfl) hu
      | readable fd qs outcome => exact h.served hu (fun _ => nofun) fun _ => nofun
      | writable fd ended => exact h.served hu (fun _ => nofun) fun _ => nofun
      | hangUp fd => exact h.served hu (fun _ => nofun) fun _ => nofun
      | fetch w => exact h.served hu (fun _ => nofun) fun _ => nofun
      | handled w => exact h.served hu (fun _ => nofun) fun _ => nofun
      | send w sent => exact h.served hu (fun _ => nofun) fun _ => nofun
      | raise w sent => exact h.served hu (fun _ => nofun) fun _ => nofun

/-! ## What select is called with -/

/-- The sets and the bound are those of the connections with their masks, but for the
deaf ones. -/
structure Selects (sockfd : Fd) (s : SelectServer) : Prop where
  rfds : ∀ fd, fd ∈ s.sets.rfds ↔ fd = sockfd ∨ s.server.watched s.deaf fd = some .input
  wfds : ∀ fd, fd ∈ s.sets.wfds ↔ s.server.watched s.deaf fd = some .output
  exfds : ∀ fd, fd ∈ s.sets.exfds ↔ s.server.watched s.deaf fd ≠ none
  maxfd : ∀ n, n < s.list.maxfdPlusOne ↔
    n ≤ sockfd ∨ ∃ fd, s.server.watched s.deaf fd ≠ none ∧ n ≤ fd

end SelectServer

/-! ## The pass behind select -/

/-- What became of a socket when it was served: its mask stayed, was set, or it was
closed. -/
inductive Visit
  | stayed
  | masked (mask : Mask)
  | closed

/-- The calls for a socket that was served. -/
def Visit.calls (fd : Fd) : Visit → List SelectCall
  | .stayed => []
  | .masked mask => [.mask fd mask]
  | .closed => [.del fd]

/-- The entry of a socket that was served. -/
def Visit.entry (e : Fd × Mask) : Visit → Option (Fd × Mask)
  | .stayed => some e
  | .masked mask => some (e.1, mask)
  | .closed => none

section Dispatch

variable {σ : Type*} {sockfd : Fd} {l : SelectList}

end Dispatch

end OpenTube
