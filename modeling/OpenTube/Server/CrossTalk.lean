import Mathlib.Data.List.Nodup
import OpenTube.Server.Events

/-!
# Responses and connections

A response goes to the connection its request came from, and a request structure
that is queued or in the hands of a worker stays with that connection, in every
run in which no client hangs up while its request is being handled. The test of
`r->sock` a worker makes does not replace that condition: a hang-up frees the
structure, and the next connection that becomes readable can take it before the
test is made.
-/

namespace OpenTube

open Machine Slots

/-- A slot belongs to the connection `conn`. -/
def Server.Serves (s : Server) (x : Slot) (conn : Nat) : Prop :=
  ∀ fd, x.sock = some fd → ∃ c, s.conns fd = some c ∧ c.id = conn

/-- Every write went to the connection whose request it answers, and the structure
of a request that is queued or being handled exists and was not given to another
connection. -/
structure NoCrossTalk (s : Server) : Prop where
  written : ∀ e ∈ s.written, e.1 = e.2
  kept : ∀ j ∈ s.busy, ∃ x ∈ s.slots, x.addr = j.slot ∧ s.Serves x j.origin

/-- The condition on a step: a client does not hang up while its request is queued
or being handled. -/
def Server.Undisturbed (s : Server) : ServerEvent → Prop
  | .hangUp fd => ∀ x ∈ s.slots, x.sock = some fd → x.addr ∉ s.busy.map Job.slot
  | _ => True

instance Server.decidableUndisturbed (s : Server) :
    (l : ServerEvent) → Decidable (s.Undisturbed l)
  | .hangUp fd =>
      inferInstanceAs (Decidable (∀ x ∈ s.slots, x.sock = some fd → x.addr ∉ s.busy.map Job.slot))
  | .accept _ => inferInstanceAs (Decidable True)
  | .readable _ _ _ => inferInstanceAs (Decidable True)
  | .writable _ _ => inferInstanceAs (Decidable True)
  | .eventIter _ => inferInstanceAs (Decidable True)
  | .fetch _ => inferInstanceAs (Decidable True)
  | .handled _ => inferInstanceAs (Decidable True)
  | .send _ _ => inferInstanceAs (Decidable True)
  | .raise _ _ => inferInstanceAs (Decidable True)

/-! ## The invariant -/

/-- The slot `x` serves the request of `j`, and its events are switched off. -/
def Server.Occupied (s : Server) (x : Slot) (j : Job) : Prop :=
  x.addr = j.slot ∧
    ∃ fd c, x.sock = some fd ∧ s.conns fd = some c ∧ c.id = j.origin ∧ c.mask = .off

/-- The invariant of a slot: what it still has to write answers a request of the
connection it holds, and that connection is open. -/
structure Server.Sound (s : Server) (x : Slot) : Prop where
  opened : ∀ fd, x.sock = some fd → ∃ c, s.conns fd = some c ∧ ∀ o ∈ x.pending, o = c.id
  free : x.sock = none → x.pending = none

/-- The invariant of a run. -/
structure Isolated (s : Server) : Prop where
  addrs : (s.slots.map Slot.addr).Nodup
  fresh : ∀ x ∈ s.slots, x.addr < s.nextSlot
  socks : ∀ x ∈ s.slots, ∀ y ∈ s.slots, ∀ fd, x.sock = some fd → y.sock = some fd →
    x.addr = y.addr
  sound : ∀ x ∈ s.slots, s.Sound x
  jobs : ∀ j ∈ s.busy, ∃ x ∈ s.slots, s.Occupied x j
  once : (s.busy.map Job.slot).Nodup
  written : ∀ e ∈ s.written, e.1 = e.2

variable {c : ServerConfig} {s t : Server} {x y : Slot} {fd : Fd} {conn : Conn}

theorem Isolated.noCrossTalk (h : Isolated s) : NoCrossTalk s := by
  refine ⟨h.written, fun j hj => ?_⟩
  obtain ⟨x, hx, haddr, fd, c, hsock, hc, hid, -⟩ := h.jobs j hj
  refine ⟨x, hx, haddr, fun fd' hfd' => ?_⟩
  obtain rfl := Option.some.inj (hsock.symm.trans hfd')
  exact ⟨c, hc, hid⟩

theorem Isolated.eq_of_addr (h : Isolated s) (hx : x ∈ s.slots) (hy : y ∈ s.slots)
    (haddr : x.addr = y.addr) : x = y :=
  List.inj_on_of_nodup_map h.addrs hx hy haddr

/-- The slot of a job is the one with its address. -/
theorem Isolated.occupied (h : Isolated s) {j : Job} (hj : j ∈ s.busy) (hx : x ∈ s.slots)
    (haddr : x.addr = j.slot) : s.Occupied x j := by
  obtain ⟨y, hy, hocc⟩ := h.jobs j hj
  rwa [← h.eq_of_addr hy hx (hocc.1.trans haddr.symm)]

/-- A slot is not busy if it holds no connection or one whose events are on. -/
theorem Isolated.not_busy (h : Isolated s) (hx : x ∈ s.slots)
    (hmask : ∀ fd c, x.sock = some fd → s.conns fd = some c → c.mask ≠ .off) :
    x.addr ∉ s.busy.map Job.slot := by
  intro hmem
  obtain ⟨j, hj, hslot⟩ := List.mem_map.1 hmem
  obtain ⟨-, fd, c, hsock, hc, -, hoff⟩ := h.occupied hj hx hslot.symm
  exact hmask fd c hsock hc hoff

theorem Isolated.not_busy_of_mask (h : Isolated s) (hx : x ∈ s.slots) (hsock : x.sock = some fd)
    (hc : s.conns fd = some conn) (hmask : conn.mask ≠ .off) :
    x.addr ∉ s.busy.map Job.slot := by
  refine h.not_busy hx fun fd' c' hsock' hc' => ?_
  obtain rfl := Option.some.inj (hsock.symm.trans hsock')
  obtain rfl := Option.some.inj (hc.symm.trans hc')
  exact hmask

/-! ## The parts of a step -/

/-- The registry and the timer are not part of the invariant. -/
theorem Isolated.withPool (h : Isolated s) (pool : FragPool KeepaliveSock)
    (expired : List (Nat × Nat)) : Isolated { s with pool := pool, expired := expired } :=
  ⟨h.addrs, h.fresh, h.socks, fun x hx => ⟨(h.sound x hx).opened, (h.sound x hx).free⟩,
    h.jobs, h.once, h.written⟩

theorem Isolated.withWritten (h : Isolated s) {l : List (Nat × Nat)}
    (hl : ∀ e ∈ l, e.1 = e.2) : Isolated { s with written := s.written ++ l } :=
  ⟨h.addrs, h.fresh, h.socks, fun x hx => ⟨(h.sound x hx).opened, (h.sound x hx).free⟩,
    h.jobs, h.once, List.forall_mem_append.2 ⟨h.written, hl⟩⟩

/-- Jobs may end or change hands. -/
theorem Isolated.withJobs (h : Isolated s) {queue : List Job} {workers : List Worker}
    (hsub : List.Subperm (queue ++ workers.filterMap Worker.job) s.busy) :
    Isolated { s with queue := queue, workers := workers } := by
  obtain ⟨l, hperm, hsublist⟩ := hsub
  refine ⟨h.addrs, h.fresh, h.socks, fun x hx => ⟨(h.sound x hx).opened, (h.sound x hx).free⟩,
    fun j hj => h.jobs j (hsublist.subset (hperm.symm.subset hj)), ?_, h.written⟩
  exact (hperm.map Job.slot).nodup_iff.1 (h.once.sublist (hsublist.map _))

/-- The connections that are not held by a slot do not matter. -/
theorem Isolated.withConns (h : Isolated s) {conns : Fd → Option Conn} (nextConn : Nat)
    (hconns : ∀ x ∈ s.slots, ∀ fd, x.sock = some fd → conns fd = s.conns fd) :
    Isolated { s with conns := conns, nextConn := nextConn } := by
  refine ⟨h.addrs, h.fresh, h.socks, fun x hx => ⟨fun fd hfd => ?_, (h.sound x hx).free⟩,
    fun j hj => ?_, h.once, h.written⟩
  · have := (h.sound x hx).opened fd hfd
    rwa [← hconns x hx fd hfd] at this
  · obtain ⟨x, hx, haddr, fd, c, hsock, hc, hid, hmask⟩ := h.jobs j hj
    exact ⟨x, hx, haddr, fd, c, hsock, (hconns x hx fd hsock).trans hc, hid, hmask⟩

/-- A slot that is not busy may be replaced, and the connections no other slot
holds may change with it. -/
theorem Isolated.replace (h : Isolated s) (hx : x ∈ s.slots)
    (hbusy : x.addr ∉ s.busy.map Job.slot) (haddr : y.addr = x.addr)
    {conns : Fd → Option Conn}
    (hconns : ∀ z ∈ s.slots, z.addr ≠ x.addr → ∀ fd, z.sock = some fd → conns fd = s.conns fd)
    (hown : ∀ z ∈ s.slots, z.addr ≠ x.addr → ∀ fd, z.sock = some fd → y.sock ≠ some fd)
    (hsound : Server.Sound { s with conns := conns } y) :
    Isolated { s with slots := put Slot.addr y s.slots, conns := conns } := by
  have hother : ∀ z ∈ put Slot.addr y s.slots, z = y ∨ (z ∈ s.slots ∧ z.addr ≠ x.addr) :=
    fun z hz => haddr ▸ eq_or_mem_of_mem_put hz
  refine ⟨?_, fun z hz => ?_, fun z hz w hw fd hzfd hwfd => ?_, fun z hz => ?_, fun j hj => ?_,
    h.once, h.written⟩
  · rw [map_key_put]
    exact h.addrs
  · rcases hother z hz with rfl | ⟨hz, -⟩
    · exact haddr ▸ h.fresh x hx
    · exact h.fresh z hz
  · rcases hother z hz with rfl | ⟨hz', hzne⟩
    · rcases hother w hw with rfl | ⟨hw', hwne⟩
      · rfl
      · exact absurd hzfd (hown w hw' hwne fd hwfd)
    · rcases hother w hw with rfl | ⟨hw', hwne⟩
      · exact absurd hwfd (hown z hz' hzne fd hzfd)
      · exact h.socks z hz' w hw' fd hzfd hwfd
  · rcases hother z hz with rfl | ⟨hz, hzne⟩
    · exact ⟨hsound.opened, hsound.free⟩
    · refine ⟨fun fd hfd => ?_, (h.sound z hz).free⟩
      have := (h.sound z hz).opened fd hfd
      rwa [← hconns z hz hzne fd hfd] at this
  · obtain ⟨z, hz, hslot, fd, c, hsock, hc, hid, hmask⟩ := h.jobs j hj
    have hzne : z.addr ≠ x.addr := fun heq =>
      hbusy (List.mem_map.2 ⟨j, hj, hslot.symm.trans heq⟩)
    exact ⟨z, mem_put_of_ne hz (haddr ▸ hzne), hslot, fd, c, hsock,
      (hconns z hz hzne fd hsock).trans hc, hid, hmask⟩

/-! ## The functions of the event loop -/

/-- No other slot holds the descriptor of `x`. -/
theorem Isolated.sock_ne (h : Isolated s) (hx : x ∈ s.slots) (hsock : x.sock = some fd) :
    ∀ z ∈ s.slots, z.addr ≠ x.addr → z.sock ≠ some fd :=
  fun z hz hne hz' => hne (h.socks z hz x hx fd hz' hsock)

/-- The fields of a slot other than its socket may change. -/
theorem Isolated.putSlot (h : Isolated s) (hx : x ∈ s.slots)
    (hbusy : x.addr ∉ s.busy.map Job.slot) (haddr : y.addr = x.addr) (hsock : y.sock = x.sock)
    (hsound : s.Sound y) : Isolated (s.putSlot y) := by
  refine h.replace hx hbusy haddr (fun _ _ _ _ _ => rfl) (fun z hz hne fd hfd hy => ?_) hsound
  exact h.sock_ne hx (hsock ▸ hy) z hz hne hfd

/-- A slot that is not busy may be cleaned up, whatever its flag is. -/
theorem Isolated.cleanup (h : Isolated s) (hx : x ∈ s.slots)
    (hbusy : x.addr ∉ s.busy.map Job.slot) (haddr : y.addr = x.addr) (hsock : y.sock = x.sock) :
    Isolated (s.cleanup y) := by
  have hfree : ∀ conns : Fd → Option Conn,
      (∀ z ∈ s.slots, z.addr ≠ x.addr → ∀ fd, z.sock = some fd → conns fd = s.conns fd) →
      Isolated
        { s with slots := put Slot.addr ⟨y.addr, none, false, none⟩ s.slots, conns := conns } :=
    fun conns hconns => h.replace (y := ⟨y.addr, none, false, none⟩) hx hbusy haddr hconns
      (by simp) ⟨by simp, fun _ => rfl⟩
  have hend : ∀ fd, y.sock = some fd → ∀ value, ∀ z ∈ s.slots, z.addr ≠ x.addr → ∀ fd',
      z.sock = some fd' → Function.update s.conns fd value fd' = s.conns fd' := by
    intro fd hfd value z hz hne fd' hfd'
    rw [Function.update_of_ne]
    rintro rfl
    exact h.sock_ne hx (hsock ▸ hfd) z hz hne hfd'
  unfold Server.cleanup
  cases hy : y.sock with
  | none => exact hfree s.conns fun _ _ _ _ _ => rfl
  | some fd =>
      simp only [Server.endConn]
      split
      · exact hfree _ (hend fd hy _)
      · exact hfree _ (hend fd hy _)

/-- A response to the connection a slot holds may be written. -/
theorem Isolated.respond (h : Isolated s) (hx : x ∈ s.slots)
    (hbusy : x.addr ∉ s.busy.map Job.slot) (hsock : x.sock = some fd)
    (hconn : s.conns fd = some conn) (sent : Bool) :
    Isolated (s.respond x fd conn.id sent) := by
  have hw : Isolated { s with written := s.written ++ (s.conns fd).toList.map fun c =>
      (c.id, conn.id) } := h.withWritten (by simp [hconn])
  unfold Server.respond
  cases sent with
  | true => exact hw.cleanup hx hbusy rfl rfl
  | false =>
      refine hw.replace (y := { x with pending := some conn.id }) hx hbusy rfl
        (fun z hz hne fd' hfd' => ?_) (fun z hz hne fd' hfd' hy => ?_)
        ⟨fun fd' hfd' => ?_, fun hnone => ?_⟩
      · refine Server.setMask_conns_of_ne _ ?_ _
        rintro rfl
        exact h.sock_ne hx hsock z hz hne hfd'
      · exact h.sock_ne hx hy z hz hne hfd'
      · obtain rfl := Option.some.inj (hsock.symm.trans hfd')
        exact ⟨{ conn with mask := .output }, Server.setMask_conns_self hconn _, by simp⟩
      · simp [hsock] at hnone

/-- What a search for a request structure leaves: the invariant, and a slot that
holds the descriptor. -/
structure Fetched (s t : Server) (fd : Fd) (x : Slot) : Prop where
  isolated : Isolated t
  mem : x ∈ t.slots
  sock : x.sock = some fd
  conns : t.conns = s.conns
  busy : t.busy = s.busy

theorem Isolated.eventFindRequest (h : Isolated s) (hconn : s.conns fd = some conn)
    {e : Server × Slot} (he : s.eventFindRequest fd = some e) : Fetched s e.1 fd e.2 := by
  rcases eventFindRequest_cases he with ⟨hholder, rfl⟩ | ⟨hholder, x, hidle, rfl⟩
  · obtain ⟨hx, hsock⟩ := holder_some hholder
    exact ⟨h, hx, hsock, rfl, rfl⟩
  · obtain ⟨hx, hsock⟩ := idleSlot_some hidle
    have hpending := (h.sound x hx).free hsock
    have hnotbusy := h.not_busy hx (by simp [hsock])
    refine ⟨?_, mem_put_self hx rfl, rfl, rfl, rfl⟩
    refine h.replace (y := { x with sock := some fd }) hx hnotbusy rfl
      (fun _ _ _ _ _ => rfl) (fun z hz _ fd' hfd' hy => ?_) ⟨fun fd' hfd' => ?_, by simp⟩
    · obtain rfl := Option.some.inj hy
      exact holder_none hholder z hz hfd'
    · obtain rfl := Option.some.inj hfd'
      exact ⟨conn, hconn, by simp [hpending]⟩

theorem Isolated.eventFetchRequest (h : Isolated s) (hconn : s.conns fd = some conn) :
    Fetched s (s.eventFetchRequest fd).1 fd (s.eventFetchRequest fd).2 := by
  unfold Server.eventFetchRequest
  cases hfind : s.eventFindRequest fd with
  | some e => exact h.eventFindRequest hconn hfind
  | none =>
      have hholder : s.holder fd = none := by
        unfold Server.eventFindRequest at hfind
        cases hholder : s.holder fd with
        | none => rfl
        | some x => simp [hholder] at hfind
      refine ⟨⟨?_, ?_, ?_, ?_, fun j hj => ?_, h.once, h.written⟩, by simp, rfl, rfl, rfl⟩
      · rw [List.map_append, List.nodup_append]
        refine ⟨h.addrs, by simp, fun a ha b hb hab => ?_⟩
        obtain ⟨z, hz, rfl⟩ := List.mem_map.1 ha
        have := h.fresh z hz
        simp at hb
        omega
      · intro z hz
        rcases List.mem_append.1 hz with hz | hz
        · exact Nat.lt_succ_of_lt (h.fresh z hz)
        · obtain rfl := List.mem_singleton.1 hz
          exact Nat.lt_succ_self _
      · intro z hz w hw fd' hzfd hwfd
        rcases List.mem_append.1 hz with hz | hz
        · rcases List.mem_append.1 hw with hw | hw
          · exact h.socks z hz w hw fd' hzfd hwfd
          · obtain rfl := List.mem_singleton.1 hw
            obtain rfl := Option.some.inj hwfd
            exact absurd hzfd (holder_none hholder z hz)
        · obtain rfl := List.mem_singleton.1 hz
          obtain rfl := Option.some.inj hzfd
          rcases List.mem_append.1 hw with hw | hw
          · exact absurd hwfd (holder_none hholder w hw)
          · obtain rfl := List.mem_singleton.1 hw
            rfl
      · intro z hz
        rcases List.mem_append.1 hz with hz | hz
        · exact ⟨(h.sound z hz).opened, (h.sound z hz).free⟩
        · obtain rfl := List.mem_singleton.1 hz
          refine ⟨fun fd' hfd' => ?_, by simp⟩
          obtain rfl := Option.some.inj hfd'
          exact ⟨conn, hconn, by simp⟩
      · obtain ⟨z, hz, hocc⟩ := h.jobs j hj
        exact ⟨z, List.mem_append_left _ hz, hocc⟩

/-! ## Every step -/

theorem Isolated.receive (h : Isolated s) (hconn : s.conns fd = some conn)
    (hmask : conn.mask = .input) (qs : List Registration) :
    Fetched s (s.receive c fd conn.id qs).1 fd (s.receive c fd conn.id qs).2 := by
  have hf := h.eventFetchRequest hconn
  have hbusy := hf.isolated.not_busy_of_mask hf.mem hf.sock (hf.conns ▸ hconn) (by simp [hmask])
  have hsound := hf.isolated.sound _ hf.mem
  refine ⟨?_, mem_put_self hf.mem rfl, hf.sock, hf.conns, hf.busy⟩
  exact (hf.isolated.withPool _ _).putSlot hf.mem hbusy rfl rfl ⟨hsound.opened, hsound.free⟩

/-- A slot becomes busy: the events of its connection are switched off. -/
theorem Isolated.queued (h : Isolated s) (hx : x ∈ s.slots)
    (hbusy : x.addr ∉ s.busy.map Job.slot) (hsock : x.sock = some fd)
    (hconn : s.conns fd = some conn) :
    Isolated { s.setMask fd .off with queue := s.queue ++ [⟨x.addr, conn.id⟩] } := by
  have hperm : List.Perm (s.queue ++ [⟨x.addr, conn.id⟩] ++ s.workers.filterMap Worker.job)
      (⟨x.addr, conn.id⟩ :: s.busy) := by
    rw [List.append_assoc]
    exact List.perm_middle
  have hother : ∀ z ∈ s.slots, ∀ fd', z.sock = some fd' → z.addr ≠ x.addr →
      (s.setMask fd .off).conns fd' = s.conns fd' := by
    intro z hz fd' hfd' hne
    refine Server.setMask_conns_of_ne _ ?_ _
    rintro rfl
    exact h.sock_ne hx hsock z hz hne hfd'
  refine ⟨h.addrs, h.fresh, h.socks, fun z hz => ⟨fun fd' hfd' => ?_, (h.sound z hz).free⟩,
    fun j hj => ?_, ?_, h.written⟩
  · by_cases heq : fd' = fd
    · subst heq
      obtain ⟨c', hc', hpending⟩ := (h.sound z hz).opened fd' hfd'
      obtain rfl := Option.some.inj (hconn.symm.trans hc')
      exact ⟨_, Server.setMask_conns_self hconn _, hpending⟩
    · have := (h.sound z hz).opened fd' hfd'
      rwa [← Server.setMask_conns_of_ne s heq .off] at this
  · rcases List.mem_cons.1 (hperm.subset hj) with rfl | hj
    · exact ⟨x, hx, rfl, fd, _, hsock, Server.setMask_conns_self hconn _, rfl, rfl⟩
    · obtain ⟨z, hz, haddr, fd', c', hfd', hc', hid, hoff⟩ := h.jobs j hj
      have hne : z.addr ≠ x.addr := fun heq =>
        hbusy (List.mem_map.2 ⟨j, hj, haddr.symm.trans heq⟩)
      exact ⟨z, hz, haddr, fd', c', hfd', (hother z hz fd' hfd' hne).trans hc', hid, hoff⟩
  · refine (hperm.map Job.slot).nodup_iff.2 ?_
    rw [List.map_cons]
    exact List.nodup_cons.2 ⟨hbusy, h.once⟩

theorem Isolated.serve (h : Isolated s) (hx : x ∈ s.slots)
    (hbusy : x.addr ∉ s.busy.map Job.slot) (hsock : x.sock = some fd)
    (hconn : s.conns fd = some conn) (outcome : ReadOutcome) :
    Isolated (s.serve x fd conn.id outcome) := by
  cases outcome with
  | waiting => exact h
  | queued => exact h.queued hx hbusy hsock hconn
  | replied sent => exact h.respond hx hbusy hsock hconn sent
  | closed => exact (h.withPool _ _).cleanup hx hbusy rfl rfl

theorem Isolated.expire (h : Isolated s) (curtime : Int) (i : Nat) :
    Isolated (s.expire c curtime i) := by
  unfold Server.expire
  split
  · rename_i k _
    split
    · cases hholder : s.holder k.sock with
      | some x => exact h
      | none =>
          refine (h.withConns s.nextConn fun x hx fd hfd => ?_).withPool _ _
          refine Function.update_of_ne ?_ _ _
          rintro rfl
          exact holder_none hholder x hx hfd
    · exact h
  · exact h

theorem Isolated.expireAll (h : Isolated s) (curtime : Int) :
    Isolated (s.expireAll c curtime) := by
  have hloop : ∀ (l : List Nat) (s : Server), Isolated s →
      Isolated (l.foldl (Server.expire c curtime) s) := by
    intro l
    induction l with
    | nil => exact fun _ h => h
    | cons i l ih => exact fun s h => ih _ (h.expire curtime i)
  exact hloop _ s h

/-- Only idle slots are destroyed, and those are not busy. -/
theorem Isolated.freeIdle (h : Isolated s) : Isolated (s.freeIdle c) := by
  unfold Server.freeIdle
  split
  · have hsub : List.Sublist (s.slots.take c.preallocRequestStructures ++
        (s.slots.drop c.preallocRequestStructures).filter fun x => x.sock.isSome) s.slots := by
      conv_rhs => rw [← List.take_append_drop c.preallocRequestStructures s.slots]
      exact (List.Sublist.refl _).append List.filter_sublist
    refine ⟨h.addrs.sublist (hsub.map _), fun x hx => h.fresh x (hsub.subset hx),
      fun x hx y hy => h.socks x (hsub.subset hx) y (hsub.subset hy),
      fun x hx => ⟨(h.sound x (hsub.subset hx)).opened, (h.sound x (hsub.subset hx)).free⟩,
      fun j hj => ?_, h.once, h.written⟩
    obtain ⟨x, hx, haddr, fd, c', hsock, hrest⟩ := h.jobs j hj
    refine ⟨x, ?_, haddr, fd, c', hsock, hrest⟩
    rw [← List.take_append_drop c.preallocRequestStructures s.slots] at hx
    rcases List.mem_append.1 hx with hx | hx
    · exact List.mem_append_left _ hx
    · exact List.mem_append_right _ (List.mem_filter.2 ⟨hx, by simp [hsock]⟩)
  · exact h

/-- The jobs are those of one worker and the others. -/
theorem busy_perm {w : Nat} {wk : Worker} (hw : s.workers[w]? = some wk) :
    ∃ others, List.Perm s.busy (wk.job.toList ++ others) ∧ ∀ wk' : Worker,
      List.Perm (s.queue ++ (s.workers.set w wk').filterMap Worker.job)
        (wk'.job.toList ++ others) := by
  obtain ⟨others, hold, hnew⟩ := exists_filterMap_set_perm hw Worker.job
  refine ⟨s.queue ++ others, ?_, fun wk' => ?_⟩
  · exact (hold.append_left _).trans (List.perm_append_comm_assoc _ _ _)
  · exact ((hnew wk').append_left _).trans (List.perm_append_comm_assoc _ _ _)

/-- A worker gives up its job: the slot is not busy any more. -/
theorem Isolated.rest (h : Isolated s) {w : Nat} {wk : Worker} {j : Job}
    (hw : s.workers[w]? = some wk) (hjob : wk.job = some j) :
    Isolated (s.rest w) ∧ j ∈ s.busy ∧ j.slot ∉ (s.rest w).busy.map Job.slot := by
  obtain ⟨others, hold, hnew⟩ := busy_perm hw
  have hrest : List.Perm (s.rest w).busy others := hnew .idle
  have hbusy : List.Perm s.busy (j :: (s.rest w).busy) := by
    rw [hjob] at hold
    exact hold.trans (hrest.symm.cons j)
  have honce : ((j :: (s.rest w).busy).map Job.slot).Nodup :=
    (hbusy.map Job.slot).nodup_iff.1 h.once
  rw [List.map_cons] at honce
  refine ⟨h.withJobs ?_, hbusy.symm.subset (by simp), (List.nodup_cons.1 honce).1⟩
  exact ((List.sublist_cons_self j _).subperm).trans hbusy.symm.subperm

/-- The response of a worker goes to the connection of its request. -/
theorem Isolated.respondJob (h : Isolated s) {w : Nat} {wk : Worker} {j : Job}
    (hw : s.workers[w]? = some wk) (hjob : wk.job = some j) (hx : s.slotAt j.slot = some x)
    (hsock : x.sock = some fd) (sent : Bool) :
    Isolated ((s.rest w).respond x fd j.origin sent) := by
  obtain ⟨hrest, hj, hfree⟩ := h.rest hw hjob
  obtain ⟨hmem, haddr⟩ := slotAt_some hx
  obtain ⟨-, fd', conn, hsock', hconn, hid, -⟩ := h.occupied hj hmem haddr
  obtain rfl := Option.some.inj (hsock.symm.trans hsock')
  rw [← hid]
  exact hrest.respond hmem (haddr ▸ hfree) hsock hconn sent

theorem Isolated.fetch (h : Isolated s) {w : Nat} {j : Job} (hw : s.workers[w]? = some .idle)
    (hj : s.queue.getLast? = some j) :
    Isolated { s with queue := s.queue.dropLast, workers := s.workers.set w (.handling j) } := by
  obtain ⟨others, hold, hnew⟩ := exists_filterMap_set_perm hw Worker.job
  have hqueue : s.queue.dropLast ++ [j] = s.queue :=
    List.dropLast_append_getLast? j hj
  refine h.withJobs (List.Perm.subperm ?_)
  calc s.queue.dropLast ++ (s.workers.set w (.handling j)).filterMap Worker.job
    List.Perm _ (s.queue.dropLast ++ (j :: others)) := (hnew (.handling j)).append_left _
    _ = s.queue ++ others := by rw [← hqueue]; simp
    List.Perm _ s.busy := hold.symm.append_left _

theorem Isolated.writable (h : Isolated s) (hconn : s.conns fd = some conn)
    (hmask : conn.mask = .output) (hholder : s.holder fd = some x) (ended : Bool) :
    let t := { s with
      written := s.written ++ x.pending.toList.map fun origin => (conn.id, origin) }
    Isolated (if ended then t.cleanup x else t) := by
  intro t
  obtain ⟨hx, hsock⟩ := holder_some hholder
  have hbusy := h.not_busy_of_mask hx hsock hconn (by simp [hmask])
  have ht : Isolated t := by
    refine h.withWritten fun e he => ?_
    obtain ⟨o, ho, rfl⟩ := List.mem_map.1 he
    obtain ⟨conn', hconn', hpending⟩ := (h.sound x hx).opened fd hsock
    obtain rfl := Option.some.inj (hconn.symm.trans hconn')
    exact (hpending o (by simpa using ho)).symm
  cases ended with
  | true => exact ht.cleanup hx hbusy rfl rfl
  | false => exact ht

/-- The slot a hang-up is found with is not busy: it held the descriptor of an
undisturbed request, or none. -/
theorem Isolated.not_busy_of_find (h : Isolated s) (hok : s.Undisturbed (.hangUp fd))
    {e : Server × Slot} (he : s.eventFindRequest fd = some e) :
    e.2.addr ∉ s.busy.map Job.slot := by
  rcases eventFindRequest_cases he with ⟨hholder, -⟩ | ⟨-, x, hidle, rfl⟩
  · obtain ⟨hx, hsock⟩ := holder_some hholder
    exact hok e.2 hx hsock
  · obtain ⟨hx, hsock⟩ := idleSlot_some hidle
    have hfree := h.not_busy hx (by simp [hsock])
    exact hfree

theorem Isolated.step {l : ServerEvent} (h : Isolated s) (hok : s.Undisturbed l)
    (hstep : s.step c l = some t) : Isolated t := by
  cases l with
  | accept fd =>
      simp only [Server.step] at hstep
      split at hstep
      · simp at hstep
      · rename_i hclosed
        obtain rfl := Option.some.inj hstep
        refine h.withConns _ fun x hx fd' hfd' => Function.update_of_ne ?_ _ _
        rintro rfl
        obtain ⟨conn, hconn, -⟩ := (h.sound x hx).opened fd' hfd'
        simp [hconn] at hclosed
  | readable fd registrations outcome =>
      obtain ⟨conn, hconn, hif⟩ := Option.bind_eq_some_iff.1 hstep
      split at hif
      · rename_i hmask
        obtain rfl := Option.some.inj hif
        have hf := h.receive (c := c) hconn hmask registrations
        have hopen := hf.conns ▸ hconn
        exact hf.isolated.serve hf.mem
          (hf.isolated.not_busy_of_mask hf.mem hf.sock hopen (by simp [hmask]))
          hf.sock hopen outcome
      · simp at hif
  | writable fd ended =>
      obtain ⟨conn, hconn, hif⟩ := Option.bind_eq_some_iff.1 hstep
      split at hif
      · rename_i hmask
        cases hholder : s.holder fd with
        | none =>
            simp only [hholder] at hif
            exact Option.some.inj hif ▸ h
        | some x =>
            simp only [hholder] at hif
            exact Option.some.inj hif ▸ h.writable hconn hmask hholder ended
      · simp at hif
  | hangUp fd =>
      obtain ⟨conn, hconn, hif⟩ := Option.bind_eq_some_iff.1 hstep
      cases hfind : s.eventFindRequest fd with
      | none =>
          simp only [hfind] at hif
          exact Option.some.inj hif ▸ h
      | some e =>
          simp only [hfind] at hif
          have hf := h.eventFindRequest hconn hfind
          have hbusy := hf.busy ▸ h.not_busy_of_find hok hfind
          exact Option.some.inj hif ▸ (hf.isolated.withPool _ _).cleanup hf.mem hbusy rfl rfl
  | eventIter curtime =>
      obtain rfl := Option.some.inj hstep
      exact (h.expireAll curtime).freeIdle
  | fetch w =>
      simp only [Server.step] at hstep
      split at hstep
      · rename_i j hw hj
        exact Option.some.inj hstep ▸ h.fetch hw hj
      · simp at hstep
  | handled w =>
      simp only [Server.step] at hstep
      split at hstep
      · rename_i j hw
        obtain ⟨x, hx, ht⟩ := Option.map_eq_some_iff.1 hstep
        split at ht
        · exact ht ▸ (h.rest hw rfl).1
        · obtain ⟨others, hold, hnew⟩ := busy_perm hw
          exact ht ▸ h.withJobs ((hnew (.composed j)).trans hold.symm).subperm
      · simp at hstep
  | send w sent =>
      simp only [Server.step] at hstep
      split at hstep
      · rename_i j hw
        obtain ⟨x, hx, ht⟩ := Option.map_eq_some_iff.1 hstep
        split at ht
        · exact ht ▸ (h.rest hw rfl).1
        · rename_i fd hsock
          exact ht ▸ h.respondJob hw rfl hx hsock sent
      · simp at hstep
  | raise w sent =>
      obtain ⟨j, hjob, hmap⟩ := Option.bind_eq_some_iff.1 hstep
      obtain ⟨wk, hw, hjob⟩ := Option.bind_eq_some_iff.1 hjob
      obtain ⟨x, hx, ht⟩ := Option.map_eq_some_iff.1 hmap
      split at ht
      · obtain ⟨hrest, -, hfree⟩ := h.rest hw hjob
        obtain ⟨hmem, haddr⟩ := slotAt_some hx
        exact ht ▸ hrest.cleanup hmem (haddr ▸ hfree) rfl rfl
      · rename_i fd hsock
        exact ht ▸ h.respondJob hw hjob hx hsock sent

theorem isolated_start (c : ServerConfig) : Isolated (Server.start c) := by
  have hbusy : (Server.start c).busy = [] := by
    simp [Server.busy, Server.start, Worker.job]
  have hslots : ∀ x ∈ (Server.start c).slots, ∃ i < c.preallocRequestStructures,
      x = ⟨i, none, false, none⟩ := by
    intro x hx
    obtain ⟨i, hi, rfl⟩ := List.mem_map.1 hx
    exact ⟨i, List.mem_range.1 hi, rfl⟩
  refine ⟨?_, fun x hx => ?_, fun x hx y hy fd hfd => ?_, fun x hx => ?_, ?_,
    ?_, by simp [Server.start]⟩
  · have hids : (Server.start c).slots.map Slot.addr = List.range c.preallocRequestStructures := by
      simp [Server.start, Function.comp_def]
    rw [hids]
    exact List.nodup_range
  · obtain ⟨i, hi, rfl⟩ := hslots x hx
    exact hi
  · obtain ⟨i, hi, rfl⟩ := hslots x hx
    simp at hfd
  · obtain ⟨i, hi, rfl⟩ := hslots x hx
    exact ⟨by simp, fun _ => rfl⟩
  · simp [hbusy]
  · simp [hbusy]

/-- In every run in which no client hangs up while its request is queued or being
handled, responses go to the connection the request came from, and the structure
of such a request is neither destroyed nor given away. -/
theorem noCrossTalk_of_run (c : ServerConfig) {ls : List ServerEvent}
    (hok : Meets (Server.step c) Server.Undisturbed (Server.start c) ls)
    (hrun : run (Server.step c) (Server.start c) ls = some t) : NoCrossTalk t :=
  (run_invariant (fun _ _ _ h hok hstep => h.step hok hstep) ls _ t (isolated_start c) hok
    hrun).noCrossTalk

/-- A request is handled and answered in two writes, then another client hangs up. -/
theorem noCrossTalk_of_run_handled :
    ∃ t, run (Server.step defaultServerConfig) (Server.start defaultServerConfig)
        [.accept 5, .readable 5 [] .waiting, .accept 6, .readable 6 [] .waiting,
          .readable 5 [] .queued, .fetch 0, .hangUp 6, .handled 0, .send 0 false,
          .writable 5 true] = some t ∧ t.written = [(0, 0), (0, 0)] ∧ NoCrossTalk t := by
  have hsome : ((run (Server.step defaultServerConfig) (Server.start defaultServerConfig)
      [.accept 5, .readable 5 [] .waiting, .accept 6, .readable 6 [] .waiting,
        .readable 5 [] .queued, .fetch 0, .hangUp 6, .handled 0, .send 0 false,
        .writable 5 true]).map Server.written) = some [(0, 0), (0, 0)] := by decide +kernel
  obtain ⟨t, ht, hwritten⟩ := Option.map_eq_some_iff.1 hsome
  exact ⟨t, ht, hwritten, noCrossTalk_of_run defaultServerConfig (by decide +kernel) ht⟩

/-- The first client hangs up while the handler runs, the second is given the
structure, and the response to the first is written to the second. -/
theorem not_noCrossTalk_of_run :
    ∃ t, run (Server.step defaultServerConfig) (Server.start defaultServerConfig)
        [.accept 5, .readable 5 [] .queued, .fetch 0, .hangUp 5, .accept 6,
          .readable 6 [] .waiting, .handled 0, .send 0 true] = some t ∧ ¬ NoCrossTalk t := by
  have hsome : ((run (Server.step defaultServerConfig) (Server.start defaultServerConfig)
      [.accept 5, .readable 5 [] .queued, .fetch 0, .hangUp 5, .accept 6,
        .readable 6 [] .waiting, .handled 0, .send 0 true]).map Server.written) =
      some [(1, 0)] := by decide +kernel
  obtain ⟨t, ht, hwritten⟩ := Option.map_eq_some_iff.1 hsome
  refine ⟨t, ht, fun h => ?_⟩
  have hsame := h.written (1, 0) (by simp [hwritten])
  simp at hsame

end OpenTube
