import OpenTube.Server.Events

/-!
# The registry and the open connections

An entry of `keepalive_sockets` names a descriptor, and a descriptor that was
closed is given to another connection. The entries refer to the connections that
registered, and the timer closes no other, in every run in which a response that
does not keep its connection alive is completed only on descriptors without an
entry. `http_cleanup` closes the descriptor but leaves the entry, and the only
callers that take the entry out first are the paths of a client that is gone.
-/

namespace OpenTube

open Machine

/-- The connection an entry refers to is open, it is the one that registered, and
the latest response completed on it kept it alive. -/
def Server.Backed (s : Server) (k : KeepaliveSock) : Prop :=
  ∃ conn, s.conns k.sock = some conn ∧ conn.id = k.conn ∧ conn.kept ≠ some false

/-- Every live entry refers to an open connection that is kept alive, and every
connection the timer closed had registered. -/
structure RegistrySound (s : Server) : Prop where
  live : ∀ k ∈ s.pool.live, s.Backed k
  expired : ∀ e ∈ s.expired, e.1 = e.2

/-- The structure can be cleaned up: its connection is kept alive or has no entry. -/
def Server.MayEnd (s : Server) (x : Slot) : Prop :=
  x.keepalive = true ∨ ∀ fd ∈ x.sock, ¬ Registered s.pool fd

instance Server.decidableMayEnd (s : Server) (x : Slot) : Decidable (s.MayEnd x) :=
  inferInstanceAs (Decidable (x.keepalive = true ∨ ∀ fd ∈ x.sock, ¬ Registered s.pool fd))

/-- The structure of the job a worker has. -/
def Server.jobSlot (s : Server) (w : Nat) : Option Slot :=
  ((s.workers[w]?).bind Worker.job).bind fun j => s.slotAt j.slot

/-- The condition on a step that completes a response. -/
def Server.Deregistered (c : ServerConfig) (s : Server) : ServerEvent → Prop
  | .readable fd registrations (.replied true) =>
      ∀ conn ∈ s.conns fd, let e := s.receive c fd conn.id registrations; e.1.MayEnd e.2
  | .writable fd true => ∀ x ∈ s.holder fd, s.MayEnd x
  | .send w true => ∀ x ∈ s.jobSlot w, s.MayEnd x
  | .raise w true => ∀ x ∈ s.jobSlot w, s.MayEnd x
  | _ => True

instance Server.decidableDeregistered (c : ServerConfig) (s : Server) :
    (l : ServerEvent) → Decidable (s.Deregistered c l)
  | .readable fd registrations (.replied true) =>
      inferInstanceAs (Decidable (∀ conn ∈ s.conns fd,
        let e := s.receive c fd conn.id registrations; e.1.MayEnd e.2))
  | .writable fd true => inferInstanceAs (Decidable (∀ x ∈ s.holder fd, s.MayEnd x))
  | .send w true => inferInstanceAs (Decidable (∀ x ∈ s.jobSlot w, s.MayEnd x))
  | .raise w true => inferInstanceAs (Decidable (∀ x ∈ s.jobSlot w, s.MayEnd x))
  | .readable _ _ (.replied false) => inferInstanceAs (Decidable True)
  | .readable _ _ .waiting => inferInstanceAs (Decidable True)
  | .readable _ _ .queued => inferInstanceAs (Decidable True)
  | .readable _ _ .closed => inferInstanceAs (Decidable True)
  | .writable _ false => inferInstanceAs (Decidable True)
  | .send _ false => inferInstanceAs (Decidable True)
  | .raise _ false => inferInstanceAs (Decidable True)
  | .accept _ => inferInstanceAs (Decidable True)
  | .hangUp _ => inferInstanceAs (Decidable True)
  | .eventIter _ => inferInstanceAs (Decidable True)
  | .fetch _ => inferInstanceAs (Decidable True)
  | .handled _ => inferInstanceAs (Decidable True)

/-! ## The invariant -/

/-- The invariant of a run: the entries are of different descriptors, each is
backed by a connection, and no open connection was given up. -/
structure Tracked (s : Server) : Prop where
  entries : Entries s.Backed s.pool.live
  kept : ∀ fd, ∀ conn ∈ s.conns fd, conn.kept ≠ some false
  expired : ∀ e ∈ s.expired, e.1 = e.2

variable {c : ServerConfig} {s t : Server} {x : Slot} {fd : Fd} {conn : Conn}

theorem Tracked.registrySound (h : Tracked s) : RegistrySound s := ⟨h.entries.each, h.expired⟩

/-- Only the registry, the connections and the log of the timer matter. -/
theorem Tracked.congr (h : Tracked s) (hconns : t.conns = s.conns) (hpool : t.pool = s.pool)
    (hexpired : t.expired = s.expired) : Tracked t := by
  refine ⟨⟨hpool ▸ h.entries.distinct, fun k hk => ?_⟩, hconns ▸ h.kept, hexpired ▸ h.expired⟩
  unfold Server.Backed
  rw [hconns]
  exact h.entries.each k (hpool ▸ hk)

/-- The connection of one descriptor may change: a registered one stays the same
connection, and none is given up. -/
theorem Tracked.update (h : Tracked s) (hpool : t.pool = s.pool)
    (hexpired : t.expired = s.expired) {value : Option Conn}
    (hconns : t.conns = Function.update s.conns fd value)
    (hsame : Registered s.pool fd → value.map Conn.id = (s.conns fd).map Conn.id)
    (hkept : ∀ conn ∈ value, conn.kept ≠ some false) : Tracked t := by
  have hall : ∀ fd', ∀ conn ∈ t.conns fd', conn.kept ≠ some false := by
    intro fd' conn hconn
    rw [hconns] at hconn
    by_cases heq : fd' = fd
    · subst heq
      exact hkept conn (by simpa using hconn)
    · rw [Function.update_of_ne heq] at hconn
      exact h.kept fd' conn hconn
  refine ⟨⟨hpool ▸ h.entries.distinct, fun k hk => ?_⟩, hall, hexpired ▸ h.expired⟩
  rw [hpool] at hk
  obtain ⟨conn, hconn, hid, -⟩ := h.entries.each k hk
  suffices hopen : ∃ conn', t.conns k.sock = some conn' ∧ conn'.id = k.conn by
    obtain ⟨conn', hconn', hid'⟩ := hopen
    exact ⟨conn', hconn', hid', hall _ _ hconn'⟩
  rw [hconns]
  by_cases heq : k.sock = fd
  · subst heq
    have hmap := hsame ⟨k, hk, rfl⟩
    rw [hconn, Option.map_some, hid, Option.map_eq_some_iff] at hmap
    simpa using hmap
  · exact ⟨conn, by rw [Function.update_of_ne heq, hconn], hid⟩

/-! ## The parts of a step -/

theorem Tracked.setMask (h : Tracked s) (fd : Fd) (mask : Mask) : Tracked (s.setMask fd mask) := by
  refine h.update rfl rfl rfl (fun _ => ?_) fun conn hconn => ?_
  · rw [Option.map_map]
    rfl
  · obtain ⟨conn', hconn', rfl⟩ := Option.map_eq_some_iff.1 hconn
    exact h.kept fd conn' hconn'

theorem Tracked.endConn (h : Tracked s) {keepalive : Bool}
    (hend : keepalive = true ∨ ¬ Registered s.pool fd) : Tracked (s.endConn fd keepalive) := by
  unfold Server.endConn
  cases keepalive with
  | true =>
      refine h.update rfl rfl rfl (fun _ => ?_) fun conn hconn => ?_
      · rw [Option.map_map]
        rfl
      · obtain ⟨conn', -, rfl⟩ := Option.map_eq_some_iff.1 hconn
        simp
  | false =>
      have hfree : ¬ Registered s.pool fd := by simpa using hend
      exact h.update rfl rfl rfl (fun hreg => absurd hreg hfree) (by simp)

theorem Tracked.cleanup (h : Tracked s) (hend : s.MayEnd x) : Tracked (s.cleanup x) := by
  unfold Server.cleanup
  cases hsock : x.sock with
  | none => exact h.congr rfl rfl rfl
  | some fd =>
      have hclosed : Tracked (s.endConn fd x.keepalive) :=
        h.endConn (hend.imp_right fun hfree => hfree fd hsock)
      exact hclosed.congr rfl rfl rfl

theorem Tracked.respond (h : Tracked s) (fd : Fd) (origin : Nat) {sent : Bool}
    (hend : sent = true → s.MayEnd x) : Tracked (s.respond x fd origin sent) := by
  have hw : Tracked { s with written := s.written ++ (s.conns fd).toList.map fun c =>
      (c.id, origin) } := h.congr rfl rfl rfl
  unfold Server.respond
  cases sent with
  | true => exact hw.cleanup (hend rfl)
  | false => exact (hw.setMask fd .output).congr rfl rfl rfl

/-- The connection of a client that is gone is closed after its entry was taken
out. -/
theorem Tracked.remove (h : Tracked s) (hsock : x.sock = some fd) :
    Tracked ({ s with pool := removeKeepaliveSocket s.pool fd }.cleanup
      { x with keepalive := false }) := by
  obtain ⟨hentries, hfree⟩ : Entries s.Backed (removeKeepaliveSocket s.pool fd).live ∧
      ¬ Registered (removeKeepaliveSocket s.pool fd) fd := h.entries.removeKeepaliveSocket
  have hpool : Tracked { s with pool := removeKeepaliveSocket s.pool fd } :=
    ⟨⟨hentries.distinct, hentries.each⟩, h.kept, h.expired⟩
  refine hpool.cleanup (.inr fun fd' hfd' => ?_)
  obtain rfl := Option.some.inj (hsock.symm.trans hfd')
  exact hfree

/-- The keep-alive headers of a request register its own connection. -/
theorem Tracked.receive (h : Tracked s) (hconn : s.conns fd = some conn)
    (qs : List Registration) :
    Tracked (s.receive c fd conn.id qs).1 := by
  obtain ⟨-, hconns, hpool, hexpired⟩ := eventFetchRequest_spec s fd
  have hfetch : Tracked (s.eventFetchRequest fd).1 := h.congr hconns hpool hexpired
  have hown : ∀ time, (s.eventFetchRequest fd).1.Backed ⟨fd, time, conn.id⟩ :=
    fun _ => ⟨conn, by rw [hconns, hconn], rfl, h.kept fd conn hconn⟩
  have hentries := hfetch.entries.registerAll (c := c) qs (s.eventFetchRequest fd).2.keepalive hown
  exact ⟨⟨hentries.distinct, hentries.each⟩, hfetch.kept, hfetch.expired⟩

theorem Tracked.serve (h : Tracked s) (hsock : x.sock = some fd) (origin : Nat)
    {outcome : ReadOutcome} (hend : outcome = .replied true → s.MayEnd x) :
    Tracked (s.serve x fd origin outcome) := by
  cases outcome with
  | waiting => exact h
  | queued => exact (h.setMask fd .off).congr rfl rfl rfl
  | replied sent => exact h.respond fd origin fun hsent => hend (hsent ▸ rfl)
  | closed => exact h.remove hsock

/-- The timer closes the connection of the entry it takes out. -/
theorem Tracked.expire (h : Tracked s) (curtime : Int) (i : Nat) :
    Tracked (s.expire c curtime i) := by
  unfold Server.expire
  split
  · rename_i k hk
    split
    · cases s.holder k.sock with
      | some _ => exact h
      | none =>
          have hcons := h.entries.perm (FragPool.live_freeAlt hk).symm
          obtain ⟨conn, hconn, hid, -⟩ := hcons.each k (by simp)
          refine ⟨⟨hcons.tail.distinct, fun k' hk' => ?_⟩, fun fd conn' hconn' => ?_,
            List.forall_mem_append.2 ⟨h.expired, by simp [hconn, hid]⟩⟩
          · obtain ⟨conn', hconn', hrest⟩ := hcons.tail.each k' hk'
            exact ⟨conn', (Function.update_of_ne (hcons.sock_ne k' hk') _ _).trans hconn', hrest⟩
          · by_cases heq : fd = k.sock
            · simp [heq] at hconn'
            · exact h.kept fd conn' (by simpa [heq] using hconn')
    · exact h
  · exact h

theorem Tracked.expireAll (h : Tracked s) (curtime : Int) : Tracked (s.expireAll c curtime) := by
  have hloop : ∀ (l : List Nat) (s : Server), Tracked s →
      Tracked (l.foldl (Server.expire c curtime) s) := by
    intro l
    induction l with
    | nil => exact fun _ h => h
    | cons i l ih => exact fun s h => ih _ (h.expire curtime i)
  exact hloop _ s h

theorem Tracked.step {l : ServerEvent} (h : Tracked s) (hok : s.Deregistered c l)
    (hstep : s.step c l = some t) : Tracked t := by
  have hrest : ∀ w, Tracked (s.rest w) := fun w => h.congr rfl rfl rfl
  cases l with
  | accept fd =>
      simp only [Server.step] at hstep
      split at hstep
      · simp at hstep
      · rename_i hclosed
        obtain rfl := Option.some.inj hstep
        refine h.update rfl rfl rfl (fun ⟨k, hk, hsock⟩ => ?_) (by simp)
        obtain ⟨conn, hconn, -⟩ := h.entries.each k hk
        rw [hsock, hclosed] at hconn
        simp at hconn
  | readable fd registrations outcome =>
      obtain ⟨conn, hconn, hif⟩ := Option.bind_eq_some_iff.1 hstep
      split at hif
      · obtain rfl := Option.some.inj hif
        have hsock : (s.receive c fd conn.id registrations).2.sock = some fd :=
          (eventFetchRequest_spec s fd).1
        refine (h.receive hconn registrations).serve hsock conn.id ?_
        rintro rfl
        exact hok conn hconn
      · simp at hif
  | writable fd ended =>
      obtain ⟨conn, hconn, hif⟩ := Option.bind_eq_some_iff.1 hstep
      split at hif
      · cases hholder : s.holder fd with
        | none =>
            simp only [hholder] at hif
            exact Option.some.inj hif ▸ h
        | some x =>
            simp only [hholder] at hif
            have hw : Tracked { s with
                written := s.written ++ (x.pending.toList.map fun origin => (conn.id, origin)) } :=
              h.congr rfl rfl rfl
            cases ended with
            | true => exact Option.some.inj hif ▸ hw.cleanup (hok x hholder)
            | false => exact Option.some.inj hif ▸ hw
      · simp at hif
  | hangUp fd =>
      obtain ⟨conn, hconn, hif⟩ := Option.bind_eq_some_iff.1 hstep
      cases hfind : s.eventFindRequest fd with
      | none =>
          simp only [hfind] at hif
          exact Option.some.inj hif ▸ h
      | some e =>
          simp only [hfind] at hif
          obtain ⟨hsock, hconns, hpool, hexpired⟩ := eventFindRequest_spec hfind
          exact Option.some.inj hif ▸ (h.congr hconns hpool hexpired).remove hsock
  | eventIter curtime =>
      obtain rfl := Option.some.inj hstep
      have hexpired : Tracked (s.expireAll c curtime) := h.expireAll curtime
      unfold Server.freeIdle
      split
      · exact hexpired.congr rfl rfl rfl
      · exact hexpired
  | fetch w =>
      simp only [Server.step] at hstep
      split at hstep
      · exact Option.some.inj hstep ▸ h.congr rfl rfl rfl
      · simp at hstep
  | handled w =>
      simp only [Server.step] at hstep
      split at hstep
      · obtain ⟨x, hx, ht⟩ := Option.map_eq_some_iff.1 hstep
        split at ht
        · exact ht ▸ hrest w
        · exact ht ▸ h.congr rfl rfl rfl
      · simp at hstep
  | send w sent =>
      simp only [Server.step] at hstep
      split at hstep
      · rename_i j hw
        obtain ⟨x, hx, ht⟩ := Option.map_eq_some_iff.1 hstep
        split at ht
        · exact ht ▸ hrest w
        · rename_i fd hsock
          refine ht ▸ (hrest w).respond fd j.origin fun hsent => ?_
          subst hsent
          exact hok x (by simp [Server.jobSlot, hw, Worker.job, hx])
      · simp at hstep
  | raise w sent =>
      obtain ⟨j, hjob, hmap⟩ := Option.bind_eq_some_iff.1 hstep
      obtain ⟨x, hx, ht⟩ := Option.map_eq_some_iff.1 hmap
      split at ht
      · rename_i hsock
        exact ht ▸ (hrest w).cleanup (.inr (by simp [hsock]))
      · rename_i fd hsock
        refine ht ▸ (hrest w).respond fd j.origin fun hsent => ?_
        subst hsent
        exact hok x (by simp [Server.jobSlot, hjob, hx])

theorem tracked_start (c : ServerConfig) : Tracked (Server.start c) :=
  ⟨⟨by simp [Server.start], by simp [Server.start]⟩, by simp [Server.start], by simp [Server.start]⟩

/-- In every run in which a response that does not keep its connection alive is
completed only on descriptors without an entry, the registry refers to open
connections that are kept alive and the timer closes only connections that
registered. -/
theorem registrySound_of_run (c : ServerConfig) {ls : List ServerEvent}
    (hok : Meets (Server.step c) (Server.Deregistered c) (Server.start c) ls)
    (hrun : run (Server.step c) (Server.start c) ls = some t) : RegistrySound t :=
  (run_invariant (fun _ _ _ h hok hstep => h.step hok hstep) ls _ t (tracked_start c) hok
    hrun).registrySound

/-- A registration at the given time, when every client has the same address. -/
def localRegistration (curtime : Int) : Registration := ⟨fun _ => some [127, 0, 0, 1], curtime⟩

/-- A client makes two requests that keep its connection alive and leaves; its
descriptor is used again and a later client is closed by the timer. -/
theorem registrySound_of_run_kept :
    ∃ t, run (Server.step defaultServerConfig) (Server.start defaultServerConfig)
        [.accept 5, .readable 5 [localRegistration 0] (.replied true),
          .readable 5 [localRegistration 1] .queued, .fetch 0, .handled 0, .send 0 true,
          .readable 5 [] .closed, .accept 5, .readable 5 [localRegistration 2] (.replied true),
          .eventIter 30] = some t ∧ t.expired = [(1, 1)] ∧ RegistrySound t := by
  have hsome : ((run (Server.step defaultServerConfig) (Server.start defaultServerConfig)
      [.accept 5, .readable 5 [localRegistration 0] (.replied true),
        .readable 5 [localRegistration 1] .queued, .fetch 0, .handled 0, .send 0 true,
        .readable 5 [] .closed, .accept 5, .readable 5 [localRegistration 2] (.replied true),
        .eventIter 30]).map Server.expired) = some [(1, 1)] := by decide +kernel
  obtain ⟨t, ht, hexpired⟩ := Option.map_eq_some_iff.1 hsome
  exact ⟨t, ht, hexpired, registrySound_of_run defaultServerConfig (by decide +kernel) ht⟩

/-- The second request of a client asks for no keep-alive, so its descriptor is
closed but stays registered; the next client gets the descriptor and the timer
closes its connection. -/
theorem not_registrySound_of_run :
    ∃ t, run (Server.step defaultServerConfig) (Server.start defaultServerConfig)
        [.accept 5, .readable 5 [localRegistration 0] (.replied true),
          .readable 5 [] (.replied true), .accept 5, .eventIter 30] = some t ∧
      ¬ RegistrySound t := by
  have hsome : ((run (Server.step defaultServerConfig) (Server.start defaultServerConfig)
      [.accept 5, .readable 5 [localRegistration 0] (.replied true),
        .readable 5 [] (.replied true), .accept 5, .eventIter 30]).map Server.expired) =
      some [(1, 0)] := by decide +kernel
  obtain ⟨t, ht, hexpired⟩ := Option.map_eq_some_iff.1 hsome
  refine ⟨t, ht, fun h => ?_⟩
  have hsame := h.expired (1, 0) (by simp [hexpired])
  simp at hsame

end OpenTube
