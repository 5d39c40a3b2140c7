import OpenTube.Common.Pool
import OpenTube.Common.Types
import OpenTube.Lib.Run

/-!
# The limit on new connections

`limit_requests` counts the connections of each client address. A first
connection opens a window of two seconds; a client that connects more often than
`limit_rate` in it is turned away until `event_iter` drops its entry,
`limit_delay` seconds later. A connection that finds an old window drops it and is
let in, without being counted: so in the second in which a window lapses one
connection more than `limit_rate` can get in.

The state of a run records, for the statement only, who was let in during the
current second and whose window lapsed in it.
-/

namespace OpenTube

open List Slots

/-! ## The functions -/

/-- `limit_req_t`. Of the address only the bytes that are compared are kept. -/
structure LimitReq where
  addr : List UInt8
  time : Int
  dtime : Int
  req : Nat
deriving DecidableEq, Repr

/-- The settings `limit_requests` reads. -/
structure LimitConfig where
  limitRate : Nat
  limitDelay : Nat
deriving DecidableEq, Repr

/-- A place of the pool that holds the entry of the address. -/
def isClient (addr : List UInt8) : Option LimitReq → Bool
  | none => false
  | some cli => cli.addr == addr

/-- The loop of `limit_requests`: the first entry of the address and its place. -/
def clientAt (p : FragPool LimitReq) (addr : List UInt8) : Option (Nat × LimitReq) :=
  (p.e.findIdx? (isClient addr)).bind fun i => p.e[i]?.join.map fun cli => (i, cli)

/-- `limit_requests`: whether the connection is refused, and the pool. -/
def limitRequests (c : LimitConfig) (p : FragPool LimitReq) (addr : List UInt8) (curtime : Int) :
    Bool × FragPool LimitReq :=
  match clientAt p addr with
  | some (i, cli) =>
      if c.limitRate < cli.req then (true, p)
      else if curtime - cli.time ≤ 1 then
        let req := uint (cli.req + 1)
        if c.limitRate < req then
          (true, { p with
            e := p.e.set i (some { cli with req := req, dtime := curtime + c.limitDelay }) })
        else (false, { p with e := p.e.set i (some { cli with req := req }) })
      else (false, p.freeAlt i)
  | none => (false, p.alloc ⟨addr, curtime, 0, 1⟩)

/-- The body of the loop of `event_iter` over the clients. -/
def releaseClient (curtime : Int) (p : FragPool LimitReq) (i : Nat) : FragPool LimitReq :=
  match p.e[i]? with
  | some (some cli) => if cli.dtime ≠ 0 ∧ cli.dtime < curtime then p.freeAlt i else p
  | _ => p

/-- The loop of `event_iter` over the clients. -/
def releaseClients (p : FragPool LimitReq) (curtime : Int) : FragPool LimitReq :=
  (List.range p.e.length).foldl (releaseClient curtime) p

/-- The window of the address is open no longer, and the client is not refused. -/
def lapses (c : LimitConfig) (p : FragPool LimitReq) (addr : List UInt8) (curtime : Int) : Bool :=
  match clientAt p addr with
  | some (_, cli) => decide (cli.req ≤ c.limitRate ∧ 1 < curtime - cli.time)
  | none => false

/-! ## What the functions do to the entries -/

variable {c : LimitConfig} {p : FragPool LimitReq} {addr : List UInt8} {curtime : Int}

theorem clientAt_some {i : Nat} {cli : LimitReq} (h : clientAt p addr = some (i, cli)) :
    p.e[i]? = some (some cli) ∧ cli.addr = addr := by
  obtain ⟨j, hj, hcli⟩ := Option.bind_eq_some_iff.1 h
  obtain ⟨cli', hcli', heq⟩ := Option.map_eq_some_iff.1 hcli
  obtain ⟨rfl, rfl⟩ := Prod.mk.inj heq
  obtain ⟨hlt, hfor, -⟩ := findIdx?_eq_some_iff_getElem.1 hj
  have hget : p.e[j]? = some (some cli') := Option.join_eq_some_iff.1 hcli'
  refine ⟨hget, ?_⟩
  have hplace : p.e[j] = some cli' := by
    rw [List.getElem?_eq_getElem hlt] at hget
    exact Option.some.inj hget
  simpa [hplace, isClient] using hfor

theorem clientAt_none (h : clientAt p addr = none) : ∀ cli ∈ p.live, cli.addr ≠ addr := by
  intro cli hcli haddr
  obtain ⟨place, hplace, rfl⟩ := mem_filterMap.1 hcli
  have hfound : ∃ i, p.e.findIdx? (isClient addr) = some i := by
    rw [← Option.isSome_iff_exists, findIdx?_isSome, any_eq_true]
    exact ⟨_, hplace, by simp [isClient, haddr]⟩
  obtain ⟨i, hi⟩ := hfound
  obtain ⟨hlt, hfor, -⟩ := findIdx?_eq_some_iff_getElem.1 hi
  rw [clientAt, hi, Option.bind_some, List.getElem?_eq_getElem hlt] at h
  cases hget : p.e[i] with
  | none => simp [hget, isClient] at hfor
  | some cli' => simp [hget] at h

/-- What a call of `limit_requests` does to the entries: it opens a window, refuses
a client that is blocked, counts a connection and refuses it or lets it in, or
drops a window that has lapsed. -/
theorem limitRequests_cases (c : LimitConfig) (p : FragPool LimitReq) (addr : List UInt8)
    (curtime : Int) :
    (clientAt p addr = none ∧ (limitRequests c p addr curtime).1 = false ∧
        lapses c p addr curtime = false ∧
        (limitRequests c p addr curtime).2.live ~ ⟨addr, curtime, 0, 1⟩ :: p.live) ∨
    ∃ i cli rest, clientAt p addr = some (i, cli) ∧ cli.addr = addr ∧ p.live ~ cli :: rest ∧
      ((c.limitRate < cli.req ∧ limitRequests c p addr curtime = (true, p) ∧
          lapses c p addr curtime = false) ∨
        (cli.req ≤ c.limitRate ∧ curtime - cli.time ≤ 1 ∧ lapses c p addr curtime = false ∧
          ((c.limitRate < uint (cli.req + 1) ∧ (limitRequests c p addr curtime).1 = true ∧
              (limitRequests c p addr curtime).2.live ~
                { cli with req := uint (cli.req + 1), dtime := curtime + c.limitDelay } :: rest) ∨
            (uint (cli.req + 1) ≤ c.limitRate ∧ (limitRequests c p addr curtime).1 = false ∧
              (limitRequests c p addr curtime).2.live ~
                { cli with req := uint (cli.req + 1) } :: rest))) ∨
        (cli.req ≤ c.limitRate ∧ 1 < curtime - cli.time ∧ lapses c p addr curtime = true ∧
          (limitRequests c p addr curtime).1 = false ∧
          (limitRequests c p addr curtime).2.live ~ rest)) := by
  cases hfind : clientAt p addr with
  | none =>
      refine .inl ⟨rfl, ?_, ?_, ?_⟩
      · simp [limitRequests, hfind]
      · simp [lapses, hfind]
      · simp only [limitRequests, hfind]
        exact p.live_alloc _
  | some e =>
      obtain ⟨i, cli⟩ := e
      obtain ⟨hget, haddr⟩ := clientAt_some hfind
      obtain ⟨rest, hold, hnew⟩ := exists_filterMap_set_perm hget id
      refine .inr ⟨i, cli, rest, rfl, haddr, hold, ?_⟩
      by_cases hblocked : c.limitRate < cli.req
      · exact .inl ⟨hblocked, by simp [limitRequests, hfind, hblocked],
          by simp [lapses, hfind, hblocked]⟩
      · have hle : cli.req ≤ c.limitRate := Nat.le_of_not_lt hblocked
        by_cases hopen : curtime - cli.time ≤ 1
        · refine .inr (.inl ⟨hle, hopen, by simp [lapses, hfind, hopen], ?_⟩)
          by_cases hover : c.limitRate < uint (cli.req + 1)
          · refine .inl ⟨hover, by simp [limitRequests, hfind, hblocked, hopen, hover], ?_⟩
            simp only [limitRequests, hfind, if_neg hblocked, if_pos hopen, if_pos hover]
            exact hnew _
          · refine .inr ⟨Nat.le_of_not_lt hover,
              by simp [limitRequests, hfind, hblocked, hopen, hover], ?_⟩
            simp only [limitRequests, hfind, if_neg hblocked, if_pos hopen, if_neg hover]
            exact hnew _
        · have hlapsed : 1 < curtime - cli.time := Int.not_le.1 hopen
          refine .inr (.inr ⟨hle, hlapsed, by simp [lapses, hfind, hle, hlapsed],
            by simp [limitRequests, hfind, hblocked, hopen], ?_⟩)
          have hfree := (FragPool.live_freeAlt hget).symm.trans hold
          simp only [limitRequests, hfind, if_neg hblocked, if_neg hopen]
          exact hfree.cons_inv

/-! ## Runs -/

/-- The pool and the clock. `accepted` lists the clients that were let in during
the current second, once for each connection, and `lapsed` those whose window
lapsed in it. -/
structure LimitState where
  clients : FragPool LimitReq
  now : Int
  accepted : List (List UInt8)
  lapsed : List (List UInt8)
deriving DecidableEq, Repr

/-- A connection, the end of a pass of the event loop, or the clock. -/
inductive LimitStep
  | connect (addr : List UInt8)
  | eventIter
  | tick (time : Int)
deriving DecidableEq, Repr

/-- The state with an empty pool. -/
def LimitState.start (reserved : Nat) (now : Int) : LimitState := ⟨.create reserved, now, [], []⟩

/-- One step; the clock does not run backwards. -/
def LimitState.step (c : LimitConfig) (s : LimitState) : LimitStep → Option LimitState
  | .connect addr =>
      let e := limitRequests c s.clients addr s.now
      some { s with
        clients := e.2
        accepted := if e.1 then s.accepted else addr :: s.accepted
        lapsed := if lapses c s.clients addr s.now then addr :: s.lapsed else s.lapsed }
  | .eventIter => some { s with clients := releaseClients s.clients s.now }
  | .tick time =>
      if time < s.now then none
      else if time = s.now then some s
      else some { s with now := time, accepted := [], lapsed := [] }

/-- No client was let in more than `limit_rate` times in the current second. -/
def LimitState.WithinRate (c : LimitConfig) (s : LimitState) : Prop :=
  ∀ addr, s.accepted.count addr ≤ c.limitRate

/-- The connection of a client with the given entry is not one too many in the
second in which its window lapsed, and its counter does not wrap around. -/
def LimitState.Counts (c : LimitConfig) (s : LimitState) (addr : List UInt8) :
    Option (Nat × LimitReq) → Prop
  | some (_, cli) => cli.req ≤ c.limitRate → s.now - cli.time ≤ 1 →
      cli.req + 1 < 2 ^ 32 ∧ (addr ∈ s.lapsed → cli.req + 1 < c.limitRate)
  | none => addr ∈ s.lapsed → 1 < c.limitRate

instance (c : LimitConfig) (s : LimitState) (addr : List UInt8) : ∀ e, Decidable (s.Counts c addr e)
  | some (_, _) => inferInstanceAs (Decidable (_ → _ → _ ∧ (_ → _)))
  | none => inferInstanceAs (Decidable (_ → _))

/-- A client whose window lapsed in the current second connects fewer than
`limit_rate` times after that in it, and no counter wraps around. -/
def LimitState.CountsAll (c : LimitConfig) (s : LimitState) : LimitStep → Prop
  | .connect addr => s.Counts c addr (clientAt s.clients addr)
  | _ => True

instance (c : LimitConfig) (s : LimitState) : ∀ l, Decidable (s.CountsAll c l)
  | .connect addr => inferInstanceAs (Decidable (s.Counts c addr (clientAt s.clients addr)))
  | .eventIter | .tick _ => inferInstanceAs (Decidable True)

/-- The connections of a client that its entry does not count. -/
def LimitState.uncounted (s : LimitState) (addr : List UInt8) : Nat :=
  if addr ∈ s.lapsed then 1 else 0

/-- What an entry says about the `k` connections that were let in, `x` of them
uncounted. -/
structure LimitReq.Ok (rate : Nat) (now : Int) (k x : Nat) (cli : LimitReq) : Prop where
  counted : cli.req ≤ rate → k ≤ cli.req + x
  old : cli.req ≤ rate → cli.time + 1 < now → k = 0
  blocked : cli.dtime ≠ 0 → rate < cli.req
  ended : cli.dtime ≠ 0 → cli.dtime < now → k = 0

/-- Each client has at most one entry, which counts the connections that were let
in. -/
structure LimitState.Inv (c : LimitConfig) (s : LimitState) : Prop where
  distinct : (s.clients.live.map LimitReq.addr).Nodup
  entry : ∀ cli ∈ s.clients.live,
    cli.Ok c.limitRate s.now (s.accepted.count cli.addr) (s.uncounted cli.addr)
  absent : ∀ addr, (∀ cli ∈ s.clients.live, cli.addr ≠ addr) →
    s.accepted.count addr ≤ s.uncounted addr
  bound : s.WithinRate c

theorem inv_limitStart (reserved : Nat) (now : Int) : (LimitState.start reserved now).Inv c := by
  have hlive : (LimitState.start reserved now).clients.live = [] := FragPool.live_create reserved
  refine ⟨by simp [hlive], by simp [hlive], fun addr _ => ?_, fun addr => ?_⟩
  · exact Nat.zero_le _
  · exact Nat.zero_le _

/-- No other entry has the address of the first. -/
theorem LimitState.Inv.addr_ne {s : LimitState} (h : s.Inv c) {cli : LimitReq}
    {rest : List LimitReq} (hl : s.clients.live ~ cli :: rest) : ∀ k ∈ rest, k.addr ≠ cli.addr := by
  have hnodup := (hl.map LimitReq.addr).nodup_iff.1 h.distinct
  rw [map_cons, nodup_cons] at hnodup
  exact fun k hk heq => hnodup.1 (heq ▸ mem_map_of_mem hk)

/-- The entry of one client is added, replaced or dropped, and for all other
clients everything stays. -/
theorem LimitState.Inv.update {s t : LimitState} (h : s.Inv c) {a : List UInt8}
    (old new : Option LimitReq) {rest : List LimitReq}
    (hold : s.clients.live ~ old.toList ++ rest) (hnew : t.clients.live ~ new.toList ++ rest)
    (hrest : ∀ k ∈ rest, k.addr ≠ a) (holdAddr : ∀ k ∈ old, k.addr = a)
    (hnewAddr : ∀ k ∈ new, k.addr = a) (hnow : t.now = s.now)
    (hcount : ∀ addr, addr ≠ a → t.accepted.count addr = s.accepted.count addr)
    (huncounted : ∀ addr, addr ≠ a → t.uncounted addr = s.uncounted addr)
    (hok : ∀ k ∈ new, k.Ok c.limitRate s.now (t.accepted.count a) (t.uncounted a))
    (habsent : new = none → t.accepted.count a ≤ t.uncounted a)
    (hbound : t.accepted.count a ≤ c.limitRate) : t.Inv c := by
  have hmem : ∀ k ∈ rest, k ∈ s.clients.live := fun k hk =>
    hold.symm.subset (mem_append_right _ hk)
  refine ⟨?_, fun k hk => ?_, fun addr haddr => ?_, fun addr => ?_⟩
  · have hnodup := (hold.map LimitReq.addr).nodup_iff.1 h.distinct
    rw [map_append, nodup_append] at hnodup
    rw [(hnew.map _).nodup_iff, map_append, nodup_append]
    refine ⟨by cases new <;> simp, hnodup.2.1, fun x hx y hy hxy => ?_⟩
    obtain ⟨k, hk, rfl⟩ := mem_map.1 hx
    obtain ⟨k', hk', rfl⟩ := mem_map.1 hy
    exact hrest k' hk' (hxy ▸ hnewAddr k (Option.mem_toList.1 hk))
  · rw [hnow]
    obtain hk | hk := mem_append.1 (hnew.subset hk)
    · rw [hnewAddr k (Option.mem_toList.1 hk)]
      exact hok k (Option.mem_toList.1 hk)
    · rw [hcount _ (hrest k hk), huncounted _ (hrest k hk)]
      exact h.entry k (hmem k hk)
  · by_cases hself : addr = a
    · subst hself
      cases new with
      | none => exact habsent rfl
      | some k =>
          exact absurd (hnewAddr k rfl) (haddr k (hnew.symm.subset (by simp)))
    · rw [hcount addr hself, huncounted addr hself]
      refine h.absent addr fun k hk => ?_
      obtain hk | hk := mem_append.1 (hold.subset hk)
      · rw [holdAddr k (Option.mem_toList.1 hk)]
        exact Ne.symm hself
      · exact haddr k (hnew.symm.subset (mem_append_right _ hk))
  · by_cases hself : addr = a
    · rw [hself]
      exact hbound
    · rw [hcount addr hself]
      exact h.bound addr

theorem uint_succ {n : Nat} (h : n + 1 < 2 ^ 32) : uint ((n : Int) + 1) = n + 1 :=
  uint_eq (by omega) (by omega)

theorem uncounted_le_one (s : LimitState) (a : List UInt8) : s.uncounted a ≤ 1 := by
  unfold LimitState.uncounted
  split_ifs
  · exact Nat.le_refl 1
  · exact Nat.zero_le 1

theorem mem_lapsed_of_uncounted {s : LimitState} {a : List UInt8} (h : s.uncounted a ≠ 0) :
    a ∈ s.lapsed := by
  by_contra hmem
  exact h (if_neg hmem)

section Connect

variable {s t : LimitState} {a : List UInt8} {cli : LimitReq} {rest : List LimitReq}

/-- The client is let in. -/
theorem count_accept (haccepted : t.accepted = a :: s.accepted) :
    t.accepted.count a = s.accepted.count a + 1 ∧
      ∀ addr, addr ≠ a → t.accepted.count addr = s.accepted.count addr := by
  rw [haccepted]
  exact ⟨count_cons_self, fun addr haddr => count_cons_of_ne (Ne.symm haddr)⟩

/-- A connection that opens a window. -/
theorem LimitState.Inv.opened (hrate : 1 ≤ c.limitRate) (h : s.Inv c)
    (hnone : ∀ k ∈ s.clients.live, k.addr ≠ a) (hok : a ∈ s.lapsed → 1 < c.limitRate)
    (hlive : t.clients.live ~ ⟨a, s.now, 0, 1⟩ :: s.clients.live) (hnow : t.now = s.now)
    (haccepted : t.accepted = a :: s.accepted) (hlapsed : t.lapsed = s.lapsed) : t.Inv c := by
  obtain ⟨hself, hother⟩ := count_accept haccepted
  have huncounted : ∀ addr, t.uncounted addr = s.uncounted addr := fun addr => by
    rw [LimitState.uncounted, LimitState.uncounted, hlapsed]
  have habsent := h.absent a hnone
  have hle := uncounted_le_one s a
  refine h.update none (some ⟨a, s.now, 0, 1⟩) (Perm.refl _) hlive hnone (by simp) (by simp) hnow
    hother (fun addr _ => huncounted addr) ?_ (by simp) ?_
  · rintro k ⟨⟩
    refine ⟨fun _ => ?_, fun _ hold => ?_, fun hzero => absurd rfl hzero,
      fun hzero => absurd rfl hzero⟩
    · rw [hself, huncounted]
      simp only
      omega
    · simp only at hold
      omega
  · rw [hself]
    by_cases hzero : s.uncounted a = 0
    · omega
    · have := hok (mem_lapsed_of_uncounted hzero)
      omega

/-- A connection that is one too many in its window. -/
theorem LimitState.Inv.blocked (h : s.Inv c) (hold : s.clients.live ~ cli :: rest) {req : Nat}
    (hover : c.limitRate < req)
    (hlive : t.clients.live ~
      { cli with req := req, dtime := s.now + c.limitDelay } :: rest)
    (hnow : t.now = s.now) (haccepted : t.accepted = s.accepted) (hlapsed : t.lapsed = s.lapsed) :
    t.Inv c := by
  have huncounted : ∀ addr, t.uncounted addr = s.uncounted addr := fun addr => by
    rw [LimitState.uncounted, LimitState.uncounted, hlapsed]
  refine h.update (some cli) (some { cli with req := req, dtime :=
    s.now + c.limitDelay }) hold hlive
    (h.addr_ne hold) (by simp) (by simp) hnow (fun addr _ => by rw [haccepted])
    (fun addr _ => huncounted addr) ?_ (by simp) ?_
  · rintro k ⟨⟩
    refine ⟨fun hle => absurd hle (by simp only; omega),
      fun hle => absurd hle (by simp only; omega),
      fun _ => hover, fun _ hlt => ?_⟩
    simp only at hlt
    omega
  · rw [haccepted]
    exact h.bound cli.addr

/-- A connection that is counted and let in. -/
theorem LimitState.Inv.counted (h : s.Inv c) (hold : s.clients.live ~ cli :: rest)
    (hopen : s.now - cli.time ≤ 1) (hreq : cli.req + 1 ≤ c.limitRate)
    (hok : cli.addr ∈ s.lapsed → cli.req + 1 < c.limitRate)
    (hlive : t.clients.live ~ { cli with req := cli.req + 1 } :: rest) (hnow : t.now = s.now)
    (haccepted : t.accepted = cli.addr :: s.accepted) (hlapsed : t.lapsed = s.lapsed) :
    t.Inv c := by
  obtain ⟨hself, hother⟩ := count_accept haccepted
  have huncounted : ∀ addr, t.uncounted addr = s.uncounted addr := fun addr => by
    rw [LimitState.uncounted, LimitState.uncounted, hlapsed]
  have hentry := h.entry cli (hold.symm.subset mem_cons_self)
  have hcount := hentry.counted (by omega)
  have hle := uncounted_le_one s cli.addr
  refine h.update (some cli) (some { cli with req := cli.req + 1 }) hold hlive (h.addr_ne hold)
    (by simp) (by simp) hnow hother (fun addr _ => huncounted addr) ?_ (by simp) ?_
  · rintro k ⟨⟩
    refine ⟨fun _ => ?_, fun _ hlt => ?_, fun hzero => ?_, fun hzero => ?_⟩
    · rw [hself, huncounted]
      simp only
      omega
    · simp only at hlt
      omega
    · have := hentry.blocked hzero
      omega
    · have := hentry.blocked hzero
      omega
  · rw [hself]
    by_cases hzero : s.uncounted cli.addr = 0
    · omega
    · have := hok (mem_lapsed_of_uncounted hzero)
      omega

/-- A connection that finds an old window. -/
theorem LimitState.Inv.lapse (hrate : 1 ≤ c.limitRate) (h : s.Inv c)
    (hold : s.clients.live ~ cli :: rest) (hreq : cli.req ≤ c.limitRate)
    (hlapse : 1 < s.now - cli.time) (hlive : t.clients.live ~ rest) (hnow : t.now = s.now)
    (haccepted : t.accepted = cli.addr :: s.accepted) (hlapsed : t.lapsed = cli.addr :: s.lapsed) :
    t.Inv c := by
  obtain ⟨hself, hother⟩ := count_accept haccepted
  -- nobody was let in through the old window in this second
  have hzero : s.accepted.count cli.addr = 0 :=
    (h.entry cli (hold.symm.subset mem_cons_self)).old hreq (by omega)
  have hone : t.uncounted cli.addr = 1 := if_pos (by rw [hlapsed]; exact mem_cons_self)
  refine h.update (some cli) none hold hlive (h.addr_ne hold) (by simp) (by simp) hnow hother ?_
    (by simp) (fun _ => ?_) ?_
  · intro addr haddr
    simp [LimitState.uncounted, hlapsed, haddr]
  · simp [hself, hone, hzero]
  · rw [hself, hzero]
    exact hrate

theorem LimitState.Inv.connect (hrate : 1 ≤ c.limitRate) (h : s.Inv c)
    (hok : s.CountsAll c (.connect a)) (hstep : s.step c (.connect a) = some t) : t.Inv c := by
  obtain rfl := Option.some.inj hstep
  obtain ⟨hnone, hres, hlapse, hlive⟩ | ⟨i, cli, rest, hfind, rfl, hold, hcase⟩ :=
    limitRequests_cases c s.clients a s.now
  · simp only [LimitState.CountsAll, LimitState.Counts, hnone] at hok
    exact h.opened hrate (clientAt_none hnone) hok hlive rfl (by simp [hres]) (by simp [hlapse])
  · simp only [LimitState.CountsAll, LimitState.Counts, hfind] at hok
    obtain ⟨-, hsame, hlapse⟩ | ⟨hreq, hopen, hlapse, hcount⟩ |
      ⟨hreq, hopen, hlapse, hres, hlive⟩ :=
      hcase
    · simpa [hsame, hlapse] using h
    · obtain ⟨hwrap, hlimit⟩ := hok hreq hopen
      rw [uint_succ hwrap] at hcount
      obtain ⟨hover, hres, hlive⟩ | ⟨hle, hres, hlive⟩ := hcount
      · exact h.blocked hold hover hlive rfl (by simp [hres]) (by simp [hlapse])
      · exact h.counted hold hopen hle hlimit hlive rfl (by simp [hres]) (by simp [hlapse])
    · exact h.lapse hrate hold hreq hopen hlive rfl (by simp [hres]) (by simp [hlapse])

end Connect

/-- The timer drops the entries whose time is over. -/
theorem LimitState.Inv.release {s : LimitState} (h : s.Inv c) (i : Nat) :
    LimitState.Inv c { s with clients := releaseClient s.now s.clients i } := by
  unfold releaseClient
  split
  · rename_i cli hget
    split_ifs with hover
    · have hperm := FragPool.live_freeAlt hget
      have hzero := (h.entry cli (hperm.symm.subset mem_cons_self)).ended hover.1 hover.2
      refine h.update (some cli) none hperm (Perm.refl _) (h.addr_ne hperm) (by simp) (by simp) rfl
        (fun _ _ => rfl) (fun _ _ => rfl) (by simp) (fun _ => ?_) (h.bound cli.addr)
      simp [hzero]
    · exact h
  · exact h

theorem LimitState.Inv.releaseAll {s : LimitState} (h : s.Inv c) :
    LimitState.Inv c { s with clients := releaseClients s.clients s.now } := by
  have hfold : ∀ (l : List Nat) (p : FragPool LimitReq), LimitState.Inv c { s with clients := p } →
      LimitState.Inv c { s with clients := l.foldl (releaseClient s.now) p } := by
    intro l
    induction l with
    | nil => exact fun p hp => hp
    | cons i l ih => exact fun p hp => ih _ (hp.release i)
  exact hfold _ s.clients h

/-- A new second begins. -/
theorem LimitState.Inv.newSecond {s : LimitState} (h : s.Inv c) (time : Int) :
    LimitState.Inv c { s with now := time, accepted := [], lapsed := [] } := by
  refine ⟨h.distinct, fun cli hcli => ⟨fun _ => ?_, fun _ _ => rfl, (h.entry cli hcli).blocked,
    fun _ _ => rfl⟩, fun addr _ => ?_, fun addr => ?_⟩
  · exact Nat.zero_le _
  · exact Nat.zero_le _
  · exact Nat.zero_le _

theorem LimitState.Inv.step {s t : LimitState} {l : LimitStep} (hrate : 1 ≤ c.limitRate)
    (h : s.Inv c) (hok : s.CountsAll c l) (hstep : s.step c l = some t) : t.Inv c := by
  cases l with
  | connect addr => exact h.connect hrate hok hstep
  | eventIter =>
      obtain rfl := Option.some.inj hstep
      exact h.releaseAll
  | tick time =>
      rw [LimitState.step] at hstep
      split_ifs at hstep
      · obtain rfl := Option.some.inj hstep
        exact h
      · obtain rfl := Option.some.inj hstep
        exact h.newSecond time

/-- In every run whose connections are all counted, no client is let in more than
`limit_rate` times in one second. -/
theorem withinRate_of_run {reserved : Nat} {now : Int} (hrate : 1 ≤ c.limitRate)
    {steps : List LimitStep} {s : LimitState}
    (hok : Machine.Meets (LimitState.step c) (LimitState.CountsAll c) (.start reserved now) steps)
    (hrun : Machine.run (LimitState.step c) (.start reserved now) steps = some s) :
    s.WithinRate c := by
  have hinv : s.Inv c := Machine.run_invariant (fun s l t hs hl ht => hs.step hrate hl ht) steps _ s
    (inv_limitStart reserved now) hok hrun
  exact hinv.bound

/-- A client that is refused, released and let in again, and another one whose
window lapses. -/
def twoClients : List LimitStep :=
  [.connect [1], .connect [1], .connect [1], .connect [2], .tick 2, .connect [2], .connect [1],
    .tick 40, .eventIter, .connect [1]]

theorem withinRate_of_run_twoClients :
    Machine.Meets (LimitState.step ⟨2, 30⟩) (LimitState.CountsAll ⟨2, 30⟩) (.start 4 0) twoClients ∧
    ∃ s, Machine.run (LimitState.step ⟨2, 30⟩) (.start 4 0) twoClients = some s ∧
      s.accepted = [[1]] ∧ s.WithinRate ⟨2, 30⟩ := by
  have hok : Machine.Meets (LimitState.step ⟨2, 30⟩) (LimitState.CountsAll ⟨2, 30⟩) (.start 4 0)
      twoClients := by decide +kernel
  have hrun : ∃ s, Machine.run (LimitState.step ⟨2, 30⟩) (.start 4 0) twoClients = some s ∧
      s.accepted = [[1]] := ⟨_, rfl, by decide +kernel⟩
  obtain ⟨s, hs, haccepted⟩ := hrun
  exact ⟨hok, s, hs, haccepted, withinRate_of_run (by decide) hok hs⟩

/-- With a limit of one connection a second two are let in when a window lapses. -/
theorem not_withinRate_of_run :
    ∃ s, Machine.run (LimitState.step ⟨1, 30⟩) (.start 4 0)
        [.connect [1], .tick 2, .connect [1], .connect [1]] = some s ∧
      s.accepted = [[1], [1]] ∧ ¬ s.WithinRate ⟨1, 30⟩ := by
  have hrun : ∃ s, Machine.run (LimitState.step ⟨1, 30⟩) (.start 4 0)
      [.connect [1], .tick 2, .connect [1], .connect [1]] = some s ∧ s.accepted = [[1], [1]] :=
    ⟨_, rfl, by decide +kernel⟩
  obtain ⟨s, hs, haccepted⟩ := hrun
  refine ⟨s, hs, haccepted, fun h => ?_⟩
  have htwo := h [1]
  rw [haccepted] at htwo
  exact absurd htwo (by decide)

end OpenTube
