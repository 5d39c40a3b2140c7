import Mathlib.Data.List.Nodup
import OpenTube.Server.RateLimit

/-!
# The penalty of a client that connects too often

Once the counter of a client has exceeded `limit_rate`, its entry stays as it is
until `limit_delay` seconds are over: `limit_requests` neither counts further nor
drops a window that is blocked, and `event_iter` looks at `dtime`. On the other
hand a counter never exceeds the number of connections in the two seconds of its
window.
-/

namespace OpenTube

open List Machine

variable {c : LimitConfig} {s t : LimitState} {a : List UInt8}

/-! ## One entry for each address -/

/-- No two live entries have the same address. -/
def LimitState.Distinct (s : LimitState) : Prop := (s.clients.live.map LimitReq.addr).Nodup

theorem distinct_limitStart (reserved : Nat) (now : Int) :
    (LimitState.start reserved now).Distinct := by
  have hlive : (LimitState.start reserved now).clients.live = [] := FragPool.live_create reserved
  simp [LimitState.Distinct, hlive]

/-- The entries stay distinct when one is replaced by another of its address, or
dropped. -/
theorem LimitState.Distinct.replace (h : s.Distinct) {cli : LimitReq} {rest : List LimitReq}
    (hold : s.clients.live ~ cli :: rest) (new : Option LimitReq)
    (hnew : t.clients.live ~ new.toList ++ rest) (haddr : ∀ k ∈ new, k.addr = cli.addr) :
    t.Distinct := by
  have hnodup := (hold.map LimitReq.addr).nodup_iff.1 h
  rw [LimitState.Distinct, (hnew.map LimitReq.addr).nodup_iff]
  cases new with
  | none => exact hnodup.of_cons
  | some k =>
      rw [map_cons, ← haddr k rfl] at hnodup
      exact hnodup

/-- The address of an entry that is found is that of no other. -/
theorem LimitState.Distinct.eq_of_addr (h : s.Distinct) {k k' : LimitReq}
    (hk : k ∈ s.clients.live) (hk' : k' ∈ s.clients.live) (haddr : k.addr = k'.addr) : k = k' :=
  inj_on_of_nodup_map h hk hk' haddr

/-- What `event_iter` keeps: it only drops entries whose time is over. -/
theorem release_induction {P : FragPool LimitReq → Prop} {now : Int}
    (hdrop : ∀ p i cli, P p → p.e[i]? = some (some cli) → cli.dtime ≠ 0 → cli.dtime < now →
      P (p.freeAlt i)) {p : FragPool LimitReq} (hp : P p) : P (releaseClients p now) := by
  have hfold : ∀ (l : List Nat) (q : FragPool LimitReq), P q →
      P (l.foldl (releaseClient now) q) := by
    intro l
    induction l with
    | nil => exact fun q hq => hq
    | cons i l ih =>
        intro q hq
        refine ih _ ?_
        rw [releaseClient]
        split
        · rename_i cli hget
          split_ifs with hover
          · exact hdrop q i cli hq hget hover.1 hover.2
          · exact hq
        · exact hq
  exact hfold _ p hp

theorem LimitState.Distinct.step {l : LimitStep} (h : s.Distinct) (hstep : s.step c l = some t) :
    t.Distinct := by
  cases l with
  | connect addr =>
      obtain rfl := Option.some.inj hstep
      obtain ⟨hnone, -, -, hlive⟩ | ⟨i, cli, rest, -, rfl, hold, hcase⟩ :=
        limitRequests_cases c s.clients addr s.now
      · rw [LimitState.Distinct, (hlive.map LimitReq.addr).nodup_iff, map_cons, nodup_cons]
        refine ⟨fun hmem => ?_, h⟩
        obtain ⟨k, hk, haddr⟩ := mem_map.1 hmem
        exact clientAt_none hnone k hk haddr
      · obtain ⟨-, hsame, -⟩ | ⟨-, -, -, ⟨-, -, hlive⟩ | ⟨-, -, hlive⟩⟩ | ⟨-, -, -, -, hlive⟩ :=
          hcase
        · rw [LimitState.Distinct, hsame]
          exact h
        · exact h.replace hold (some _) hlive (by simp)
        · exact h.replace hold (some _) hlive (by simp)
        · exact h.replace hold none hlive (by simp)
  | eventIter =>
      obtain rfl := Option.some.inj hstep
      refine release_induction (P := fun p => LimitState.Distinct { s with clients := p }) ?_ h
      intro p i cli hp hget _ _
      exact hp.replace (FragPool.live_freeAlt hget) none (Perm.refl _) (by simp)
  | tick time =>
      rw [LimitState.step] at hstep
      split_ifs at hstep
      · obtain rfl := Option.some.inj hstep
        exact h
      · obtain rfl := Option.some.inj hstep
        exact h

theorem distinct_of_run {reserved : Nat} {now : Int} {steps : List LimitStep}
    (hrun : run (LimitState.step c) (.start reserved now) steps = some s) : s.Distinct :=
  run_preserves (fun _ _ _ hs ht => LimitState.Distinct.step hs ht) steps _ s
    (distinct_limitStart reserved now) hrun

/-! ## A client that is blocked -/

/-- The counter of the client exceeds `limit_rate` with its next connection. -/
def LimitState.Exceeds (c : LimitConfig) (s : LimitState) (addr : List UInt8) : Prop :=
  (∃ e ∈ clientAt s.clients addr, e.2.req ≤ c.limitRate) ∧
    (limitRequests c s.clients addr s.now).1 = true

instance (c : LimitConfig) (s : LimitState) (addr : List UInt8) : Decidable (s.Exceeds c addr) :=
  inferInstanceAs (Decidable (_ ∧ _))

/-- The client is blocked until `d`. -/
def LimitState.BlockedUntil (c : LimitConfig) (s : LimitState) (addr : List UInt8) (d : Int) :
    Prop :=
  ∃ cli ∈ s.clients.live, cli.addr = addr ∧ c.limitRate < cli.req ∧ cli.dtime = d

theorem LimitState.Exceeds.blockedUntil (h : s.Exceeds c a)
    (hstep : s.step c (.connect a) = some t) : t.BlockedUntil c a (s.now + c.limitDelay) := by
  obtain rfl := Option.some.inj hstep
  obtain ⟨⟨⟨j, k⟩, hfind, hle⟩, hres⟩ := h
  obtain ⟨hnone, -⟩ | ⟨i, cli, rest, hcli, haddr, -, hcase⟩ :=
    limitRequests_cases c s.clients a s.now
  · rw [hnone] at hfind
    simp at hfind
  · rw [hcli] at hfind
    obtain ⟨rfl, rfl⟩ := Prod.mk.inj (Option.some.inj hfind)
    obtain ⟨hlt, -⟩ | ⟨-, -, -, ⟨hover, -, hlive⟩ | ⟨-, hfalse, -⟩⟩ | ⟨-, -, -, hfalse, -⟩ := hcase
    · exact absurd hle (Nat.not_le_of_lt hlt)
    · exact ⟨_, hlive.symm.subset mem_cons_self, haddr, hover, rfl⟩
    · simp [hfalse] at hres
    · simp [hfalse] at hres

/-- A step before the time is over leaves the client blocked. -/
theorem LimitState.BlockedUntil.step {d : Int} {l : LimitStep} (h : s.BlockedUntil c a d)
    (hnow : s.now ≤ d) (hstep : s.step c l = some t) : t.BlockedUntil c a d := by
  obtain ⟨k, hk, haddr, hreq, hdtime⟩ := h
  cases l with
  | connect addr =>
      obtain rfl := Option.some.inj hstep
      obtain ⟨-, -, -, hlive⟩ | ⟨i, cli, rest, -, -, hold, hcase⟩ :=
        limitRequests_cases c s.clients addr s.now
      · exact ⟨k, hlive.symm.subset (mem_cons_of_mem _ hk), haddr, hreq, hdtime⟩
      · have hrest : cli.req ≤ c.limitRate → k ∈ rest := by
          intro hle
          rcases mem_cons.1 (hold.subset hk) with rfl | hk
          · exact absurd hreq (Nat.not_lt_of_le hle)
          · exact hk
        obtain ⟨-, hsame, -⟩ | ⟨hle, -, -, ⟨-, -, hlive⟩ | ⟨-, -, hlive⟩⟩ |
          ⟨hle, -, -, -, hlive⟩ := hcase
        · exact ⟨k, by simpa [hsame] using hk, haddr, hreq, hdtime⟩
        · exact ⟨k, hlive.symm.subset (mem_cons_of_mem _ (hrest hle)), haddr, hreq, hdtime⟩
        · exact ⟨k, hlive.symm.subset (mem_cons_of_mem _ (hrest hle)), haddr, hreq, hdtime⟩
        · exact ⟨k, hlive.symm.subset (hrest hle), haddr, hreq, hdtime⟩
  | eventIter =>
      obtain rfl := Option.some.inj hstep
      refine ⟨k, ?_, haddr, hreq, hdtime⟩
      refine release_induction (P := fun p => k ∈ p.live) ?_ hk
      intro p i cli hp hget _ hover
      rcases mem_cons.1 ((FragPool.live_freeAlt hget).subset hp) with rfl | hp
      · omega
      · exact hp
  | tick time =>
      rw [LimitState.step] at hstep
      split_ifs at hstep
      · obtain rfl := Option.some.inj hstep
        exact ⟨k, hk, haddr, hreq, hdtime⟩
      · obtain rfl := Option.some.inj hstep
        exact ⟨k, hk, haddr, hreq, hdtime⟩

theorem LimitState.now_le {l : LimitStep} (hstep : s.step c l = some t) : s.now ≤ t.now := by
  cases l with
  | connect addr =>
      obtain rfl := Option.some.inj hstep
      exact Int.le_refl _
  | eventIter =>
      obtain rfl := Option.some.inj hstep
      exact Int.le_refl _
  | tick time =>
      rw [LimitState.step] at hstep
      split_ifs at hstep with hlt
      · obtain rfl := Option.some.inj hstep
        exact Int.le_refl _
      · obtain rfl := Option.some.inj hstep
        exact Int.not_lt.1 hlt

theorem LimitState.now_le_of_run {steps : List LimitStep}
    (hrun : run (LimitState.step c) s steps = some t) : s.now ≤ t.now :=
  have hstep : ∀ (u : LimitState) (l : LimitStep) (v : LimitState),
      s.now ≤ u.now → u.step c l = some v → s.now ≤ v.now :=
    fun _ _ _ hs ht => Int.le_trans hs (LimitState.now_le ht)
  run_preserves hstep steps s t (Int.le_refl _) hrun

/-- The client stays blocked until the time is over. -/
theorem LimitState.BlockedUntil.run {d : Int} {steps : List LimitStep} (h : s.BlockedUntil c a d)
    (hrun : run (LimitState.step c) s steps = some t) (hnow : t.now ≤ d) :
    t.BlockedUntil c a d := by
  induction steps generalizing s with
  | nil =>
      obtain rfl : s = t := by simpa using hrun
      exact h
  | cons l steps ih =>
      obtain ⟨u, hu, hrest⟩ := (run_cons_eq_some_iff _ s t l steps).1 hrun
      have hle := Int.le_trans (LimitState.now_le hu) (LimitState.now_le_of_run hrest)
      exact ih (h.step (Int.le_trans hle hnow) hu) hrest

/-- A client that is blocked is refused. -/
theorem LimitState.BlockedUntil.refused {d : Int} (h : s.BlockedUntil c a d) (hs : s.Distinct) :
    (limitRequests c s.clients a s.now).1 = true := by
  obtain ⟨k, hk, haddr, hreq, -⟩ := h
  obtain ⟨hnone, -⟩ | ⟨i, cli, rest, hfind, hcli, hold, -⟩ :=
    limitRequests_cases c s.clients a s.now
  · exact absurd haddr (clientAt_none hnone k hk)
  · obtain rfl := hs.eq_of_addr hk (hold.symm.subset mem_cons_self) (haddr.trans hcli.symm)
    simp [limitRequests, hfind, hreq]

/-! ## A client that connects rarely -/

/-- The times of the client's attempts in a run from the time `now` on. -/
def attempts (addr : List UInt8) : Int → List LimitStep → List Int
  | _, [] => []
  | now, .connect a :: steps =>
      if a = addr then now :: attempts addr now steps else attempts addr now steps
  | now, .eventIter :: steps => attempts addr now steps
  | _, .tick time :: steps => attempts addr time steps

/-- The attempts in a second and in the one after it. -/
def inWindow (time : Int) (times : List Int) : Nat :=
  times.countP fun x => x = time ∨ x = time + 1

/-- There are never more than `rate` attempts in two seconds. -/
def Sparse (rate : Nat) (times : List Int) : Prop := ∀ time, inWindow time times ≤ rate

theorem inWindow_append (time : Int) (times more : List Int) :
    inWindow time (times ++ more) = inWindow time times + inWindow time more := countP_append ..

theorem attempts_cons {l : LimitStep} (hstep : s.step c l = some t) (steps : List LimitStep) :
    attempts a s.now (l :: steps) = attempts a s.now [l] ++ attempts a t.now steps := by
  cases l with
  | connect addr =>
      obtain rfl := Option.some.inj hstep
      by_cases haddr : addr = a
      · simp [attempts, haddr]
      · simp [attempts, haddr]
  | eventIter =>
      obtain rfl := Option.some.inj hstep
      rfl
  | tick time =>
      rw [LimitState.step] at hstep
      split_ifs at hstep with hlt heq
      · obtain rfl := Option.some.inj hstep
        rw [heq]
        rfl
      · obtain rfl := Option.some.inj hstep
        rfl

/-- The counter of an entry is at most the number of attempts in its window. -/
def LimitState.Counted (s : LimitState) (past : List UInt8 → List Int) : Prop :=
  ∀ cli ∈ s.clients.live, cli.time ≤ s.now ∧ cli.req ≤ inWindow cli.time (past cli.addr)

theorem LimitState.Counted.step {past : List UInt8 → List Int} {l : LimitStep} (h : s.Counted past)
    (hstep : s.step c l = some t) :
    t.Counted fun addr => past addr ++ attempts addr s.now [l] := by
  have hkeep : ∀ k ∈ s.clients.live, k.time ≤ t.now ∧
      k.req ≤ inWindow k.time (past k.addr ++ attempts k.addr s.now [l]) := by
    intro k hk
    obtain ⟨htime, hreq⟩ := h k hk
    rw [inWindow_append]
    exact ⟨Int.le_trans htime (LimitState.now_le hstep), Nat.le_trans hreq (Nat.le_add_right _ _)⟩
  cases l with
  | connect addr =>
      obtain rfl := Option.some.inj hstep
      have hself : attempts addr s.now [.connect addr] = [s.now] := by simp [attempts]
      obtain ⟨-, -, -, hlive⟩ | ⟨i, cli, rest, -, rfl, hold, hcase⟩ :=
        limitRequests_cases c s.clients addr s.now
      · intro k hk
        rcases mem_cons.1 (hlive.subset hk) with rfl | hk
        · refine ⟨Int.le_refl _, ?_⟩
          simp only [hself, inWindow_append]
          simp [inWindow]
        · exact hkeep _ hk
      · have hrest : ∀ k ∈ rest, k ∈ s.clients.live := fun k hk =>
          hold.symm.subset (mem_cons_of_mem _ hk)
        obtain ⟨htime, hreq⟩ := h cli (hold.symm.subset mem_cons_self)
        -- the connection is one of the attempts in a window that is still open
        have hnext : s.now - cli.time ≤ 1 →
            uint (cli.req + 1) ≤ inWindow cli.time (past cli.addr ++ [s.now]) := by
          intro hopen
          have hhit : inWindow cli.time [s.now] = 1 := by
            simp [inWindow]
            omega
          have huint := uint_le (cli.req + 1)
          rw [inWindow_append, hhit]
          push_cast at huint
          omega
        obtain ⟨-, hsame, -⟩ | ⟨-, hopen, -, ⟨-, -, hlive⟩ | ⟨-, -, hlive⟩⟩ |
          ⟨-, -, -, -, hlive⟩ := hcase
        · intro k hk
          rw [hsame] at hk
          exact hkeep _ hk
        · intro k hk
          rcases mem_cons.1 (hlive.subset hk) with rfl | hk
          · simp only [hself]
            exact ⟨htime, hnext hopen⟩
          · exact hkeep _ (hrest k hk)
        · intro k hk
          rcases mem_cons.1 (hlive.subset hk) with rfl | hk
          · simp only [hself]
            exact ⟨htime, hnext hopen⟩
          · exact hkeep _ (hrest k hk)
        · exact fun k hk => hkeep _ (hrest k (hlive.subset hk))
  | eventIter =>
      obtain rfl := Option.some.inj hstep
      intro k hk
      refine hkeep _ ?_
      refine release_induction (P := fun p => k ∈ p.live → k ∈ s.clients.live) ?_ (fun hk => hk) hk
      intro p i cli hp hget _ _ hk
      exact hp ((FragPool.live_freeAlt hget).symm.subset (mem_cons_of_mem _ hk))
  | tick time =>
      rw [LimitState.step] at hstep
      split_ifs at hstep
      · obtain rfl := Option.some.inj hstep
        exact fun k hk => hkeep _ hk
      · obtain rfl := Option.some.inj hstep
        exact fun k hk => hkeep _ hk

theorem LimitState.Counted.run {past : List UInt8 → List Int} {steps : List LimitStep}
    (h : s.Counted past) (hrun : run (LimitState.step c) s steps = some t) :
    t.Counted fun addr => past addr ++ attempts addr s.now steps := by
  induction steps generalizing s past with
  | nil =>
      obtain rfl : s = t := by simpa using hrun
      have hnil : (fun addr => past addr ++ attempts addr s.now []) = past := by
        funext addr
        exact append_nil _
      rw [hnil]
      exact h
  | cons l steps ih =>
      obtain ⟨u, hu, hrest⟩ := (run_cons_eq_some_iff _ s t l steps).1 hrun
      have hsplit : (fun addr => past addr ++ attempts addr s.now (l :: steps)) =
          fun addr => past addr ++ attempts addr s.now [l] ++ attempts addr u.now steps := by
        funext addr
        rw [attempts_cons hu, append_assoc]
      rw [hsplit]
      exact ih (h.step hu) hrest

/-- A client whose attempts, with the present one, are sparse is let in. -/
theorem LimitState.Counted.accepted {past : List UInt8 → List Int} (h : s.Counted past)
    (hsparse : Sparse c.limitRate (past a ++ [s.now])) :
    (limitRequests c s.clients a s.now).1 = false := by
  obtain ⟨-, hres, -, -⟩ | ⟨i, cli, rest, -, rfl, hold, hcase⟩ :=
    limitRequests_cases c s.clients a s.now
  · exact hres
  · obtain ⟨htime, hreq⟩ := h cli (hold.symm.subset mem_cons_self)
    have hwindow := hsparse cli.time
    rw [inWindow_append] at hwindow
    obtain ⟨hover, -, -⟩ | ⟨-, hopen, -, ⟨hover, -, -⟩ | ⟨-, hres, -⟩⟩ | ⟨-, -, -, hres, -⟩ := hcase
    · exact absurd hover (by omega)
    · have hhit : inWindow cli.time [s.now] = 1 := by
        simp [inWindow]
        omega
      have huint := uint_le (cli.req + 1)
      push_cast at huint
      omega
    · exact hres
    · exact hres

/-! ## The penalty -/

/-- What `limit_requests` guarantees in a state, given the attempts so far: a client
whose counter exceeds the limit is refused until `limit_delay` seconds are over,
each client has one entry, and a client that connects rarely is not refused. -/
structure LimitState.Penalizes (c : LimitConfig) (s : LimitState)
    (past : List UInt8 → List Int) : Prop where
  blocks : ∀ addr, s.Exceeds c addr → ∀ steps t,
    run (LimitState.step c) s (.connect addr :: steps) = some t → t.now ≤ s.now + c.limitDelay →
      (limitRequests c t.clients addr t.now).1 = true
  distinct : s.Distinct
  admits : ∀ addr, Sparse c.limitRate (past addr ++ [s.now]) →
    (limitRequests c s.clients addr s.now).1 = false

theorem penalizes_of_run {reserved : Nat} {now : Int} {steps : List LimitStep}
    (hrun : run (LimitState.step c) (.start reserved now) steps = some s) :
    s.Penalizes c fun addr => attempts addr now steps := by
  have hdistinct := distinct_of_run hrun
  have hlive : (LimitState.start reserved now).clients.live = [] := FragPool.live_create reserved
  have hstart : (LimitState.start reserved now).Counted fun _ => [] := fun k hk => by
    simp [hlive] at hk
  refine ⟨fun addr hexceeds rest t ht hnow => ?_, hdistinct, fun addr hsparse => ?_⟩
  · obtain ⟨u, hu, hrest⟩ := (run_cons_eq_some_iff _ s t _ rest).1 ht
    have hall : run (LimitState.step c) (.start reserved now) (steps ++ .connect addr :: rest) =
        some t := by
      rw [run_append, hrun, Option.bind_some, ht]
    exact ((hexceeds.blockedUntil hu).run hrest hnow).refused (distinct_of_run hall)
  · exact (hstart.run hrun).accepted hsparse

/-- The client `[1]` is blocked at the time 1 for 30 seconds, while the entry of the
client `[2]` comes and goes, and the client `[3]` connects once in a while. -/
def oneBlocked : List LimitStep :=
  [.connect [1], .connect [2], .connect [1], .tick 1, .eventIter, .connect [3], .tick 2,
    .connect [2]]

theorem penalizes_of_run_oneBlocked :
    ∃ s, run (LimitState.step ⟨2, 30⟩) (.start 1 0) (oneBlocked.take 4) = some s ∧
      s.Exceeds ⟨2, 30⟩ [1] ∧
      s.Penalizes ⟨2, 30⟩ fun addr => attempts addr 0 (oneBlocked.take 4) := by
  have hrun : (run (LimitState.step ⟨2, 30⟩) (.start 1 0) (oneBlocked.take 4)).any
      (fun s => decide (s.Exceeds ⟨2, 30⟩ [1])) = true := by decide +kernel
  obtain ⟨s, hs, hexceeds⟩ := (Option.any_eq_true _ _).1 hrun
  exact ⟨s, hs, of_decide_eq_true hexceeds, penalizes_of_run hs⟩

end OpenTube
