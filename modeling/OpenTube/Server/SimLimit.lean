import Mathlib.Data.List.Nodup
import OpenTube.Common.Pool
import OpenTube.Common.Types
import OpenTube.Lib.Assoc
import OpenTube.Lib.Run

/-!
# The limit on simultaneous connections

`limit_sim_requests` keeps the descriptors of the connections it let in. It is not
told when a connection is closed: a descriptor without a peer is dropped when it is
met, and so is the descriptor of the new connection, whose number was used before.
A connection that is refused may leave such entries behind, since the search ends
at once.

The entries are the open connections, once each, and descriptors that are closed.
So the connections of a client are counted right whatever is left behind.
-/

namespace OpenTube

open List Slots

/-! ## The function -/

/-- The setting `limit_sim_requests` reads. A threshold that is not positive is
refused when the configuration is read. -/
structure SimLimitConfig where
  limitSimThreshold : Nat
  pos : 0 < limitSimThreshold

/-- The loop of `limit_sim_requests` from the place `i` on: whether the connection
is refused, and the pool. The first argument bounds the rounds. -/
def limitSimLoop (c : SimLimitConfig) (peername : Fd → Option (List UInt8)) (addr : List UInt8)
    (sock : Fd) : Nat → Nat → Nat → FragPool Fd → Bool × FragPool Fd
  | 0, _, _, p => (false, p)
  | n + 1, i, total, p =>
      match p.e[i]? with
      | none => (false, p)
      | some none => limitSimLoop c peername addr sock n (i + 1) total p
      | some (some cli) =>
          if cli = sock ∨ peername cli = none then
            limitSimLoop c peername addr sock n (i + 1) total (p.freeAlt i)
          else if peername cli = some addr then
            if c.limitSimThreshold ≤ total + 1 then (true, p)
            else limitSimLoop c peername addr sock n (i + 1) (total + 1) p
          else limitSimLoop c peername addr sock n (i + 1) total p

/-- `limit_sim_requests`: whether the connection is refused, and the pool. -/
def limitSimRequests (c : SimLimitConfig) (peername : Fd → Option (List UInt8))
    (p : FragPool Fd) (addr : List UInt8) (sock : Fd) : Bool × FragPool Fd :=
  let e := limitSimLoop c peername addr sock p.e.length 0 0 p
  if e.1 then e else (false, e.2.alloc sock)

/-! ## What the loop does -/

/-- An entry of another connection of the client. -/
def isPeer (peername : Fd → Option (List UInt8)) (addr : List UInt8) (sock cli : Fd) : Bool :=
  cli ≠ sock && peername cli = some addr

/-- What is true of the loop from the place `i` on, with `total` connections of the
client in front of it. -/
structure SimScan (c : SimLimitConfig) (peername : Fd → Option (List UInt8)) (addr : List UInt8)
    (sock : Fd) (i total : Nat) (p : FragPool Fd) (r : Bool × FragPool Fd) : Prop where
  refused : r.1 = true ↔ c.limitSimThreshold ≤
    total + ((p.e.drop i).filterMap id).countP (isPeer peername addr sock)
  fewer : r.2.live <+~ p.live
  kept : ∀ cli ∈ p.live, cli ≠ sock → peername cli ≠ none → cli ∈ r.2.live
  purged : r.1 = false → sock ∈ r.2.live → sock ∈ (p.e.take i).filterMap id

variable {c : SimLimitConfig} {peername : Fd → Option (List UInt8)} {addr : List UInt8} {sock : Fd}

/-- The search has come to the end of the array. -/
theorem simScan_end {i total : Nat} {p : FragPool Fd} (hle : p.e.length ≤ i)
    (htotal : total < c.limitSimThreshold) :
    SimScan c peername addr sock i total p (false, p) := by
  refine ⟨?_, Subperm.refl _, fun _ h _ _ => h, fun _ h => ?_⟩
  · rw [drop_eq_nil_of_le hle]
    simpa using htotal
  · rw [take_of_length_le hle]
    exact h

theorem simScan_limitSimLoop {n i total : Nat} {p : FragPool Fd} (hn : p.e.length ≤ n + i)
    (htotal : total < c.limitSimThreshold) :
    SimScan c peername addr sock i total p (limitSimLoop c peername addr sock n i total p) := by
  induction n generalizing i total p with
  | zero => exact simScan_end (by omega) htotal
  | succ n ih =>
      rw [limitSimLoop]
      cases hi : p.e[i]? with
      | none => exact simScan_end (by simpa using hi) htotal
      | some entry =>
          obtain ⟨hlt, hget⟩ := List.getElem?_eq_some_iff.1 hi
          have hdrop : p.e.drop i = entry :: p.e.drop (i + 1) := by
            rw [← hget]
            exact drop_eq_getElem_cons hlt
          have htake : p.e.take (i + 1) = p.e.take i ++ [entry] := by
            rw [take_add_one, hi]
            rfl
          cases entry with
          | none =>
              obtain ⟨hrefused, hfewer, hkept, hpurged⟩ := 
                ih (i := i + 1) (p := p) (by omega) htotal
              rw [htake] at hpurged
              exact ⟨by simpa [hdrop] using hrefused, hfewer, hkept, by simpa using hpurged⟩
          | some cli =>
              simp only
              have hcount : ((p.e.drop i).filterMap id).countP (isPeer peername addr sock) =
                  ((p.e.drop (i + 1)).filterMap id).countP (isPeer peername addr sock) +
                    if isPeer peername addr sock cli then 1 else 0 := by
                rw [hdrop, filterMap_cons_some (f := id) rfl, countP_cons]
              split
              · rename_i hstale
                have hnot : isPeer peername addr sock cli = false := by
                  rcases hstale with rfl | hnone
                  · simp [isPeer]
                  · simp [isPeer, hnone]
                have hperm := FragPool.live_freeAlt hi
                obtain ⟨k, hk, -⟩ := FragPool.e_freeAlt hi
                have hlen := congrArg length hk
                simp only [length_set, length_append, length_replicate] at hlen
                obtain ⟨hrefused, hfewer, hkept, hpurged⟩ :=
                  ih (i := i + 1) (p := p.freeAlt i) (by omega) htotal
                rw [FragPool.drop_freeAlt hi] at hrefused
                rw [FragPool.take_freeAlt hi] at hpurged
                refine ⟨?_, ?_, fun x hx hsock hopen => ?_, hpurged⟩
                · rw [hcount, hnot]
                  exact hrefused
                · exact hfewer.trans (hperm.symm.subperm_left.1 (sublist_cons_self _ _).subperm)
                · rcases mem_cons.1 (hperm.subset hx) with rfl | hx
                  · exact absurd hstale (by simp [hsock, hopen])
                  · exact hkept x hx hsock hopen
              · rename_i hstale
                have hsock : cli ≠ sock := fun heq => hstale (.inl heq)
                have hself : sock ∈ (p.e.take (i + 1)).filterMap id →
                    sock ∈ (p.e.take i).filterMap id := by
                  rw [htake]
                  simp [hsock.symm]
                split
                · rename_i hpeer
                  have hyes : isPeer peername addr sock cli = true := by simp [isPeer, hsock, hpeer]
                  rw [hyes, if_pos rfl] at hcount
                  split
                  · rename_i hover
                    refine ⟨?_, Subperm.refl _, fun _ h _ _ => h, by simp⟩
                    rw [hcount]
                    simp only [true_iff]
                    omega
                  · rename_i hover
                    obtain ⟨hrefused, hfewer, hkept, hpurged⟩ :=
                      ih (i := i + 1) (p := p) (by omega) (Nat.lt_of_not_le hover)
                    refine ⟨?_, hfewer, hkept, fun hres hmem => hself (hpurged hres hmem)⟩
                    rw [hcount, hrefused, Nat.add_right_comm, Nat.add_assoc]
                · rename_i hpeer
                  have hno : isPeer peername addr sock cli = false := by simp [isPeer, hpeer]
                  rw [hno] at hcount
                  obtain ⟨hrefused, hfewer, hkept, hpurged⟩ :=
                    ih (i := i + 1) (p := p) (by omega) htotal
                  refine ⟨?_, hfewer, hkept, fun hres hmem => hself (hpurged hres hmem)⟩
                  rw [hcount, hrefused]
                  rfl

/-- The connection is refused if there are too many of the client, and otherwise it
is the only entry of its descriptor. -/
theorem limitSimRequests_cases (c : SimLimitConfig) (peername : Fd → Option (List UInt8))
    (p : FragPool Fd) (addr : List UInt8) (sock : Fd) :
    ∃ q, q.live <+~ p.live ∧ (∀ cli ∈ p.live, cli ≠ sock → peername cli ≠ none → cli ∈ q.live) ∧
      ((c.limitSimThreshold ≤ p.live.countP (isPeer peername addr sock) ∧
          limitSimRequests c peername p addr sock = (true, q)) ∨
        (p.live.countP (isPeer peername addr sock) < c.limitSimThreshold ∧ sock ∉ q.live ∧
          limitSimRequests c peername p addr sock = (false, q.alloc sock))) := by
  have hscan : SimScan c peername addr sock 0 0 p
      (limitSimLoop c peername addr sock p.e.length 0 0 p) :=
    simScan_limitSimLoop (Nat.le_refl _) c.pos
  obtain ⟨hrefused, hfewer, hkept, hpurged⟩ := hscan
  rw [Nat.zero_add, drop_zero] at hrefused
  rw [take_zero] at hpurged
  refine ⟨_, hfewer, hkept, ?_⟩
  unfold limitSimRequests
  cases hres : (limitSimLoop c peername addr sock p.e.length 0 0 p).1 with
  | true =>
      refine .inl ⟨hrefused.1 hres, ?_⟩
      simp only [hres, if_true]
      rw [← hres]
  | false =>
      rw [hres] at hrefused
      refine .inr ⟨Nat.lt_of_not_le fun hle => by simpa using hrefused.2 hle,
        fun hmem => by simpa using hpurged hres hmem, ?_⟩
      simp [hres]

/-! ## Runs -/

/-- The pool and the open connections, with the addresses of their clients. -/
structure SimState where
  clients : FragPool Fd
  conns : List (Fd × List UInt8)
deriving DecidableEq, Repr

/-- A connection that `accept` returns, or the end of a connection. -/
inductive SimStep
  | accept (fd : Fd) (addr : List UInt8)
  | close (fd : Fd)
deriving DecidableEq, Repr

/-- The state without connections. -/
def SimState.start (reserved : Nat) : SimState := ⟨.create reserved, []⟩

/-- The call of `limit_sim_requests` for a new connection, which is open during the
call. -/
def SimState.limitSimRequests (c : SimLimitConfig) (s : SimState) (fd : Fd) (addr : List UInt8) :
    Bool × FragPool Fd :=
  OpenTube.limitSimRequests c (fun cli => ((fd, addr) :: s.conns).lookup cli) s.clients addr fd

/-- One step. The number of a new descriptor is not in use; a connection that is
refused is closed at once. -/
def SimState.step (c : SimLimitConfig) (s : SimState) : SimStep → Option SimState
  | .accept fd addr =>
      if fd ∈ s.conns.map Prod.fst then none
      else
        let e := s.limitSimRequests c fd addr
        some ⟨e.2, if e.1 then s.conns else (fd, addr) :: s.conns⟩
  | .close fd =>
      if fd ∈ s.conns.map Prod.fst then
        some { s with conns := s.conns.filter fun e => e.1 ≠ fd }
      else none

/-- A connection is let in exactly if its client has fewer than `limit_sim_threshold`
open connections, and each open connection has one entry. -/
structure SimState.Exact (c : SimLimitConfig) (s : SimState) : Prop where
  decides : ∀ fd addr, fd ∉ s.conns.map Prod.fst →
    ((s.limitSimRequests c fd addr).1 = false ↔
      s.conns.countP (fun e => e.2 = addr) < c.limitSimThreshold)
  entry : ∀ fd ∈ s.conns.map Prod.fst, s.clients.live.count fd = 1

/-- The entries are different descriptors, and those of the open connections are
among them. -/
structure SimState.Inv (s : SimState) : Prop where
  distinct : (s.conns.map Prod.fst).Nodup
  entries : s.clients.live.Nodup
  present : ∀ fd ∈ s.conns.map Prod.fst, fd ∈ s.clients.live

theorem inv_simStart (reserved : Nat) : (SimState.start reserved).Inv := by
  have hlive : (SimState.start reserved).clients.live = [] := FragPool.live_create reserved
  exact ⟨by simp [SimState.start], by simp [hlive], by simp [SimState.start]⟩

/-- Entries of closed connections are not counted, and the others are counted once. -/
theorem SimState.Inv.countP_isPeer {s : SimState} (h : s.Inv) {fd : Fd}
    (hfd : fd ∉ s.conns.map Prod.fst) (addr : List UInt8) :
    s.clients.live.countP (isPeer (fun cli => ((fd, addr) :: s.conns).lookup cli) addr fd) =
      s.conns.countP fun e => e.2 = addr := by
  have hperm : s.clients.live.filter
      (isPeer (fun cli => ((fd, addr) :: s.conns).lookup cli) addr fd) ~
      (s.conns.filter fun e => e.2 = addr).map Prod.fst := by
    refine (perm_ext_iff_of_nodup (h.entries.filter _)
      (h.distinct.sublist (filter_sublist.map _))).2 fun cli => ?_
    simp only [mem_filter, isPeer, Assoc.lookup_cons_eq, mem_map, Bool.and_eq_true,
      decide_eq_true_eq]
    constructor
    · rintro ⟨-, hne, hlookup⟩
      rw [if_neg hne] at hlookup
      exact ⟨_, ⟨(Assoc.lookup_eq_some_iff_mem h.distinct).1 hlookup, rfl⟩, rfl⟩
    · rintro ⟨⟨k, a⟩, ⟨hmem, rfl⟩, rfl⟩
      have hkey : k ∈ s.conns.map Prod.fst := mem_map.2 ⟨_, hmem, rfl⟩
      have hne : k ≠ fd := fun heq => hfd (heq ▸ hkey)
      refine ⟨h.present k hkey, hne, ?_⟩
      rw [if_neg hne]
      exact (Assoc.lookup_eq_some_iff_mem h.distinct).2 hmem
  rw [countP_eq_length_filter, countP_eq_length_filter, hperm.length_eq, length_map]

theorem SimState.Inv.exact {s : SimState} (h : s.Inv) (c : SimLimitConfig) : s.Exact c := by
  refine ⟨fun fd addr hfd => ?_, fun fd hfd => count_eq_one_of_mem h.entries (h.present fd hfd)⟩
  rw [← h.countP_isPeer hfd addr]
  obtain ⟨q, -, -, ⟨hle, hres⟩ | ⟨hlt, -, hres⟩⟩ := limitSimRequests_cases c
    (fun cli => ((fd, addr) :: s.conns).lookup cli) s.clients addr fd
  · rw [SimState.limitSimRequests, hres]
    simpa using hle
  · rw [SimState.limitSimRequests, hres]
    simpa using hlt

theorem SimState.Inv.step {c : SimLimitConfig} {s t : SimState} {l : SimStep} (h : s.Inv)
    (hstep : s.step c l = some t) : t.Inv := by
  cases l with
  | accept fd addr =>
      rw [SimState.step] at hstep
      split at hstep
      · simp at hstep
      · rename_i hfd
        obtain rfl := Option.some.inj hstep
        obtain ⟨q, hfewer, hkept, hcase⟩ := limitSimRequests_cases c
          (fun cli => ((fd, addr) :: s.conns).lookup cli) s.clients addr fd
        have hnodup : q.live.Nodup := by
          obtain ⟨l, hl, hsub⟩ := hfewer
          exact hl.nodup_iff.1 (h.entries.sublist hsub)
        have hopen : ∀ k ∈ s.conns.map Prod.fst, k ∈ q.live := by
          intro k hk
          have hne : k ≠ fd := fun heq => hfd (heq ▸ hk)
          refine hkept k (h.present k hk) hne ?_
          obtain ⟨⟨k', a⟩, hmem, rfl⟩ := mem_map.1 hk
          rw [Assoc.lookup_cons_eq, if_neg hne, (Assoc.lookup_eq_some_iff_mem h.distinct).2 hmem]
          simp
        rcases hcase with ⟨-, hres⟩ | ⟨-, hfree, hres⟩
        · simp only [SimState.limitSimRequests, hres, if_true]
          exact ⟨h.distinct, hnodup, hopen⟩
        · simp only [SimState.limitSimRequests, hres, Bool.false_eq_true, if_false]
          have hlive := q.live_alloc fd
          refine ⟨nodup_cons.2 ⟨hfd, h.distinct⟩, ?_, ?_⟩
          · exact hlive.nodup_iff.2 (nodup_cons.2 ⟨hfree, hnodup⟩)
          · intro k hk
            rcases mem_cons.1 hk with rfl | hk
            · exact hlive.symm.subset mem_cons_self
            · exact hlive.symm.subset (mem_cons_of_mem _ (hopen k hk))
  | close fd =>
      rw [SimState.step] at hstep
      split at hstep
      · obtain rfl := Option.some.inj hstep
        have hsub : (s.conns.filter fun e => e.1 ≠ fd).map Prod.fst <+ s.conns.map Prod.fst :=
          filter_sublist.map _
        exact ⟨h.distinct.sublist hsub, h.entries, fun k hk => h.present k (hsub.subset hk)⟩
      · simp at hstep

/-- In every run the connections of each client are limited exactly. -/
theorem exact_of_run {c : SimLimitConfig} {reserved : Nat} {steps : List SimStep} {s : SimState}
    (hrun : Machine.run (SimState.step c) (.start reserved) steps = some s) : s.Exact c := by
  have hinv : s.Inv := Machine.run_preserves (fun s l t hs ht => hs.step ht) steps _ s
    (inv_simStart reserved) hrun
  exact hinv.exact c

/-- Two connections of one client and one of another; a descriptor is used again by
the other client, and a third connection of the first client is refused. -/
def reusedDescriptor : List SimStep :=
  [.accept 5 [1], .accept 6 [1], .accept 7 [1], .accept 7 [2], .close 5, .accept 5 [2],
    .accept 8 [1], .accept 9 [1]]

theorem exact_of_run_reusedDescriptor :
    ∃ s, Machine.run (SimState.step ⟨2, by decide⟩) (.start 1) reusedDescriptor = some s ∧
      s.conns = [(8, [1]), (5, [2]), (7, [2]), (6, [1])] ∧ s.Exact ⟨2, by decide⟩ := by
  have hrun : (Machine.run (SimState.step ⟨2, by decide⟩) (.start 1) reusedDescriptor).map
      SimState.conns = some [(8, [1]), (5, [2]), (7, [2]), (6, [1])] := by decide +kernel
  obtain ⟨s, hs, hconns⟩ := Option.map_eq_some_iff.1 hrun
  exact ⟨s, hs, hconns, exact_of_run hs⟩

end OpenTube
