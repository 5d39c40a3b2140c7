import Mathlib.Data.List.Dedup
import OpenTube.Server.Events

/-!
# The number of kept connections

`pr_set_limits` leaves a descriptor for each preallocated request structure and two
more, and allows at least two kept connections. It computes the difference with
unsigned numbers, so that the lower bound is without effect when the difference is
negative: then the limit is larger than any number of descriptors.

`new_keepalive_socket` compares the limit with the entries that have a peer.
-/

namespace OpenTube

open List

/-- The number of connections that may be kept, computed with integers. -/
def ServerConfig.keepaliveBudget (c : ServerConfig) : Int :=
  max (c.maxfds - c.preallocRequestStructures - 2) 2

/-- The descriptors with an entry and a peer. -/
def openSocks (p : FragPool KeepaliveSock) (q : Registration) : List Fd :=
  ((p.live.map KeepaliveSock.sock).filter fun fd => (q.peername fd).isSome).dedup

/-- Each registration of one request that adds a descriptor finds fewer than `budget`
registered connections that are open. -/
def RegistersWithin (c : ServerConfig) (budget : Int) (conn : Nat) (sock : Fd) :
    List Registration → FragPool KeepaliveSock → Prop
  | [], _ => True
  | q :: qs, p =>
      ((newKeepaliveSocket c p q conn sock).1 = true → ¬ Registered p sock →
        ((openSocks p q).length : Int) < budget) ∧
      RegistersWithin c budget conn sock qs (newKeepaliveSocket c p q conn sock).2

/-- The registrations of one step of the server. -/
def Server.RegistersWithin (c : ServerConfig) (budget : Int) (s : Server) : ServerEvent → Prop
  | .readable fd registrations _ =>
      ∀ conn, s.conns fd = some conn →
        OpenTube.RegistersWithin c budget conn.id fd registrations (s.eventFetchRequest fd).1.pool
  | _ => True

/-- The limit is the intended one, and in every run no connection is added to so many
registered connections that are open. -/
structure ServerConfig.LimitsKept (c : ServerConfig) : Prop where
  value : (c.keepaliveMaxConn : Int) = c.keepaliveBudget
  runs : ∀ events,
    Machine.Meets (Server.step c) (Server.RegistersWithin c c.keepaliveBudget) (.start c) events

variable {c : ServerConfig}

/-- Two descriptors more than request structures are needed. -/
theorem keepaliveMaxConn_eq_iff (hfds : c.maxfds < 2 ^ 32)
    (hprealloc : c.preallocRequestStructures < 2 ^ 31) :
    (c.keepaliveMaxConn : Int) = c.keepaliveBudget ↔
      c.preallocRequestStructures + 2 ≤ c.maxfds := by
  simp only [ServerConfig.keepaliveMaxConn, ServerConfig.keepaliveBudget, uint]
  omega

theorem length_openSocks_le (p : FragPool KeepaliveSock) (q : Registration) :
    (openSocks p q).length ≤ (p.live.filterMap fun k => q.peername k.sock).length := by
  have hlen : (p.live.filterMap fun k => q.peername k.sock).length =
      ((p.live.map KeepaliveSock.sock).filter fun fd => (q.peername fd).isSome).length := by
    rw [← countP_eq_length_filter, countP_map, length_filterMap_eq_countP]
    rfl
  rw [hlen]
  exact (dedup_sublist _).length_le

/-- A descriptor that is added is below the limit. -/
theorem length_openSocks_lt {p : FragPool KeepaliveSock} {q : Registration} {conn : Nat} {sock : Fd}
    (hres : (newKeepaliveSocket c p q conn sock).1 = true) (hnew : ¬ Registered p sock) :
    (openSocks p q).length < c.keepaliveMaxConn := by
  refine Nat.lt_of_le_of_lt (length_openSocks_le p q) ?_
  unfold newKeepaliveSocket at hres
  cases haddr : q.peername sock with
  | none => simp [haddr] at hres
  | some addr =>
      cases hfind : p.e.findIdx? (isFor sock) with
      | some i =>
          obtain ⟨k, hk, hsock⟩ := exists_of_findIdx hfind
          have hlive : k ∈ p.live := mem_filterMap.2 ⟨_, mem_of_getElem? hk, rfl⟩
          exact absurd ⟨k, hlive, hsock⟩ hnew
      | none =>
          simp only [haddr, hfind] at hres
          split_ifs at hres with hclient hfull
          exact Nat.lt_of_not_le hfull

theorem registersWithin_of_eq {budget : Int} (heq : (c.keepaliveMaxConn : Int) = budget)
    (conn : Nat) (sock : Fd) (qs : List Registration) (p : FragPool KeepaliveSock) :
    RegistersWithin c budget conn sock qs p := by
  induction qs generalizing p with
  | nil => trivial
  | cons q qs ih =>
      refine ⟨fun hres hnew => ?_, ih _⟩
      rw [← heq]
      exact_mod_cast length_openSocks_lt hres hnew

/-- The limit is kept in every run if there are enough descriptors, and it is the
intended one only then. `maxfds` is a `uint`, and the setting is read as an `int`. -/
theorem limitsKept_iff (hfds : c.maxfds < 2 ^ 32)
    (hprealloc : c.preallocRequestStructures < 2 ^ 31) :
    c.LimitsKept ↔ c.preallocRequestStructures + 2 ≤ c.maxfds := by
  constructor
  · intro h
    exact (keepaliveMaxConn_eq_iff hfds hprealloc).1 h.value
  · intro h
    have hvalue := (keepaliveMaxConn_eq_iff hfds hprealloc).2 h
    refine ⟨hvalue, fun events => Machine.Meets.of_forall (fun s event => ?_) events _⟩
    cases event with
    | readable fd registrations outcome =>
        exact fun conn _ => registersWithin_of_eq hvalue conn.id fd registrations _
    | _ => trivial

theorem limitsKept_default : defaultServerConfig.LimitsKept :=
  (limitsKept_iff (by decide) (by decide)).2 (by decide)

instance RegistersWithin.decidable (c : ServerConfig) (budget : Int) (conn : Nat) (sock : Fd) :
    ∀ qs p, Decidable (RegistersWithin c budget conn sock qs p)
  | [], _ => inferInstanceAs (Decidable True)
  | q :: qs, p =>
      have := RegistersWithin.decidable c budget conn sock qs (newKeepaliveSocket c p q conn sock).2
      inferInstanceAs (Decidable ((_ → _ → _) ∧ _))

instance (c : ServerConfig) (budget : Int) (s : Server) :
    ∀ event, Decidable (s.RegistersWithin c budget event)
  | .readable fd registrations _ =>
      match h : s.conns fd with
      | none => .isTrue fun conn hconn => by simp [h] at hconn
      | some conn =>
          decidable_of_iff (RegistersWithin c budget conn.id fd registrations
            (s.eventFetchRequest fd).1.pool)
            ⟨fun hall conn' hconn' => Option.some.inj (h.symm.trans hconn') ▸ hall,
              fun hall => hall conn h⟩
  | .accept _ | .writable _ _ | .hangUp _ | .eventIter _ | .fetch _ | .handled _ | .send _ _
  | .raise _ _ => inferInstanceAs (Decidable True)

/-- More request structures than descriptors. -/
def manyStructures : ServerConfig :=
  { defaultServerConfig with preallocRequestStructures := 2000, prealloc := by decide }

/-- Three clients that ask to be kept. -/
def threeKept : List ServerEvent :=
  [3, 4, 5].flatMap fun fd =>
    [.accept fd, .readable fd [⟨fun fd => some [UInt8.ofNat fd], 0⟩] (.replied true)]

theorem not_limitsKept_manyStructures :
    manyStructures.keepaliveMaxConn = 2 ^ 32 - 978 ∧ manyStructures.keepaliveBudget = 2 ∧
      ¬ Machine.Meets (Server.step manyStructures) (Server.RegistersWithin manyStructures 2)
        (.start manyStructures) threeKept ∧
      ¬ manyStructures.LimitsKept := by
  have hrun : ¬ Machine.Meets (Server.step manyStructures) (Server.RegistersWithin manyStructures 2)
      (.start manyStructures) threeKept := by decide +kernel
  exact ⟨by decide, by decide, hrun, fun h => hrun (h.runs threeKept)⟩

end OpenTube
