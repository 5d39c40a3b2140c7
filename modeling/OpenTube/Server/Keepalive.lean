import Mathlib.Data.List.Perm.Subperm
import OpenTube.Common.Pool
import OpenTube.Http.Output

/-!
# The registry of kept connections

`keepalive_sockets` lists the sockets that stay open between two requests. A
request with a `Connection: keep-alive` header enters its socket or refreshes
the entry, unless the client or the server has too many of them; an entry is
taken out when the client is gone or when its time is over.
-/

namespace OpenTube

open List Slots

def httpKeepaliveSocketsPoolReservedSize : Nat := 256

/-- The settings the event loop reads, with the limit of open descriptors. A
configuration with less than two request structures is refused. -/
structure ServerConfig extends Config where
  keepaliveMaxConnPerClient : Nat
  workerThreads : Nat
  preallocRequestStructures : Nat
  idleRequestStructures : Bool
  maxfds : Nat
  prealloc : 2 ≤ preallocRequestStructures

/-- `keepalive_max_conn`. -/
def ServerConfig.keepaliveMaxConn (c : ServerConfig) : Nat :=
  max (uint (c.maxfds - c.preallocRequestStructures - 2)) 2

/-- `default_config`, with a limit of 1024 descriptors. -/
def defaultServerConfig : ServerConfig :=
  { defaultConfig with
    keepaliveMaxConnPerClient := 4
    workerThreads := 5
    preallocRequestStructures := 10
    idleRequestStructures := false
    maxfds := 1024
    prealloc := by decide }

/-- `keepalive_sock_t`. The connection that registered last is not part of the
source's record; the descriptor alone does not tell it. -/
structure KeepaliveSock where
  sock : Fd
  time : Int
  conn : Nat
deriving DecidableEq, Repr

/-- What a registration asks the system for: the addresses `getpeername` gives
for the descriptors and the time. -/
structure Registration where
  peername : Fd → Option (List UInt8)
  curtime : Int

/-- A place of the pool that holds an entry for `sock`. -/
def isFor (sock : Fd) : Option KeepaliveSock → Bool
  | none => false
  | some k => k.sock == sock

/-- `new_keepalive_socket`. -/
def newKeepaliveSocket (c : ServerConfig) (p : FragPool KeepaliveSock) (q : Registration)
    (conn : Nat) (sock : Fd) : Bool × FragPool KeepaliveSock :=
  match q.peername sock with
  | none => (false, p)
  | some addr =>
      match p.e.findIdx? (isFor sock) with
      | some i => (true, { p with e := p.e.set i (some ⟨sock, q.curtime, conn⟩) })
      | none =>
          let peers := p.live.filterMap fun k => q.peername k.sock
          if c.keepaliveMaxConnPerClient ≤ peers.count addr then (false, p)
          else if c.keepaliveMaxConn ≤ peers.length then (false, p)
          else (true, p.alloc ⟨sock, q.curtime, conn⟩)

/-- The registrations of one request, one for each keep-alive header. The flag is
what the last of them returned. -/
def registerAll (c : ServerConfig) (conn : Nat) (sock : Fd) :
    List Registration → Bool → FragPool KeepaliveSock → Bool × FragPool KeepaliveSock
  | [], keepalive, p => (keepalive, p)
  | q :: qs, _, p =>
      let e := newKeepaliveSocket c p q conn sock
      registerAll c conn sock qs e.1 e.2

/-- `remove_keepalive_socket`. -/
def removeKeepaliveSocket (p : FragPool KeepaliveSock) (sock : Fd) : FragPool KeepaliveSock :=
  match p.e.findIdx? (isFor sock) with
  | some i => p.freeAlt i
  | none => p

/-- There is a live entry for the descriptor. -/
def Registered (p : FragPool KeepaliveSock) (sock : Fd) : Prop :=
  ∃ k ∈ p.live, k.sock = sock

instance Registered.decidable (p : FragPool KeepaliveSock) (sock : Fd) :
    Decidable (Registered p sock) :=
  inferInstanceAs (Decidable (∃ k ∈ p.live, k.sock = sock))

/-! ## What the functions do to the live entries -/

variable {p : FragPool KeepaliveSock} {sock : Fd}

theorem exists_of_findIdx {i : Nat} (h : p.e.findIdx? (isFor sock) = some i) :
    ∃ k, p.e[i]? = some (some k) ∧ k.sock = sock := by
  obtain ⟨hi, hfor, -⟩ := findIdx?_eq_some_iff_getElem.1 h
  cases hk : p.e[i] with
  | none => simp [hk, isFor] at hfor
  | some k => exact ⟨k, by simp [hi, hk], by simpa [hk, isFor] using hfor⟩

theorem not_registered_of_findIdx (h : p.e.findIdx? (isFor sock) = none) :
    ¬ Registered p sock := by
  rintro ⟨k, hk, hsock⟩
  obtain ⟨place, hplace, rfl⟩ := mem_filterMap.1 hk
  have hfor := findIdx?_eq_none_iff.1 h _ hplace
  simp [isFor, hsock] at hfor

/-- A registration changes nothing, renews the entry of the socket or adds one
for a socket that had none; only the first of the three is refused. -/
theorem newKeepaliveSocket_cases (c : ServerConfig) (p : FragPool KeepaliveSock)
    (q : Registration) (conn : Nat) (sock : Fd) :
    newKeepaliveSocket c p q conn sock = (false, p) ∨
    (newKeepaliveSocket c p q conn sock).1 = true ∧
      ((∃ k rest, k.sock = sock ∧ p.live ~ k :: rest ∧
          (newKeepaliveSocket c p q conn sock).2.live ~ ⟨sock, q.curtime, conn⟩ :: rest) ∨
        ¬ Registered p sock ∧
          (newKeepaliveSocket c p q conn sock).2.live ~ ⟨sock, q.curtime, conn⟩ :: p.live) := by
  unfold newKeepaliveSocket
  cases q.peername sock with
  | none => exact .inl rfl
  | some addr =>
      cases hfind : p.e.findIdx? (isFor sock) with
      | some i =>
          obtain ⟨k, hi, hk⟩ := exists_of_findIdx hfind
          obtain ⟨rest, hold, hnew⟩ := exists_filterMap_set_perm hi id
          exact .inr ⟨rfl, .inl ⟨k, rest, hk, hold, hnew _⟩⟩
      | none =>
          simp only
          split
          · exact .inl rfl
          · split
            · exact .inl rfl
            · exact .inr ⟨rfl, .inr ⟨not_registered_of_findIdx hfind, p.live_alloc _⟩⟩

/-- A removal takes the first entry of the socket out, if there is one. -/
theorem removeKeepaliveSocket_cases (p : FragPool KeepaliveSock) (sock : Fd) :
    (¬ Registered p sock ∧ removeKeepaliveSocket p sock = p) ∨
      ∃ k, k.sock = sock ∧ p.live ~ k :: (removeKeepaliveSocket p sock).live := by
  unfold removeKeepaliveSocket
  cases hfind : p.e.findIdx? (isFor sock) with
  | some i =>
      obtain ⟨k, hi, hk⟩ := exists_of_findIdx hfind
      exact .inr ⟨k, hk, FragPool.live_freeAlt hi⟩
  | none => exact .inl ⟨not_registered_of_findIdx hfind, rfl⟩

/-! ## The registry as a list of distinct sockets -/

/-- The entries belong to different sockets, and each satisfies `ok`. -/
structure Entries (ok : KeepaliveSock → Prop) (l : List KeepaliveSock) : Prop where
  distinct : (l.map KeepaliveSock.sock).Nodup
  each : ∀ k ∈ l, ok k

variable {ok : KeepaliveSock → Prop}

theorem Entries.perm {l l' : List KeepaliveSock} (h : Entries ok l) (hl : l' ~ l) :
    Entries ok l' :=
  ⟨(hl.map _).nodup_iff.2 h.distinct, fun k hk => h.each k (hl.subset hk)⟩

theorem Entries.tail {k : KeepaliveSock} {l : List KeepaliveSock} (h : Entries ok (k :: l)) :
    Entries ok l :=
  ⟨(nodup_cons.1 h.distinct).2, fun k' hk' => h.each k' (mem_cons_of_mem k hk')⟩

theorem Entries.cons {k : KeepaliveSock} {l : List KeepaliveSock} (h : Entries ok l)
    (hk : ok k) (hsock : ∀ k' ∈ l, k'.sock ≠ k.sock) : Entries ok (k :: l) := by
  refine ⟨nodup_cons.2 ⟨fun hmem => ?_, h.distinct⟩, forall_mem_cons.2 ⟨hk, h.each⟩⟩
  obtain ⟨k', hk', heq⟩ := mem_map.1 hmem
  exact hsock k' hk' heq

/-- No other entry has the socket of the first. -/
theorem Entries.sock_ne {k : KeepaliveSock} {l : List KeepaliveSock} (h : Entries ok (k :: l)) :
    ∀ k' ∈ l, k'.sock ≠ k.sock := fun _ hk' heq =>
  (nodup_cons.1 h.distinct).1 (heq ▸ mem_map_of_mem hk')

theorem Entries.newKeepaliveSocket {c : ServerConfig} {q : Registration} {conn : Nat}
    (h : Entries ok p.live) (hok : ∀ time, ok ⟨sock, time, conn⟩) :
    Entries ok (newKeepaliveSocket c p q conn sock).2.live := by
  rcases newKeepaliveSocket_cases c p q conn sock with
    hsame | ⟨-, ⟨k, rest, hk, hold, hnew⟩ | ⟨hfree, hnew⟩⟩
  · rw [hsame]
    exact h
  · have hold' := h.perm hold.symm
    exact (hold'.tail.cons (hok q.curtime) fun k' hk' => hk ▸ hold'.sock_ne k' hk').perm hnew
  · exact (h.cons (hok q.curtime) fun k hk hsock => hfree ⟨k, hk, hsock⟩).perm hnew

theorem Entries.registerAll {c : ServerConfig} {conn : Nat} (qs : List Registration)
    (keepalive : Bool) (h : Entries ok p.live) (hok : ∀ time, ok ⟨sock, time, conn⟩) :
    Entries ok (registerAll c conn sock qs keepalive p).2.live := by
  induction qs generalizing keepalive p with
  | nil => exact h
  | cons q qs ih => exact ih _ (h.newKeepaliveSocket hok)

/-- After the removal the socket has no entry. -/
theorem Entries.removeKeepaliveSocket (h : Entries ok p.live) :
    Entries ok (removeKeepaliveSocket p sock).live ∧
      ¬ Registered (removeKeepaliveSocket p sock) sock := by
  rcases removeKeepaliveSocket_cases p sock with ⟨hfree, hsame⟩ | ⟨k, hk, hperm⟩
  · rw [hsame]
    exact ⟨h, hfree⟩
  · have hcons := h.perm hperm.symm
    refine ⟨hcons.tail, ?_⟩
    rintro ⟨k', hk', hsock⟩
    exact hcons.sock_ne k' hk' (hsock.trans hk.symm)

end OpenTube
