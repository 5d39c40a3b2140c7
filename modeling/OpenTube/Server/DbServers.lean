import OpenTube.Common.Numbers
import OpenTube.Common.Types
import OpenTube.Lib.Scan

/-!
# The list of database servers

`parse_server` looks for the next comma and for the next colon of the list
independently of each other and cuts the string in place at both. `db_init` adds a
seed after each call that returns a place to go on from, and the call for the last
server returns none. The functions of the driver record their arguments.
-/

namespace OpenTube

/-- `struct mongo_server`, with the text of the host. -/
structure MongoServer where
  host : List UInt8
  port : Nat
deriving DecidableEq, Repr

/-- `MONGO_DEFAULT_PORT`. -/
def mongoDefaultPort : Nat := 27017

/-- The text of the string at `o`. -/
def textAt (m : List UInt8) (o : Nat) : List UInt8 := (m.drop o).takeWhile (· ≠ nul)

/-- `strchr` from `o` on. -/
def strchrAt (m : List UInt8) (o : Nat) (c : UInt8) : Option Nat :=
  let front := (textAt m o).takeWhile (· ≠ c)
  if front.length < (textAt m o).length then some (o + front.length) else none

/-- Write a `NUL` at a place, if there is one. -/
def cutAt (m : List UInt8) : Option Nat → List UInt8
  | some o => m.set o nul
  | none => m

/-- `parse_server`: the server, the string and the place to go on from. It has no value
if the number is read from the address behind the null pointer. -/
def parseServer (m : List UInt8) (servers : Nat) :
    Option (MongoServer × List UInt8 × Option Nat) :=
  let servers := servers + ((m.drop servers).takeWhile (· = space)).length
  let next := strchrAt m servers comma
  let port := strchrAt m servers colon
  let number : Option Nat :=
    match port, next with
    | some p, some n => if p < n then some (uint (atoi (textAt m (p + 1)))) else some 0
    | some p, none => some (uint (atoi (textAt m (p + 1))))
    | none, some _ => none
    | none, none => some 0
  number.map fun n =>
    let m := cutAt (cutAt m next) port
    (⟨textAt m servers, if n = 0 ∨ 65535 < n then mongoDefaultPort else n⟩, m,
      next.map (· + 1))

/-- The loop of `db_init` with a replica set: the seeds that are added. -/
def seedLoop : Nat → List UInt8 → Nat → Option (List MongoServer)
  | 0, _, _ => some []
  | n + 1, m, next =>
      match parseServer m next with
      | none => none
      | some (_, _, none) => some []
      | some (server, m, some next) => (seedLoop n m next).map (server :: ·)

/-- `db_init` with a replica set, for the string `db_servers`. The loop passes a comma
each time. -/
def dbInit (servers : List UInt8) : Option (List MongoServer) :=
  seedLoop (servers.length + 1) (servers ++ [nul]) 0

/-! ## Lists of servers -/

/-- A server of the list: its host and its port, if one is given. -/
structure ListedServer where
  host : List UInt8
  port : Option Nat
  hostNonempty : host ≠ []
  hostBytes : ∀ c ∈ host, c ≠ comma ∧ c ≠ colon ∧ c ≠ space ∧ c ≠ nul
  portRange : ∀ p ∈ port, 1 ≤ p ∧ p ≤ 65535

/-- The seed for a server. -/
def ListedServer.seed (s : ListedServer) : MongoServer := ⟨s.host, s.port.getD mongoDefaultPort⟩

/-- The text of a server. -/
def ListedServer.Text (s : ListedServer) (text : List UInt8) : Prop :=
  match s.port with
  | none => text = s.host
  | some p => ∃ digits, digits ≠ [] ∧ (∀ c ∈ digits, isDigit c = true) ∧ digitsValue 0 digits = p ∧
      text = s.host ++ colon :: digits

/-- The texts of a list of servers: commas between them, and spaces around each. -/
inductive ServerListText : List ListedServer → List UInt8 → Prop
  | last {s text} (before behind : Nat) (htext : s.Text text) :
      ServerListText [s] (List.replicate before space ++ (text ++ List.replicate behind space))
  | cons {s text servers rest} (before behind : Nat) (htext : s.Text text)
      (hrest : ServerListText servers rest) :
      ServerListText (s :: servers)
        (List.replicate before space ++ (text ++ (List.replicate behind space ++ comma :: rest)))

/-- Exactly one seed is added for each server, in order. -/
def SeedsAdded (servers : List ListedServer) (text : List UInt8) : Prop :=
  dbInit text = some (servers.map ListedServer.seed)

/-! ## Commas -/

/-- A `NUL` in the place of a byte adds no comma. -/
theorem count_set_nul_le (m : List UInt8) (i : Nat) : (m.set i nul).count comma ≤ m.count comma := by
  induction m generalizing i with
  | nil => simp
  | cons c m ih =>
      cases i with
      | zero =>
          rw [List.set_cons_zero, List.count_cons_of_ne (by decide)]
          exact List.count_le_count_cons
      | succ i =>
          rw [List.set_cons_succ, List.count_cons, List.count_cons]
          exact Nat.add_le_add_right (ih i) _

theorem count_cutAt_le (m : List UInt8) (o : Option Nat) (k : Nat) :
    ((cutAt m o).drop k).count comma ≤ (m.drop k).count comma := by
  cases o with
  | none => exact Nat.le_refl _
  | some i =>
      rw [cutAt, List.drop_set]
      split
      · exact Nat.le_refl _
      · exact count_set_nul_le _ _

/-- The text from a place on is a part of the memory. -/
theorem textAt_prefix (m : List UInt8) (o : Nat) : textAt m o <+: m.drop o := List.takeWhile_prefix _

theorem strchrAt_eq_some {m : List UInt8} {o i : Nat} {c : UInt8} (h : strchrAt m o c = some i) :
    o ≤ i ∧ m[i]? = some c := by
  obtain ⟨a, b, hspan, hfront, -, -, hstop⟩ := Scan.exists_span (· ≠ c) (textAt m o)
  rw [strchrAt, hfront] at h
  obtain ⟨hlt, heq⟩ := Option.ite_none_right_eq_some.1 h
  obtain rfl := Option.some.inj heq
  refine ⟨Nat.le_add_right _ _, ?_⟩
  -- the text behind the part that is free of `c` begins with `c`
  cases b with
  | nil => simp [hspan] at hlt
  | cons d b =>
      obtain rfl : d = c := by simpa using hstop
      obtain ⟨t, ht⟩ := textAt_prefix m o
      rw [← List.getElem?_drop, ← ht, hspan, List.append_assoc,
        List.getElem?_append_right (Nat.le_refl _), Nat.sub_self]
      rfl

/-- A call that returns a place has passed a comma. -/
theorem parseServer_comma {m m' : List UInt8} {o next : Nat} {server : MongoServer}
    (h : parseServer m o = some (server, m', some next)) :
    (m'.drop next).count comma + 1 ≤ (m.drop o).count comma := by
  obtain ⟨number, -, heq⟩ := Option.map_eq_some_iff.1 h
  simp only [Prod.mk.injEq, Option.map_eq_some_iff] at heq
  obtain ⟨-, rfl, i, hi, rfl⟩ := heq
  obtain ⟨hle, hat⟩ := strchrAt_eq_some hi
  have hcut : ∀ p q, ((cutAt (cutAt m p) q).drop (i + 1)).count comma ≤
      (m.drop (i + 1)).count comma := fun p q =>
    Nat.le_trans (count_cutAt_le (cutAt m p) q (i + 1)) (count_cutAt_le m p (i + 1))
  have hcomma : (m.drop (i + 1)).count comma + 1 = (m.drop i).count comma := by
    obtain ⟨hlt, hget⟩ := List.getElem?_eq_some_iff.1 hat
    rw [List.drop_eq_getElem_cons hlt, hget, List.count_cons_self]
  have hfrom : (m.drop i).count comma ≤ (m.drop o).count comma :=
    (List.drop_sublist_drop_left m (by omega)).count_le comma
  exact Nat.le_trans (Nat.add_le_add_right (hcut _ _) 1) (Nat.le_trans (Nat.le_of_eq hcomma) hfrom)

/-- There are at most as many seeds as commas. -/
theorem length_seedLoop_le {n : Nat} {m : List UInt8} {o : Nat} {seeds : List MongoServer}
    (h : seedLoop n m o = some seeds) : seeds.length ≤ (m.drop o).count comma := by
  induction n generalizing m o seeds with
  | zero =>
      obtain rfl := Option.some.inj h
      exact Nat.zero_le _
  | succ n ih =>
      rw [seedLoop] at h
      split at h
      · exact absurd h (by simp)
      · obtain rfl := Option.some.inj h
        exact Nat.zero_le _
      · rename_i server m' next hparse
        obtain ⟨rest, hrest, rfl⟩ := Option.map_eq_some_iff.1 h
        have hle := ih hrest
        have hcomma := parseServer_comma hparse
        rw [List.length_cons]
        omega

theorem ListedServer.Text.count_comma {s : ListedServer} {text : List UInt8} (h : s.Text text) :
    text.count comma = 0 := by
  have hhost : s.host.count comma = 0 :=
    List.count_eq_zero.2 fun hmem => (s.hostBytes comma hmem).1 rfl
  rw [Text] at h
  split at h
  · rw [h, hhost]
  · obtain ⟨digits, -, hdigits, -, rfl⟩ := h
    have hport : digits.count comma = 0 :=
      List.count_eq_zero.2 fun hmem => absurd (hdigits comma hmem) (by decide)
    rw [List.count_append, hhost, List.count_cons_of_ne (by decide), hport]

theorem count_spaces (n : Nat) : (List.replicate n space).count comma = 0 :=
  List.count_eq_zero.2 fun h => absurd (List.eq_of_mem_replicate h) (by decide)

/-- The commas of a list stand between its servers. -/
theorem ServerListText.count_comma {servers : List ListedServer} {text : List UInt8}
    (h : ServerListText servers text) : text.count comma + 1 = servers.length := by
  induction h with
  | last before behind htext =>
      have hcount := htext.count_comma
      rw [List.count_append, List.count_append, hcount, count_spaces, count_spaces]
      rfl
  | cons before behind htext hrest ih =>
      have hcount := htext.count_comma
      rw [List.count_append, List.count_append, List.count_append, hcount, count_spaces,
        count_spaces, List.count_cons_self, List.length_cons, ← ih]
      omega

/-- No list of servers is added as a whole: the last server is never a seed. -/
theorem not_seedsAdded {servers : List ListedServer} {text : List UInt8}
    (h : ServerListText servers text) : ¬ SeedsAdded servers text := by
  intro hadded
  have hle := length_seedLoop_le hadded
  have hcount := h.count_comma
  have hend : (text ++ [nul]).count comma = text.count comma := by
    rw [List.count_append, List.count_singleton]
    rfl
  rw [List.drop_zero, hend, List.length_map] at hle
  omega

/-- A server that is given without a port. -/
def portlessServer : ListedServer :=
  ⟨ascii "localhost", none, by decide, by decide +kernel, by decide⟩

theorem not_seedsAdded_portless : ¬ SeedsAdded [portlessServer] (ascii "localhost") :=
  not_seedsAdded (.last (s := portlessServer) 0 0 rfl)

/-- The two servers that `server.conf` lists. -/
def firstServer : ListedServer :=
  ⟨ascii "127.0.0.1", some 27017, by decide, by decide +kernel, by decide⟩

def secondServer : ListedServer :=
  ⟨ascii "example", some 27017, by decide, by decide +kernel, by decide⟩

theorem listedServers_text :
    ServerListText [firstServer, secondServer] (ascii "127.0.0.1:27017, example:27017") := by
  have hfirst : firstServer.Text (ascii "127.0.0.1:27017") :=
    ⟨ascii "27017", by decide +kernel⟩
  have hsecond : secondServer.Text (ascii "example:27017") := ⟨ascii "27017", by decide +kernel⟩
  exact .cons 0 0 hfirst (.last 1 0 hsecond)

/-- The second server is missing. -/
theorem not_seedsAdded_twoServers :
    ServerListText [firstServer, secondServer] (ascii "127.0.0.1:27017, example:27017") ∧
      ¬ SeedsAdded [firstServer, secondServer] (ascii "127.0.0.1:27017, example:27017") := by
  refine ⟨listedServers_text, fun hadded => ?_⟩
  have hrun : dbInit (ascii "127.0.0.1:27017, example:27017") =
      some [⟨ascii "127.0.0.1", 27017⟩] := by decide +kernel
  exact absurd (congrArg (Option.map List.length) (hadded.symm.trans hrun)) (by decide)

/-- Without a port in front of a comma the number is read from a null pointer. -/
example : dbInit (ascii "a,b") = none := by decide

end OpenTube
