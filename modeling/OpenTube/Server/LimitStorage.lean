import OpenTube.Server.Penalty

/-!
# The limit on connections over a restart

`frag_pool_save` writes the blocks in use of a pool to a file, one behind the other,
and `frag_pool_load` allocates a block in a new pool for each of them. The places are
not the same as before: the holes of the pool are gone, and later entries go to other
places. What `limit_requests` decides depends on less than the places. Only the entries
of the address it is asked about count, in their order, and `limitEntries` is the
function as one of these entries; the loop of `event_iter` drops entries of each address
without looking at the others. Two pools that agree on the entries of each address
therefore decide alike for all times.
-/

namespace OpenTube

open List

/-! ## The file -/

/-- `frag_pool_save`: what is written to the file. -/
def fragPoolSave (p : FragPool (List UInt8)) : List UInt8 := p.live.flatten

/-- The loop of `frag_pool_load`: `n` blocks are read to newly allocated elements. -/
def loadLoop (size : Nat) :
    Nat → List UInt8 → FragPool (List UInt8) → Option (FragPool (List UInt8))
  | 0, _, p => some p
  | n + 1, file, p =>
      if file.length < size then none
      else loadLoop size n (file.drop size) (p.alloc (file.take size))

/-- `frag_pool_load`, given the file. -/
def fragPoolLoad (size resLen : Nat) (file : List UInt8) : Option (FragPool (List UInt8)) :=
  if file.length % size ≠ 0 then none
  else loadLoop size (file.length / size) file (.create resLen)

/-- An allocation in a pool whose free places are all behind those in use. -/
theorem alloc_packed {α : Type*} (r k : Nat) (xs : List α) (x : α) :
    FragPool.alloc ⟨r, xs.map some ++ replicate k none⟩ x =
      ⟨r, (xs ++ [x]).map some ++ replicate (k - 1) none⟩ := by
  have hplace : FragPool.place x (xs.map some ++ replicate k none) =
      (xs ++ [x]).map some ++ replicate (k - 1) none := by
    induction xs with
    | nil =>
        cases k with
        | zero => rfl
        | succ k => rfl
    | cons y xs ih => simpa [FragPool.place] using ih
  rw [FragPool.alloc, hplace]

/-- The blocks of a file end up in a pool in their order. -/
theorem loadLoop_flatten {size : Nat} (r k : Nat) {bs : List (List UInt8)}
    (hbs : ∀ b ∈ bs, b.length = size) (xs : List (List UInt8)) :
    loadLoop size bs.length bs.flatten ⟨r, xs.map some ++ replicate k none⟩ =
      some ⟨r, (xs ++ bs).map some ++ replicate (k - bs.length) none⟩ := by
  induction bs generalizing xs k with
  | nil => simp [loadLoop]
  | cons b bs ih =>
      have hb := hbs b mem_cons_self
      have hrest := ih (k - 1) (fun c hc => hbs c (mem_cons_of_mem b hc)) (xs ++ [b])
      have hk : k - 1 - bs.length = k - (bs.length + 1) := by omega
      rw [length_cons, flatten_cons, loadLoop, if_neg (by rw [length_append]; omega),
        take_left' hb, drop_left' hb, alloc_packed, hrest, hk, append_assoc, singleton_append]

theorem length_flatten_of_length {size : Nat} {bs : List (List UInt8)}
    (hbs : ∀ b ∈ bs, b.length = size) : bs.flatten.length = bs.length * size := by
  induction bs with
  | nil => simp
  | cons b bs ih =>
      rw [flatten_cons, length_append, hbs b mem_cons_self,
        ih fun c hc => hbs c (mem_cons_of_mem b hc), length_cons, Nat.succ_mul, Nat.add_comm]

/-- A pool that was saved is loaded with the same blocks in use, in their order. -/
theorem fragPoolLoad_fragPoolSave {size : Nat} (hsize : 0 < size) {p : FragPool (List UInt8)}
    (hp : ∀ b ∈ p.live, b.length = size) (resLen : Nat) :
    ∃ q, fragPoolLoad size resLen (fragPoolSave p) = some q ∧ q.live = p.live := by
  have hlen := length_flatten_of_length hp
  refine ⟨⟨resLen, p.live.map some ++ replicate (resLen - p.live.length) none⟩, ?_, ?_⟩
  · rw [fragPoolLoad, fragPoolSave, hlen, Nat.mul_mod_left, Nat.mul_div_cancel _ hsize,
      if_neg (by simp)]
    exact loadLoop_flatten resLen resLen hp []
  · rw [FragPool.live, filterMap_append, filterMap_map]
    simp

/-! ## The entries of an address -/

/-- The entries of an address in the order of their places. -/
def FragPool.entries (p : FragPool LimitReq) (addr : List UInt8) : List LimitReq :=
  p.live.filter fun cli => cli.addr == addr

/-- `limit_requests` as a function of the entries of the address: the first one
decides. -/
def limitEntries (c : LimitConfig) (addr : List UInt8) (curtime : Int) :
    List LimitReq → Bool × List LimitReq
  | [] => (false, [⟨addr, curtime, 0, 1⟩])
  | cli :: rest =>
      if c.limitRate < cli.req then (true, cli :: rest)
      else if curtime - cli.time ≤ 1 then
        let req := uint (cli.req + 1)
        if c.limitRate < req then
          (true, { cli with req := req, dtime := curtime + c.limitDelay } :: rest)
        else (false, { cli with req := req } :: rest)
      else (false, rest)

/-- The time of the penalty of an entry is over. -/
def LimitReq.Over (curtime : Int) (cli : LimitReq) : Prop := cli.dtime ≠ 0 ∧ cli.dtime < curtime

instance (curtime : Int) (cli : LimitReq) : Decidable (cli.Over curtime) :=
  inferInstanceAs (Decidable (_ ∧ _))

variable {c : LimitConfig} {p : FragPool LimitReq} {addr : List UInt8} {curtime : Int}

/-- The entries in use around a place. -/
theorem live_eq_of_getElem? {α : Type*} {p : FragPool α} {i : Nat} {x : α}
    (hi : p.e[i]? = some (some x)) :
    p.live = (p.e.take i).filterMap id ++ x :: (p.e.drop (i + 1)).filterMap id := by
  obtain ⟨hlt, hx⟩ := List.getElem?_eq_some_iff.1 hi
  have hsplit : p.e = p.e.take i ++ some x :: p.e.drop (i + 1) := by
    rw [← hx, getElem_cons_drop, take_append_drop]
  conv_lhs => rw [FragPool.live, hsplit]
  rw [filterMap_append, filterMap_cons]
  rfl

theorem live_set_of_getElem? {α : Type*} {p : FragPool α} {i : Nat} {x : α}
    (hi : p.e[i]? = some (some x)) (y : α) :
    FragPool.live { p with e := p.e.set i (some y) } =
      (p.e.take i).filterMap id ++ y :: (p.e.drop (i + 1)).filterMap id := by
  have hlt := (List.getElem?_eq_some_iff.1 hi).1
  simp only [FragPool.live]
  rw [set_eq_take_append_cons_drop, if_pos hlt, filterMap_append, filterMap_cons]
  rfl

/-- Freeing an entry takes it out of the order. -/
theorem live_freeAlt_eq {α : Type*} {p : FragPool α} {i : Nat} {x : α}
    (hi : p.e[i]? = some (some x)) :
    (p.freeAlt i).live = (p.e.take i).filterMap id ++ (p.e.drop (i + 1)).filterMap id := by
  have hsplit : (p.freeAlt i).e = (p.freeAlt i).e.take (i + 1) ++ (p.freeAlt i).e.drop (i + 1) :=
    (take_append_drop _ _).symm
  rw [FragPool.live, hsplit, filterMap_append, FragPool.take_freeAlt hi, FragPool.drop_freeAlt hi]

/-- In front of the entry that is found is none of its address. -/
theorem clientAt_front {i : Nat} {cli : LimitReq} (h : clientAt p addr = some (i, cli)) :
    ∀ k ∈ (p.e.take i).filterMap id, k.addr ≠ addr := by
  intro k hk haddr
  obtain ⟨j, hj, hcli⟩ := Option.bind_eq_some_iff.1 h
  obtain ⟨cli', -, heq⟩ := Option.map_eq_some_iff.1 hcli
  obtain ⟨rfl, rfl⟩ := Prod.mk.inj heq
  obtain ⟨hlt, -, hbefore⟩ := findIdx?_eq_some_iff_getElem.1 hj
  obtain ⟨place, hplace, rfl⟩ := mem_filterMap.1 hk
  obtain ⟨m, hm, hget⟩ := List.mem_iff_getElem.1 hplace
  rw [length_take] at hm
  refine hbefore m (by omega) ?_
  rw [getElem_take] at hget
  rw [hget]
  simp [isClient, haddr]

/-- The entries of the address are the one that is found and those behind it. -/
theorem entries_of_clientAt {i : Nat} {cli : LimitReq} (h : clientAt p addr = some (i, cli)) :
    p.entries addr =
      cli :: ((p.e.drop (i + 1)).filterMap id).filter fun cli => cli.addr == addr := by
  obtain ⟨hget, haddr⟩ := clientAt_some h
  have hfront : ((p.e.take i).filterMap id).filter (fun cli => cli.addr == addr) = [] :=
    filter_eq_nil_iff.2 fun k hk => by simpa using clientAt_front h k hk
  rw [FragPool.entries, live_eq_of_getElem? hget, filter_append, hfront, nil_append,
    filter_cons_of_pos (by simp [haddr])]

theorem entries_of_clientAt_none (h : clientAt p addr = none) : p.entries addr = [] :=
  filter_eq_nil_iff.2 fun cli hcli => by simpa using clientAt_none h cli hcli

/-- An allocation puts the new entry somewhere between the others. -/
theorem live_alloc_eq {α : Type*} (p : FragPool α) (x : α) :
    ∃ front back, p.live = front ++ back ∧ (p.alloc x).live = front ++ x :: back := by
  have hplace : ∀ l : List (Option α), ∃ front back, l.filterMap id = front ++ back ∧
      (FragPool.place x l).filterMap id = front ++ x :: back := by
    intro l
    induction l with
    | nil => exact ⟨[], [], rfl, rfl⟩
    | cons y l ih =>
        cases y with
        | none => exact ⟨[], l.filterMap id, rfl, rfl⟩
        | some y =>
            obtain ⟨front, back, hold, hnew⟩ := ih
            refine ⟨y :: front, back, ?_, ?_⟩
            · rw [filterMap_cons, hold]
              rfl
            · rw [FragPool.place, filterMap_cons, hnew]
              rfl
  exact hplace p.e

/-- The first entry of the address is replaced or dropped. -/
theorem entries_replace {q : FragPool LimitReq} {i : Nat} {cli : LimitReq} {rest : List LimitReq}
    (h : clientAt p addr = some (i, cli)) (hrest : p.entries addr = cli :: rest)
    (new : Option LimitReq) (hnew : ∀ k ∈ new, k.addr = addr)
    (hq : q.live = (p.e.take i).filterMap id ++ (new.toList ++ (p.e.drop (i + 1)).filterMap id)) :
    q.entries = Function.update p.entries addr (new.toList ++ rest) := by
  obtain ⟨hget, haddr⟩ := clientAt_some h
  rw [entries_of_clientAt h] at hrest
  obtain ⟨-, rfl⟩ := List.cons_eq_cons.1 hrest
  funext a
  by_cases ha : a = addr
  · subst ha
    have hfront : ((p.e.take i).filterMap id).filter (fun cli => cli.addr == a) = [] :=
      filter_eq_nil_iff.2 fun k hk => by simpa using clientAt_front h k hk
    have hself : new.toList.filter (fun cli => cli.addr == a) = new.toList :=
      filter_eq_self.2 fun k hk => by simpa using hnew k (Option.mem_toList.1 hk)
    rw [Function.update_self, FragPool.entries, hq, filter_append, filter_append, hfront, hself,
      nil_append]
  · have hother : new.toList.filter (fun cli => cli.addr == a) = [] :=
      filter_eq_nil_iff.2 fun k hk => by
        simpa [hnew k (Option.mem_toList.1 hk)] using Ne.symm ha
    have hcli : ¬ (cli.addr == a) = true := by simpa [haddr] using Ne.symm ha
    rw [Function.update_of_ne ha, FragPool.entries, FragPool.entries, hq, live_eq_of_getElem? hget,
      filter_append, filter_append, filter_append, filter_cons, if_neg hcli, hother, nil_append]

/-- A new entry of an address that had none. -/
theorem entries_alloc {x : LimitReq} (h : p.entries x.addr = []) :
    (p.alloc x).entries = Function.update p.entries x.addr [x] := by
  obtain ⟨front, back, hold, hnew⟩ := live_alloc_eq p x
  rw [FragPool.entries, hold, filter_append, append_eq_nil_iff] at h
  funext a
  by_cases ha : a = x.addr
  · subst ha
    rw [Function.update_self, FragPool.entries, hnew, filter_append,
      filter_cons, if_pos (beq_self_eq_true _), h.1, h.2, nil_append]
  · have hx : ¬ (x.addr == a) = true := by simpa using Ne.symm ha
    rw [Function.update_of_ne ha, FragPool.entries, FragPool.entries, hnew, hold, filter_append,
      filter_append, filter_cons, if_neg hx]

/-- `limit_requests` decides by the entries of the address and leaves those of every
other one alone. -/
theorem limitRequests_entries (c : LimitConfig) (p : FragPool LimitReq) (addr : List UInt8)
    (curtime : Int) :
    (limitRequests c p addr curtime).1 = (limitEntries c addr curtime (p.entries addr)).1 ∧
      (limitRequests c p addr curtime).2.entries =
        Function.update p.entries addr (limitEntries c addr curtime (p.entries addr)).2 := by
  cases hfind : clientAt p addr with
  | none =>
      have hnil := entries_of_clientAt_none hfind
      rw [hnil]
      simp only [limitRequests, hfind, limitEntries, true_and]
      exact @entries_alloc p ⟨addr, curtime, 0, 1⟩ hnil
  | some e =>
      obtain ⟨i, cli⟩ := e
      obtain ⟨hget, haddr⟩ := clientAt_some hfind
      obtain ⟨rest, hrest⟩ : ∃ rest, p.entries addr = cli :: rest := ⟨_, entries_of_clientAt hfind⟩
      have hreplaced : ∀ k : LimitReq, k.addr = addr →
          FragPool.entries { p with e := p.e.set i (some k) } =
            Function.update p.entries addr (k :: rest) := fun k hk =>
        entries_replace hfind hrest (some k) (by simpa using hk) (live_set_of_getElem? hget k)
      have hdropped : (p.freeAlt i).entries = Function.update p.entries addr rest :=
        entries_replace hfind hrest none (by simp) (live_freeAlt_eq hget)
      rw [hrest]
      simp only [limitRequests, hfind, limitEntries]
      by_cases hblocked : c.limitRate < cli.req
      · simp only [if_pos hblocked, true_and]
        rw [← hrest, Function.update_eq_self]
      · by_cases hopen : curtime - cli.time ≤ 1
        · by_cases hover : c.limitRate < uint (cli.req + 1)
          · simp only [if_neg hblocked, if_pos hopen, if_pos hover, true_and]
            exact hreplaced _ haddr
          · simp only [if_neg hblocked, if_pos hopen, if_neg hover, true_and]
            exact hreplaced _ haddr
        · simp only [if_neg hblocked, if_neg hopen, true_and]
          exact hdropped

/-- The loop of `event_iter` after `n` places: of the entries in front those remain
whose time is not over, and the places behind are as they were. -/
theorem foldl_releaseClient (p : FragPool LimitReq) (curtime : Int) (n : Nat) :
    (((List.range n).foldl (releaseClient curtime) p).e.take n).filterMap id =
        ((p.e.take n).filterMap id).filter (fun cli => ¬ cli.Over curtime) ∧
      ((List.range n).foldl (releaseClient curtime) p).e.drop n = p.e.drop n := by
  induction n with
  | zero => exact ⟨rfl, rfl⟩
  | succ n ih =>
      obtain ⟨htake, hdrop⟩ := ih
      rw [range_succ, foldl_append, foldl_cons, foldl_nil]
      generalize (List.range n).foldl (releaseClient curtime) p = q at htake hdrop ⊢
      have hget : q.e[n]? = p.e[n]? := by
        rw [← head?_drop, ← head?_drop, hdrop]
      have hbehind : q.e.drop (n + 1) = p.e.drop (n + 1) := by
        rw [← drop_drop, ← drop_drop, hdrop]
      have hqtake : q.e.take (n + 1) = q.e.take n ++ (p.e[n]?).toList := by
        rw [take_add_one, hget]
      have hptake : p.e.take (n + 1) = p.e.take n ++ (p.e[n]?).toList := take_add_one
      rw [releaseClient]
      split
      · rename_i cli hcli
        rw [hget] at hcli
        have hone : ((some (some cli)).toList.filterMap id) = [cli] := rfl
        split_ifs with hover
        · have hgone : ¬ decide (¬ cli.Over curtime) = true :=
            fun hstays => of_decide_eq_true hstays hover
          refine ⟨?_, ?_⟩
          · rw [FragPool.take_freeAlt (hget.trans hcli), htake, hptake, filterMap_append,
              filter_append, hcli, hone, filter_cons, if_neg hgone, filter_nil, append_nil]
          · rw [FragPool.drop_freeAlt (hget.trans hcli), hbehind]
        · have hstays : decide (¬ cli.Over curtime) = true := decide_eq_true hover
          refine ⟨?_, hbehind⟩
          rw [hqtake, hptake, filterMap_append, filterMap_append, filter_append, htake, hcli, hone,
            filter_cons, if_pos hstays, filter_nil]
      · rename_i hnone
        refine ⟨?_, hbehind⟩
        have hplace : ((p.e[n]?).toList.filterMap id) = [] := by
          rw [hget] at hnone
          cases hp : p.e[n]? with
          | none => rfl
          | some place =>
              cases place with
              | none => rfl
              | some cli => exact absurd hp (hnone cli)
        rw [hqtake, hptake, filterMap_append, filterMap_append, filter_append, htake, hplace]
        rfl

/-- The loop of `event_iter` drops the entries whose time is over. -/
theorem live_releaseClients (p : FragPool LimitReq) (curtime : Int) :
    (releaseClients p curtime).live = p.live.filter fun cli => ¬ cli.Over curtime := by
  obtain ⟨htake, hdrop⟩ := foldl_releaseClient p curtime p.e.length
  rw [drop_length, drop_eq_nil_iff] at hdrop
  rw [take_length, take_of_length_le hdrop] at htake
  exact htake

theorem releaseClients_entries (p : FragPool LimitReq) (curtime : Int) (addr : List UInt8) :
    (releaseClients p curtime).entries addr =
      (p.entries addr).filter fun cli => ¬ cli.Over curtime := by
  rw [FragPool.entries, live_releaseClients, filter_comm]
  rfl

/-! ## Decisions -/

/-- What the connections are answered in a sequence of steps. -/
def decisions (c : LimitConfig) :
    FragPool LimitReq → Int → List LimitStep → List Bool
  | _, _, [] => []
  | p, now, .connect addr :: steps =>
      (limitRequests c p addr now).1 :: decisions c (limitRequests c p addr now).2 now steps
  | p, now, .eventIter :: steps => decisions c (releaseClients p now) now steps
  | p, _, .tick time :: steps => decisions c p time steps

/-- The same with the entries of each address only. -/
def entryDecisions (c : LimitConfig) :
    (List UInt8 → List LimitReq) → Int → List LimitStep → List Bool
  | _, _, [] => []
  | f, now, .connect addr :: steps =>
      (limitEntries c addr now (f addr)).1 ::
        entryDecisions c (Function.update f addr (limitEntries c addr now (f addr)).2) now steps
  | f, now, .eventIter :: steps =>
      entryDecisions c (fun addr => (f addr).filter fun cli => ¬ cli.Over now) now steps
  | f, _, .tick time :: steps => entryDecisions c f time steps

/-- The decisions depend on nothing but the entries of each address. -/
theorem decisions_eq (c : LimitConfig) (p : FragPool LimitReq) (now : Int)
    (steps : List LimitStep) : decisions c p now steps = entryDecisions c p.entries now steps := by
  induction steps generalizing p now with
  | nil => rfl
  | cons step steps ih =>
      cases step with
      | connect addr =>
          obtain ⟨hres, hentries⟩ := limitRequests_entries c p addr now
          rw [decisions, entryDecisions, ih, hres, hentries]
      | eventIter =>
          have hentries : (releaseClients p now).entries =
              fun addr => (p.entries addr).filter fun cli => ¬ cli.Over now :=
            funext (releaseClients_entries p now)
          rw [decisions, entryDecisions, ih, hentries]
      | tick time => rw [decisions, entryDecisions, ih]

/-- Pools with the same entries in use, in the same order, decide alike. -/
theorem decisions_congr {p q : FragPool LimitReq} (h : p.live = q.live) (c : LimitConfig)
    (now : Int) (steps : List LimitStep) : decisions c p now steps = decisions c q now steps := by
  have hentries : p.entries = q.entries := by
    funext addr
    rw [FragPool.entries, FragPool.entries, h]
  rw [decisions_eq, decisions_eq, hentries]

/-! ## The restart -/

/-- The pool with its blocks read as entries. -/
def FragPool.map {α β : Type*} (f : α → β) (p : FragPool α) : FragPool β :=
  ⟨p.reservedLen, p.e.map (Option.map f)⟩

theorem live_map {α β : Type*} (f : α → β) (p : FragPool α) : (p.map f).live = p.live.map f := by
  rw [FragPool.live, FragPool.map, FragPool.live, filterMap_map, map_filterMap]
  rfl

/-- A pool of blocks that is saved and loaded again has the same blocks in use in the
same order, and read as entries of clients it decides on all later connections as it
would have done. The pool may be any one whose blocks have the size of its nodes. -/
theorem fragPoolLoad_decisions {size : Nat} (hsize : 0 < size) {p : FragPool (List UInt8)}
    (hp : ∀ b ∈ p.live, b.length = size) :
    ∃ q, fragPoolLoad size p.reservedLen (fragPoolSave p) = some q ∧ q.live = p.live ∧
      ∀ (view : List UInt8 → LimitReq) (c : LimitConfig) (now : Int) (steps : List LimitStep),
        decisions c (q.map view) now steps = decisions c (p.map view) now steps := by
  obtain ⟨q, hload, hlive⟩ := fragPoolLoad_fragPoolSave hsize hp p.reservedLen
  refine ⟨q, hload, hlive, fun view c now steps => decisions_congr ?_ c now steps⟩
  rw [live_map, live_map, hlive]

/-- A pool with a hole, whose blocks have the size of a `limit_req_t`. -/
def poolWithHole : FragPool (List UInt8) :=
  ⟨4, [some (replicate 40 1), none, some (replicate 40 2), none]⟩

theorem fragPoolLoad_decisions_hole :
    ∃ q, fragPoolLoad 40 4 (fragPoolSave poolWithHole) = some q ∧ q.live = poolWithHole.live ∧
      ∀ (view : List UInt8 → LimitReq) (c : LimitConfig) (now : Int) (steps : List LimitStep),
        decisions c (q.map view) now steps = decisions c (poolWithHole.map view) now steps :=
  @fragPoolLoad_decisions 40 (by decide) poolWithHole (by decide)

end OpenTube
