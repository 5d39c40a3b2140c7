import OpenTube.Lib.Run
import Mathlib.Data.List.TakeDrop

/-!
# The queue of the worker threads

The event loop hands a request to the workers by pushing it to `wr_queue` and
posting the semaphore; a worker waits for the semaphore and fetches an entry;
`http_terminate` pushes a `NULL` for each worker. Each push and each fetch is
guarded by a lock, so a run is any interleaving of these steps.

`pqueue_t` is an array that grows and shrinks at its end: a fetch takes the entry
that was pushed last. Beyond the reserved length it also gives the last place back
to the allocator before it reads it. What the queue should do is said by
`fifoStep`, a queue in the usual sense, which accepts or rejects the sequence of
pushes and fetches of a run.
-/

namespace OpenTube

/-! ## The array -/

/-- `pqueue_t`. `data` holds the entries that were written to the block. -/
structure PQueue (α : Type*) where
  curLen : Nat
  reservedLen : Nat
  data : List α
deriving DecidableEq, Repr

section

variable {α : Type*}

/-- `pqueue_create`. -/
def PQueue.create (resLen : Nat) : PQueue α := ⟨0, resLen, []⟩

/-- The block after `allocator_realloc` to `n` entries, which is only called above
the reserved length. -/
def PQueue.resized (p : PQueue α) (n : Nat) : List α :=
  if p.reservedLen < n then p.data.take n else p.data

/-- `pqueue_push`. -/
def PQueue.push (p : PQueue α) (x : α) : PQueue α :=
  let data := p.resized (p.curLen + 1)
  { p with
    curLen := p.curLen + 1
    data := data.take p.curLen ++ x :: data.drop (p.curLen + 1) }

/-- `pqueue_fetch`: what is read, and the queue afterwards. There is nothing to
read when the length underflows, or behind the block. -/
def PQueue.fetch (p : PQueue α) : Option α × PQueue α :=
  match p.curLen with
  | 0 => (none, p)
  | n + 1 => ((p.resized n)[n]?, { p with curLen := n, data := p.resized n })

/-- The entries of the queue, in the order they were pushed. -/
def PQueue.entries (p : PQueue α) : List α := p.data.take p.curLen

theorem PQueue.take_resized (p : PQueue α) {n m : Nat} (h : m ≤ n) :
    (p.resized n).take m = p.data.take m := by
  unfold PQueue.resized
  split_ifs
  · rw [List.take_take, Nat.min_eq_left h]
  · rfl

/-- A push appends an entry. -/
theorem PQueue.entries_push {p : PQueue α} (h : p.curLen ≤ p.data.length) (x : α) :
    (p.push x).entries = p.entries ++ [x] ∧ (p.push x).curLen ≤ (p.push x).data.length := by
  have htake : (p.resized (p.curLen + 1)).take p.curLen = p.entries :=
    p.take_resized (Nat.le_succ _)
  have hlen : p.entries.length = p.curLen := by
    rw [PQueue.entries, List.length_take, Nat.min_eq_left h]
  constructor
  · simp only [PQueue.push, htake]
    rw [PQueue.entries]
    simp [List.take_append, hlen, List.take_of_length_le]
  · simp only [PQueue.push, htake, List.length_append, List.length_cons, hlen]
    omega

/-- A fetch takes the last entry, if the block is not shrunk. -/
theorem PQueue.fetch_of_le {p : PQueue α} (h : p.curLen ≤ p.data.length) (hpos : 0 < p.curLen)
    (hle : p.curLen ≤ p.reservedLen + 1) :
    ∃ x, p.fetch = (some x, { p with curLen := p.curLen - 1 }) ∧
      p.entries = p.data.take (p.curLen - 1) ++ [x] := by
  obtain ⟨n, hn⟩ : ∃ n, p.curLen = n + 1 := ⟨p.curLen - 1, by omega⟩
  have hlt : n < p.data.length := by omega
  refine ⟨p.data[n], ?_, ?_⟩
  · have hsame : p.resized n = p.data := by
      rw [PQueue.resized, if_neg (by omega)]
    simp [PQueue.fetch, hn, hsame, hlt]
  · rw [PQueue.entries, hn, Nat.add_sub_cancel, List.take_add_one, List.getElem?_eq_getElem hlt]
    rfl

end

/-! ## The threads -/

/-- A request in the queue. Whether it was pushed before `http_terminate` is
recorded for the specification only; no step looks at it. -/
structure WorkItem (ρ : Type*) where
  request : ρ
  early : Bool
deriving DecidableEq, Repr

/-- Where a worker is: before `sem_wait`, between `sem_wait` and the fetch, at a
request, or at its end. -/
inductive WorkerPhase
  | idle
  | ready
  | busy
  | ended
deriving DecidableEq, Repr

/-- What happens to the queue: a request is pushed, or a fetch returns. The outer
`none` is a fetch that reads outside the queue, the inner one a `NULL`. -/
inductive QueueEvent (ρ : Type*)
  | pushed (j : WorkItem ρ)
  | fetched (res : Option (Option (WorkItem ρ)))
deriving DecidableEq, Repr

/-- The queue, the semaphore and the threads. `posting` and `postingNull` say that
the event loop and `http_terminate` have pushed an entry and not posted it yet;
`nulls` is the number of `NULL` entries `http_terminate` has still to push, once
it is called. -/
structure WorkState (ρ : Type*) where
  queue : PQueue (Option (WorkItem ρ))
  sem : Nat
  posting : Bool
  nulls : Option Nat
  postingNull : Bool
  workers : List WorkerPhase
  log : List (QueueEvent ρ)
deriving DecidableEq, Repr

/-- The steps of the threads; a worker is given by its number. -/
inductive WorkStep (ρ : Type*)
  | push (r : ρ)
  | post
  | terminate
  | pushNull
  | postNull
  | wait (w : Nat)
  | fetch (w : Nat)
  | handled (w : Nat)
deriving DecidableEq, Repr

variable {ρ : Type*}

/-- The state `http_prepare_once` sets up. -/
def WorkState.start (reserved workerThreads : Nat) : WorkState ρ :=
  ⟨.create reserved, 0, false, none, false, List.replicate workerThreads .idle, []⟩

/-- What a worker does with the entry it has fetched. -/
def WorkerPhase.take : Option (Option (WorkItem ρ)) → WorkerPhase
  | some none => .ended
  | _ => .busy

/-- One step, where it is possible. -/
def WorkState.step (s : WorkState ρ) : WorkStep ρ → Option (WorkState ρ)
  | .push r =>
      if s.posting then none
      else
        let j : WorkItem ρ := ⟨r, s.nulls.isNone⟩
        some { s with queue := s.queue.push (some j), posting := true, log := s.log ++ [.pushed j] }
  | .post => if s.posting then some { s with posting := false, sem := s.sem + 1 } else none
  | .terminate =>
      if s.nulls.isNone then some { s with nulls := some s.workers.length } else none
  | .pushNull =>
      match s.nulls, s.postingNull with
      | some (n + 1), false =>
          some { s with queue := s.queue.push none, nulls := some n, postingNull := true }
      | _, _ => none
  | .postNull =>
      if s.postingNull then some { s with postingNull := false, sem := s.sem + 1 } else none
  | .wait w =>
      if s.workers[w]? = some .idle ∧ 0 < s.sem then
        some { s with sem := s.sem - 1, workers := s.workers.set w .ready }
      else none
  | .fetch w =>
      if s.workers[w]? = some .ready then
        some { s with
          queue := s.queue.fetch.2
          workers := s.workers.set w (WorkerPhase.take s.queue.fetch.1)
          log := s.log ++ [.fetched s.queue.fetch.1] }
      else none
  | .handled w =>
      if s.workers[w]? = some .busy then some { s with workers := s.workers.set w .idle } else none

/-- The requests in the queue, in the order they were pushed. -/
def PQueue.requests (p : PQueue (Option (WorkItem ρ))) : List (WorkItem ρ) := p.entries.filterMap id

theorem requests_push {p : PQueue (Option (WorkItem ρ))} (h : p.curLen ≤ p.data.length)
    (x : Option (WorkItem ρ)) : (p.push x).requests = p.requests ++ x.toList := by
  rw [PQueue.requests, (PQueue.entries_push h x).1, List.filterMap_append, PQueue.requests]
  cases x <;> rfl

/-! ## The specification -/

variable [DecidableEq ρ]

/-- A queue that gives its requests out in the order they came in, and a `NULL`
only when it has no request from before `http_terminate`. -/
def fifoStep (q : List (WorkItem ρ)) : QueueEvent ρ → Option (List (WorkItem ρ))
  | .pushed j => some (q ++ [j])
  | .fetched (some (some j)) =>
      match q with
      | j' :: q' => if j = j' then some q' else none
      | [] => none
  | .fetched (some none) => if ∀ j ∈ q, j.early = false then some q else none
  | .fetched none => none

/-- The pushes and fetches of a run are those of such a queue: requests leave in
the order they were pushed and each once, no fetch reads outside the queue, and no
worker is ended too early. -/
def Orderly (log : List (QueueEvent ρ)) : Prop :=
  (Machine.run fifoStep [] log).isSome = true

/-- The entry a fetch would take is the only request in the queue, or a `NULL` with
no request from before `http_terminate` below it. -/
def PQueue.LastInOrder (p : PQueue (Option (WorkItem ρ))) : Option (Option (WorkItem ρ)) → Prop
  | some (some j) => p.requests = [j]
  | some none => ∀ j ∈ p.requests, j.early = false
  | none => True

instance (p : PQueue (Option (WorkItem ρ))) : ∀ e, Decidable (p.LastInOrder e)
  | some (some j) => inferInstanceAs (Decidable (p.requests = [j]))
  | some none => inferInstanceAs (Decidable (∀ j ∈ p.requests, j.early = false))
  | none => inferInstanceAs (Decidable True)

/-- When a fetch is in order: the queue has at most one entry above its reserved
length, and its last entry is in order. -/
def WorkState.FetchesInOrder (s : WorkState ρ) : WorkStep ρ → Prop
  | .fetch _ => s.queue.curLen ≤ s.queue.reservedLen + 1 ∧
      s.queue.LastInOrder s.queue.entries.getLast?
  | _ => True

instance (s : WorkState ρ) : ∀ l, Decidable (s.FetchesInOrder l)
  | .fetch _ => inferInstanceAs (Decidable (_ ∧ _))
  | .push _ | .post | .terminate | .pushNull | .postNull | .wait _ | .handled _ =>
      inferInstanceAs (Decidable True)

/-! ## Runs -/

/-- The semaphore, the workers that have passed it and the posts to come account
for the length of the queue, and the specification has the same requests. -/
structure WorkState.Inv (s : WorkState ρ) : Prop where
  length : s.queue.curLen ≤ s.queue.data.length
  counted : s.queue.curLen =
    s.sem + s.workers.count .ready + s.posting.toNat + s.postingNull.toNat
  pending : Machine.run fifoStep [] s.log = some s.queue.requests

theorem inv_start (reserved workerThreads : Nat) :
    (WorkState.start reserved workerThreads : WorkState ρ).Inv where
  length := Nat.zero_le _
  counted := by simp [WorkState.start, PQueue.create, List.count_replicate]
  pending := rfl

/-- A worker that changes its place. -/
theorem count_ready_set {l : List WorkerPhase} {w : Nat} {a : WorkerPhase} (h : l[w]? = some a)
    (b : WorkerPhase) :
    (l.set w b).count .ready + (if a = .ready then 1 else 0) =
      l.count .ready + if b = .ready then 1 else 0 := by
  obtain ⟨hw, rfl⟩ := List.getElem?_eq_some_iff.1 h
  have hpos : (if l[w] = .ready then 1 else 0) ≤ l.count .ready := by
    split_ifs with heq
    · exact List.count_pos_iff.2 (heq ▸ List.getElem_mem hw)
    · exact Nat.zero_le _
  rw [List.count_set hw]
  simp only [beq_iff_eq]
  omega

theorem WorkState.Inv.push {s t : WorkState ρ} (h : s.Inv) {r : ρ}
    (hstep : s.step (.push r) = some t) : t.Inv := by
  rw [WorkState.step] at hstep
  split at hstep
  · simp at hstep
  · rename_i hposting
    obtain rfl := Option.some.inj hstep
    refine ⟨(PQueue.entries_push h.length _).2, ?_, ?_⟩
    · have hcounted := h.counted
      simp only [PQueue.push, hposting, Bool.toNat_false, Bool.toNat_true] at hcounted ⊢
      omega
    · rw [Machine.run_concat, h.pending, Option.bind_some, requests_push h.length]
      rfl

theorem WorkState.Inv.pushNull {s t : WorkState ρ} (h : s.Inv) (hstep : s.step .pushNull = some t) :
    t.Inv := by
  rw [WorkState.step] at hstep
  split at hstep
  · rename_i n hnulls hposting
    obtain rfl := Option.some.inj hstep
    refine ⟨(PQueue.entries_push h.length _).2, ?_, ?_⟩
    · have hcounted := h.counted
      simp only [PQueue.push, hposting, Bool.toNat_false, Bool.toNat_true] at hcounted ⊢
      omega
    · rw [h.pending, requests_push h.length, Option.toList_none, List.append_nil]
  · simp at hstep

/-- A worker that was let through finds an entry. -/
theorem WorkState.Inv.curLen_pos {s : WorkState ρ} (h : s.Inv) {w : Nat}
    (hready : s.workers[w]? = some .ready) : 0 < s.queue.curLen := by
  have hcount : 0 < s.workers.count .ready :=
    List.count_pos_iff.2 (List.mem_of_getElem? hready)
  have hcounted := h.counted
  omega

theorem WorkState.Inv.fetch {s t : WorkState ρ} (h : s.Inv) {w : Nat}
    (hok : s.FetchesInOrder (.fetch w)) (hstep : s.step (.fetch w) = some t) : t.Inv := by
  rw [WorkState.step] at hstep
  split at hstep
  · rename_i hready
    obtain rfl := Option.some.inj hstep
    obtain ⟨hle, hlast⟩ := hok
    obtain ⟨x, hfetch, hentries⟩ := PQueue.fetch_of_le h.length (h.curLen_pos hready) hle
    have hrequests : s.queue.requests =
        PQueue.requests { s.queue with curLen := s.queue.curLen - 1 } ++ x.toList := by
      rw [PQueue.requests, hentries, List.filterMap_append]
      cases x <;> rfl
    rw [hentries, List.getLast?_concat] at hlast
    have hcount := count_ready_set hready (WorkerPhase.take s.queue.fetch.1)
    have hnot : WorkerPhase.take s.queue.fetch.1 ≠ .ready := by
      unfold WorkerPhase.take
      split <;> simp
    simp only [if_true, if_neg hnot] at hcount
    refine ⟨?_, ?_, ?_⟩
    · have hlength := h.length
      simp only [hfetch]
      omega
    · have hcounted := h.counted
      simp only [hfetch] at hcount ⊢
      omega
    · rw [Machine.run_concat, h.pending, Option.bind_some, hfetch]
      cases x with
      | none =>
          have hnone : ∀ j ∈ s.queue.requests, j.early = false := hlast
          rw [fifoStep, if_pos hnone, hrequests, Option.toList_none, List.append_nil]
      | some j =>
          have hone : s.queue.requests = [j] := hlast
          have hrest : PQueue.requests { s.queue with curLen := s.queue.curLen - 1 } = [] := by
            rw [hone, Option.toList_some] at hrequests
            exact (List.append_eq_singleton_iff.1 hrequests.symm).elim (fun h => h.1)
              fun h => absurd h.2 (by simp)
          rw [hone, hrest, fifoStep, if_pos rfl]
  · simp at hstep

/-- The steps that leave the queue alone. -/
theorem WorkState.Inv.rest {s t : WorkState ρ} (h : s.Inv) (hqueue : t.queue = s.queue)
    (hlog : t.log = s.log)
    (hcount : t.sem + t.workers.count .ready + t.posting.toNat + t.postingNull.toNat =
      s.sem + s.workers.count .ready + s.posting.toNat + s.postingNull.toNat) : t.Inv where
  length := by rw [hqueue]; exact h.length
  counted := by rw [hqueue, h.counted, hcount]
  pending := by rw [hqueue, hlog]; exact h.pending

theorem WorkState.Inv.step {s t : WorkState ρ} {l : WorkStep ρ} (h : s.Inv)
    (hok : s.FetchesInOrder l) (hstep : s.step l = some t) : t.Inv := by
  cases l with
  | push r => exact h.push hstep
  | pushNull => exact h.pushNull hstep
  | fetch w => exact h.fetch hok hstep
  | post =>
      rw [WorkState.step] at hstep
      split at hstep
      · rename_i hposting
        obtain rfl := Option.some.inj hstep
        refine h.rest rfl rfl ?_
        simp only [hposting, Bool.toNat_false, Bool.toNat_true]
        omega
      · simp at hstep
  | postNull =>
      rw [WorkState.step] at hstep
      split at hstep
      · rename_i hposting
        obtain rfl := Option.some.inj hstep
        refine h.rest rfl rfl ?_
        simp only [hposting, Bool.toNat_false, Bool.toNat_true]
        omega
      · simp at hstep
  | terminate =>
      rw [WorkState.step] at hstep
      split at hstep
      · obtain rfl := Option.some.inj hstep
        exact h.rest rfl rfl rfl
      · simp at hstep
  | wait w =>
      rw [WorkState.step] at hstep
      split at hstep
      · rename_i hwait
        obtain rfl := Option.some.inj hstep
        refine h.rest rfl rfl ?_
        have hcount := count_ready_set hwait.1 .ready
        simp only [if_true, reduceCtorEq, if_false] at hcount
        simp only
        omega
      · simp at hstep
  | handled w =>
      rw [WorkState.step] at hstep
      split at hstep
      · rename_i hbusy
        obtain rfl := Option.some.inj hstep
        refine h.rest rfl rfl ?_
        have hcount := count_ready_set hbusy .idle
        simp only [reduceCtorEq, if_false] at hcount
        simp only
        omega
      · simp at hstep

/-- In every run whose fetches are all in order, requests leave the queue in the
order in which they were pushed, each once, and no worker is ended while a request
from before `http_terminate` is waiting. -/
theorem orderly_of_run {reserved workerThreads : Nat} {steps : List (WorkStep ρ)} {s : WorkState ρ}
    (hok : Machine.Meets WorkState.step WorkState.FetchesInOrder
      (WorkState.start reserved workerThreads) steps)
    (hrun : Machine.run WorkState.step (WorkState.start reserved workerThreads) steps = some s) :
    Orderly s.log := by
  have hinv : s.Inv := Machine.run_invariant (fun s l t hs hl ht => hs.step hl ht) steps _ s
    (inv_start reserved workerThreads) hok hrun
  rw [Orderly, hinv.pending]
  rfl

/-- Two workers, two requests that are fetched at once, and the end of the first
worker. -/
def servedAtOnce : List (WorkStep Nat) :=
  [.push 1, .post, .wait 0, .fetch 0, .push 2, .post, .wait 1, .fetch 1, .handled 0, .terminate,
    .pushNull, .postNull, .wait 0, .fetch 0]

theorem orderly_of_run_servedAtOnce :
    Machine.Meets WorkState.step WorkState.FetchesInOrder (WorkState.start 4 2) servedAtOnce ∧
    ∃ s, Machine.run WorkState.step (WorkState.start 4 2) servedAtOnce = some s ∧
      s.log = [.pushed ⟨1, true⟩, .fetched (some (some ⟨1, true⟩)), .pushed ⟨2, true⟩,
        .fetched (some (some ⟨2, true⟩)), .fetched (some none)] ∧ Orderly s.log := by
  have hok : Machine.Meets WorkState.step WorkState.FetchesInOrder (WorkState.start 4 2)
      servedAtOnce := by decide +kernel
  exact ⟨hok, _, rfl, by decide +kernel, orderly_of_run hok rfl⟩

/-- Of two requests that wait, the one that was pushed last leaves first. -/
theorem not_orderly_of_run :
    ∃ s, Machine.run WorkState.step (WorkState.start 4 2)
        [.push 1, .post, .push 2, .post, .wait 0, .fetch 0] = some s ∧
      s.log = [.pushed ⟨1, true⟩, .pushed ⟨2, true⟩, .fetched (some (some ⟨2, true⟩))] ∧
      ¬ Orderly s.log := by
  refine ⟨_, rfl, by decide +kernel, ?_⟩
  unfold Orderly
  decide +kernel

end OpenTube
