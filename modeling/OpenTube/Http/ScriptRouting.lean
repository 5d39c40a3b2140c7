import Mathlib.Data.List.TakeWhile
import OpenTube.Http.PathText

/-!
# Routing to a script

`map_uri(file, matching, uri, ...)` enters each URI in two tables: in
`compiled_scripts` of its thread, which `js_web_callback` searches for the script to
run, and through `web_set_callback` in `uri_map`, which `http_response` searches for the
handler. Every worker thread runs the same initial script, so `uri_map` has the entries
of each of them, between each other and those of the C handlers in any order, and a
request goes to whichever thread is free.

An entry of `compiled_scripts` is made before the URI is looked at. A call that fails
then leaves it behind with what happened to be in the memory, and it takes part in the
search. Besides, the two tables disagree about where a URI with a `NUL` ends.
-/

namespace OpenTube

/-! ## The tables -/

/-- `struct js_compiled_script`. A script is named by the call of `map_uri` that compiled
it. Whether the entry was completed is recorded for the statement only. -/
structure CompiledScript where
  script : Nat
  uri : List UInt8
  fullMatch : Bool
  completed : Bool
deriving DecidableEq, Repr

/-- What an entry that was just allocated holds: the text its URI points to and
`full_match`. -/
structure Uninitialized where
  uri : List UInt8
  fullMatch : Bool
deriving DecidableEq, Repr

/-- An argument of `map_uri` behind the first two: it can not be converted to a string,
or the string can not be encoded, or these are its bytes. -/
inductive UriArg
  | notString
  | notEncodable
  | text (str : List UInt8)
deriving DecidableEq, Repr

/-- A call of `map_uri`: whether the first arguments are accepted and the file compiles,
the second argument, and the URIs. -/
structure MapUriCall where
  compiles : Bool
  matching : Bool
  uris : List UriArg
deriving DecidableEq, Repr

/-- `js_web_callback` as an entry of the table of handlers. -/
def jsWebCallbackFunc : Nat := 0

/-- `web_set_callback`: the URI is a C string. -/
def webSetCallback (func : Nat) (str : List UInt8) (fullMatch : Bool) : UriMap :=
  let uri := str.takeWhile fun c => c != nul
  ⟨uri, func, uri.getLast? ≠ some slash, fullMatch⟩

/-- The loop of `js_function_map_uri` over the URIs, for the call `id`: the table behind
it and what is appended to `uri_map`. The memory of the entry `i` holds `memory i` when
it is allocated. -/
def mapUriLoop (memory : Nat → Uninitialized) (id : Nat) (matching : Bool) :
    List UriArg → List CompiledScript → List CompiledScript × List UriMap
  | [], compiled => (compiled, [])
  | .notString :: _, compiled => (compiled, [])
  | .notEncodable :: _, compiled =>
      let m := memory compiled.length
      (compiled ++ [⟨id, m.uri, m.fullMatch, false⟩], [])
  | .text str :: args, compiled =>
      if str.head? ≠ some slash then
        (compiled ++ [⟨id, str, (memory compiled.length).fullMatch, false⟩], [])
      else
        let r := mapUriLoop memory id matching args (compiled ++ [⟨id, str, matching, true⟩])
        (r.1, webSetCallback jsWebCallbackFunc str matching :: r.2)

/-- `js_function_map_uri`. -/
def jsFunctionMapUri (memory : Nat → Uninitialized) (id : Nat) (call : MapUriCall)
    (compiled : List CompiledScript) : List CompiledScript × List UriMap :=
  if call.compiles then mapUriLoop memory id call.matching call.uris compiled else (compiled, [])

/-- The calls of an initial script, from the number `id` on: the table behind them and
what they append to `uri_map`, each entry with the call that makes it. -/
def runInitScript (memory : Nat → Uninitialized) :
    Nat → List MapUriCall → List CompiledScript → List CompiledScript × List (Nat × UriMap)
  | _, [], compiled => (compiled, [])
  | id, call :: calls, compiled =>
      let r := jsFunctionMapUri memory id call compiled
      let rest := runInitScript memory (id + 1) calls r.1
      (rest.1, r.2.map (fun m => (id, m)) ++ rest.2)

/-- `compiled_scripts` of a thread. -/
def compiledScripts (memory : Nat → Uninitialized) (calls : List MapUriCall) :
    List CompiledScript :=
  (runInitScript memory 0 calls []).1

/-- The comparison of `js_web_callback`. -/
def CompiledScript.serves (cs : CompiledScript) (path : List UInt8) : Bool :=
  if cs.fullMatch then cs.uri.length = path.length ∧ cs.uri = path.take cs.uri.length
  else cs.uri.length ≤ path.length ∧ cs.uri = path.take cs.uri.length

/-- Who made an entry of `uri_map`: a C handler, or a call of the initial script as a
thread ran it. -/
inductive UriSource
  | handler
  | thread (t call : Nat)
deriving DecidableEq, Repr

/-- The entry, if the thread `t` made it, with the call. -/
def UriSource.ofThread (t : Nat) (e : UriMap × UriSource) : Option (Nat × UriMap) :=
  match e.2 with
  | .handler => none
  | .thread t' call => if t' = t then some (call, e.1) else none

/-- Each thread has entered in `uri_map` what the initial script enters, or the first
part of it if it is not done yet, between the entries of the C handlers and of the other
threads. The memory of each thread is its own. -/
def Interleaved (memory : Nat → Nat → Uninitialized) (calls : List MapUriCall)
    (uriMap : List (UriMap × UriSource)) : Prop :=
  ∀ t, uriMap.filterMap (UriSource.ofThread t) <+: (runInitScript (memory t) 0 calls []).2

/-- `http_response` goes through the entry `e`: those in front of it neither take nor
redirect the request. -/
structure DispatchedBy (path : List UInt8) (front : List (UriMap × UriSource)) (e : UriMap) :
    Prop where
  passed : httpRoute path (front.map Prod.fst) = .file
  taken : httpRoute path [e] = .handler e.func

/-- An entry of the call matches the path in its whole length. -/
def HasEntry (compiled : List CompiledScript) (call : Nat) (path : List UInt8) : Prop :=
  ∃ cs ∈ compiled, cs.script = call ∧ cs.serves path = true

/-! ## What a call leaves in the tables -/

variable {memory memory' : Nat → Uninitialized} {id : Nat} {matching : Bool} {args : List UriArg}
  {compiled : List CompiledScript} {calls : List MapUriCall} {path : List UInt8}

/-- What is appended to `uri_map` does not depend on the memory. -/
theorem mapUriLoop_snd (args : List UriArg) (compiled compiled' : List CompiledScript) :
    (mapUriLoop memory id matching args compiled).2 =
      (mapUriLoop memory' id matching args compiled').2 := by
  induction args generalizing compiled compiled' with
  | nil => rfl
  | cons arg args ih =>
      cases arg with
      | notString => rfl
      | notEncodable => rfl
      | text str =>
          rw [mapUriLoop, mapUriLoop]
          by_cases hslash : str.head? ≠ some slash
          · rw [if_pos hslash, if_pos hslash]
          · rw [if_neg hslash, if_neg hslash]
            exact congrArg (List.cons _) (ih _ _)

theorem runInitScript_snd (id : Nat) (calls : List MapUriCall)
    (compiled compiled' : List CompiledScript) :
    (runInitScript memory id calls compiled).2 = (runInitScript memory' id calls compiled').2 := by
  induction calls generalizing id compiled compiled' with
  | nil => rfl
  | cons call calls ih =>
      have hcall : (jsFunctionMapUri memory id call compiled).2 =
          (jsFunctionMapUri memory' id call compiled').2 := by
        unfold jsFunctionMapUri
        split
        · exact mapUriLoop_snd _ _ _
        · rfl
      rw [runInitScript, runInitScript]
      simp only [hcall]
      rw [ih]

/-- The new entries of one call: they have its number, and one that was completed begins
with a slash and is entered in `uri_map`, too. -/
theorem mapUriLoop_fst (args : List UriArg) (compiled : List CompiledScript) :
    ∃ new, (mapUriLoop memory id matching args compiled).1 = compiled ++ new ∧
      ∀ cs ∈ new, cs.script = id ∧ (cs.completed = true → cs.uri.head? = some slash ∧
        webSetCallback jsWebCallbackFunc cs.uri cs.fullMatch ∈
          (mapUriLoop memory id matching args compiled).2) := by
  induction args generalizing compiled with
  | nil => exact ⟨[], by simp [mapUriLoop], by simp⟩
  | cons arg args ih =>
      cases arg with
      | notString => exact ⟨[], by simp [mapUriLoop], by simp⟩
      | notEncodable => exact ⟨_, rfl, by simp⟩
      | text str =>
          rw [mapUriLoop]
          by_cases hslash : str.head? ≠ some slash
          · rw [if_pos hslash]
            exact ⟨_, rfl, by simp⟩
          · rw [if_neg hslash]
            obtain ⟨new, hnew, hall⟩ := ih (compiled ++ [⟨id, str, matching, true⟩])
            refine ⟨⟨id, str, matching, true⟩ :: new, by simp [hnew], fun cs hcs => ?_⟩
            rcases List.mem_cons.1 hcs with rfl | hcs
            · exact ⟨rfl, fun _ => ⟨not_not.1 hslash, List.mem_cons_self⟩⟩
            · obtain ⟨hid, hcompleted⟩ := hall cs hcs
              exact ⟨hid, fun h => ⟨(hcompleted h).1, List.mem_cons_of_mem _ (hcompleted h).2⟩⟩

/-- The new entries of a script are in the order of its calls, and those that were
completed are entered in `uri_map`, too. -/
theorem runInitScript_fst (id : Nat) (calls : List MapUriCall) (compiled : List CompiledScript) :
    ∃ new, (runInitScript memory id calls compiled).1 = compiled ++ new ∧
      new.Pairwise (fun a b => a.script ≤ b.script) ∧
        ∀ cs ∈ new, id ≤ cs.script ∧ (cs.completed = true → cs.uri.head? = some slash ∧
          (cs.script, webSetCallback jsWebCallbackFunc cs.uri cs.fullMatch) ∈
            (runInitScript memory id calls compiled).2) := by
  induction calls generalizing id compiled with
  | nil => exact ⟨[], by simp [runInitScript], List.Pairwise.nil, by simp⟩
  | cons call calls ih =>
      obtain ⟨new, hnew, hcall⟩ : ∃ new,
          (jsFunctionMapUri memory id call compiled).1 = compiled ++ new ∧
            ∀ cs ∈ new, cs.script = id ∧ (cs.completed = true → cs.uri.head? = some slash ∧
              webSetCallback jsWebCallbackFunc cs.uri cs.fullMatch ∈
                (jsFunctionMapUri memory id call compiled).2) := by
        unfold jsFunctionMapUri
        split
        · exact mapUriLoop_fst _ _
        · exact ⟨[], by simp, by simp⟩
      obtain ⟨rest, hrest, hsorted, hcalls⟩ :=
        ih (id + 1) (jsFunctionMapUri memory id call compiled).1
      refine ⟨new ++ rest, ?_, ?_, fun cs hcs => ?_⟩
      · rw [runInitScript]
        simp only
        rw [hrest, hnew, List.append_assoc]
      · refine List.pairwise_append.2 ⟨?_, hsorted, fun a ha b hb => ?_⟩
        · exact List.pairwise_of_forall_mem_list fun a ha b hb =>
            Nat.le_of_eq ((hcall a ha).1.trans (hcall b hb).1.symm)
        · have hb := (hcalls b hb).1
          rw [(hcall a ha).1]
          omega
      · rw [runInitScript]
        rcases List.mem_append.1 hcs with hcs | hcs
        · obtain ⟨hid, hcompleted⟩ := hcall cs hcs
          refine ⟨Nat.le_of_eq hid.symm, fun h => ⟨(hcompleted h).1, ?_⟩⟩
          rw [hid]
          exact List.mem_append_left _ (List.mem_map_of_mem (hcompleted h).2)
        · obtain ⟨hid, hcompleted⟩ := hcalls cs hcs
          exact ⟨by omega, fun h =>
            ⟨(hcompleted h).1, List.mem_append_right _ (hcompleted h).2⟩⟩

/-- What one call enters in `uri_map` it has completed an entry for, with one of its
URIs. -/
theorem exists_mem_mapUriLoop (args : List UriArg) (compiled : List CompiledScript) {m : UriMap}
    (hm : m ∈ (mapUriLoop memory id matching args compiled).2) :
    ∃ cs ∈ (mapUriLoop memory id matching args compiled).1, cs.script = id ∧
      .text cs.uri ∈ args ∧ m = webSetCallback jsWebCallbackFunc cs.uri cs.fullMatch := by
  induction args generalizing compiled with
  | nil => cases hm
  | cons arg args ih =>
      cases arg with
      | notString => cases hm
      | notEncodable => cases hm
      | text str =>
          rw [mapUriLoop] at hm ⊢
          by_cases hslash : str.head? ≠ some slash
          · rw [if_pos hslash] at hm
            cases hm
          · rw [if_neg hslash] at hm ⊢
            rcases List.mem_cons.1 hm with rfl | hm
            · obtain ⟨new, hnew, -⟩ := @mapUriLoop_fst memory id matching args
                (compiled ++ [⟨id, str, matching, true⟩])
              refine ⟨⟨id, str, matching, true⟩, ?_, rfl, List.mem_cons_self, rfl⟩
              simp [hnew]
            · obtain ⟨cs, hcs, hid, huri, heq⟩ := ih _ hm
              exact ⟨cs, hcs, hid, List.mem_cons_of_mem _ huri, heq⟩

/-- What a script enters in `uri_map` it has completed an entry for. -/
theorem exists_mem_runInitScript (id : Nat) (calls : List MapUriCall)
    (compiled : List CompiledScript) {x : Nat × UriMap}
    (hx : x ∈ (runInitScript memory id calls compiled).2) :
    ∃ cs ∈ (runInitScript memory id calls compiled).1, cs.script = x.1 ∧
      (∃ c ∈ calls, .text cs.uri ∈ c.uris) ∧
        x.2 = webSetCallback jsWebCallbackFunc cs.uri cs.fullMatch := by
  induction calls generalizing id compiled with
  | nil => cases hx
  | cons call calls ih =>
      rw [runInitScript] at hx ⊢
      rcases List.mem_append.1 hx with hx | hx
      · obtain ⟨m, hm, rfl⟩ := List.mem_map.1 hx
        obtain ⟨cs, hcs, hid, huri, heq⟩ : ∃ cs ∈ (jsFunctionMapUri memory id call compiled).1,
            cs.script = id ∧ .text cs.uri ∈ call.uris ∧
              m = webSetCallback jsWebCallbackFunc cs.uri cs.fullMatch := by
          rw [jsFunctionMapUri] at hm ⊢
          by_cases hcompiles : call.compiles = true
          · rw [if_pos hcompiles] at hm ⊢
            exact exists_mem_mapUriLoop call.uris compiled hm
          · rw [if_neg hcompiles] at hm
            cases hm
        obtain ⟨rest, hrest, -⟩ := @runInitScript_fst memory (id + 1) calls
          (jsFunctionMapUri memory id call compiled).1
        refine ⟨cs, ?_, hid, ⟨call, List.mem_cons_self, huri⟩, heq⟩
        simp only
        rw [hrest]
        exact List.mem_append_left _ hcs
      · obtain ⟨cs, hcs, hid, ⟨c, hc, huri⟩, heq⟩ := ih (id + 1) _ hx
        exact ⟨cs, hcs, hid, ⟨c, List.mem_cons_of_mem _ hc, huri⟩, heq⟩

/-! ## The two searches -/

theorem takeWhile_bne_nul {s : List UInt8} (h : nul ∉ s) :
    s.takeWhile (fun c => c != nul) = s :=
  List.takeWhile_eq_self_iff.2 fun _ hc => bne_iff_ne.2 (ne_of_mem_of_not_mem hc h)

/-- The other direction, for a URI with no `NUL` in it. -/
theorem serves_of_httpRoute {cs : CompiledScript} (huri : nul ∉ cs.uri) {func func' : Nat}
    (h : httpRoute path [webSetCallback func cs.uri cs.fullMatch] = .handler func') :
    cs.serves path = true := by
  rw [webSetCallback, takeWhile_bne_nul huri] at h
  rw [CompiledScript.serves]
  by_cases hfull : cs.fullMatch = true
  · rw [if_pos hfull, decide_eq_true_iff]
    simp only [httpRoute, if_pos hfull] at h
    split at h
    · split at h
      · cases h
      · rename_i hsame
        rw [not_or, not_not, not_not] at hsame
        obtain ⟨hlen, hpath⟩ := hsame
        have heq : cs.uri = path := by rw [hpath, hlen, List.take_length]
        exact ⟨hlen.symm, by rw [heq, List.take_length]⟩
    · split at h
      · cases h
      · cases h
  · rw [if_neg hfull, decide_eq_true_iff]
    simp only [httpRoute, if_neg hfull] at h
    split at h
    · cases h
    · rename_i hsame
      rw [not_or, not_not] at hsame
      exact ⟨Nat.le_of_not_lt hsame.1, hsame.2.symm⟩

/-! ## Agreement -/

section Dispatched

variable {memory : Nat → Nat → Uninitialized} {uri : List UInt8} {u : DividedUri}
  {front back : List (UriMap × UriSource)} {e : UriMap} {t call : Nat}

/-- A call of a script without `NUL` in its URIs has an entry for the requests it gets. -/
theorem hasEntry_of_nul_notMem (hnul : ∀ c ∈ calls, ∀ str, .text str ∈ c.uris → nul ∉ str)
    (hmap : Interleaved memory calls (front ++ (e, .thread t call) :: back))
    (hdispatched : DispatchedBy u.path front e) (worker : Nat) :
    HasEntry (compiledScripts (memory worker) calls) call u.path := by
  have hself : UriSource.ofThread t (e, .thread t call) = some (call, e) := if_pos rfl
  have hmem : (call, e) ∈ (runInitScript (memory t) 0 calls []).2 :=
    (hmap t).subset (List.mem_filterMap.2
      ⟨(e, .thread t call), List.mem_append_right _ List.mem_cons_self, hself⟩)
  rw [@runInitScript_snd _ (memory worker) 0 calls [] []] at hmem
  obtain ⟨cs, hcs, hscript, ⟨c, hc, huri⟩, he⟩ := exists_mem_runInitScript 0 calls [] hmem
  have htaken := hdispatched.taken
  rw [show e = _ from he] at htaken
  exact ⟨cs, hcs, hscript, serves_of_httpRoute (hnul c hc cs.uri huri) htaken⟩

end Dispatched

end OpenTube
