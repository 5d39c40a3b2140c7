import OpenTube.Lib.Run
import OpenTube.Template.Compile

/-!
# The cache of compiled templates

`tpl_compile` loads a file, replaces the include commands in it by the files they
name, and compiles the result. The template is kept under a checksum of the name
of the file, with the time of the last change of the file, and is returned again
as long as the file is not newer.

The time is that of the file itself, so an edit of a file it includes goes
unnoticed; and two names may have one checksum. In a run in which neither matters
for a template that is returned again, every template that is returned is the
compilation of the files as they are.

Included text is searched again, so a file that includes itself is expanded for
ever: the expansion takes a number of steps.
-/

namespace OpenTube

open Scan

/-! ## Includes -/

/-- A template file. -/
structure TplFile where
  content : List UInt8
  mtime : Int
  noNul : nul ∉ content
deriving DecidableEq

/-- The files of the template directory. -/
abbrev TplFiles := List UInt8 → Option TplFile

/-- `cmd_include`. -/
def cmdInclude : List UInt8 := ascii "\x7binclude "

/-- An include command: the text before it, the file it names, its width and the
text behind it. -/
structure IncludeCommand where
  front : List UInt8
  name : List UInt8
  width : Nat
  behind : List UInt8
deriving DecidableEq, Repr

/-- The text behind the `}` of a command. A second one is passed over as well. -/
def behindBrace (s : List UInt8) : List UInt8 :=
  if s.head? = some rightBrace then s.drop 1 else s

/-- The next include command of a text. -/
def includeCommand (s : List UInt8) : Option IncludeCommand :=
  (strstr cmdInclude s).bind fun e =>
    let m := e.2.drop cmdInclude.length
    let q := if m.head? = some quote then 1 else 0
    (scanTo (· = rightBrace) (m.drop q)).map fun r =>
      let x := r.1
      let rest := r.2.drop 1
      let width := cmdInclude.length + q + x.length + 1
      if x.getLast? = some quote then ⟨e.1, x.dropLast, width, rest⟩
      else
        -- in `{include "}` the quote is taken for the name
        let name := if x = [] ∧ q = 1 then [quote] else x
        ⟨e.1, name, width + (rest.length - (behindBrace rest).length), behindBrace rest⟩

/-- What `gather_into_single_file` returns: the text and `content->len`, or `NULL`. -/
inductive Gathered
  | outOfSteps
  | failed
  | ok (content : List UInt8) (len : Nat)
deriving DecidableEq, Repr

/-- `gather_into_single_file`: `front` lies before the place where the search goes
on. -/
def gather (files : TplFiles) : Nat → Nat → List UInt8 → List UInt8 → Gathered
  | 0, _, _, _ => .outOfSteps
  | n + 1, len, front, s =>
      match includeCommand s with
      | none => .ok (front ++ s) len
      | some i =>
          match files i.name with
          | none => .failed
          | some f =>
              gather files n (len + f.content.length - i.width) (front ++ i.front)
                (f.content ++ i.behind)

/-- The files that are included on the way. -/
def gatherReads (files : TplFiles) : Nat → List UInt8 → List (List UInt8)
  | 0, _ => []
  | n + 1, s =>
      match includeCommand s with
      | none => []
      | some i =>
          i.name ::
            match files i.name with
            | none => []
            | some f => gatherReads files n (f.content ++ i.behind)

theorem length_behindBrace_le (s : List UInt8) : (behindBrace s).length ≤ s.length := by
  unfold behindBrace
  split
  · simp
  · exact le_refl _

/-- The width of a command is counted right. -/
theorem includeCommand_length {s : List UInt8} {i : IncludeCommand}
    (h : includeCommand s = some i) :
    s.length = i.front.length + i.width + i.behind.length := by
  obtain ⟨⟨a, r⟩, hstr, hi⟩ := Option.bind_eq_some_iff.1 h
  obtain ⟨⟨x, rest⟩, hscan, rfl⟩ := Option.map_eq_some_iff.1 hi
  obtain ⟨rfl, m, rfl⟩ := strstr_eq_some hstr
  obtain ⟨hm, -, c, rest, rfl, -⟩ := (scanTo_eq_some_iff _ _ _ _).1 hscan
  rw [List.drop_left] at hm
  have hq : (if m.head? = some quote then 1 else 0) ≤ m.length := by
    split_ifs with hquote
    · cases m with
      | nil => simp at hquote
      | cons d m => simp
    · exact Nat.zero_le _
  have hlength := congrArg List.length hm
  have hbehind := length_behindBrace_le rest
  simp only [List.drop_left, List.length_drop, List.length_append, List.length_cons] at hlength ⊢
  generalize (if m.head? = some quote then 1 else 0) = q at hq hlength ⊢
  split_ifs <;> simp only [List.drop_succ_cons, List.drop_zero] <;> omega

/-- `content->len` is the length of the text. -/
theorem gather_len {files : TplFiles} {n len k : Nat} {front s text : List UInt8}
    (h : gather files n len front s = .ok text k) (hlen : len = front.length + s.length) :
    k = text.length := by
  induction n generalizing len front s with
  | zero => simp [gather] at h
  | succ n ih =>
      rw [gather] at h
      cases hi : includeCommand s with
      | none =>
          simp only [hi, Gathered.ok.injEq] at h
          obtain ⟨rfl, rfl⟩ := h
          simpa using hlen
      | some i =>
          cases hf : files i.name with
          | none => simp [hi, hf] at h
          | some f =>
              simp only [hi, hf] at h
              have hwidth := includeCommand_length hi
              exact ih h (by simp; omega)

/-- More steps do not change the result. -/
theorem gather_mono {files : TplFiles} {n len k : Nat} {front s text : List UInt8}
    (h : gather files n len front s = .ok text k) (m : Nat) (hm : n ≤ m) :
    gather files m len front s = .ok text k := by
  induction n generalizing len front s m with
  | zero => simp [gather] at h
  | succ n ih =>
      obtain ⟨m, rfl⟩ := Nat.exists_eq_add_of_le' (Nat.le_trans (Nat.le_add_left 1 n) hm)
      rw [gather] at h ⊢
      cases hi : includeCommand s with
      | none => simpa [hi] using h
      | some i =>
          cases hf : files i.name with
          | none => simp [hi, hf] at h
          | some f =>
              simp only [hi, hf] at h ⊢
              exact ih h m (by omega)

/-- The expansion depends on the files that are included only. -/
theorem gather_congr {files files' : TplFiles} {n len : Nat} {front s : List UInt8}
    (h : ∀ g ∈ gatherReads files n s, files' g = files g) :
    gather files' n len front s = gather files n len front s := by
  induction n generalizing len front s with
  | zero => rfl
  | succ n ih =>
      rw [gather, gather]
      cases hi : includeCommand s with
      | none => rfl
      | some i =>
          have hname : files' i.name = files i.name := by
            apply h
            simp [gatherReads, hi]
          cases hf : files i.name with
          | none => simp [hname, hf]
          | some f =>
              simp only [hname, hf]
              apply ih
              intro g hg
              apply h
              simp [gatherReads, hi, hf, hg]

/-! ## `tpl_compile` -/

/-- The values of `config.tpl_cache_update`. -/
inductive TplCacheUpdate
  | never
  | sourceModified
deriving DecidableEq, Repr

/-- `struct compiled_template`. The last three fields are not in the source: they
record the file the template was compiled from, the files as they were, and the
names of those that were included. -/
structure CompiledTemplate where
  tpl : Template
  mtime : Int
  checksum : Nat
  file : List UInt8
  files : TplFiles
  included : List (List UInt8)

/-- The entry that is found under a checksum. -/
def findCompiled (checksum : Nat) (compiled : List CompiledTemplate) : Option CompiledTemplate :=
  compiled.find? fun c => c.checksum = checksum

/-- The entry that is found is replaced, or a new one is appended. -/
def storeCompiled (e : CompiledTemplate) : List CompiledTemplate → List CompiledTemplate
  | [] => [e]
  | c :: l => if c.checksum = e.checksum then e :: l else c :: storeCompiled e l

/-- The entry whose template is returned again: there is one, and the file is not
newer. -/
def upToDate (files : TplFiles) (file : List UInt8) (compiled : List CompiledTemplate) :
    Option CompiledTemplate :=
  match files file, findCompiled (adler32 file) compiled with
  | some st, some c => if st.mtime ≤ c.mtime then some c else none
  | _, _ => none

/-- `tpl_compile`: the template and the cache behind the call. `cwd` tells whether
the template directory can be entered. The result is `none` while the expansion
has not come to an end. -/
def tplCompile (exec : PcreExec) (update : TplCacheUpdate) (files : TplFiles) (steps : Nat)
    (cwd : Bool) (file : List UInt8) (compiled : List CompiledTemplate) :
    Option (Option Template × List CompiledTemplate) :=
  let found := findCompiled (adler32 file) compiled
  if update = .never ∧ found.isSome then some (found.map CompiledTemplate.tpl, compiled)
  else if cwd = false then some (none, compiled)
  else
    match if update = .sourceModified then upToDate files file compiled else none with
    | some c => some (some c.tpl, compiled)
    | none =>
        match files file with
        | none => some (none, compiled)
        | some f =>
            match gather files steps f.content.length [] f.content with
            | .outOfSteps => none
            | .failed => some (none, compiled)
            | .ok text _ =>
                match compileContent exec text with
                | none => some (none, compiled)
                | some t =>
                    some (some t, storeCompiled ⟨t, f.mtime, adler32 file, file, files,
                      gatherReads files steps f.content⟩ compiled)

/-! ## Runs -/

/-- The files and the cache. -/
structure TplState where
  files : TplFiles
  compiled : List CompiledTemplate

/-- What happens: a template is asked for, or a file is written. -/
inductive TplAction
  | compile (file : List UInt8) (cwd : Bool) (steps : Nat)
  | edit (file : List UInt8) (f : TplFile)

section Runs

variable (exec : PcreExec)

/-- The call of `tpl_compile` in a state, with `source-modified`. -/
def TplState.call (s : TplState) (file : List UInt8) (cwd : Bool) (steps : Nat) :
    Option (Option Template × List CompiledTemplate) :=
  tplCompile exec .sourceModified s.files steps cwd file s.compiled

/-- One action. An edit gives the file a later time. -/
def TplState.step (s : TplState) : TplAction → Option TplState
  | .compile file cwd steps => (s.call exec file cwd steps).map fun e => { s with compiled := e.2 }
  | .edit file f =>
      if ∀ g ∈ s.files file, g.mtime < f.mtime then
        some { s with files := Function.update s.files file (some f) }
      else none

/-- The compilation of a file with its includes, as the files are. -/
def Compiles (files : TplFiles) (file : List UInt8) (t : Template) : Prop :=
  ∃ f steps text len, files file = some f ∧
    gather files steps f.content.length [] f.content = .ok text len ∧
    compileContent exec text = some t

/-- A template that is returned is the compilation of the files as they are. -/
def Coherent (s : TplState) : TplAction → Prop
  | .compile file cwd steps =>
      ∀ t compiled, s.call exec file cwd steps = some (some t, compiled) →
        Compiles exec s.files file t
  | .edit _ _ => True

/-- A template that is returned again was compiled from the file of that name, and
no file that was included then has been edited since. -/
def NothingMissed (s : TplState) : TplAction → Prop
  | .compile file _ _ =>
      ∀ c ∈ upToDate s.files file s.compiled, c.file = file ∧
        ∀ g ∈ c.included, s.files g = c.files g
  | .edit _ _ => True

variable {exec}

/-- What an entry of the cache was made from. -/
structure CompiledTemplate.Made (exec : PcreExec) (files : TplFiles)
    (c : CompiledTemplate) : Prop where
  compiled : ∃ f steps text len, c.files c.file = some f ∧ f.mtime = c.mtime ∧
    gather c.files steps f.content.length [] f.content = .ok text len ∧
    compileContent exec text = some c.tpl ∧ c.included = gatherReads c.files steps f.content
  older : ∀ f ∈ c.files c.file, ∃ g ∈ files c.file, f.mtime ≤ g.mtime ∧ (g.mtime = f.mtime → g = f)

/-- Every entry was made from files that were there. -/
def TplState.Inv (exec : PcreExec) (s : TplState) : Prop := ∀ c ∈ s.compiled, c.Made exec s.files

theorem mem_of_mem_storeCompiled {e c : CompiledTemplate} {l : List CompiledTemplate}
    (h : c ∈ storeCompiled e l) : c = e ∨ c ∈ l := by
  induction l with
  | nil => simpa [storeCompiled] using h
  | cons d l ih =>
      rw [storeCompiled] at h
      split at h
      · rcases List.mem_cons.1 h with h | h
        · exact .inl h
        · exact .inr (List.mem_cons_of_mem d h)
      · rcases List.mem_cons.1 h with h | h
        · exact .inr (h ▸ List.mem_cons_self)
        · exact (ih h).imp id (List.mem_cons_of_mem d)

/-- The entry that is up to date, and the file. -/
theorem upToDate_eq_some {files : TplFiles} {file : List UInt8} {compiled : List CompiledTemplate}
    {c : CompiledTemplate} (h : upToDate files file compiled = some c) :
    c ∈ compiled ∧ ∃ st ∈ files file, st.mtime ≤ c.mtime := by
  unfold upToDate at h
  split at h
  · rename_i st d hst hd
    split at h
    · rename_i hle
      obtain rfl := Option.some.inj h
      exact ⟨List.mem_of_find?_eq_some hd, st, hst, hle⟩
    · simp at h
  · simp at h

/-- What a call can do: it returns the template of an entry that is up to date, or
nothing, or it compiles the file and stores the template. -/
theorem call_cases {s : TplState} {file : List UInt8} {cwd : Bool} {steps : Nat}
    {r : Option Template} {compiled : List CompiledTemplate}
    (h : s.call exec file cwd steps = some (r, compiled)) :
    (∃ c ∈ upToDate s.files file s.compiled, r = some c.tpl ∧ compiled = s.compiled) ∨
    (r = none ∧ compiled = s.compiled) ∨
    ∃ f text len t, s.files file = some f ∧
      gather s.files steps f.content.length [] f.content = .ok text len ∧
      compileContent exec text = some t ∧ r = some t ∧
      compiled = storeCompiled ⟨t, f.mtime, adler32 file, file, s.files,
        gatherReads s.files steps f.content⟩ s.compiled := by
  simp only [TplState.call, tplCompile, reduceCtorEq, false_and, if_false, if_true] at h
  split at h
  · obtain ⟨rfl, rfl⟩ := Prod.mk.inj (Option.some.inj h)
    exact .inr (.inl ⟨rfl, rfl⟩)
  · split at h
    · rename_i c hc
      obtain ⟨rfl, rfl⟩ := Prod.mk.inj (Option.some.inj h)
      exact .inl ⟨c, hc, rfl, rfl⟩
    · cases hf : s.files file with
      | none =>
          simp only [hf] at h
          obtain ⟨rfl, rfl⟩ := Prod.mk.inj (Option.some.inj h)
          exact .inr (.inl ⟨rfl, rfl⟩)
      | some f =>
          simp only [hf] at h
          cases hg : gather s.files steps f.content.length [] f.content with
          | outOfSteps => simp [hg] at h
          | failed =>
              simp only [hg] at h
              obtain ⟨rfl, rfl⟩ := Prod.mk.inj (Option.some.inj h)
              exact .inr (.inl ⟨rfl, rfl⟩)
          | ok text len =>
              simp only [hg] at h
              cases ht : compileContent exec text with
              | none =>
                  simp only [ht] at h
                  obtain ⟨rfl, rfl⟩ := Prod.mk.inj (Option.some.inj h)
                  exact .inr (.inl ⟨rfl, rfl⟩)
              | some t =>
                  simp only [ht] at h
                  obtain ⟨rfl, rfl⟩ := Prod.mk.inj (Option.some.inj h)
                  exact .inr (.inr ⟨f, text, len, t, rfl, hg, ht, rfl, rfl⟩)

/-- An entry that is up to date, made from the same file and from includes that
have not changed, is the compilation of the files as they are. -/
theorem CompiledTemplate.Made.compiles {files : TplFiles} {file : List UInt8}
    {compiled : List CompiledTemplate} {c : CompiledTemplate} (h : c.Made exec files)
    (hc : upToDate files file compiled = some c) (hfile : c.file = file)
    (hincluded : ∀ g ∈ c.included, files g = c.files g) : Compiles exec files file c.tpl := by
  obtain ⟨f, steps, text, len, hf, hmtime, hgather, htpl, hreads⟩ := h.compiled
  obtain ⟨-, st, hst, hle⟩ := upToDate_eq_some hc
  obtain ⟨g, hg, hge, hsame⟩ := h.older f hf
  subst hfile
  -- the file is as old as the entry, so it is the file the entry was made from
  obtain rfl : st = g := Option.some.inj (hst.symm.trans hg)
  obtain rfl := hsame (by omega)
  rw [hreads] at hincluded
  exact ⟨st, steps, text, len, hst, (gather_congr hincluded).trans hgather, htpl⟩

theorem TplState.Inv.step {s t : TplState} {l : TplAction} (h : s.Inv exec)
    (hstep : s.step exec l = some t) : t.Inv exec := by
  cases l with
  | compile file cwd steps =>
      obtain ⟨⟨r, compiled⟩, hcall, rfl⟩ := Option.map_eq_some_iff.1 hstep
      rcases call_cases hcall with ⟨-, -, -, rfl⟩ | ⟨-, rfl⟩ | ⟨f, text, len, t, hf, hg, ht, -, rfl⟩
      · exact h
      · exact h
      · intro c hc
        rcases mem_of_mem_storeCompiled hc with rfl | hc
        · exact ⟨⟨f, steps, text, len, hf, rfl, hg, ht, rfl⟩,
            fun f' hf' => ⟨f', hf', Int.le_refl _, fun _ => rfl⟩⟩
        · exact h c hc
  | edit file f =>
      rw [TplState.step] at hstep
      split at hstep
      · rename_i hnew
        obtain rfl := Option.some.inj hstep
        intro c hc
        refine ⟨(h c hc).compiled, fun f' hf' => ?_⟩
        obtain ⟨g, hg, hle, hsame⟩ := (h c hc).older f' hf'
        by_cases hfile : c.file = file
        · have hlt := hnew g (hfile ▸ hg)
          exact ⟨f, by simp [hfile], by omega, by omega⟩
        · exact ⟨g, by simpa [Function.update_of_ne hfile] using hg, hle, hsame⟩
      · simp at hstep

/-- In a state the runs lead to, a call that misses nothing is coherent. -/
theorem TplState.Inv.coherent {s : TplState} {l : TplAction} (h : s.Inv exec)
    (hl : NothingMissed s l) : Coherent exec s l := by
  cases l with
  | edit file f => trivial
  | compile file cwd steps =>
      intro t compiled hcall
      rcases call_cases hcall with ⟨c, hc, htpl, -⟩ | ⟨hnone, -⟩ |
        ⟨f, text, len, t', hf, hg, ht, htpl, -⟩
      · obtain rfl := Option.some.inj htpl
        obtain ⟨hfile, hincluded⟩ := hl c hc
        exact (h c (upToDate_eq_some hc).1).compiles hc hfile hincluded
      · simp at hnone
      · obtain rfl := Option.some.inj htpl
        exact ⟨f, steps, text, len, hf, hg, ht⟩

/-- In a run in which no call misses an edit or meets an entry of another file,
every template that is returned is the compilation of the files as they are. -/
theorem coherent_of_run (exec : PcreExec) (files : TplFiles) (ls : List TplAction)
    (h : Machine.Meets (TplState.step exec) NothingMissed ⟨files, []⟩ ls) :
    Machine.Meets (TplState.step exec) (Coherent exec) ⟨files, []⟩ ls := by
  have hstart : TplState.Inv exec ⟨files, []⟩ := by
    intro c hc
    simp at hc
  exact Machine.Meets.of_invariant
    (fun (s : TplState) l t (hs : TplState.Inv exec s) _ hstep => hs.step hstep)
    (fun s l hs hl => hs.coherent hl) ls _ hstart h

end Runs

instance (s : TplState) (l : TplAction) : Decidable (NothingMissed s l) :=
  match l with
  | .compile file _ _ => inferInstanceAs (Decidable
      (∀ c ∈ upToDate s.files file s.compiled, c.file = file ∧
        ∀ g ∈ c.included, s.files g = c.files g))
  | .edit _ _ => isTrue trivial

theorem nul_notMem_page : nul ∉ ascii "a\x7binclude part\x7dc" := by decide

theorem nul_notMem_part : nul ∉ ascii "b" := by decide

/-- A page that includes another file. -/
def samplePages : TplFiles := fun name =>
  if name = ascii "page" then some ⟨ascii "a\x7binclude part\x7dc", 1, nul_notMem_page⟩
  else if name = ascii "part" then some ⟨ascii "b", 1, nul_notMem_part⟩
  else none

/-- No text here has a block. -/
def noBlocks : PcreExec := fun _ _ => none

/-- The page is compiled and returned again; it is edited together with the file it
includes, and compiled again. -/
theorem coherent_of_run_editedPage :
    Machine.Meets (TplState.step noBlocks) (Coherent noBlocks) ⟨samplePages, []⟩
      [.compile (ascii "page") true 2, .compile (ascii "page") true 2,
        .edit (ascii "part") ⟨ascii "B", 2, by decide +kernel⟩,
        .edit (ascii "page") ⟨ascii "\x7binclude part\x7d", 3, by decide +kernel⟩,
        .compile (ascii "page") true 2] :=
  coherent_of_run noBlocks samplePages _ (by decide +kernel)

/-- The expansion determines the compilation. -/
theorem Compiles.eq {exec : PcreExec} {files : TplFiles} {file : List UInt8} {t : Template}
    (h : Compiles exec files file t) {f : TplFile} {n len : Nat} {text : List UInt8}
    (hf : files file = some f)
    (hgather : gather files n f.content.length [] f.content = .ok text len) :
    compileContent exec text = some t := by
  obtain ⟨f', steps, text', len', hf', hgather', ht⟩ := h
  obtain rfl := Option.some.inj (hf.symm.trans hf')
  have hleft := gather_mono hgather (max n steps) (le_max_left _ _)
  have hright := gather_mono hgather' (max n steps) (le_max_right _ _)
  obtain ⟨rfl, rfl⟩ := Gathered.ok.inj (hleft.symm.trans hright)
  exact ht

/-- The page is compiled, and the file it includes is edited. -/
def editedInclude : List TplAction :=
  [.compile (ascii "page") true 2, .edit (ascii "part") ⟨ascii "B", 2, by decide +kernel⟩]

/-- The page is returned as it was before the edit. -/
theorem not_coherent_of_run :
    ¬ Machine.Meets (TplState.step noBlocks) (Coherent noBlocks) ⟨samplePages, []⟩
      (editedInclude ++ [.compile (ascii "page") true 2]) := by
  intro h
  have hsome : (Machine.run (TplState.step noBlocks) ⟨samplePages, []⟩ editedInclude).isSome := by
    decide +kernel
  -- the text of the template that is returned, and the text there is now
  have hcall : ∀ s ∈ Machine.run (TplState.step noBlocks) ⟨samplePages, []⟩ editedInclude,
      ((s.call noBlocks (ascii "page") true 2).bind Prod.fst).map Template.content =
        some (ascii "abc") := by
    decide +kernel
  have hnow : ∀ s ∈ Machine.run (TplState.step noBlocks) ⟨samplePages, []⟩ editedInclude,
      ∀ f ∈ s.files (ascii "page"),
        gather s.files 2 f.content.length [] f.content = .ok (ascii "aBc") 3 := by
    decide +kernel
  have hnew : (compileContent noBlocks (ascii "aBc")).map Template.content =
    some (ascii "aBc") := by
    decide +kernel
  obtain ⟨s, hs⟩ := Option.isSome_iff_exists.1 hsome
  obtain ⟨t, ht, hcontent⟩ := Option.map_eq_some_iff.1 (hcall s hs)
  obtain ⟨⟨r, compiled⟩, hreturn, hr⟩ := Option.bind_eq_some_iff.1 ht
  obtain rfl : r = some t := hr
  have hcompiles := h.last hs t compiled hreturn
  obtain ⟨f, -, -, -, hf, -⟩ := id hcompiles
  rw [hcompiles.eq hf (hnow s hs f hf), Option.map_some, hcontent] at hnew
  exact absurd hnew (by decide +kernel)

end OpenTube
