import OpenTube.Config.Passes
import OpenTube.Lib.ArrayTree

/-!
# The pointers to the parents

The parser with the memory of its settings. `config_parse_childs` makes the array of a
setting longer for each of its children; the array may be moved then, and the pointers
of the grandchildren are repaired. `config_parse_command` follows the pointers from a
new setting to the root to see which files are being read, and `config_setting_path`
to find the names around a setting. Of a setting in memory only what the walks read is
kept: the file, the pointers and the array.
-/

namespace OpenTube

open ArrayTree

/-! ## The parser with its memory -/

/-- A walk over the files that are being read: the memory, the new setting it begins at,
and the files as the parser knows them. -/
structure IncludeCheck where
  heap : Heap (List UInt8)
  child : NodePtr
  chain : List (List UInt8)

/-- The settings in memory, and the walks so far. -/
structure ParserMemory where
  heap : Heap (List UInt8)
  checks : List IncludeCheck

/-- What a part of the parser does: its result and the memory. It has no value if a
setting is looked for where there is none. -/
abbrev MemoryRun (β : Type) := Option (ConfigResult β × ParserMemory)

/-- Continue with the value. -/
def MemoryRun.andThen {β γ : Type} (r : MemoryRun β) (f : β → ParserMemory → MemoryRun γ) :
    MemoryRun γ :=
  r.bind fun
    | (.outOfSteps, m) => some (.outOfSteps, m)
    | (.error e, m) => some (.error e, m)
    | (.ok b, m) => f b m

/-- The new setting in the array of `s`, with the file of `s`. -/
def ParserMemory.newSetting (alloc : Allocator (List UInt8)) (m : ParserMemory) (s : NodePtr) :
    Option (NodePtr × ParserMemory) :=
  (m.heap.get s).bind fun n => (addChild alloc m.heap s n.data).map fun (h, c) =>
    (c, { m with heap := h })

/-- Set the file of a setting. -/
def ParserMemory.setFile (m : ParserMemory) (c : NodePtr) (file : List UInt8) :
    Option ParserMemory :=
  (m.heap.modify c fun n => { n with data := file }).map fun h => { m with heap := h }

/-- At a command the files that are being read are looked through. -/
def ParserMemory.check (m : ParserMemory) (chain : List (List UInt8)) (c : NodePtr) (p : Place) :
    ParserMemory :=
  if p.enter.2.head? = some atSign then { m with checks := m.checks ++ [⟨m.heap, c, chain⟩] } else m

/-- `config_parse_childs` for the setting at `s`. -/
def parseChildsIn (alloc : Allocator (List UInt8)) (files : ConfigFiles) : Nat → Bool →
    List (List UInt8) → List Span → Place → NodePtr → ParserMemory →
      MemoryRun (ConfigSettings × Place)
  | 0, _, _, _, _, _, m => some (.outOfSteps, m)
  | n + 1, root, chain, names, p, s, m =>
      match configItem root chain names p with
      | .finish q => some (.ok (.nil, q), m)
      | .error e => (m.newSetting alloc s).map fun (c, m) => (.error e, m.check chain c p)
      | .command file q =>
          (m.newSetting alloc s).bind fun (c, m) =>
            ((m.check chain c p).setFile c file).bind fun m =>
              match loadIncluded files file with
              | .error e => some (.error e, m)
              | .ok content =>
                  MemoryRun.andThen (parseChildsIn alloc files n false (file :: chain) []
                    ([], content ++ [nul, nul]) c m) fun (childs, r) m =>
                    MemoryRun.andThen (parseChildsIn alloc files n root chain names q s m)
                      fun (next, t) m =>
                        some (.ok (.cons none 0 (.included file (r.1 ++ r.2)) childs next, t), m)
      | .group line name value inner =>
          (m.newSetting alloc s).bind fun (c, m) =>
            MemoryRun.andThen (parseChildsIn alloc files n false chain [] inner c m)
              fun (childs, r) m =>
                MemoryRun.andThen (parseChildsIn alloc files n root chain (names ++ [name])
                  r.jump.semicolon s m) fun (next, t) m =>
                  some (.ok (.cons (some name) line value childs next, t), m)
      | .scalar line name value r =>
          (m.newSetting alloc s).bind fun (_, m) =>
            MemoryRun.andThen (parseChildsIn alloc files n root chain (names ++ [name]) r s m)
              fun (next, t) m => some (.ok (.cons (some name) line value .nil next, t), m)

/-- The address of the root. -/
def rootSetting : NodePtr := ⟨0, 0⟩

/-- The memory with the root. -/
def ParserMemory.initial (file : List UInt8) : ParserMemory where
  heap := Heap.setBlock ⟨fun _ => [], 0, fun _ _ => rfl⟩ 0 [⟨file, none, none, 0⟩]
  checks := []

/-- `config_read`. -/
def configReadIn (alloc : Allocator (List UInt8)) (files : ConfigFiles) (steps : Nat)
    (file content : List UInt8) : MemoryRun (ConfigSettings × List UInt8) :=
  match quickValidate file content with
  | some e => some (.error e, .initial file)
  | none =>
      MemoryRun.andThen (parseChildsIn alloc files steps true [file] []
        ([], content ++ [nul, nul]) rootSetting (.initial file)) fun (settings, p) m =>
          some (.ok (settings, p.1 ++ p.2), m)

/-! ## What is claimed of the pointers -/

/-- From each setting the pointers to the parents lead through the settings around it
to the root. -/
def ParentsRight (h : Heap (List UInt8)) : Prop :=
  ∀ p l, Inside h rootSetting p l → Visits h p l

/-- The files of some settings. -/
def FilesAlong (h : Heap (List UInt8)) (l : List NodePtr) (chain : List (List UInt8)) : Prop :=
  ∀ file, (∃ q ∈ l, ∃ n, h.get q = some n ∧ n.data = file) ↔ file ∈ chain

/-- During a walk the pointers are right, and it meets the files that are being read. -/
def IncludeCheck.Right (k : IncludeCheck) : Prop :=
  ParentsRight k.heap ∧ ∃ l, Visits k.heap k.child (k.child :: l) ∧ FilesAlong k.heap l k.chain

/-! ## The invariant -/

/-- The memory while the settings of `s` are read: `l` is the way from `s` to the root. -/
structure ReadingAt (m : ParserMemory) (s : NodePtr) (l : List NodePtr)
    (chain : List (List UInt8)) :
    Prop where
  linked : Linked m.heap rootSetting
  visits : Visits m.heap s l
  along : FilesAlong m.heap l chain
  checks : ∀ k ∈ m.checks, k.Right

/-- The settings on the way have kept their files. -/
def SameFiles (h h' : Heap (List UInt8)) (l : List NodePtr) : Prop :=
  ∀ q ∈ l, (h'.get q).map Node.data = (h.get q).map Node.data

theorem SameFiles.trans {h h' h'' : Heap (List UInt8)} {l : List NodePtr} (hs : SameFiles h h' l)
    (hs' : SameFiles h' h'' l) : SameFiles h h'' l := fun q hq => (hs' q hq).trans (hs q hq)

theorem FilesAlong.of_same {h h' : Heap (List UInt8)} {l : List NodePtr} {chain : List (List UInt8)}
    (ha : FilesAlong h l chain) (hs : SameFiles h h' l) : FilesAlong h' l chain := by
  intro file
  rw [← ha file]
  have hiff : ∀ q ∈ l, (∃ n, h'.get q = some n ∧ n.data = file) ↔
      ∃ n, h.get q = some n ∧ n.data = file := by
    intro q hq
    rw [← Option.map_eq_some_iff, ← Option.map_eq_some_iff, hs q hq]
  constructor
  · rintro ⟨q, hq, hn⟩
    exact ⟨q, hq, (hiff q hq).1 hn⟩
  · rintro ⟨q, hq, hn⟩
    exact ⟨q, hq, (hiff q hq).2 hn⟩

theorem filesAlong_cons {h : Heap (List UInt8)} {l : List NodePtr} {chain : List (List UInt8)}
    {c : NodePtr}
    {n : Node (List UInt8)} (ha : FilesAlong h l chain) (hc : h.get c = some n) :
    FilesAlong h (c :: l) (n.data :: chain) := by
  intro file
  rw [List.mem_cons, ← ha file]
  constructor
  · rintro ⟨q, hq, m, hm, hfile⟩
    rcases List.mem_cons.1 hq with rfl | hq
    · obtain rfl := Option.some.inj (hc.symm.trans hm)
      exact .inl hfile.symm
    · exact .inr ⟨q, hq, m, hm, hfile⟩
  · rintro (rfl | ⟨q, hq, hm⟩)
    · exact ⟨c, List.mem_cons_self, n, hc, rfl⟩
    · exact ⟨q, List.mem_cons_of_mem c hq, hm⟩

/-- A file that is on the chain may be counted once more. -/
theorem FilesAlong.of_mem {h : Heap (List UInt8)} {l : List NodePtr} {chain : List (List UInt8)}
    {file : List UInt8} (ha : FilesAlong h l (file :: chain)) (hmem : file ∈ chain) :
    FilesAlong h l chain := by
  intro f
  rw [ha f, List.mem_cons]
  exact or_iff_right_of_imp fun heq => heq ▸ hmem

variable {alloc : Allocator (List UInt8)} {m : ParserMemory} {s : NodePtr} {l : List NodePtr}
  {chain : List (List UInt8)}

/-- The memory for a setting, seen from the setting around it. -/
theorem ReadingAt.tail {m₀ : ParserMemory} {c : NodePtr} {chain' : List (List UInt8)}
    (hc : ReadingAt m c (c :: l) chain') (hs : Visits m₀.heap s l)
    (halong : FilesAlong m.heap l chain) : ReadingAt m s l chain :=
  ⟨hc.linked, hc.visits.tail hs, halong, hc.checks⟩

/-- A new setting has the file of the setting around it. -/
theorem ReadingAt.newSetting (alloc : Allocator (List UInt8)) (hm : ReadingAt m s l chain) :
    ∃ c m', m.newSetting alloc s = some (c, m') ∧ ReadingAt m' s l chain ∧
      ReadingAt m' c (c :: l) chain ∧ SameFiles m.heap m'.heap l := by
  obtain ⟨n, hn⟩ := hm.visits.get
  have hout : ∀ q ∈ l, n.elems ≠ some q.block := fun q hq => hm.linked.elems_ne hn hm.visits hq
  have hs : s ∈ l := List.mem_of_head? hm.visits.head
  obtain ⟨h', c, hrun, hadded⟩ := addChild_eq alloc n.data hm.linked hn (hout s hs)
  have hlinked := hadded.linked hm.linked hn (hout s hs)
  have hvisits := hadded.visits hm.visits hout
  have hfiles : SameFiles m.heap h' l := by
    intro q hq
    obtain ⟨l', hv, -⟩ := hm.visits.of_mem hq
    obtain ⟨x, hx⟩ := hv.get
    rw [hadded.get_of_ne hx (hout q hq), hx, Option.map_some, Option.map_some]
    split <;> rfl
  have halong := hm.along.of_same hfiles
  have hmem : n.data ∈ chain := (hm.along n.data).1 ⟨s, hs, n, hn, rfl⟩
  refine ⟨c, { m with heap := h' }, ?_, ⟨hlinked, hvisits, halong, hm.checks⟩,
    ⟨hlinked, .next hadded.new rfl hvisits,
      (filesAlong_cons halong hadded.new).of_mem hmem, hm.checks⟩, hfiles⟩
  rw [ParserMemory.newSetting, hn, Option.bind_some, hrun, Option.map_some]

/-- The file of a new setting is set. -/
theorem ReadingAt.setFile {c : NodePtr} (hs : ReadingAt m s l chain)
    (hc : ReadingAt m c (c :: l) chain) (file : List UInt8) :
    ∃ m', m.setFile c file = some m' ∧ ReadingAt m' c (c :: l) (file :: chain) ∧
      SameFiles m.heap m'.heap l := by
  obtain ⟨n, hn⟩ := hc.visits.get
  obtain ⟨h', hrun, hsame, hget, hother⟩ := modify_data_eq hn file
  have hnot : c ∉ l := hc.visits.not_mem hs.visits
  have hfiles : SameFiles m.heap h' l := fun q hq => by
    rw [hother q fun heq => hnot (heq ▸ hq)]
  refine ⟨{ m with heap := h' }, by rw [ParserMemory.setFile, hrun, Option.map_some],
    ⟨hsame.linked hc.linked, hsame.visits hc.visits, ?_, hc.checks⟩, hfiles⟩
  exact filesAlong_cons (hs.along.of_same hfiles) hget

/-- The walk over the files is recorded. -/
theorem ReadingAt.check {c : NodePtr} (p : Place) (hs : ReadingAt m s l chain)
    (hc : ReadingAt m c (c :: l) chain) :
    ReadingAt (m.check chain c p) s l chain ∧ ReadingAt (m.check chain c p) c (c :: l) chain ∧
      (m.check chain c p).heap = m.heap := by
  unfold ParserMemory.check
  split
  · have hright : ∀ k ∈ m.checks ++ [⟨m.heap, c, chain⟩], k.Right := by
      intro k hk
      rcases List.mem_append.1 hk with hk | hk
      · exact hs.checks k hk
      · obtain rfl := List.mem_singleton.1 hk
        exact ⟨fun p l hp => hs.linked.visits hp, l, hc.visits, hs.along⟩
    exact ⟨⟨hs.linked, hs.visits, hs.along, hright⟩, ⟨hc.linked, hc.visits, hc.along, hright⟩, rfl⟩
  · exact ⟨hs, hc, rfl⟩

/-! ## The recursion -/

/-- A part of the parser has the result `r` and keeps the memory right. -/
def Keeps {β : Type} (m : ParserMemory) (s : NodePtr) (l : List NodePtr) (chain : List (List UInt8))
    (run : MemoryRun β) (r : ConfigResult β) : Prop :=
  ∃ m', run = some (r, m') ∧ ReadingAt m' s l chain ∧ SameFiles m.heap m'.heap l

theorem Keeps.of_value {β : Type} (r : ConfigResult β) (hm : ReadingAt m s l chain) :
    Keeps m s l chain (some (r, m)) r :=
  ⟨m, rfl, hm, fun _ _ => rfl⟩

/-- Two parts for the same setting, one after the other. -/
theorem Keeps.andThen {β γ : Type} {run : MemoryRun β} {r : ConfigResult β}
    {f : β → ParserMemory → MemoryRun γ} {g : β → ConfigResult γ} (hrun : Keeps m s l chain run r)
    (hf : ∀ b m', ReadingAt m' s l chain → Keeps m' s l chain (f b m') (g b)) :
    Keeps m s l chain (MemoryRun.andThen run f) (r.andThen g) := by
  obtain ⟨m', rfl, hm', hfiles⟩ := hrun
  cases r with
  | outOfSteps => exact ⟨m', rfl, hm', hfiles⟩
  | error e => exact ⟨m', rfl, hm', hfiles⟩
  | ok b =>
      obtain ⟨m'', hrun', hm'', hfiles'⟩ := hf b m' hm'
      exact ⟨m'', hrun', hm'', hfiles.trans hfiles'⟩

/-- A part for a setting inside `s` is one for `s`. -/
theorem Keeps.outward {β : Type} {run : MemoryRun β} {r : ConfigResult β} {m₀ : ParserMemory}
    {c : NodePtr} {chain' : List (List UInt8)} (hrun : Keeps m c (c :: l) chain' run r)
    (hs : ReadingAt m₀ s l chain) (hfiles : SameFiles m₀.heap m.heap l) :
    Keeps m₀ s l chain run r := by
  obtain ⟨m', hval, hm', hsame⟩ := hrun
  have hall := hfiles.trans fun q hq => hsame q (List.mem_cons_of_mem c hq)
  exact ⟨m', hval, hm'.tail hs.visits (hs.along.of_same hall), hall⟩

/-- A part that begins with a new setting. -/
theorem Keeps.of_newSetting {β : Type} {r : ConfigResult β}
    {f : NodePtr × ParserMemory → MemoryRun β} (hm : ReadingAt m s l chain)
    (hf : ∀ c m', ReadingAt m' s l chain → ReadingAt m' c (c :: l) chain →
      Keeps m' s l chain (f (c, m')) r) :
    Keeps m s l chain ((m.newSetting alloc s).bind f) r := by
  obtain ⟨c, m', hnew, hs, hc, hfiles⟩ := hm.newSetting alloc
  obtain ⟨m'', hrun, hm'', hsame⟩ := hf c m' hs hc
  exact ⟨m'', by rw [hnew, Option.bind_some, hrun], hm'', hfiles.trans hsame⟩

/-- The parser with its memory does what the parser does, and the memory stays right. -/
theorem keeps_parseChildsIn (files : ConfigFiles) {n : Nat} {root : Bool} {names : List Span}
    {p : Place} (hm : ReadingAt m s l chain) :
    Keeps m s l chain (parseChildsIn alloc files n root chain names p s m)
      (parseChilds files n root chain names p) := by
  induction n generalizing root chain names p s l m with
  | zero => exact .of_value _ hm
  | succ n ih =>
      rw [parseChilds_succ, parseChildsIn]
      cases configItem root chain names p with
      | finish q => exact .of_value _ hm
      | error e =>
          obtain ⟨c, m', hnew, hs, hc, hfiles⟩ := hm.newSetting alloc
          obtain ⟨hs', -, hheap⟩ := hs.check p hc
          exact ⟨m'.check chain c p, by rw [hnew]; rfl, hs', hheap ▸ hfiles⟩
      | command file q =>
          refine .of_newSetting hm fun c m' hs hc => ?_
          obtain ⟨hs', hc', hheap⟩ := hs.check p hc
          obtain ⟨m₂, hset, hc₂, hfiles⟩ := hs'.setFile hc' file
          rw [hheap] at hfiles
          simp only [hset, Option.bind_some]
          cases loadIncluded files file with
          | error e => exact Keeps.outward (.of_value _ hc₂) hs hfiles
          | ok content =>
              exact Keeps.andThen (.outward (ih hc₂) hs hfiles) fun a m' hm' =>
                Keeps.andThen (ih hm') fun b m' hm' => .of_value _ hm'
      | group line name value inner =>
          exact .of_newSetting hm fun c m' hs hc =>
            Keeps.andThen (.outward (ih hc) hs fun _ _ => rfl) fun a m' hm' =>
              Keeps.andThen (ih hm') fun b m' hm' => .of_value _ hm'
      | scalar line name value r =>
          exact .of_newSetting hm fun c m' hs hc =>
            Keeps.andThen (ih hs) fun b m' hm' => .of_value _ hm'

/-! ## Reading a configuration -/

theorem readingAt_initial (file : List UInt8) :
    ReadingAt (.initial file) rootSetting [rootSetting] [file] := by
  have hget : ∀ q n, (ParserMemory.initial file).heap.get q = some n →
      q = rootSetting ∧ n = ⟨file, none, none, 0⟩ := by
    intro q n hq
    rw [ParserMemory.initial, Heap.get_setBlock] at hq
    split at hq
    · rename_i hblock
      obtain ⟨b, i⟩ := q
      obtain rfl : b = 0 := hblock
      cases i with
      | zero => exact ⟨rfl, (Option.some.inj hq).symm⟩
      | succ i => exact absurd hq (by simp)
    · exact absurd hq (by simp [Heap.get])
  have hroot : (ParserMemory.initial file).heap.get rootSetting = some ⟨file, none, none, 0⟩ := rfl
  refine ⟨⟨⟨_, hroot, rfl⟩, fun q n hq _ => (hget q n hq).1, fun q n hq => ?_, fun q n hq => ?_,
    fun q n hq hne => ?_, fun q n b i c hq hb => ?_, fun q n hq hne => ?_⟩, .last hroot rfl,
    fun f => ?_, fun k hk => ?_⟩
  · rw [(hget q n hq).2]
    simp
  · rw [(hget q n hq).2]
    exact holdsChilds_of_none rfl rfl
  · rw [(hget q n hq).2] at hne
    exact absurd rfl hne
  · rw [(hget q n hq).2] at hb
    cases hb
  · exact absurd (hget q n hq).1 hne
  · constructor
    · rintro ⟨q, -, n, hq, rfl⟩
      rw [(hget q n hq).2]
      exact List.mem_singleton_self _
    · intro hf
      obtain rfl := List.mem_singleton.1 hf
      exact ⟨rootSetting, List.mem_singleton_self _, _, hroot, rfl⟩
  · exact absurd hk List.not_mem_nil

/-- Wherever the arrays are moved to, reading a configuration looks for settings only
where they are. Afterwards, and at every walk over the files that are being read, the
pointers to the parents lead from each setting through the settings around it to the
root. -/
theorem parentsRight (alloc : Allocator (List UInt8)) (files : ConfigFiles) (steps : Nat)
    (file content : List UInt8) :
    ∃ m, configReadIn alloc files steps file content =
        some (configRead files steps file content, m) ∧
      ParentsRight m.heap ∧ ∀ k ∈ m.checks, k.Right := by
  have hinitial := readingAt_initial file
  have hread : Keeps (.initial file) rootSetting [rootSetting] [file]
      (configReadIn alloc files steps file content) (configRead files steps file content) := by
    unfold configReadIn configRead
    cases quickValidate file content with
    | some e => exact .of_value _ hinitial
    | none =>
        exact Keeps.andThen (keeps_parseChildsIn files hinitial) fun a m' hm' => .of_value _ hm'
  obtain ⟨m, hrun, hm, -⟩ := hread
  exact ⟨m, hrun, fun p l hp => hm.linked.visits hp, hm.checks⟩

end OpenTube
