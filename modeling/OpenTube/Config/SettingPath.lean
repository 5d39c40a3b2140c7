import Mathlib.Data.List.Induction
import OpenTube.Config.Parser
import OpenTube.Lib.CString

/-!
# The path of a setting

`config_setting_path` goes from a setting to the root and writes the names it
meets into a buffer, each of them reversed; at the end it reverses the whole. The
memory is given from the begin of the buffer on, so that what lies behind the
buffer is part of it, and a run that writes there has no value.
-/

namespace OpenTube

open CString

/-! ## The function -/

/-- Arithmetic of a `size_t`. -/
def sizeT (n : Int) : Nat := (n % 2 ^ 64).toNat

/-- `str_reverse` of the string at the offset `o`. -/
def strReverse (bufLen : Nat) (m : List UInt8) (o : Nat) : Option (List UInt8) :=
  reverseAt nul bufLen m o

/-- The loop of `config_setting_path` over the names from the setting to the root:
what it returns and the memory. A setting without a name is an included file or
the root; `started` says that `path` is set. -/
def settingPathLoop (bufLen : Nat) (started : Bool) :
    List (Option (List UInt8)) → List UInt8 → Option (Bool × List UInt8)
  | [], m => if started then (strReverse bufLen m 0).map fun m => (true, m) else some (false, m)
  | none :: chain, m => settingPathLoop bufLen started chain m
  | some name :: chain, m =>
      (if started then strcat nul bufLen m [dot] else some m).bind fun m =>
        if sizeT (bufLen - strlen nul m) ≤ name.length then some (false, m)
        else
          (strcat nul bufLen m name).bind fun m =>
            (strReverse bufLen m (strlen nul m - name.length)).bind fun m =>
              settingPathLoop bufLen true chain m

/-- `config_setting_path`, for a buffer of `bufLen` bytes at the begin of `m`. -/
def configSettingPath (chain : List (Option (List UInt8))) (m : List UInt8) (bufLen : Nat) :
    Option (Bool × List UInt8) :=
  settingPathLoop bufLen false chain (List.replicate bufLen nul ++ m.drop bufLen)

/-! ## What it is for -/

/-- The names of a chain, the innermost first. -/
def chainNames (chain : List (Option (List UInt8))) : List (List UInt8) := chain.filterMap id

/-- The names from the outermost to the innermost, joined by dots. -/
def dottedPath (names : List (List UInt8)) : List UInt8 := [dot].intercalate names.reverse

/-- No byte is written outside of the buffer, the path is found to fit exactly if it
does with its `NUL`, and then it stands in the buffer. -/
def PathWritten (chain : List (Option (List UInt8))) (buffer behind : List UInt8) : Prop :=
  ∃ ok m, configSettingPath chain (buffer ++ behind) buffer.length = some (ok, m) ∧
    (ok = true ↔ chainNames chain ≠ [] ∧ (dottedPath (chainNames chain)).length < buffer.length) ∧
    (ok = true → ∃ rest, m = dottedPath (chainNames chain) ++ nul :: rest)

/-! ## The text in the buffer -/

@[simp] theorem dottedPath_singleton (name : List UInt8) : dottedPath [name] = name := by
  simp [dottedPath]

/-- One more name from outside. -/
theorem dottedPath_concat {names : List (List UInt8)} (hne : names ≠ []) (name : List UInt8) :
    dottedPath (names ++ [name]) = name ++ dot :: dottedPath names := by
  have hrev : names.reverse ≠ [] := by simpa using hne
  rw [dottedPath, List.reverse_append, List.reverse_singleton, List.singleton_append,
    List.intercalate_cons_of_ne_nil hrev, List.append_assoc]
  rfl

theorem nul_notMem_dottedPath {names : List (List UInt8)} (h : ∀ name ∈ names, nul ∉ name) :
    nul ∉ dottedPath names := by
  induction names using List.reverseRecOn with
  | nil => exact List.not_mem_nil
  | append_singleton names name ih =>
      have hname := h name (List.mem_append_right names (List.mem_singleton_self name))
      by_cases hne : names = []
      · rwa [hne, List.nil_append, dottedPath_singleton]
      · rw [dottedPath_concat hne, List.mem_append, List.mem_cons]
        refine not_or_intro hname (not_or_intro (by decide) (ih fun n hn => ?_))
        exact h n (List.mem_append_left [name] hn)

/-- More names make the path longer. -/
theorem length_dottedPath_append {names : List (List UInt8)} (hne : names ≠ [])
    (more : List (List UInt8)) :
    (dottedPath names).length ≤ (dottedPath (names ++ more)).length := by
  induction more generalizing names with
  | nil => simp
  | cons name more ih =>
      have hsplit : names ++ name :: more = (names ++ [name]) ++ more := by simp
      have hrest := ih (List.append_ne_nil_of_right_ne_nil names (List.cons_ne_nil name []))
      rw [dottedPath_concat hne, List.length_append, List.length_cons] at hrest
      rw [hsplit]
      omega

theorem sizeT_natCast {n : Nat} (h : n < 2 ^ 64) : sizeT n = n := by
  unfold sizeT
  omega

/-- The path of `names` is found to fit exactly if it does, and then it stands in the
memory. -/
def Writes (bufLen : Nat) (names : List (List UInt8)) (r : Option (Bool × List UInt8)) : Prop :=
  ∃ ok m, r = some (ok, m) ∧ (ok = true ↔ (dottedPath names).length < bufLen) ∧
    (ok = true → ∃ rest, m = dottedPath names ++ nul :: rest)

/-- The path of the first names ends at the last byte of the buffer, and another name
follows. -/
def EndsAtLastByte (bufLen : Nat) (names more : List (List UInt8)) : Prop :=
  ∃ k < more.length, (dottedPath (names ++ more.take k)).length + 1 = bufLen

theorem endsAtLastByte_cons (bufLen : Nat) (names more : List (List UInt8)) (name : List UInt8) :
    EndsAtLastByte bufLen names (name :: more) ↔
      (dottedPath names).length + 1 = bufLen ∨ EndsAtLastByte bufLen (names ++ [name]) more := by
  constructor
  · rintro ⟨k, hk, heq⟩
    cases k with
    | zero => exact .inl (by simpa using heq)
    | succ k => exact .inr ⟨k, Nat.lt_of_succ_lt_succ hk, by simpa using heq⟩
  · rintro (heq | ⟨k, hk, heq⟩)
    · exact ⟨0, by simp, by simpa using heq⟩
    · exact ⟨k + 1, by simpa using hk, by simpa using heq⟩

/-- A path that does not fit ends nowhere in the buffer, whatever follows. -/
theorem not_endsAtLastByte {bufLen : Nat} {names : List (List UInt8)} (hne : names ≠ [])
    (h : bufLen ≤ (dottedPath names).length) (more : List (List UInt8)) :
    ¬ EndsAtLastByte bufLen names more := by
  rintro ⟨k, -, heq⟩
  have hle := length_dottedPath_append hne (more.take k)
  omega

/-- One name is written behind the text in the buffer, and there reversed. -/
theorem append_reversed {bufLen : Nat} {s name b : List UInt8} (hs : nul ∉ s) (hname : nul ∉ name)
    (hb : name.length ≤ b.length) (hroom : s.length + name.length < bufLen) :
    ((strcat nul bufLen (s ++ nul :: b) name).bind fun m =>
        strReverse bufLen m (strlen nul m - name.length)) =
      some ((s ++ name.reverse) ++ nul :: b.drop name.length) := by
  have hlen : strlen nul (s ++ (name ++ nul :: b.drop name.length)) - name.length = s.length := by
    rw [← List.append_assoc, strlen_append (by simp [hs, hname]), List.length_append,
      Nat.add_sub_cancel]
  rw [strcat_eq hs hb hroom, Option.bind_some, hlen, strReverse,
    reverseAt_eq hname (by omega), List.append_assoc]

/-! ## The loop -/

/-- The step of the loop at a name behind the first one: the separator is written behind
the buffer, or the name has no room, or it stands reversed behind the separator. -/
theorem settingPathLoop_name {chain : List (Option (List UInt8))} {bufLen : Nat}
    {s name rest : List UInt8} (hs : nul ∉ s) (hname : nul ∉ name) (hroom : s.length < bufLen)
    (hmem : bufLen ≤ s.length + 1 + rest.length) (hsize : bufLen < 2 ^ 64) :
    settingPathLoop bufLen true (some name :: chain) (s ++ nul :: rest) =
      if s.length + 1 = bufLen then none
      else if bufLen - (s.length + 1) ≤ name.length then
        some (false, (s ++ [dot]) ++ nul :: rest.drop 1)
      else
        settingPathLoop bufLen true chain
          (((s ++ [dot]) ++ name.reverse) ++ nul :: (rest.drop 1).drop name.length) := by
  rw [settingPathLoop, if_pos rfl]
  by_cases hlast : s.length + 1 = bufLen
  · -- the NUL behind the separator lies behind the buffer
    rw [strcat_eq_none hs (by simp; omega), Option.bind_none, if_pos hlast]
  · have hdot : nul ∉ s ++ [dot] := by
      rw [List.mem_append, List.mem_singleton]
      exact not_or_intro hs (by decide)
    have hsep : strcat nul bufLen (s ++ nul :: rest) [dot] =
        some ((s ++ [dot]) ++ nul :: rest.drop 1) := by
      rw [strcat_eq hs (by simp; omega) (by simp; omega), List.append_assoc]
      rfl
    have hlen : (s ++ [dot]).length = s.length + 1 := by simp
    have hleft : sizeT (bufLen - strlen nul ((s ++ [dot]) ++ nul :: rest.drop 1)) =
        bufLen - (s.length + 1) := by
      rw [strlen_append hdot, hlen, sizeT]
      omega
    rw [if_neg hlast, hsep, Option.bind_some, hleft]
    by_cases hfull : bufLen - (s.length + 1) ≤ name.length
    · rw [if_pos hfull, if_pos hfull]
    · have hwritten := @append_reversed bufLen (s ++ [dot]) name (rest.drop 1) hdot hname
        (by rw [List.length_drop]; omega) (by omega)
      rw [if_neg hfull, if_neg hfull, ← Option.bind_assoc, hwritten, Option.bind_some]

/-- The text behind one more name. -/
theorem reversed_name {names : List (List UInt8)} {s name : List UInt8} (hne : names ≠ [])
    (hs : nul ∉ s) (hname : nul ∉ name) (hnames : dottedPath names = s.reverse) :
    nul ∉ (s ++ [dot]) ++ name.reverse ∧
      dottedPath (names ++ [name]) = ((s ++ [dot]) ++ name.reverse).reverse ∧
        ((s ++ [dot]) ++ name.reverse).length = s.length + 1 + name.length := by
  refine ⟨?_, ?_, ?_⟩
  · rw [List.mem_append, List.mem_append, List.mem_singleton, List.mem_reverse]
    exact not_or_intro (not_or_intro hs (by decide)) hname
  · rw [dottedPath_concat hne, hnames]
    simp
  · rw [List.length_append, List.length_append, List.length_singleton, List.length_reverse]

/-- The loop behind the first name. It goes wrong exactly if a separator is appended
to a path that ends at the last byte of the buffer. -/
theorem writes_settingPathLoop_iff {chain : List (Option (List UInt8))}
    {bufLen : Nat} {s rest : List UInt8} {names : List (List UInt8)}
    (hchain : ∀ name ∈ chainNames chain, nul ∉ name) (hne : names ≠ []) (hs : nul ∉ s)
    (hnames : dottedPath names = s.reverse) (hroom : s.length < bufLen)
    (hmem : bufLen ≤ s.length + 1 + rest.length) (hsize : bufLen < 2 ^ 64) :
    Writes bufLen (names ++ chainNames chain)
        (settingPathLoop bufLen true chain (s ++ nul :: rest)) ↔
      ¬ EndsAtLastByte bufLen names (chainNames chain) := by
  have hlength : (dottedPath names).length = s.length := by rw [hnames, List.length_reverse]
  induction chain generalizing s rest names with
  | nil =>
      have hrev : reverseAt nul bufLen ([] ++ (s ++ nul :: rest)) ([] : List UInt8).length =
          some ([] ++ (s.reverse ++ nul :: rest)) := reverseAt_eq hs (by simp; omega)
      simp only [List.nil_append, List.length_nil] at hrev
      have hrun : settingPathLoop bufLen true [] (s ++ nul :: rest) =
          some (true, s.reverse ++ nul :: rest) := by
        rw [settingPathLoop, if_pos rfl, strReverse, hrev, Option.map_some]
      have hpath : names ++ chainNames [] = names := List.append_nil names
      rw [hrun, hpath]
      apply iff_of_true
      · exact ⟨true, _, rfl, by simp [hlength, hroom], fun _ => ⟨rest, by rw [hnames]⟩⟩
      · rintro ⟨k, hk, -⟩
        exact absurd hk (by simp [chainNames])
  | cons item chain ih =>
      cases item with
      | none =>
          have hskip : chainNames (none :: chain) = chainNames chain := rfl
          rw [hskip] at hchain ⊢
          rw [settingPathLoop]
          exact ih hchain hne hs hnames hroom hmem hlength
      | some name =>
          have hcons : chainNames (some name :: chain) = name :: chainNames chain := rfl
          rw [hcons] at hchain ⊢
          have hname : nul ∉ name := hchain name List.mem_cons_self
          have hgrown : (dottedPath (names ++ [name])).length = s.length + 1 + name.length := by
            rw [dottedPath_concat hne, List.length_append, List.length_cons, hlength]
            omega
          have hassoc : names ++ name :: chainNames chain =
              (names ++ [name]) ++ chainNames chain := by simp
          rw [endsAtLastByte_cons, settingPathLoop_name hs hname hroom hmem hsize, hlength, hassoc]
          by_cases hlast : s.length + 1 = bufLen
          · rw [if_pos hlast]
            apply iff_of_false
            · rintro ⟨ok, m, hr, -⟩
              exact absurd hr (by simp)
            · exact fun hnot => hnot (.inl hlast)
          · rw [if_neg hlast]
            by_cases hfull : bufLen - (s.length + 1) ≤ name.length
            · have hlong := length_dottedPath_append
                (List.append_ne_nil_of_right_ne_nil names (List.cons_ne_nil name []))
                (chainNames chain)
              rw [if_pos hfull]
              apply iff_of_true
              · exact ⟨false, _, rfl, by simp only [Bool.false_eq_true, false_iff]; omega, by simp⟩
              · rintro (heq | hends)
                · exact hlast heq
                · exact not_endsAtLastByte (by simp) (by omega) _ hends
            · obtain ⟨hs', hnames', hlen'⟩ := reversed_name hne hs hname hnames
              have hleft' : ((rest.drop 1).drop name.length).length =
                  rest.length - 1 - name.length := by
                rw [List.length_drop, List.length_drop]
              have hrest := ih (fun n hn => hchain n (List.mem_cons_of_mem _ hn))
                (List.append_ne_nil_of_right_ne_nil names (List.cons_ne_nil name [])) hs' hnames'
                (by omega) (show bufLen ≤ _ + 1 + ((rest.drop 1).drop name.length).length by omega)
                (by omega)
              rw [if_neg hfull, not_or]
              exact hrest.trans (and_iff_right hlast).symm

/-- What the loop leaves in the buffer: the path, or a text that ends with a separator. -/
theorem settingPathLoop_text {chain : List (Option (List UInt8))} {bufLen : Nat}
    {s rest m : List UInt8} {ok : Bool} {names : List (List UInt8)}
    (hchain : ∀ name ∈ chainNames chain, nul ∉ name) (hne : names ≠ []) (hs : nul ∉ s)
    (hnames : dottedPath names = s.reverse) (hroom : s.length < bufLen)
    (hmem : bufLen ≤ s.length + 1 + rest.length) (hsize : bufLen < 2 ^ 64)
    (h : settingPathLoop bufLen true chain (s ++ nul :: rest) = some (ok, m)) :
    ∃ t more, m = t ++ nul :: more ∧ nul ∉ t ∧
      (t = dottedPath (names ++ chainNames chain) ∨ t.getLast? = some dot) := by
  induction chain generalizing s rest names with
  | nil =>
      have hrev : reverseAt nul bufLen ([] ++ (s ++ nul :: rest)) ([] : List UInt8).length =
          some ([] ++ (s.reverse ++ nul :: rest)) := reverseAt_eq hs (by simp; omega)
      simp only [List.nil_append, List.length_nil] at hrev
      rw [settingPathLoop, if_pos rfl, strReverse, hrev, Option.map_some, Option.some.injEq,
        Prod.mk.injEq] at h
      refine ⟨s.reverse, rest, h.2.symm, by rwa [List.mem_reverse], .inl ?_⟩
      rw [← hnames, chainNames, List.filterMap_nil, List.append_nil]
  | cons item chain ih =>
      cases item with
      | none => exact ih hchain hne hs hnames hroom hmem h
      | some name =>
          have hcons : chainNames (some name :: chain) = name :: chainNames chain := rfl
          rw [hcons] at hchain ⊢
          have hname : nul ∉ name := hchain name List.mem_cons_self
          rw [settingPathLoop_name hs hname hroom hmem hsize] at h
          split at h
          · cases h
          · rename_i hlast
            split at h
            · obtain ⟨-, rfl⟩ := Prod.mk.inj (Option.some.inj h)
              refine ⟨s ++ [dot], _, rfl, ?_, .inr (by simp)⟩
              rw [List.mem_append, List.mem_singleton]
              exact not_or_intro hs (by decide)
            · rename_i hfull
              obtain ⟨hs', hnames', hlen'⟩ := reversed_name hne hs hname hnames
              have hleft' : ((rest.drop 1).drop name.length).length =
                  rest.length - 1 - name.length := by
                rw [List.length_drop, List.length_drop]
              rw [List.append_cons]
              exact ih (fun n hn => hchain n (List.mem_cons_of_mem _ hn))
                (List.append_ne_nil_of_right_ne_nil names (List.cons_ne_nil name [])) hs' hnames'
                (by omega) (by omega) h

/-! ## The first name -/

theorem pathWritten_iff {chain : List (Option (List UInt8))} {buffer behind : List UInt8} :
    PathWritten chain buffer behind ↔
      chainNames chain ≠ [] ∧ Writes buffer.length (chainNames chain)
          (configSettingPath chain (buffer ++ behind) buffer.length) ∨
        chainNames chain = [] ∧
          ∃ m, configSettingPath chain (buffer ++ behind) buffer.length = some (false, m) := by
  unfold PathWritten Writes
  by_cases hnames : chainNames chain = []
  · simp [hnames]
  · simp [hnames]

/-- The loop up to the first name. -/
theorem settingPathLoop_first (chain : List (Option (List UInt8))) (bufLen : Nat)
    (m : List UInt8) :
    (chainNames chain = [] ∧ settingPathLoop bufLen false chain m = some (false, m)) ∨
      ∃ name rest, chainNames chain = name :: chainNames rest ∧
        settingPathLoop bufLen false chain m =
          settingPathLoop bufLen false (some name :: rest) m := by
  induction chain with
  | nil => exact .inl ⟨rfl, rfl⟩
  | cons item chain ih =>
      cases item with
      | none => exact ih
      | some name => exact .inr ⟨name, chain, rfl, rfl⟩

theorem endsAtLastByte_first (bufLen : Nat) (name : List UInt8) (more : List (List UInt8)) :
    ¬ EndsAtLastByte bufLen [name] more ↔
      ∀ k, 0 < k → k < (name :: more).length →
        (dottedPath ((name :: more).take k)).length + 1 ≠ bufLen := by
  constructor
  · intro hnot k hpos hk heq
    obtain ⟨k, rfl⟩ := Nat.exists_eq_add_one_of_ne_zero (Nat.ne_of_gt hpos)
    exact hnot ⟨k, by simpa using hk, heq⟩
  · rintro hall ⟨k, hk, heq⟩
    exact hall (k + 1) (Nat.succ_pos k) (by simpa using hk) heq

/-- The first name in a buffer of no bytes: it is not written if the test for room
finds the empty string at the address of the buffer. -/
theorem writes_emptyBuffer_iff {name behind : List UInt8} {rest : List (Option (List UInt8))}
    (hsize : behind.length + name.length < 2 ^ 64) :
    Writes 0 (name :: chainNames rest) (settingPathLoop 0 false (some name :: rest) behind) ↔
      strlen nul behind = 0 := by
  have hle : strlen nul behind ≤ behind.length := (List.takeWhile_prefix _).length_le
  rw [settingPathLoop, if_neg Bool.false_ne_true, Option.bind_some]
  by_cases hzero : strlen nul behind = 0
  · have hroom : sizeT ((0 : Nat) - strlen nul behind) ≤ name.length := by
      rw [hzero, sizeT]
      omega
    rw [if_pos hroom]
    exact iff_of_true ⟨false, behind, rfl, by simp, by simp⟩ hzero
  · have hroom : ¬ sizeT ((0 : Nat) - strlen nul behind) ≤ name.length := by
      unfold sizeT
      omega
    have hwrite : strcat nul 0 behind name = none :=
      write_eq_none (List.append_ne_nil_of_right_ne_nil name (List.cons_ne_nil nul []))
        (by rw [List.length_append, List.length_singleton]; omega)
    rw [if_neg hroom, hwrite, Option.bind_none]
    apply iff_of_false
    · rintro ⟨ok, m, hr, -⟩
      exact absurd hr (by simp)
    · exact hzero

/-- The step of the loop at the first name, in a buffer that is filled with `NUL` bytes. -/
theorem settingPathLoop_filled {name behind : List UInt8} {rest : List (Option (List UInt8))}
    {n : Nat} (hname : nul ∉ name) (hsize : n + 1 < 2 ^ 64) :
    settingPathLoop (n + 1) false (some name :: rest) (List.replicate (n + 1) nul ++ behind) =
      if n + 1 ≤ name.length then some (false, List.replicate (n + 1) nul ++ behind)
      else
        settingPathLoop (n + 1) true rest
          (name.reverse ++ nul :: (List.replicate n nul ++ behind).drop name.length) := by
  have hfilled : List.replicate (n + 1) nul ++ behind =
      [] ++ nul :: (List.replicate n nul ++ behind) := rfl
  have hroom : sizeT ((n + 1 : Nat) - strlen nul ([] ++ nul :: (List.replicate n nul ++ behind))) =
      n + 1 := by
    rw [strlen_append List.not_mem_nil, sizeT, List.length_nil]
    omega
  rw [hfilled, settingPathLoop, if_neg Bool.false_ne_true, Option.bind_some, hroom]
  by_cases hfull : n + 1 ≤ name.length
  · rw [if_pos hfull, if_pos hfull]
  · have hwritten := @append_reversed (n + 1) [] name (List.replicate n nul ++ behind)
      List.not_mem_nil hname (by simp; omega) (by rw [List.length_nil]; omega)
    rw [if_neg hfull, if_neg hfull, ← Option.bind_assoc, hwritten, Option.bind_some,
      List.nil_append]

/-- The first name in a buffer that is filled with `NUL` bytes. -/
theorem writes_first_iff {name behind : List UInt8} {rest : List (Option (List UInt8))} {n : Nat}
    (hname : nul ∉ name) (hrest : ∀ name ∈ chainNames rest, nul ∉ name) (hsize : n + 1 < 2 ^ 64) :
    Writes (n + 1) (name :: chainNames rest)
        (settingPathLoop (n + 1) false (some name :: rest)
          (List.replicate (n + 1) nul ++ behind)) ↔
      ¬ EndsAtLastByte (n + 1) [name] (chainNames rest) := by
  rw [settingPathLoop_filled hname hsize]
  by_cases hfull : n + 1 ≤ name.length
  · have hlong := length_dottedPath_append (List.cons_ne_nil name []) (chainNames rest)
    rw [dottedPath_singleton, List.singleton_append] at hlong
    rw [if_pos hfull]
    apply iff_of_true
    · exact ⟨false, _, rfl, by simp only [Bool.false_eq_true, false_iff]; omega, by simp⟩
    · exact not_endsAtLastByte (by simp) (by rw [dottedPath_singleton]; exact hfull) _
  · rw [if_neg hfull]
    exact writes_settingPathLoop_iff hrest (List.cons_ne_nil name []) (by simpa using hname)
      (by simp) (by simp; omega) (by simp; omega) hsize

/-- A path is written into a buffer that has room. -/
theorem configSettingPath_of_room {chain : List (Option (List UInt8))} {out behind : List UInt8}
    (hchain : ∀ name ∈ chainNames chain, nul ∉ name) (hne : chainNames chain ≠ [])
    (hroom : (dottedPath (chainNames chain)).length + 1 < out.length)
    (hsize : out.length < 2 ^ 64) :
    ∃ rest, configSettingPath chain (out ++ behind) out.length =
      some (true, dottedPath (chainNames chain) ++ nul :: rest) := by
  have hmem : List.replicate out.length nul ++ (out ++ behind).drop out.length =
      List.replicate out.length nul ++ behind := by rw [List.drop_left]
  obtain ⟨n, hn⟩ : ∃ n, out.length = n + 1 := ⟨out.length - 1, by omega⟩
  rcases settingPathLoop_first chain out.length
    (List.replicate out.length nul ++ behind) with ⟨hnone, -⟩ | ⟨name, rest, hnames, hrun⟩
  · exact absurd hnone hne
  · rw [hnames] at hchain
    have hends : ¬EndsAtLastByte (n + 1) [name] (chainNames rest) := by
      rintro ⟨k, hk, heq⟩
      have heq' : (dottedPath ([name] ++ (chainNames rest).take k)).length = n := Nat.succ.inj heq
      have hle := length_dottedPath_append
        (List.append_ne_nil_of_left_ne_nil (List.cons_ne_nil name []) ((chainNames rest).take k))
        ((chainNames rest).drop k)
      rw [List.append_assoc, List.take_append_drop, heq'] at hle
      rw [hnames, ← List.singleton_append] at hroom
      omega
    obtain ⟨ok, m, heq, hok, hm⟩ := (@writes_first_iff name behind rest n
      (hchain name List.mem_cons_self) (fun n hn => hchain n (List.mem_cons_of_mem name hn))
      (hn ▸ hsize)).2 hends
    have htrue : ok = true := by
      rw [hok, ← hnames, ← hn]
      exact Nat.lt_of_succ_lt hroom
    obtain ⟨rest', hrest⟩ := hm htrue
    refine ⟨rest', ?_⟩
    rw [configSettingPath, hmem, hrun, hn, heq, htrue, hrest, hnames]

/-- What `config_setting_path` leaves in a buffer, whatever it returns: the path, or a text
that is empty or ends with a separator. -/
theorem configSettingPath_text {chain : List (Option (List UInt8))} {n : Nat} {ok : Bool}
    {m : List UInt8} (hchain : ∀ name ∈ chainNames chain, nul ∉ name) (hsize : n + 1 < 2 ^ 64)
    (h : configSettingPath chain (List.replicate (n + 1) nul) (n + 1) = some (ok, m)) :
    ∃ t more, m = t ++ nul :: more ∧ nul ∉ t ∧
      (t = dottedPath (chainNames chain) ∨ t = [] ∨ t.getLast? = some dot) := by
  have hmem : List.replicate (n + 1) nul ++ (List.replicate (n + 1) nul).drop (n + 1) =
      List.replicate (n + 1) nul ++ [] := by simp
  rw [configSettingPath, hmem] at h
  rcases settingPathLoop_first chain (n + 1) (List.replicate (n + 1) nul ++ []) with
    ⟨hnone, hrun⟩ | ⟨name, rest, hnames, hrun⟩
  · rw [hrun, Option.some.injEq, Prod.mk.injEq] at h
    refine ⟨[], List.replicate n nul, ?_, List.not_mem_nil, .inr (.inl rfl)⟩
    rw [← h.2, List.append_nil]
    rfl
  · rw [hnames] at hchain ⊢
    have hname := hchain name List.mem_cons_self
    rw [hrun, settingPathLoop_filled hname hsize] at h
    split at h
    · rw [Option.some.injEq, Prod.mk.injEq] at h
      refine ⟨[], List.replicate n nul, ?_, List.not_mem_nil, .inr (.inl rfl)⟩
      rw [← h.2, List.append_nil]
      rfl
    · rename_i hfull
      obtain ⟨t, more, hm, ht, htext⟩ := settingPathLoop_text
        (fun n hn => hchain n (List.mem_cons_of_mem name hn)) (List.cons_ne_nil name [])
        (by simpa using hname) (by simp) (by simp; omega) (by simp; omega) hsize h
      rw [List.singleton_append] at htext
      exact ⟨t, more, hm, ht, htext.imp_right .inr⟩

/-- `config_setting_path` does what it is for, unless a separator is appended to a path
that ends at the last byte of the buffer, or the buffer is empty and the byte at its
address is not a `NUL`. -/
theorem pathWritten_iff_roomForSeparator {chain : List (Option (List UInt8))}
    {buffer behind : List UInt8} (hchain : ∀ name ∈ chainNames chain, nul ∉ name)
    (hsize : (buffer ++ behind).length + (chainNames chain).flatten.length < 2 ^ 64) :
    PathWritten chain buffer behind ↔
      (∀ k, 0 < k → k < (chainNames chain).length →
        (dottedPath ((chainNames chain).take k)).length + 1 ≠ buffer.length) ∧
      (buffer = [] → chainNames chain = [] ∨ strlen nul behind = 0) := by
  have hmem : List.replicate buffer.length nul ++ (buffer ++ behind).drop buffer.length =
      List.replicate buffer.length nul ++ behind := by rw [List.drop_left]
  rw [pathWritten_iff, configSettingPath, hmem]
  rcases settingPathLoop_first chain buffer.length
    (List.replicate buffer.length nul ++ behind) with ⟨hnone, hrun⟩ | ⟨name, rest, hnames, hrun⟩
  · rw [hnone, hrun]
    simp
  · rw [hnames] at hchain hsize ⊢
    simp only [List.length_append, List.flatten_cons] at hsize
    have hone : ∀ P : Prop, (name :: chainNames rest ≠ [] ∧ P ∨ name :: chainNames rest = [] ∧
        ∃ m, settingPathLoop buffer.length false chain
          (List.replicate buffer.length nul ++ behind) = some (false, m)) ↔ P := by
      intro P
      simp
    rw [hone, hrun, ← endsAtLastByte_first]
    cases buffer with
    | nil =>
        have hnot : ¬ EndsAtLastByte 0 [name] (chainNames rest) :=
          not_endsAtLastByte (List.cons_ne_nil name []) (Nat.zero_le _) _
        have hempty := @writes_emptyBuffer_iff name behind rest (by omega)
        simpa [hnot] using hempty
    | cons c buffer =>
        have hfirst := @writes_first_iff name behind rest buffer.length
          (hchain name List.mem_cons_self) (fun n hn => hchain n (List.mem_cons_of_mem name hn))
          (by rw [List.length_cons] at hsize; omega)
        simpa using hfirst

/-- A setting of an included file, in a buffer its path fits exactly. -/
theorem pathWritten_listen :
    PathWritten [some (ascii "listen"), none, some (ascii "server"), none]
      (List.replicate 14 space) [space] :=
  (pathWritten_iff_roomForSeparator (by decide +kernel) (by decide +kernel)).2
    ⟨fun k hpos hk => by
      obtain rfl : k = 1 := Nat.le_antisymm (Nat.le_of_lt_succ hk) hpos
      decide +kernel, by decide⟩

/-- The setting `a` of the group `b` in a buffer of two bytes: the `NUL` behind the
separator is written behind the buffer. -/
theorem not_pathWritten_twoBytes :
    ¬ PathWritten [some (ascii "a"), some (ascii "b"), none] [space, space] [space] := by
  rintro ⟨ok, m, hrun, -⟩
  have hnone : configSettingPath [some (ascii "a"), some (ascii "b"), none]
      ([space, space] ++ [space]) 2 = none := by decide +kernel
  exact absurd (hnone.symm.trans hrun) (by simp)

end OpenTube
