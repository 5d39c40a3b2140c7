import Mathlib.Data.Finset.Card
import Mathlib.Data.List.Sublists
import Mathlib.Data.Set.Finite.Lattice
import OpenTube.Config.Passes

/-!
# Includes terminate

A file is included only if its name is not that of a file that is being read, so the
recursion goes down along chains of different names. A name is a part of the text it
is found in, and with finitely many texts there are finitely many names: the number
of names that are not on the chain, and then the length of the text that is left,
decrease with every call.
-/

namespace OpenTube

/-! ## Calls -/

/-- The passes of `config_parse_childs` in a run of `config_read`, also of one that
fails later: where a pass begins, and the files that are being read there. -/
inductive Called (files : ConfigFiles) (file content : List UInt8) :
    Bool → List (List UInt8) → List Span → Place → Prop
  | main (hvalid : quickValidate file content = none) :
      Called files file content true [file] [] ([], content ++ [nul, nul])
  | included {root chain names p name q text} (hcall : Called files file content root chain names p)
      (hitem : configItem root chain names p = .command name q)
      (hload : loadIncluded files name = .ok text) :
      Called files file content false (name :: chain) [] ([], text ++ [nul, nul])
  | behindCommand {root chain names p name q text childs r}
      (hcall : Called files file content root chain names p)
      (hitem : configItem root chain names p = .command name q)
      (hload : loadIncluded files name = .ok text)
      (hchilds : Parses files false (name :: chain) [] ([], text ++ [nul, nul]) childs r) :
      Called files file content root chain names q
  | group {root chain names p line name value inner}
      (hcall : Called files file content root chain names p)
      (hitem : configItem root chain names p = .group line name value inner) :
      Called files file content false chain [] inner
  | behindGroup {root chain names p line name value inner childs r}
      (hcall : Called files file content root chain names p)
      (hitem : configItem root chain names p = .group line name value inner)
      (hchilds : Parses files false chain [] inner childs r) :
      Called files file content root chain (names ++ [name]) r.jump.semicolon
  | behindScalar {root chain names p line name value r}
      (hcall : Called files file content root chain names p)
      (hitem : configItem root chain names p = .scalar line name value r) :
      Called files file content root chain (names ++ [name]) r

variable {files : ConfigFiles} {n m : Nat} {root : Bool} {chain : List (List UInt8)}
  {names : List Span} {p q : Place}

theorem configItem_command {file : List UInt8}
    (h : configItem root chain names p = .command file q) :
    file ∉ chain ∧ file <:+: p.2 := by
  have hfound := found_configItem root chain names p
  rw [h] at hfound
  obtain ⟨-, hnew, rest, hrest, -, -⟩ := Place.parseCommand_eq_ok hfound.2
  refine ⟨hnew, ?_⟩
  have hname : file <:+: ((p.enter.pass 1).pass 7).jump.2 :=
    ⟨[quote], quote :: rest, by rw [hrest]; simp⟩
  have hsuffix := (p.advances_enter.trans ((p.enter.advances_pass 1).trans
    ((Place.advances_pass _ 7).trans (Place.advances_jump _)))).suffix
  exact hname.trans hsuffix.isInfix

/-- The files that are being read are different. -/
theorem Called.nodup {file content : List UInt8} (h : Called files file content root chain names p) :
    chain.Nodup := by
  induction h with
  | main hvalid => exact List.nodup_singleton file
  | included hcall hitem hload ih => exact List.nodup_cons.2 ⟨(configItem_command hitem).1, ih⟩
  | behindCommand hcall hitem hload hchilds ih => exact ih
  | group hcall hitem ih => exact ih
  | behindGroup hcall hitem hchilds ih => exact ih
  | behindScalar hcall hitem ih => exact ih

/-! ## Steps -/

/-- A result that is not out of steps stays the same. -/
def ConfigResult.Below {α : Type} (r s : ConfigResult α) : Prop := r ≠ .outOfSteps → s = r

theorem ConfigResult.Below.refl {α : Type} (r : ConfigResult α) : r.Below r := fun _ => rfl

theorem ConfigResult.Below.andThen {α β : Type} {r s : ConfigResult α} {f g : α → ConfigResult β}
    (h : r.Below s) (hfg : ∀ a, (f a).Below (g a)) : (r.andThen f).Below (s.andThen g) := by
  cases r with
  | outOfSteps => exact fun hne => absurd rfl hne
  | error e =>
      rw [h (by simp)]
      exact .refl _
  | ok a =>
      rw [h (by simp)]
      exact hfg a

/-- More steps do not change a result. -/
theorem below_parseChilds (hnm : n ≤ m) :
    (parseChilds files n root chain names p).Below (parseChilds files m root chain names p) := by
  induction n generalizing m root chain names p with
  | zero => exact fun hne => absurd rfl hne
  | succ n ih =>
      obtain ⟨m, rfl⟩ := Nat.exists_eq_succ_of_ne_zero (Nat.ne_of_gt (Nat.lt_of_lt_of_le
        (Nat.succ_pos n) hnm))
      have hle : n ≤ m := Nat.le_of_succ_le_succ hnm
      rw [parseChilds_succ, Nat.succ_eq_add_one, parseChilds_succ]
      cases configItem root chain names p with
      | finish q => exact .refl _
      | error e => exact .refl _
      | command file q =>
          exact (ConfigResult.Below.refl _).andThen fun content =>
            (ih hle).andThen fun a => (ih hle).andThen fun b => .refl _
      | group line name value inner =>
          exact (ih hle).andThen fun a => (ih hle).andThen fun b => .refl _
      | scalar line name value r => exact (ih hle).andThen fun b => .refl _

/-- The recursion ends from a place on. -/
def ParseEnds (files : ConfigFiles) (root : Bool) (chain : List (List UInt8)) (names : List Span)
    (p : Place) : Prop :=
  ∃ n, parseChilds files n root chain names p ≠ .outOfSteps

theorem ParseEnds.exists_forall (h : ParseEnds files root chain names p) :
    ∃ n, ∀ m, n ≤ m → parseChilds files m root chain names p ≠ .outOfSteps := by
  obtain ⟨n, hn⟩ := h
  refine ⟨n, fun m hnm => ?_⟩
  rw [below_parseChilds hnm hn]
  exact hn

theorem ConfigResult.andThen_ne {α β : Type} {r : ConfigResult α} {f : α → ConfigResult β}
    (hr : r ≠ .outOfSteps) (hf : ∀ a, r = .ok a → f a ≠ .outOfSteps) :
    r.andThen f ≠ .outOfSteps := by
  cases r with
  | outOfSteps => exact absurd rfl hr
  | error e => simp [ConfigResult.andThen]
  | ok a => exact hf a rfl

/-- A pass ends if the calls it makes end. -/
theorem parseEnds_of_calls
    (hcommand : ∀ file q content, configItem root chain names p = .command file q →
      loadIncluded files file = .ok content →
      ParseEnds files false (file :: chain) [] ([], content ++ [nul, nul]) ∧
        ParseEnds files root chain names q)
    (hgroup : ∀ line name value inner, configItem root chain names p = .group line name value inner →
      ParseEnds files false chain [] inner ∧ ∀ childs r, Parses files false chain [] inner childs r →
        ParseEnds files root chain (names ++ [name]) r.jump.semicolon)
    (hscalar : ∀ line name value r, configItem root chain names p = .scalar line name value r →
      ParseEnds files root chain (names ++ [name]) r) :
    ParseEnds files root chain names p := by
  cases hitem : configItem root chain names p with
  | finish q => exact ⟨1, by rw [parseChilds_succ, hitem]; simp⟩
  | error e => exact ⟨1, by rw [parseChilds_succ, hitem]; simp⟩
  | command file q =>
      cases hload : loadIncluded files file with
      | error e =>
          refine ⟨1, ?_⟩
          rw [parseChilds_succ, hitem]
          simp [hload, ConfigResult.lift, ConfigResult.andThen]
      | ok content =>
          obtain ⟨hchilds, hnext⟩ := hcommand file q content hitem hload
          obtain ⟨n, hn⟩ := hchilds.exists_forall
          obtain ⟨m, hm⟩ := hnext.exists_forall
          refine ⟨max n m + 1, ?_⟩
          rw [parseChilds_succ, hitem]
          simp only [hload, ConfigResult.lift, ConfigResult.andThen_ok]
          exact ConfigResult.andThen_ne (hn _ (Nat.le_max_left n m)) fun a _ =>
            ConfigResult.andThen_ne (hm _ (Nat.le_max_right n m)) fun b _ => by simp
  | group line name value inner =>
      obtain ⟨hchilds, hnext⟩ := hgroup line name value inner hitem
      obtain ⟨n, hn⟩ := hchilds.exists_forall
      cases hrun : parseChilds files n false chain [] inner with
      | outOfSteps => exact absurd hrun (hn n (Nat.le_refl n))
      | error e =>
          refine ⟨n + 1, ?_⟩
          rw [parseChilds_succ, hitem]
          simp [hrun, ConfigResult.andThen]
      | ok a =>
          obtain ⟨m, hm⟩ := (hnext a.1 a.2 (parses_of_parseChilds hrun)).exists_forall
          refine ⟨max n m + 1, ?_⟩
          have hsame : parseChilds files (max n m) false chain [] inner = .ok a :=
            (below_parseChilds (Nat.le_max_left n m) (by rw [hrun]; simp)).trans hrun
          rw [parseChilds_succ, hitem]
          simp only [hsame, ConfigResult.andThen_ok]
          exact ConfigResult.andThen_ne (hm _ (Nat.le_max_right n m)) fun b _ => by simp
  | scalar line name value r =>
      obtain ⟨m, hm⟩ := hscalar line name value r hitem
      refine ⟨m + 1, ?_⟩
      rw [parseChilds_succ, hitem]
      exact ConfigResult.andThen_ne hm fun b _ => by simp

/-! ## The measure -/

/-- The parts of finitely many texts are finitely many. -/
theorem exists_infixes {texts : Set (List UInt8)} (h : texts.Finite) :
    ∃ parts : Finset (List UInt8), ∀ text ∈ texts, ∀ part, part <:+: text → part ∈ parts := by
  classical
  refine ⟨h.toFinset.biUnion fun text => text.sublists.toFinset, fun text htext part hpart => ?_⟩
  rw [Finset.mem_biUnion]
  exact ⟨text, h.mem_toFinset.2 htext,
    List.mem_toFinset.2 (List.mem_sublists.2 hpart.sublist)⟩

/-- Putting a new name on the chain leaves fewer names for it. -/
theorem card_off_chain_lt {parts : Finset (List UInt8)} {file : List UInt8} (hpart : file ∈ parts)
    (hnew : file ∉ chain) :
    (parts.filter (· ∉ file :: chain)).card < (parts.filter (· ∉ chain)).card := by
  apply Finset.card_lt_card
  refine ⟨fun name hname => ?_, fun hsub => ?_⟩
  · rw [Finset.mem_filter] at hname ⊢
    exact ⟨hname.1, fun hmem => hname.2 (List.mem_cons_of_mem file hmem)⟩
  · have hmem := hsub (Finset.mem_filter.2 ⟨hpart, hnew⟩)
    exact (Finset.mem_filter.1 hmem).2 List.mem_cons_self

theorem loadIncluded_eq_ok {file content : List UInt8} (h : loadIncluded files file = .ok content) :
    files file = some content ∧ quickValidate file content = none := by
  unfold loadIncluded at h
  split at h
  · exact absurd h (by simp)
  · split at h
    · exact absurd h (by simp)
    · rename_i hopen _ hvalid
      obtain rfl := Except.ok.inj h
      exact ⟨hopen, hvalid⟩

/-- The recursion ends, by induction on the names that are not on the chain and on the
text that is left. -/
theorem parseEnds_of_finite {texts : Set (List UInt8)} (hfinite : texts.Finite)
    (hfiles : ∀ file content, files file = some content → content ++ [nul, nul] ∈ texts)
    (hplace : ∃ text ∈ texts, p.2 <:+ text) : ParseEnds files root chain names p := by
  obtain ⟨parts, hparts⟩ := exists_infixes hfinite
  generalize hd : (parts.filter (· ∉ chain)).card = d
  induction d using Nat.strong_induction_on generalizing root chain names p with
  | _ d ihchain =>
      generalize hl : p.2.length = l
      induction l using Nat.strong_induction_on generalizing root names p with
      | _ l ihtext =>
          obtain ⟨text, htext, hsuffix⟩ := hplace
          -- a call further on in the same text
          have hon : ∀ {q : Place} (root : Bool) (names : List Span), q.2 <:+ p.2 →
              q.2.length < p.2.length → ParseEnds files root chain names q :=
            fun {q} root names hq hlt =>
              ihtext q.2.length (hl ▸ hlt) ⟨text, htext, hq.trans hsuffix⟩ rfl
          apply parseEnds_of_calls
          · intro file q content hitem hload
            have hbehind : (configItem root chain names p).behind = some q := by rw [hitem]; rfl
            obtain ⟨hnew, hname⟩ := configItem_command hitem
            have hpart : file ∈ parts := hparts text htext file (hname.trans hsuffix.isInfix)
            refine ⟨?_, hon root names (advances_configItem hbehind).suffix
              (length_configItem hbehind fun r heq => by rw [hitem] at heq; cases heq)⟩
            exact ihchain _ (hd ▸ card_off_chain_lt hpart hnew)
              ⟨_, hfiles file content (loadIncluded_eq_ok hload).1, List.suffix_refl _⟩ rfl
          · intro line name value inner hitem
            have hbehind : (configItem root chain names p).behind = some inner := by rw [hitem]; rfl
            have hadv := advances_configItem hbehind
            have hlt := length_configItem hbehind fun r heq => by rw [hitem] at heq; cases heq
            refine ⟨hon false [] hadv.suffix hlt, fun childs r hchilds => ?_⟩
            have hrest := hchilds.advances.trans
              (r.advances_jump.trans (Place.advances_semicolon _))
            exact hon root (names ++ [name]) (hadv.trans hrest).suffix
              (Nat.lt_of_le_of_lt hrest.length_le hlt)
          · intro line name value r hitem
            have hbehind : (configItem root chain names p).behind = some r := by rw [hitem]; rfl
            exact hon root (names ++ [name]) (advances_configItem hbehind).suffix
              (length_configItem hbehind fun r heq => by rw [hitem] at heq; cases heq)

/-! ## Reading a configuration -/

/-- With finitely many files `config_read` ends, however many of their names denote one
file, and the files that are being read at any time are different. -/
theorem configRead_terminates (files : ConfigFiles) (file content : List UInt8)
    (hfinite : (Set.range files).Finite) :
    (∃ steps r, r ≠ .outOfSteps ∧ ∀ m, steps ≤ m → configRead files m file content = r) ∧
      ∀ root chain names p, Called files file content root chain names p → chain.Nodup := by
  refine ⟨?_, fun root chain names p hcall => hcall.nodup⟩
  have htexts : (insert (content ++ [nul, nul])
      {text | ∃ c, some c ∈ Set.range files ∧ text = c ++ [nul, nul]}).Finite := by
    refine Set.Finite.insert _ ?_
    refine (hfinite.image fun o => o.getD [] ++ [nul, nul]).subset ?_
    rintro text ⟨c, hc, rfl⟩
    exact ⟨some c, hc, rfl⟩
  have hends : ParseEnds files true [file] [] ([], content ++ [nul, nul]) :=
    parseEnds_of_finite htexts (fun name c hname => .inr ⟨c, ⟨name, hname⟩, rfl⟩)
      ⟨_, Set.mem_insert _ _, List.suffix_refl _⟩
  obtain ⟨n, hn⟩ := hends
  cases hvalid : quickValidate file content with
  | some e =>
      refine ⟨0, .error e, by simp, fun m _ => ?_⟩
      simp [configRead, hvalid]
  | none =>
      refine ⟨n, configRead files n file content, ?_, fun m hnm => ?_⟩
      · simp only [configRead, hvalid]
        exact ConfigResult.andThen_ne hn fun a _ => by simp
      · simp only [configRead, hvalid]
        rw [below_parseChilds hnm hn]

/-- Two files that include each other, the second by two names. -/
def mutualIncludes : ConfigFiles := fun file =>
  if file = ascii "a" then some (ascii "@include \"b\"; @include \"./b\";")
  else if file = ascii "b" ∨ file = ascii "./b" then some (ascii "@include \"a\";")
  else none

theorem configRead_mutualIncludes :
    (∃ steps r, r ≠ .outOfSteps ∧ ∀ m, steps ≤ m →
      configRead mutualIncludes m (ascii "a") (ascii "@include \"b\"; @include \"./b\";") = r) ∧
      ∀ root chain names p, Called mutualIncludes (ascii "a")
        (ascii "@include \"b\"; @include \"./b\";") root chain names p → chain.Nodup := by
  apply configRead_terminates
  refine Set.Finite.subset (Set.toFinite {none, some (ascii "@include \"b\"; @include \"./b\";"),
    some (ascii "@include \"a\";")}) ?_
  rintro _ ⟨file, rfl⟩
  unfold mutualIncludes
  split_ifs <;> simp

end OpenTube
