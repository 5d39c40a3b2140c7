import OpenTube.Config.Lookup

/-!
# What is found at a path

Everything `config_lookup` finds lies at least as deep as the path is long. What lies
deeper was found by a second walk: the loop goes on from a setting of an included file
with components that lead to it. So a lookup goes wrong in two ways only. It ends below
the setting that is meant, or a child hides the rest of the path, which is in an included
file.
-/

namespace OpenTube

/-! ## Names -/

/-- The names of a chain, the outermost first. -/
theorem chainNames_some (name : List UInt8) (up : List (Option (List UInt8))) :
    (chainNames (some name :: up)).reverse = (chainNames up).reverse ++ [name] := by
  have hcons : chainNames (some name :: up) = name :: chainNames up := rfl
  rw [hcons, List.reverse_cons]

theorem chainNames_none (up : List (Option (List UInt8))) :
    chainNames (none :: up) = chainNames up := rfl

/-- A setting below another has more names. -/
theorem names_of_mem_settings {doc : ConfigDoc} {up : List (Option (List UInt8))}
    {x : ConfigSetting} (h : x ∈ doc.settings up) :
    ∃ more, more ≠ [] ∧ x.names = (chainNames up).reverse ++ more := by
  induction doc generalizing up with
  | nil => exact absurd h List.not_mem_nil
  | setting name value childs next ihchilds ihnext =>
      rw [ConfigDoc.settings, List.mem_cons, List.mem_append] at h
      rcases h with rfl | h | h
      · exact ⟨[name], List.cons_ne_nil name [], chainNames_some name up⟩
      · obtain ⟨more, -, hx⟩ := ihchilds h
        rw [chainNames_some, List.append_assoc] at hx
        exact ⟨[name] ++ more, List.cons_ne_nil name more, hx⟩
      · exact ihnext h
  | included file childs next ihchilds ihnext =>
      rw [ConfigDoc.settings, List.mem_append] at h
      exact h.elim ihchilds ihnext

/-! ## Children and included files -/

namespace ConfigSetting

/-- The child that is found, and its name. -/
theorem names_of_find {s x : ConfigSetting} {name : List UInt8} (h : s.find name = some x) :
    x.names = s.names ++ [name] := by
  unfold find at h
  have hall : ∀ (up : List (Option (List UInt8))) (doc : ConfigDoc),
      configFindChildByName up name doc = some x → x.names = (chainNames up).reverse ++ [name] := by
    intro up doc h
    induction doc with
    | nil => cases h
    | setting other value childs next _ ihnext =>
        rw [configFindChildByName] at h
        split_ifs at h with hname
        · rw [← Option.some.inj h, ← hname]
          exact chainNames_some other up
        · exact ihnext h
    | included file childs next _ ihnext => exact ihnext h
  exact hall s.chain s.childs h

theorem names_of_includes {s g : ConfigSetting} (h : g ∈ s.includes) : g.names = s.names := by
  unfold includes at h
  have hall : ∀ (up : List (Option (List UInt8))) (doc : ConfigDoc),
      g ∈ doc.includeNodes up → g.names = (chainNames up).reverse := by
    intro up doc h
    induction doc with
    | nil => exact absurd h List.not_mem_nil
    | setting other value childs next _ ihnext => exact ihnext h
    | included file childs next _ ihnext =>
        rw [ConfigDoc.includeNodes, List.mem_cons] at h
        rcases h with rfl | h
        · exact congrArg List.reverse (chainNames_none up)
        · exact ihnext h
  exact hall s.chain s.childs h

/-- What holds of a setting if it holds of the files that are included in it, holds of
every setting. -/
theorem includes_induction {P : ConfigSetting → Prop}
    (h : ∀ s : ConfigSetting, (∀ g ∈ s.includes, P g) → P s) (s : ConfigSetting) : P s := by
  have hall : ∀ (doc : ConfigDoc) (up : List (Option (List UInt8))),
      ∀ g ∈ doc.includeNodes up, P g := by
    intro doc
    induction doc with
    | nil => exact fun up g hg => absurd hg List.not_mem_nil
    | setting other value childs next _ ihnext => exact ihnext
    | included file childs next ihchilds ihnext =>
        intro up g hg
        rw [ConfigDoc.includeNodes, List.mem_cons] at hg
        rcases hg with rfl | hg
        · exact h _ (ihchilds (none :: up))
        · exact ihnext up g hg
  exact h s (hall s.childs s.chain)

/-! ## The settings at a path -/

/-- The settings of a child at the rest of a path. -/
theorem sublist_settingsAt_of_find {s x : ConfigSetting} {name : List UInt8}
    (h : s.find name = some x) (rest : List (List UInt8)) :
    (x.settingsAt rest).Sublist (s.settingsAt (name :: rest)) := by
  have hnames : x.names ++ rest = s.names ++ name :: rest := by
    rw [names_of_find h, List.append_assoc, List.singleton_append]
  rw [settingsAt, settingsAt, hnames]
  apply List.Sublist.filter
  unfold find at h
  generalize s.childs = doc at h
  induction doc with
  | nil => cases h
  | setting other value childs next _ ihnext =>
      rw [configFindChildByName] at h
      rw [ConfigDoc.settings]
      split_ifs at h with hname
      · rw [← Option.some.inj h]
        exact (List.sublist_append_left _ _).cons _
      · exact ((ihnext h).trans (List.sublist_append_right _ _)).cons _
  | included file childs next _ ihnext =>
      exact (ihnext h).trans (List.sublist_append_right _ _)

/-- A child is a setting at its name. -/
theorem mem_settingsAt_of_find {s x : ConfigSetting} {name : List UInt8}
    (h : s.find name = some x) : x ∈ s.settingsAt [name] := by
  rw [settingsAt, List.mem_filter, decide_eq_true_eq]
  refine ⟨?_, names_of_find h⟩
  unfold find at h
  generalize s.childs = doc at h
  induction doc with
  | nil => cases h
  | setting other value childs next _ ihnext =>
      rw [configFindChildByName] at h
      rw [ConfigDoc.settings, List.mem_cons, List.mem_append]
      split_ifs at h with hname
      · exact .inl (Option.some.inj h).symm
      · exact .inr (.inr (ihnext h))
  | included file childs next _ ihnext =>
      rw [ConfigDoc.settings, List.mem_append]
      exact .inr (ihnext h)

/-- Without a child of the name all settings at the path are in the included files. -/
theorem settingsAt_of_find_none {s : ConfigSetting} {name : List UInt8} (h : s.find name = none)
    (rest : List (List UInt8)) :
    s.settingsAt (name :: rest) = s.includes.flatMap fun g => g.settingsAt (name :: rest) := by
  have hall : ∀ (up : List (Option (List UInt8))) (doc : ConfigDoc),
      configFindChildByName up name doc = none →
      (doc.settings up).filter (fun x => x.names = (chainNames up).reverse ++ name :: rest) =
        (doc.includeNodes up).flatMap fun g => g.settingsAt (name :: rest) := by
    intro up doc h
    induction doc with
    | nil => rfl
    | setting other value childs next _ ihnext =>
        rw [configFindChildByName] at h
        split_ifs at h with hname
        have hother : ∀ more, (chainNames up).reverse ++ other :: more ≠
            (chainNames up).reverse ++ name :: rest := fun more heq =>
          hname (List.cons.inj (List.append_cancel_left heq)).1
        have hself : ¬((⟨some other :: up, value, childs⟩ : ConfigSetting).names =
            (chainNames up).reverse ++ name :: rest) := by
          have hnames := chainNames_some other up
          exact fun heq => hother [] (hnames.symm.trans heq)
        have hchilds : (childs.settings (some other :: up)).filter
            (fun x => x.names = (chainNames up).reverse ++ name :: rest) = [] := by
          rw [List.filter_eq_nil_iff]
          intro x hx hyes
          obtain ⟨more, -, hnames⟩ := names_of_mem_settings hx
          rw [chainNames_some, List.append_assoc, List.singleton_append] at hnames
          exact hother more (hnames.symm.trans (of_decide_eq_true hyes))
        rw [ConfigDoc.settings, List.filter_cons_of_neg (by simpa using hself),
          List.filter_append, hchilds, List.nil_append, ihnext h]
        rfl
    | included file childs next _ ihnext =>
        rw [ConfigDoc.settings, List.filter_append, ihnext h, ConfigDoc.includeNodes,
          List.flatMap_cons]
        rfl
  exact hall s.chain s.childs h

end ConfigSetting

/-! ## One round -/

theorem lookupIncluded_included
    (next : ConfigSetting → Option ConfigSetting → Option ConfigSetting) (name : List UInt8)
    (up : List (Option (List UInt8))) (file : List UInt8) (childs rest : ConfigDoc)
    (kept : Option ConfigSetting) :
    lookupIncluded next name up (.included file childs rest) kept =
      match lookupRound next name ⟨none :: up, .group, childs⟩ none with
      | some m => some m
      | none => lookupIncluded next name up rest none := rfl

/-- The loop over the included files stops at the first in which something is found. -/
theorem lookupIncluded_eq (next : ConfigSetting → Option ConfigSetting → Option ConfigSetting)
    (name : List UInt8) (up : List (Option (List UInt8))) (doc : ConfigDoc)
    (kept : Option ConfigSetting) :
    lookupIncluded next name up doc kept =
      if doc.includeNodes up = [] then kept
      else (doc.includeNodes up).findSome? fun g => lookupRound next name g none := by
  induction doc generalizing kept with
  | nil => rfl
  | setting other value childs rest _ ihrest => exact ihrest kept
  | included file childs rest _ ihrest =>
      rw [lookupIncluded_included, ConfigDoc.includeNodes, if_neg (List.cons_ne_nil _ _),
        List.findSome?_cons, ihrest none]
      split
      · rename_i m hfound
        simp only [hfound]
      · rename_i hfound
        simp only [hfound]
        split
        · rename_i hempty
          rw [hempty, List.findSome?_nil]
        · rfl

/-- What is done behind a component. -/
def lookupBehind (rest : List (List UInt8)) (x : ConfigSetting) (kept : Option ConfigSetting) :
    Option ConfigSetting :=
  if rest = [] then some x else configLookupRelative rest x kept

section Round

variable {name : List UInt8} {rest : List (List UInt8)} {s x : ConfigSetting}
  {kept : Option ConfigSetting}

theorem configLookupRelative_empty (rest : List (List UInt8)) (s : ConfigSetting)
    (kept : Option ConfigSetting) : configLookupRelative ([] :: rest) s kept = none := by
  rw [configLookupRelative, if_pos rfl]

theorem configLookupRelative_find (hname : name ≠ []) (hx : s.find name = some x) :
    configLookupRelative (name :: rest) s kept = lookupBehind rest x kept := by
  unfold ConfigSetting.find at hx
  simp only [configLookupRelative, if_neg hname, lookupRound, hx, lookupBehind]

/-- A component that no child has as its name. -/
theorem configLookupRelative_none (hname : name ≠ []) (hnone : s.find name = none) :
    configLookupRelative (name :: rest) s kept =
      (if s.includes = [] then kept
        else s.includes.findSome? fun g => configLookupRelative (name :: rest) g none).bind
          fun m => lookupBehind rest m (some m) := by
  unfold ConfigSetting.find at hnone
  simp only [configLookupRelative, if_neg hname, lookupRound.eq_def _ name s kept, hnone,
    lookupIncluded_eq, ConfigSetting.includes, lookupBehind]

/-- A component that is looked for in the included files, as long as nothing is kept. -/
theorem configLookupRelative_included (hname : name ≠ []) (hnone : s.find name = none) :
    configLookupRelative (name :: rest) s none =
      (s.includes.findSome? fun g => configLookupRelative (name :: rest) g none).bind
        fun m => lookupBehind rest m (some m) := by
  rw [configLookupRelative_none hname hnone]
  split
  · rename_i hempty
    rw [hempty, List.findSome?_nil]
  · rfl

/-- What is found at the end of a round that keeps nothing. -/
theorem lookup_cases {y : ConfigSetting}
    (h : configLookupRelative (name :: rest) s none = some y) :
    (∃ x, s.find name = some x ∧ lookupBehind rest x none = some y) ∨
      s.find name = none ∧ ∃ before g after m, s.includes = before ++ g :: after ∧
        (∀ g ∈ before, configLookupRelative (name :: rest) g none = none) ∧
        configLookupRelative (name :: rest) g none = some m ∧
        lookupBehind rest m (some m) = some y := by
  have hname : name ≠ [] := by
    rintro rfl
    rw [configLookupRelative_empty] at h
    cases h
  cases hfind : s.find name with
  | some x =>
      rw [configLookupRelative_find hname hfind] at h
      exact .inl ⟨x, rfl, h⟩
  | none =>
      rw [configLookupRelative_included hname hfind, Option.bind_eq_some_iff] at h
      obtain ⟨m, hm, hy⟩ := h
      obtain ⟨before, g, after, hincludes, hg, hbefore⟩ := List.findSome?_eq_some_iff.1 hm
      exact .inr ⟨rfl, before, g, after, m, hincludes, hbefore, hg, hy⟩

end Round

/-! ## What a lookup finds -/

/-- How many names lead to a setting. -/
def ConfigSetting.depth (s : ConfigSetting) : Nat := s.names.length

theorem depth_of_find {s x : ConfigSetting} {name : List UInt8} (h : s.find name = some x) :
    x.depth = s.depth + 1 := by
  rw [ConfigSetting.depth, ConfigSetting.names_of_find h, List.length_append]
  rfl

theorem depth_of_includes {s g : ConfigSetting} (h : g ∈ s.includes) : g.depth = s.depth :=
  congrArg List.length (ConfigSetting.names_of_includes h)

section Found

variable {path rest : List (List UInt8)} {name : List UInt8} {s m x y : ConfigSetting}
  {kept : Option ConfigSetting}

theorem sublist_settingsAt_of_includes {g : ConfigSetting} (hnone : s.find name = none)
    (hg : g ∈ s.includes) :
    (g.settingsAt (name :: rest)).Sublist (s.settingsAt (name :: rest)) := by
  rw [ConfigSetting.settingsAt_of_find_none hnone]
  obtain ⟨before, after, hincludes⟩ := List.append_of_mem hg
  rw [hincludes, List.flatMap_append, List.flatMap_cons]
  exact (List.sublist_append_left _ _).trans (List.sublist_append_right _ _)

theorem ne_nil_of_sublist {l l' : List ConfigSetting} (h : l.Sublist l') (hl : l ≠ []) :
    l' ≠ [] := by
  rintro rfl
  exact hl (List.sublist_nil.1 h)

/-- Nothing is found where the tree has no such setting. -/
theorem settingsAt_of_lookup (h : configLookupRelative path s none = some y) :
    s.settingsAt path ≠ [] := by
  induction path generalizing s y with
  | nil => cases h
  | cons name rest ih =>
      induction s using ConfigSetting.includes_induction generalizing y with
      | h s ihincludes =>
          rcases lookup_cases h with ⟨x, hx, hy⟩ | ⟨hnone, before, g, after, m, hg, -, hm, -⟩
          · unfold lookupBehind at hy
            split_ifs at hy with hrest
            · rw [hrest]
              exact List.ne_nil_of_mem (ConfigSetting.mem_settingsAt_of_find hx)
            · exact ne_nil_of_sublist (ConfigSetting.sublist_settingsAt_of_find hx rest) (ih hy)
          · have hmem : g ∈ s.includes := by
              rw [hg]
              exact List.mem_append_right before List.mem_cons_self
            exact ne_nil_of_sublist (sublist_settingsAt_of_includes hnone hmem)
              (ihincludes g hmem hm)

/-- What is found lies below the setting where the loop begins, or it is kept. -/
theorem depth_le_of_lookup {d : Nat} (hs : d ≤ s.depth + 1) (hkept : ∀ m ∈ kept, d ≤ m.depth)
    (h : configLookupRelative path s kept = some y) : d ≤ y.depth := by
  induction path generalizing s kept y with
  | nil => cases h
  | cons name rest ih =>
      have hname : name ≠ [] := by
        rintro rfl
        rw [configLookupRelative_empty] at h
        cases h
      have hbehind : ∀ {x kept y}, d ≤ x.depth → (∀ m ∈ kept, d ≤ m.depth) →
          lookupBehind rest x kept = some y → d ≤ y.depth := by
        intro x kept y hx hkept hy
        unfold lookupBehind at hy
        split_ifs at hy with hrest
        · rwa [← Option.some.inj hy]
        · exact ih (Nat.le_succ_of_le hx) hkept hy
      induction s using ConfigSetting.includes_induction generalizing kept y with
      | h s ihincludes =>
          cases hfind : s.find name with
          | some x =>
              rw [configLookupRelative_find hname hfind] at h
              exact hbehind (by rw [depth_of_find hfind]; exact hs) hkept h
          | none =>
              rw [configLookupRelative_none hname hfind, Option.bind_eq_some_iff] at h
              obtain ⟨m, hm, hy⟩ := h
              have hmd : d ≤ m.depth := by
                split_ifs at hm with hempty
                · exact hkept m hm
                · obtain ⟨g, hg, hfound⟩ := List.exists_of_findSome?_eq_some hm
                  refine ihincludes g hg ?_ (fun m hm => absurd hm (by simp)) hfound
                  rw [depth_of_includes hg]
                  exact hs
              apply hbehind hmd _ hy
              rintro m' hm'
              rwa [← Option.some.inj hm']

theorem depth_le_of_behind (h : lookupBehind rest m (some m) = some y) : m.depth ≤ y.depth := by
  unfold lookupBehind at h
  split_ifs at h with hrest
  · rw [Option.some.inj h]
  · apply depth_le_of_lookup (Nat.le_succ m.depth) _ h
    rintro m' hm'
    rw [Option.some.inj hm']

/-- What is found lies as deep as the path is long, or deeper. -/
theorem length_le_of_lookup (h : configLookupRelative path s none = some y) :
    s.depth + path.length ≤ y.depth := by
  induction path generalizing s y with
  | nil => cases h
  | cons name rest ih =>
      induction s using ConfigSetting.includes_induction generalizing y with
      | h s ihincludes =>
          rcases lookup_cases h with ⟨x, hx, hy⟩ | ⟨hnone, before, g, after, m, hg, -, hm, hy⟩
          · unfold lookupBehind at hy
            have hdepth := depth_of_find hx
            split_ifs at hy with hrest
            · rw [← Option.some.inj hy, hrest, hdepth]
              rfl
            · have hle := ih hy
              rw [List.length_cons]
              omega
          · have hmem : g ∈ s.includes := by
              rw [hg]
              exact List.mem_append_right before List.mem_cons_self
            have hle := ihincludes g hmem hm
            rw [depth_of_includes hmem] at hle
            exact hle.trans (depth_le_of_behind hy)

/-! ## The second walk -/

/-- The components lead back to the setting that is kept. -/
theorem lookup_of_leadsBack (hpath : ∀ name ∈ path, name ≠ []) (hne : path ≠ [])
    (h : m.LeadsBack path s) : configLookupRelative path s (some m) = some m := by
  induction path generalizing s with
  | nil => exact absurd rfl hne
  | cons name rest ih =>
      obtain ⟨hname, hpath⟩ := List.forall_mem_cons.1 hpath
      rw [ConfigSetting.LeadsBack] at h
      cases hfind : s.find name with
      | some x =>
          simp only [hfind] at h
          rw [configLookupRelative_find hname hfind, lookupBehind, if_neg h.1]
          exact ih hpath h.1 h.2
      | none =>
          simp only [hfind] at h
          rw [configLookupRelative_none hname hfind, if_pos h.1, Option.bind_some, lookupBehind]
          split_ifs with hrest
          · rfl
          · exact ih hpath hrest h.2

/-- If nothing deeper is found, the components lead back. -/
theorem leadsBack_of_lookup (hs : m.depth ≤ s.depth)
    (h : configLookupRelative path s (some m) = some y) (hy : y.depth ≤ m.depth) :
    y = m ∧ m.LeadsBack path s := by
  induction path generalizing s with
  | nil => cases h
  | cons name rest ih =>
      have hname : name ≠ [] := by
        rintro rfl
        rw [configLookupRelative_empty] at h
        cases h
      cases hfind : s.find name with
      | some x =>
          have hdepth := depth_of_find hfind
          rw [configLookupRelative_find hname hfind, lookupBehind] at h
          split_ifs at h with hrest
          · obtain rfl := Option.some.inj h
            omega
          · obtain ⟨rfl, hback⟩ := ih (by omega) h
            refine ⟨rfl, ?_⟩
            rw [ConfigSetting.LeadsBack]
            simp only [hfind]
            exact ⟨hrest, hback⟩
      | none =>
          rw [configLookupRelative_none hname hfind, Option.bind_eq_some_iff] at h
          obtain ⟨m', hm', hbehind⟩ := h
          split_ifs at hm' with hempty
          · obtain rfl := Option.some.inj hm'
            have hback : y = m ∧ m.LeadsBack rest m := by
              unfold lookupBehind at hbehind
              split_ifs at hbehind with hrest
              · rw [hrest]
                exact ⟨(Option.some.inj hbehind).symm, trivial⟩
              · exact ih le_rfl hbehind
            refine ⟨hback.1, ?_⟩
            rw [ConfigSetting.LeadsBack]
            simp only [hfind]
            exact ⟨hempty, hback.2⟩
          · -- what an included file holds lies deeper
            obtain ⟨g, hg, hfound⟩ := List.exists_of_findSome?_eq_some hm'
            have hle := length_le_of_lookup hfound
            have hle' := depth_le_of_behind hbehind
            rw [depth_of_includes hg, List.length_cons] at hle
            omega

theorem leadsBack_of_behind (h : lookupBehind rest m (some m) = some y) (hy : y.depth ≤ m.depth) :
    y = m ∧ m.LeadsBack rest m := by
  unfold lookupBehind at h
  split_ifs at h with hrest
  · rw [hrest]
    exact ⟨(Option.some.inj h).symm, trivial⟩
  · exact leadsBack_of_lookup le_rfl h hy

/-! ## Undivided paths -/

theorem Undivided.of_looksAt {t : ConfigSetting} {more : List (List UInt8)}
    (h : Undivided s path) (hat : ∀ {u ds}, LooksAt t more u ds → LooksAt s path u ds) :
    Undivided t more :=
  ⟨fun hu => h.below (hat hu), fun hu => h.again (hat hu)⟩

/-- On an undivided path a setting with this path is found. -/
theorem lookup_of_undivided (hpath : ∀ name ∈ path, name ≠ []) (h : Undivided s path)
    (hne : s.settingsAt path ≠ []) (hlong : path ≠ []) :
    ∃ x ∈ s.settingsAt path, configLookupRelative path s none = some x := by
  induction path generalizing s with
  | nil => exact absurd rfl hlong
  | cons name rest ih =>
      have hname : name ≠ [] := hpath name List.mem_cons_self
      have hpath' : ∀ name ∈ rest, name ≠ [] := fun n hn => hpath n (List.mem_cons_of_mem name hn)
      induction s using ConfigSetting.includes_induction with
      | h s ihincludes =>
          cases hfind : s.find name with
          | some x =>
              rw [configLookupRelative_find hname hfind, lookupBehind]
              by_cases hrest : rest = []
              · rw [if_pos hrest, hrest]
                exact ⟨x, ConfigSetting.mem_settingsAt_of_find hfind, rfl⟩
              · rw [if_neg hrest]
                obtain ⟨y, hy, hfound⟩ := ih hpath' (h.of_looksAt (LooksAt.child hfind))
                  (h.below .here hfind hrest hne) hrest
                exact ⟨y, (ConfigSetting.sublist_settingsAt_of_find hfind rest).subset hy, hfound⟩
          | none =>
              -- the first included file in which something is found
              obtain ⟨g, hg, hgne⟩ : ∃ g ∈ s.includes, g.settingsAt (name :: rest) ≠ [] := by
                rw [ConfigSetting.settingsAt_of_find_none hfind] at hne
                simpa using hne
              obtain ⟨y, -, hy⟩ := ihincludes g hg (h.of_looksAt (LooksAt.included hfind hg)) hgne
              obtain ⟨m, hm⟩ : ∃ m, (s.includes.findSome? fun g =>
                  configLookupRelative (name :: rest) g none) = some m := by
                rw [← Option.isSome_iff_exists, List.findSome?_isSome_iff]
                exact ⟨g, hg, by rw [hy]; rfl⟩
              obtain ⟨g₀, hg₀, hfound⟩ := List.exists_of_findSome?_eq_some hm
              obtain ⟨x, hx, hfound'⟩ := ihincludes g₀ hg₀
                (h.of_looksAt (LooksAt.included hfind hg₀)) (settingsAt_of_lookup hfound)
              obtain rfl := Option.some.inj (hfound'.symm.trans hfound)
              have hmem := (sublist_settingsAt_of_includes hfind hg₀).subset hx
              refine ⟨x, hmem, ?_⟩
              rw [configLookupRelative_included hname hfind, hm, Option.bind_some, lookupBehind]
              split_ifs with hrest
              · rfl
              · exact lookup_of_leadsBack hpath' hrest (h.again .here hfind x hmem)

/-- What lies as deep as the path is long has this path. -/
theorem mem_settingsAt_of_lookup (h : configLookupRelative path s none = some y)
    (hy : y.depth ≤ s.depth + path.length) : y ∈ s.settingsAt path := by
  induction path generalizing s y with
  | nil => cases h
  | cons name rest ih =>
      induction s using ConfigSetting.includes_induction generalizing y with
      | h s ihincludes =>
          rw [List.length_cons] at hy
          rcases lookup_cases h with
            ⟨x, hx, hbehind⟩ | ⟨hnone, before, g, after, m, hg, -, hm, hbehind⟩
          · have hdepth := depth_of_find hx
            unfold lookupBehind at hbehind
            split_ifs at hbehind with hrest
            · rw [← Option.some.inj hbehind, hrest]
              exact ConfigSetting.mem_settingsAt_of_find hx
            · have hmem := ih hbehind (by omega)
              exact (ConfigSetting.sublist_settingsAt_of_find hx rest).subset hmem
          · have hmem : g ∈ s.includes := by
              rw [hg]
              exact List.mem_append_right before List.mem_cons_self
            have hlong := length_le_of_lookup hm
            have hle := depth_le_of_behind hbehind
            rw [depth_of_includes hmem, List.length_cons] at hlong
            obtain ⟨rfl, -⟩ := leadsBack_of_behind hbehind (by omega)
            refine (sublist_settingsAt_of_includes hnone hmem).subset (ihincludes g hmem hm ?_)
            rw [depth_of_includes hmem, List.length_cons]
            exact hy

theorem LooksAt.sublist {t : ConfigSetting} {more : List (List UInt8)}
    (h : LooksAt s path t more) : (t.settingsAt more).Sublist (s.settingsAt path) := by
  induction h with
  | here => exact List.Sublist.refl _
  | child hx _ ih => exact ih.trans (ConfigSetting.sublist_settingsAt_of_find hx _)
  | included hnone hg _ ih => exact ih.trans (sublist_settingsAt_of_includes hnone hg)

theorem settingsAt_nil (s : ConfigSetting) : s.settingsAt [] = [] := by
  rw [ConfigSetting.settingsAt, List.filter_eq_nil_iff]
  intro x hx hyes
  obtain ⟨more, hne, hnames⟩ := names_of_mem_settings hx
  have heq : s.names ++ more = s.names ++ [] := hnames.symm.trans (of_decide_eq_true hyes)
  exact hne (List.append_cancel_left heq)

/-- At most one of the lists is not empty. -/
theorem eq_of_flatMap {α β : Type} {f : α → List β} {l : List α} (h : (l.flatMap f).length ≤ 1)
    {a b : α} (ha : a ∈ l) (hb : b ∈ l) (hfa : f a ≠ []) (hfb : f b ≠ []) : a = b := by
  induction l with
  | nil => exact absurd ha List.not_mem_nil
  | cons c l ih =>
      rw [List.flatMap_cons, List.length_append] at h
      have hpos : ∀ {d}, d ∈ l → f d ≠ [] → 0 < (l.flatMap f).length := by
        intro d hd hfd
        rw [List.length_pos_iff]
        exact fun hnil => hfd (List.flatMap_eq_nil_iff.1 hnil d hd)
      rw [List.mem_cons] at ha hb
      rcases ha with rfl | ha <;> rcases hb with rfl | hb
      · rfl
      · have hlen := hpos hb hfb
        have hlen' := List.length_pos_iff.2 hfa
        omega
      · have hlen := hpos ha hfa
        have hlen' := List.length_pos_iff.2 hfb
        omega
      · exact ih (by omega) ha hb

/-- A lookup that finds the only setting with this path finds it from every place the path
leads through. -/
theorem LooksAt.lookup {t : ConfigSetting} {more : List (List UInt8)} (hat : LooksAt s path t more)
    (hne : t.settingsAt more ≠ []) (hone : (s.settingsAt path).length ≤ 1)
    (h : configLookupRelative path s none = some y) (hy : y.depth ≤ s.depth + path.length) :
    ∃ y, configLookupRelative more t none = some y ∧ y.depth ≤ t.depth + more.length := by
  induction hat generalizing y with
  | here => exact ⟨y, h, hy⟩
  | @child s x t name rest more hx hat ih =>
      have hdepth := depth_of_find hx
      have hone' : (x.settingsAt rest).length ≤ 1 :=
        (ConfigSetting.sublist_settingsAt_of_find hx rest).length_le.trans hone
      rcases lookup_cases h with ⟨x', hx', hbehind⟩ | ⟨hnone, -⟩
      · obtain rfl := Option.some.inj (hx.symm.trans hx')
        unfold lookupBehind at hbehind
        split_ifs at hbehind with hrest
        · have hxne := ne_nil_of_sublist hat.sublist hne
          rw [hrest] at hxne
          exact absurd (settingsAt_nil x) hxne
        · rw [List.length_cons] at hy
          exact ih hne hone' hbehind (by omega)
      · rw [hx] at hnone
        cases hnone
  | @included s g t name rest more hnone hg hat ih =>
      rcases lookup_cases h with ⟨x', hx', -⟩ | ⟨-, before, g₀, after, m, hincludes, -, hm, hbehind⟩
      · rw [hnone] at hx'
        cases hx'
      · have hg₀ : g₀ ∈ s.includes := by
          rw [hincludes]
          exact List.mem_append_right before List.mem_cons_self
        have hone' := (sublist_settingsAt_of_includes hnone hg).length_le.trans hone
        rw [ConfigSetting.settingsAt_of_find_none hnone] at hone
        obtain rfl : g = g₀ := eq_of_flatMap hone hg hg₀ (ne_nil_of_sublist hat.sublist hne)
          (settingsAt_of_lookup hm)
        have hle := depth_le_of_behind hbehind
        exact ih hne hone' hm (by rw [depth_of_includes hg]; omega)

/-- If the only setting with this path is found, the path is undivided. -/
theorem undivided_of_lookup (hone : (s.settingsAt path).length ≤ 1)
    (h : configLookupRelative path s none = some y) (hy : y.depth ≤ s.depth + path.length) :
    Undivided s path := by
  constructor
  · intro t x name rest hat hx hrest hne
    obtain ⟨z, hz, -⟩ := hat.lookup hne hone h hy
    rcases lookup_cases hz with ⟨x', hx', hbehind⟩ | ⟨hnone, -⟩
    · obtain rfl := Option.some.inj (hx.symm.trans hx')
      rw [lookupBehind, if_neg hrest] at hbehind
      exact settingsAt_of_lookup hbehind
    · rw [hx] at hnone
      cases hnone
  · intro t name rest hat hnone x hx
    obtain ⟨z, hz, hzd⟩ := hat.lookup (List.ne_nil_of_mem hx) hone h hy
    rcases lookup_cases hz with ⟨x', hx', -⟩ | ⟨-, before, g, after, m, hincludes, -, hm, hbehind⟩
    · rw [hnone] at hx'
      cases hx'
    · have hg : g ∈ t.includes := by
        rw [hincludes]
        exact List.mem_append_right before List.mem_cons_self
      have hlong := length_le_of_lookup hm
      have hle := depth_le_of_behind hbehind
      rw [depth_of_includes hg] at hlong
      have hmem := (sublist_settingsAt_of_includes hnone hg).subset
        (mem_settingsAt_of_lookup hm (by rw [depth_of_includes hg]; omega))
      obtain ⟨a, ha⟩ := List.length_eq_one_iff.1
        (Nat.le_antisymm (hat.sublist.length_le.trans hone) (List.length_pos_of_mem hx))
      rw [ha, List.mem_singleton] at hx hmem
      obtain ⟨-, hback⟩ := leadsBack_of_behind hbehind (by omega)
      rw [hx, ← hmem]
      exact hback

end Found

/-! ## The trees that are read -/

theorem SettingName.notMem {name : List UInt8} (h : SettingName name) {c : UInt8}
    (hc : configValidNameSymbol c = false) : c ∉ name := fun hmem =>
  Bool.noConfusion ((h.2 c hmem).symm.trans hc)

theorem ReadsName.settingName {names : List (List UInt8)} {s name v : List UInt8}
    (h : ReadsName names s name v) : SettingName name := by
  obtain ⟨w, -, -, -, hne, htake, -⟩ := h
  refine ⟨hne, fun x hx => ?_⟩
  rw [← htake] at hx
  exact List.mem_takeWhile_imp hx

theorem Reads.settingName {files : ConfigFiles} {root : Bool} {chain names : List (List UInt8)}
    {s t : List UInt8} {d : ConfigDoc} (h : Reads files root chain names s d t)
    {up : List (Option (List UInt8))} (hup : ∀ name ∈ chainNames up, SettingName name)
    {x : ConfigSetting} (hx : x ∈ d.settings up) :
    ∀ name ∈ chainNames x.chain, SettingName name := by
  -- a setting with its name, and what lies below it
  have hnamed : ∀ {names : List (List UInt8)} {s name v : List UInt8} {value : DocValue}
      {up : List (Option (List UInt8))}, ReadsName names s name v →
      (∀ name ∈ chainNames up, SettingName name) →
      ∀ n ∈ chainNames (some name :: up), SettingName n := by
    intro names s name v value up hname hup n hn
    have hcons : chainNames (some name :: up) = name :: chainNames up := rfl
    rw [hcons, List.mem_cons] at hn
    rcases hn with rfl | hn
    · exact hname.settingName
    · exact hup n hn
  induction h generalizing up with
  | finish _ => exact absurd hx List.not_mem_nil
  | close _ => exact absurd hx List.not_mem_nil
  | command _ _ _ _ _ ihchilds ihnext =>
      rw [ConfigDoc.settings, List.mem_append] at hx
      exact hx.elim (ihchilds hup) (ihnext hup)
  | @group _ _ _ _ _ inner _ _ _ _ hname _ _ ihchilds ihnext =>
      have hchild := @hnamed _ _ _ _ (groupValue inner) up hname hup
      rw [ConfigDoc.settings, List.mem_cons, List.mem_append] at hx
      rcases hx with rfl | hx | hx
      · exact hchild
      · exact ihchilds hchild hx
      · exact ihnext hup hx
  | @scalar _ _ _ _ _ _ value _ _ _ hname _ _ ihnext =>
      have hchild := @hnamed _ _ _ _ value up hname hup
      rw [ConfigDoc.settings, List.mem_cons, List.mem_append] at hx
      rcases hx with rfl | hx | hx
      · exact hchild
      · exact absurd hx List.not_mem_nil
      · exact ihnext hup hx

section Read

variable {files : ConfigFiles} {steps : Nat} {file content buffer path : List UInt8}
  {settings : ConfigSettings}

theorem settingName_of_configRead
    (hread : configRead files steps file content = .ok (settings, buffer)) {x : ConfigSetting}
    (hx : x ∈ (settings.doc buffer).settings [none]) :
    ∀ name ∈ chainNames x.chain, SettingName name := by
  obtain ⟨-, t, hreads⟩ := reads_of_configRead hread
  exact hreads.settingName (fun name hname => absurd hname List.not_mem_nil) hx

/-- `config_setting_path` writes the path of a setting into a buffer that has room. -/
theorem path_written (hread : configRead files steps file content = .ok (settings, buffer))
    {x : ConfigSetting} (hx : x ∈ (settings.doc buffer).settings [none])
    {out behind : List UInt8} (hroom : x.path.length + 1 < out.length)
    (hsize : out.length < 2 ^ 64) :
    ∃ rest, configSettingPath x.chain (out ++ behind) out.length =
      some (true, x.path ++ nul :: rest) := by
  have hnames := settingName_of_configRead hread hx
  obtain ⟨more, hmore, hx⟩ := names_of_mem_settings hx
  refine configSettingPath_of_room (fun name hname => (hnames name hname).notMem (by decide))
    (fun hnone => ?_) hroom hsize
  rw [ConfigSetting.names, hnone] at hx
  exact absurd hx.symm hmore

/-- The settings with a path, by its components. -/
theorem settingsAt_root (hread : configRead files steps file content = .ok (settings, buffer))
    (path : List UInt8) :
    (settings.doc buffer).root.settingsAt (path.splitOn dot) =
      ((settings.doc buffer).settings [none]).filter fun x => x.path = path := by
  apply List.filter_congr
  intro x hx
  have hnames := settingName_of_configRead hread hx
  have hne : x.names ≠ [] := by
    obtain ⟨more, hmore, heq⟩ := names_of_mem_settings hx
    rw [heq]
    exact hmore
  have hdots : ∀ name ∈ x.names, dot ∉ name := fun name hname =>
    (hnames name (List.mem_reverse.1 hname)).notMem (by decide)
  have hpath : x.path = [dot].intercalate x.names := rfl
  have hroot : (settings.doc buffer).root.names = [] := rfl
  rw [hpath, hroot, List.nil_append, decide_eq_decide]
  constructor
  · intro heq
    rw [heq, List.intercalate_splitOn]
  · intro heq
    rw [← heq, List.splitOn_intercalate dot hdots hne]

/-- Lookup agrees with the paths of the settings if the path is undivided, and where one
setting at most has the path, only then. -/
theorem lookupAgrees_iff_undivided
    (hread : configRead files steps file content = .ok (settings, buffer)) :
    (Undivided (settings.doc buffer).root (path.splitOn dot) →
      LookupAgrees (settings.doc buffer) path) ∧
    ((((settings.doc buffer).settings [none]).filter fun x => x.path = path).length ≤ 1 →
      (LookupAgrees (settings.doc buffer) path ↔
        Undivided (settings.doc buffer).root (path.splitOn dot))) := by
  have hat := settingsAt_root hread path
  have hmem : ∀ x, x ∈ (settings.doc buffer).root.settingsAt (path.splitOn dot) ↔
      x ∈ (settings.doc buffer).settings [none] ∧ x.path = path := by
    intro x
    rw [hat, List.mem_filter, decide_eq_true_eq]
  have hlong : path.splitOn dot ≠ [] := List.splitOn_ne_nil dot path
  have hagrees : Undivided (settings.doc buffer).root (path.splitOn dot) →
      LookupAgrees (settings.doc buffer) path := by
    intro hundivided
    have hfound : ∀ x ∈ (settings.doc buffer).settings [none], x.path = path →
        ∃ y, configLookup (settings.doc buffer) path = some y ∧
          y ∈ (settings.doc buffer).settings [none] ∧ y.path = path := by
      intro x hx hpath
      have hxat := (hmem x).2 ⟨hx, hpath⟩
      have hnames : x.names = path.splitOn dot :=
        of_decide_eq_true (List.mem_filter.1 hxat).2
      have hne : ∀ name ∈ path.splitOn dot, name ≠ [] := by
        intro name hname
        rw [← hnames] at hname
        exact (settingName_of_configRead hread hx name (List.mem_reverse.1 hname)).1
      obtain ⟨y, hy, hlookup⟩ := lookup_of_undivided hne hundivided (List.ne_nil_of_mem hxat) hlong
      exact ⟨y, hlookup, (hmem y).1 hy⟩
    have hexists : ∀ y, configLookup (settings.doc buffer) path = some y →
        ∃ x ∈ (settings.doc buffer).settings [none], x.path = path := by
      intro y hy
      obtain ⟨x, hx⟩ := List.exists_mem_of_ne_nil _ (settingsAt_of_lookup hy)
      exact ⟨x, (hmem x).1 hx⟩
    refine ⟨⟨fun hsome => ?_, fun ⟨x, hx, hpath⟩ => ?_⟩, fun y hy => ?_⟩
    · obtain ⟨y, hy⟩ := Option.isSome_iff_exists.1 hsome
      exact hexists y hy
    · obtain ⟨y, hy, -⟩ := hfound x hx hpath
      rw [hy]
      rfl
    · obtain ⟨x, hx, hpath⟩ := hexists y hy
      obtain ⟨z, hz, hright⟩ := hfound x hx hpath
      obtain rfl := Option.some.inj (hy.symm.trans hz)
      exact hright
  refine ⟨hagrees, fun hone => ⟨fun hlookup => ?_, hagrees⟩⟩
  rw [← hat] at hone
  by_cases hnone : (settings.doc buffer).root.settingsAt (path.splitOn dot) = []
  · -- there is nothing on the way
    have hempty : ∀ {t more}, LooksAt (settings.doc buffer).root (path.splitOn dot) t more →
        t.settingsAt more = [] := by
      intro t more h
      have hsublist := h.sublist
      rw [hnone] at hsublist
      exact List.sublist_nil.1 hsublist
    refine ⟨fun h _ _ hne => absurd (hempty h) hne, fun h _ x hx => ?_⟩
    rw [hempty h] at hx
    exact absurd hx List.not_mem_nil
  · obtain ⟨x, hx⟩ := List.exists_mem_of_ne_nil _ hnone
    have hsome := hlookup.1.2 ⟨x, (hmem x).1 hx⟩
    obtain ⟨y, hy⟩ := Option.isSome_iff_exists.1 hsome
    have hyat := (hmem y).2 (hlookup.2 y hy)
    have hnames : y.names = path.splitOn dot := of_decide_eq_true (List.mem_filter.1 hyat).2
    have hdepth : y.depth = (path.splitOn dot).length := congrArg List.length hnames
    apply undivided_of_lookup hone hy
    rw [hdepth]
    exact Nat.le_add_left _ _

end Read

/-- Files with nested groups. -/
def nestedGroups : ConfigFiles := fun file =>
  if file = ascii "a.conf" then some (ascii "a = \x7b b = \x7b c = 1 \x7d \x7d")
  else if file = ascii "b.conf" then some (ascii "a = \x7b b = \x7b b = 1 \x7d \x7d")
  else none

/-- The group `a.b` of an included file is found: the second walk, with `b`, leads back. -/
theorem lookupAgrees_includedGroup :
    ∃ settings buffer,
      configRead nestedGroups 6 (ascii "server.conf") (ascii "@include \"a.conf\"") =
          .ok (settings, buffer) ∧
        (configLookup (settings.doc buffer) (ascii "a.b")).isSome = true ∧
        Undivided (settings.doc buffer).root ((ascii "a.b").splitOn dot) := by
  obtain ⟨settings, buffer, hread, hsome, hfound, hone⟩ : ∃ settings buffer,
      configRead nestedGroups 6 (ascii "server.conf") (ascii "@include \"a.conf\"") =
          .ok (settings, buffer) ∧
        (configLookup (settings.doc buffer) (ascii "a.b")).isSome = true ∧
        (∀ x ∈ configLookup (settings.doc buffer) (ascii "a.b"),
          x ∈ (settings.doc buffer).settings [none] ∧ x.path = ascii "a.b") ∧
        (((settings.doc buffer).settings [none]).filter fun x =>
          x.path = ascii "a.b").length ≤ 1 :=
    ⟨_, _, rfl, by decide +kernel, by decide +kernel, by decide +kernel⟩
  have hagrees : LookupAgrees (settings.doc buffer) (ascii "a.b") := by
    obtain ⟨x, hx⟩ := Option.isSome_iff_exists.1 hsome
    exact ⟨iff_of_true hsome ⟨x, hfound x hx⟩, hfound⟩
  exact ⟨settings, buffer, hread, hsome, ((lookupAgrees_iff_undivided hread).2 hone).1 hagrees⟩

/-- Lookup agrees with the paths of the settings. -/
def LookupsAgree (files : ConfigFiles) (steps : Nat) (file content : List UInt8) : Prop :=
  ∀ settings buffer, configRead files steps file content = .ok (settings, buffer) →
    ∀ path, LookupAgrees (settings.doc buffer) path

/-- The second walk goes from the group `a.b` to the setting `a.b.b`. -/
theorem not_lookupsAgree_secondWalk :
    ¬LookupsAgree nestedGroups 6 (ascii "server.conf") (ascii "@include \"b.conf\"") := by
  intro h
  obtain ⟨settings, buffer, hread, hwrong⟩ : ∃ settings buffer,
      configRead nestedGroups 6 (ascii "server.conf") (ascii "@include \"b.conf\"") =
          .ok (settings, buffer) ∧
        (configLookup (settings.doc buffer) (ascii "a.b")).map ConfigSetting.path =
          some (ascii "a.b.b") := ⟨_, _, rfl, by decide +kernel⟩
  obtain ⟨x, hx, hpath⟩ := Option.map_eq_some_iff.1 hwrong
  have hright := ((h settings buffer hread (ascii "a.b")).2 x hx).2
  exact absurd (hpath.symm.trans hright) (by decide +kernel)

end OpenTube
