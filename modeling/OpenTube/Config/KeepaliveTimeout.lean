import OpenTube.Config.Load
import OpenTube.Http.Output

/-!
# The keep-alive timeout

The timeout is kept twice: as the text that is sent to clients and as the number by which
connections expire. The directive sets both, `default_config` the text only.
-/

namespace OpenTube

/-! ## What it is for -/

/-- The two forms of the timeout. -/
def LoadedConfig.timeouts (c : LoadedConfig) : List UInt8 × Nat :=
  (c.keepaliveTimeout.bytes, c.keepaliveTimeoutVal)

/-- The text denotes the number. -/
def LoadedConfig.TimeoutsAgree (c : LoadedConfig) : Prop :=
  numberValue 10 c.keepaliveTimeout.bytes = some (c.keepaliveTimeoutVal : Int)

/-- A document has the directive `http.keepalive.timeout` as an integer. -/
def ConfigDoc.SetsTimeout (up : List (Option (List UInt8))) (doc : ConfigDoc) : Prop :=
  ∃ x ∈ doc.settings up, x.path = ascii "http.keepalive.timeout" ∧ ∃ n, x.value = .int n

/-- The configuration file has it. -/
def HasTimeout (files : ConfigFiles) (steps : Nat) (path : List UInt8) : Prop :=
  ∃ content settings buffer, files path = some content ∧
    configRead files steps path content = .ok (settings, buffer) ∧
      (settings.doc buffer).SetsTimeout [none]

/-- The two forms agree in every configuration that is accepted. -/
def TimeoutsAgree : Prop :=
  ∀ (env : LoadEnv) (files : ConfigFiles) (steps : Nat) (path : List UInt8) (c : LoadedConfig),
    loadConfig env files steps path = .ok c → c.TimeoutsAgree

/-! ## The path of a setting -/

section Key

variable {chain : List (Option (List UInt8))} {key : List UInt8}

theorem takeWhile_text {t more : List UInt8} (ht : nul ∉ t) :
    (t ++ nul :: more).takeWhile (· ≠ nul) = t := by
  rw [List.takeWhile_append_of_pos]
  · simp
  · exact fun c hc => decide_eq_true (ne_of_mem_of_not_mem hc ht)

/-- A setting is taken for a directive exactly if this is its path. -/
theorem settingKey_eq_directive_iff (hchain : ∀ name ∈ chainNames chain, nul ∉ name)
    (hkey : settingKey chain = .ok key) {directive : String} (hne : ascii directive ≠ [])
    (hdot : (ascii directive).getLast? ≠ some dot) (hshort : (ascii directive).length < 255) :
    key = ascii directive ↔ dottedPath (chainNames chain) = ascii directive := by
  have hlen : (List.replicate 256 nul).length = 256 := List.length_replicate
  unfold settingKey at hkey
  split at hkey
  · rename_i r hrun
    obtain rfl := Except.ok.inj hkey
    obtain ⟨t, more, hm, ht, htext⟩ := configSettingPath_text hchain (by decide) hrun
    rw [hm, takeWhile_text ht]
    constructor
    · rintro rfl
      rcases htext with hpath | hnil | hlast
      · exact hpath.symm
      · exact absurd hnil hne
      · exact absurd hlast hdot
    · intro hpath
      have hnames : chainNames chain ≠ [] := by
        intro hnil
        rw [hnil] at hpath
        exact hne hpath.symm
      obtain ⟨rest, hwritten⟩ := @configSettingPath_of_room chain (List.replicate 256 nul) []
        hchain hnames (by rw [hpath, hlen]; omega) (by rw [hlen]; decide)
      rw [List.append_nil, hlen, hrun, Option.some.injEq] at hwritten
      have htexts : t ++ nul :: more = dottedPath (chainNames chain) ++ nul :: rest := by
        rw [← hm, hwritten]
      have hcut := congrArg (List.takeWhile (· ≠ nul)) htexts
      rw [takeWhile_text ht, takeWhile_text (nul_notMem_dottedPath hchain)] at hcut
      rw [hcut, hpath]
  · cases hkey

end Key

/-! ## What a directive does to the timeout -/

section Directives

variable {env : LoadEnv} {key value buffer : List UInt8} {line : Nat} {c c' : LoadedConfig}

/-- A result that leaves the timeout as it is. -/
def KeepsTimeout (c : LoadedConfig) (r : LoadResult LoadedConfig) : Prop :=
  ∀ c', r = .ok c' → c'.timeouts = c.timeouts

theorem keepsTimeout_ok {d : LoadedConfig} (h : d.timeouts = c.timeouts) :
    KeepsTimeout c (.ok d) := by
  rintro c' hc'
  rwa [← Except.ok.inj hc']

theorem keepsTimeout_error (e : LoadError) : KeepsTimeout c (.error e) := fun _ h => by cases h

theorem keepsTimeout_map {α : Type} {r : LoadResult α} {f : α → LoadedConfig}
    (h : ∀ a, (f a).timeouts = c.timeouts) : KeepsTimeout c (r.map f) := by
  cases r with
  | error e => exact keepsTimeout_error e
  | ok a => exact keepsTimeout_ok (h a)

theorem keepsTimeout_ite {p : Prop} [Decidable p] {r s : LoadResult LoadedConfig}
    (hr : KeepsTimeout c r) (hs : KeepsTimeout c s) : KeepsTimeout c (if p then r else s) := by
  split
  · exact hr
  · exact hs

theorem keepsTimeout_listen : KeepsTimeout c (listen env key value c) := by
  unfold listen
  split
  · exact keepsTimeout_error _
  · exact keepsTimeout_error _
  · exact keepsTimeout_error _
  · exact keepsTimeout_ok rfl

/-- A directive is taken only if it has the key. -/
theorem keepsTimeout_processDirective {α : Type} {directives : List (Directive α)}
    {directiveType : String} {value : α}
    (h : ∀ d ∈ directives, key = ascii d.1 → KeepsTimeout c (d.2 key value c)) :
    KeepsTimeout c (processDirective directives directiveType key value line c) := by
  unfold processDirective
  split
  · rename_i d hfind
    have hkey := @List.find?_some _ (fun d : Directive α => decide (key = ascii d.1)) _ _ hfind
    exact h d (List.mem_of_find?_eq_some hfind) (of_decide_eq_true hkey)
  · exact keepsTimeout_error _

/-- No directive for strings sets the timeout. -/
theorem keepsTimeout_processDirectiveString :
    KeepsTimeout c (processDirectiveString env key value line c) := by
  apply keepsTimeout_processDirective
  simp only [stringDirectives, List.forall_mem_cons, List.not_mem_nil, false_implies,
    implies_true, and_true]
  exact ⟨fun _ => keepsTimeout_listen,
    fun _ => keepsTimeout_ok rfl,
    fun _ => keepsTimeout_ok rfl,
    fun _ => keepsTimeout_map fun _ => rfl,
    fun _ => keepsTimeout_map fun _ => rfl,
    fun _ => keepsTimeout_map fun _ => rfl,
    fun _ => keepsTimeout_map fun _ => rfl,
    fun _ => keepsTimeout_map fun _ => rfl,
    fun _ => keepsTimeout_ite (keepsTimeout_error _) (keepsTimeout_ok rfl),
    fun _ => keepsTimeout_map fun _ => rfl,
    fun _ => keepsTimeout_map fun _ => rfl,
    fun _ => keepsTimeout_map fun _ => rfl,
    fun _ => keepsTimeout_ok rfl,
    fun _ => keepsTimeout_map fun _ => rfl,
    fun _ => keepsTimeout_map fun _ => rfl,
    fun _ => keepsTimeout_ok rfl,
    fun _ => keepsTimeout_ok rfl⟩

theorem keepsTimeout_processDirectiveBool {b : Bool} :
    KeepsTimeout c (processDirectiveBool key b line c) := by
  apply keepsTimeout_processDirective
  intro d hd _
  simp only [boolDirectives, List.mem_cons, List.not_mem_nil, or_false] at hd
  rcases hd with rfl | rfl | rfl
  all_goals exact keepsTimeout_ok rfl

/-- An integer directive other than `http.keepalive.timeout`. -/
theorem keepsTimeout_processDirectiveInt {n : Int} (hkey : key ≠ ascii "http.keepalive.timeout") :
    KeepsTimeout c (processDirectiveInt env key n line c) := by
  apply keepsTimeout_processDirective
  intro d hd heq
  simp only [intDirectives, List.mem_cons, List.not_mem_nil, or_false] at hd
  rcases hd with rfl | rfl | rfl | rfl | rfl | rfl | rfl | rfl | rfl | rfl
  case inr.inr.inr.inr.inr.inl => exact absurd heq hkey
  all_goals
    first
    | exact keepsTimeout_map fun _ => rfl
    | exact keepsTimeout_ite (keepsTimeout_error _) (keepsTimeout_ok rfl)

/-- The directive `http.keepalive.timeout`. -/
theorem processDirectiveInt_timeout (n : Int) :
    processDirectiveInt env (ascii "http.keepalive.timeout") n line c =
      keepaliveTimeout env (ascii "http.keepalive.timeout") n c := by
  have hfind : (intDirectives env).find? (fun d => ascii "http.keepalive.timeout" = ascii d.1) =
      some ("http.keepalive.timeout", keepaliveTimeout env) := by
    unfold intDirectives
    iterate 5 rw [List.find?_cons_of_neg (by dsimp only; decide)]
    rw [List.find?_cons_of_pos (by simp)]
  rw [processDirectiveInt, processDirective, hfind]

/-- The timeout is a positive number with its text. -/
def LoadedConfig.TimeoutSet (c : LoadedConfig) : Prop :=
  ∃ value : Int, 0 < value ∧ value < 2 ^ 31 ∧ c.timeouts = (intToStr value 10, value.toNat)

theorem keepaliveTimeout_set {value : Int} (hvalue : value < 2 ^ 31)
    (h : keepaliveTimeout env key value c = .ok c') : c'.TimeoutSet := by
  unfold keepaliveTimeout at h
  split at h
  · cases h
  · rename_i hpos
    have hlen : digitsInInt value = (intToStr value 10).length :=
      digitsInInt_eq (by omega) (by omega)
    have hroom : (intToStr value 10).length < (env.malloc (digitsInInt value + 1)).length := by
      rw [hlen, LoadEnv.malloc, LoadEnv.realloc, List.length_map, List.length_range]
      exact Nat.lt_succ_self _
    have hprint := @printInt_eq 32 10 (by decide) (by decide) (by decide) (by decide) value
      (by omega) hvalue _ hroom
    have hrun : intToStrInto (env.malloc (digitsInInt value + 1)) value 10 = _ := hprint
    simp only [hrun] at h
    obtain rfl := Except.ok.inj h
    refine ⟨value, by omega, hvalue, ?_⟩
    rw [LoadedConfig.timeouts, UString.bytes, hlen]
    refine Prod.ext (List.take_left' rfl) ?_
    show uint value = value.toNat
    unfold uint
    omega

/-- The two forms agree once they are set. -/
theorem LoadedConfig.TimeoutSet.agree (h : c.TimeoutSet) : c.TimeoutsAgree := by
  obtain ⟨value, hpos, hvalue, heq⟩ := h
  obtain ⟨hbytes, hval⟩ := Prod.mk.inj heq
  have htext := (@isText_xToStr 10 (by decide) (by decide) value (by omega)).reads
  rw [LoadedConfig.TimeoutsAgree, hbytes, hval, Int.toNat_of_nonneg (Int.le_of_lt hpos)]
  exact htext

/-- They do not agree as `default_config` leaves them. -/
theorem not_timeoutsAgree_default (c : LoadedConfig)
    (h : c.timeouts = LoadedConfig.zeroed.defaultConfig.timeouts) : ¬ c.TimeoutsAgree := by
  obtain ⟨hbytes, hval⟩ := Prod.mk.inj h
  rw [LoadedConfig.TimeoutsAgree, hbytes, hval]
  decide

/-- What a part of a run does to the timeout: it sets it if `p` holds, and leaves it as it
is otherwise. -/
def Settles (p : Prop) (c c' : LoadedConfig) : Prop :=
  (p → c'.TimeoutSet) ∧ (¬ p → c'.timeouts = c.timeouts)

theorem KeepsTimeout.settles {p : Prop} {r : LoadResult LoadedConfig} (h : KeepsTimeout c r)
    (hp : ¬ p) (hr : r = .ok c') : Settles p c c' :=
  ⟨fun hp' => absurd hp' hp, fun _ => h c' hr⟩

/-- One part after the other. -/
theorem Settles.trans {p q : Prop} {d : LoadedConfig} (h : Settles p c d) (h' : Settles q d c') :
    Settles (p ∨ q) c c' := by
  refine ⟨fun hpq => ?_, fun hpq => ?_⟩
  · by_cases hq : q
    · exact h'.1 hq
    · obtain ⟨value, hpos, hvalue, heq⟩ := h.1 (hpq.resolve_right hq)
      exact ⟨value, hpos, hvalue, (h'.2 hq).trans heq⟩
  · obtain ⟨hp, hq⟩ := not_or.1 hpq
    exact (h'.2 hq).trans (h.2 hp)

/-- The value of a setting that is not a group sets the timeout exactly if it is an
integer and the key is that of the timeout. -/
theorem settles_processValue {v : ConfigValue}
    (h : processValue env buffer key line v c = .ok c') :
    Settles (key = ascii "http.keepalive.timeout" ∧ ∃ n, v.doc buffer = .int n) c c' := by
  have hother : (∀ n, v.doc buffer ≠ .int n) →
      ¬ (key = ascii "http.keepalive.timeout" ∧ ∃ n, v.doc buffer = .int n) :=
    fun hv ⟨_, n, hn⟩ => hv n hn
  cases v with
  | int n =>
      by_cases hkey : key = ascii "http.keepalive.timeout"
      · subst hkey
        rw [processValue, processDirectiveInt_timeout] at h
        have hset := keepaliveTimeout_set (by unfold int32; omega) h
        exact ⟨fun _ => hset, fun hnot => absurd ⟨rfl, n, rfl⟩ hnot⟩
      · exact (keepsTimeout_processDirectiveInt hkey).settles (fun hp => hkey hp.1) h
  | string s =>
      rw [processValue] at h
      split at h
      · cases h
      · exact keepsTimeout_processDirectiveString.settles (hother fun _ => DocValue.noConfusion) h
  | int64 n =>
      have hkeeps : KeepsTimeout c (processDirectiveInt64 key n line c) :=
        keepsTimeout_processDirective fun d hd => absurd hd List.not_mem_nil
      exact hkeeps.settles (hother fun _ => DocValue.noConfusion) h
  | float text =>
      have hkeeps : KeepsTimeout c (processDirectiveFloat key text line c) :=
        keepsTimeout_processDirective fun d hd => absurd hd List.not_mem_nil
      exact hkeeps.settles (hother fun _ => DocValue.noConfusion) h
  | bool b =>
      exact keepsTimeout_processDirectiveBool.settles (hother fun _ => DocValue.noConfusion) h
  | group => exact (keepsTimeout_ok rfl).settles (hother fun _ => DocValue.noConfusion) h
  | included file content =>
      exact (keepsTimeout_ok rfl).settles (hother fun _ => DocValue.noConfusion) h

end Directives

/-! ## The whole tree -/

/-- Only groups have settings in them. -/
def ConfigDoc.GroupsOnly : ConfigDoc → Prop
  | nil => True
  | setting _ value childs next =>
      (value = .group ∨ childs = nil) ∧ childs.GroupsOnly ∧ next.GroupsOnly
  | included _ childs next => childs.GroupsOnly ∧ next.GroupsOnly

/-- A text that ends at once has no settings. -/
theorem Reads.eq_nil {files : ConfigFiles} {root : Bool} {chain names : List (List UInt8)}
    {s t : List UInt8} {d : ConfigDoc} (h : Reads files root chain names s d t)
    (hs : s.head? = some nul) : d = .nil := by
  have hitem : atItem s = s := if_pos hs
  have hname : ∀ {names : List (List UInt8)} {name v : List UInt8},
      ¬ ReadsName names (atItem s) name v := by
    intro names name v hread
    obtain ⟨c, m, heq, hc⟩ := hread.head
    rw [hitem] at heq
    rw [heq] at hs
    obtain rfl := Option.some.inj hs
    exact absurd hc (by decide)
  cases h with
  | finish _ => rfl
  | close _ => rfl
  | command hat _ _ _ _ =>
      rw [hitem] at hat
      rw [hat] at hs
      exact absurd (Option.some.inj hs) (by decide)
  | group hread _ _ => exact absurd hread hname
  | scalar hread _ _ => exact absurd hread hname

theorem Reads.groupsOnly {files : ConfigFiles} {root : Bool} {chain names : List (List UInt8)}
    {s t : List UInt8} {d : ConfigDoc} (h : Reads files root chain names s d t) :
    d.GroupsOnly := by
  induction h with
  | finish _ => trivial
  | close _ => trivial
  | command _ _ _ _ _ ihchilds ihnext => exact ⟨ihchilds, ihnext⟩
  | @group _ _ _ _ _ inner _ _ _ _ _ hchilds _ ihchilds ihnext =>
      refine ⟨?_, ihchilds, ihnext⟩
      unfold groupValue
      split
      · rename_i hs
        exact .inr (hchilds.eq_nil hs)
      · exact .inl rfl
  | scalar _ _ _ ihnext => exact ⟨.inr rfl, trivial, ihnext⟩

section Tree

variable {env : LoadEnv} {buffer : List UInt8} {up : List (Option (List UInt8))}
  {c c' : LoadedConfig}

theorem not_setsTimeout_nil : ¬ ConfigDoc.nil.SetsTimeout up := by
  rintro ⟨x, hx, -⟩
  exact absurd hx List.not_mem_nil

theorem setsTimeout_setting {name : List UInt8} {value : DocValue} {childs next : ConfigDoc} :
    (ConfigDoc.setting name value childs next).SetsTimeout up ↔
      ((dottedPath (chainNames (some name :: up)) = ascii "http.keepalive.timeout" ∧
          ∃ n, value = .int n) ∨ childs.SetsTimeout (some name :: up)) ∨ next.SetsTimeout up := by
  simp only [ConfigDoc.SetsTimeout, ConfigDoc.settings, List.exists_mem_cons_iff, List.mem_append,
    or_and_right, exists_or, or_assoc]
  rfl

theorem setsTimeout_included {file : List UInt8} {childs next : ConfigDoc} :
    (ConfigDoc.included file childs next).SetsTimeout up ↔
      childs.SetsTimeout (none :: up) ∨ next.SetsTimeout up := by
  simp only [ConfigDoc.SetsTimeout, ConfigDoc.settings, List.mem_append, or_and_right, exists_or]

theorem exceptBind_eq_ok {α β : Type} {r : LoadResult α} {f : α → LoadResult β} {b : β}
    (h : r.bind f = .ok b) : ∃ a, r = .ok a ∧ f a = .ok b := by
  cases r with
  | error e => cases h
  | ok a => exact ⟨a, rfl, h⟩

/-- The names above each setting have no `NUL`. -/
def ConfigDoc.NamesTexts (up : List (Option (List UInt8))) (doc : ConfigDoc) : Prop :=
  ∀ x ∈ doc.settings up, ∀ name ∈ chainNames x.chain, nul ∉ name

/-- A setting that is not a group, and what follows. -/
theorem settles_leaf {name : List UInt8} {value : ConfigValue} {line : Nat} {key : List UInt8}
    {childs next : ConfigDoc} {d : LoadedConfig}
    (hgroups : (ConfigDoc.setting name (value.doc buffer) childs next).GroupsOnly)
    (hvalue : value.doc buffer ≠ .group)
    (hnames : (ConfigDoc.setting name (value.doc buffer) childs next).NamesTexts up)
    (hkey : settingKey (some name :: up) = .ok key)
    (hnode : processValue env buffer key line value c = .ok d)
    (hnext : next.GroupsOnly → next.NamesTexts up → Settles (next.SetsTimeout up) d c') :
    Settles ((ConfigDoc.setting name (value.doc buffer) childs next).SetsTimeout up) c c' := by
  have hpath := settingKey_eq_directive_iff (hnames _ List.mem_cons_self) hkey
    (show ascii "http.keepalive.timeout" ≠ [] by decide) (by decide)
    (by decide)
  have hrest := hnext hgroups.2.2 fun x hx =>
    hnames x (List.mem_cons_of_mem _ (List.mem_append_right _ hx))
  have hsettles := (settles_processValue hnode).trans hrest
  rw [hpath] at hsettles
  rw [setsTimeout_setting, hgroups.1.resolve_left hvalue, or_iff_left not_setsTimeout_nil]
  exact hsettles

/-- The loop of `process_conf` sets the timeout exactly if the directive is among the
settings. -/
theorem settles_processConf {settings : ConfigSettings}
    (hgroups : (settings.doc buffer).GroupsOnly)
    (hnames : (settings.doc buffer).NamesTexts up)
    (h : processConf env buffer up settings c = .ok c') :
    Settles ((settings.doc buffer).SetsTimeout up) c c' := by
  induction settings generalizing buffer up c c' with
  | nil =>
      obtain rfl := Except.ok.inj h
      exact ⟨fun hset => absurd hset not_setsTimeout_nil, fun _ => rfl⟩
  | cons name line value childs next ihchilds ihnext =>
      rw [processConf] at h
      obtain ⟨key, hkey, h⟩ := exceptBind_eq_ok h
      obtain ⟨d, hnode, hrest⟩ := exceptBind_eq_ok h
      cases value with
      | included file content =>
          rw [ConfigSettings.doc] at hgroups hnames ⊢
          rw [setsTimeout_included]
          exact (ihchilds hgroups.1 (fun x hx => hnames x (List.mem_append_left _ hx)) hnode).trans
            (ihnext hgroups.2 (fun x hx => hnames x (List.mem_append_right _ hx)) hrest)
      | group =>
          have hdoc : (ConfigSettings.cons name line .group childs next).doc buffer =
              .setting ((name.map (Span.read buffer)).getD []) .group (childs.doc buffer)
                (next.doc buffer) := rfl
          rw [hdoc] at hgroups hnames ⊢
          have hbelow := ihchilds hgroups.2.1 (fun x hx =>
            hnames x (List.mem_cons_of_mem _ (List.mem_append_left _ hx))) hnode
          have hbehind := ihnext hgroups.2.2 (fun x hx =>
            hnames x (List.mem_cons_of_mem _ (List.mem_append_right _ hx))) hrest
          have hself : ∀ p : Prop, ¬ (p ∧ ∃ n, DocValue.group = .int n) :=
            fun _ hgroup => hgroup.2.elim fun _ hn => DocValue.noConfusion hn
          rw [setsTimeout_setting, or_iff_right (hself _)]
          exact hbelow.trans hbehind
      | string s =>
          exact settles_leaf hgroups DocValue.noConfusion hnames hkey hnode
            fun hg hn => ihnext hg hn hrest
      | bool b =>
          exact settles_leaf hgroups DocValue.noConfusion hnames hkey hnode
            fun hg hn => ihnext hg hn hrest
      | int n =>
          exact settles_leaf hgroups DocValue.noConfusion hnames hkey hnode
            fun hg hn => ihnext hg hn hrest
      | int64 n =>
          exact settles_leaf hgroups DocValue.noConfusion hnames hkey hnode
            fun hg hn => ihnext hg hn hrest
      | float text =>
          exact settles_leaf hgroups DocValue.noConfusion hnames hkey hnode
            fun hg hn => ihnext hg hn hrest

end Tree

/-! ## Agreement -/

section Loaded

variable {env : LoadEnv} {files : ConfigFiles} {steps : Nat} {path : List UInt8}
  {c : LoadedConfig}

/-- What is loaded has the timeout of the directive, or that of `default_config`. -/
theorem settles_loadConfig (h : loadConfig env files steps path = .ok c) :
    Settles (HasTimeout files steps path) LoadedConfig.zeroed.defaultConfig c := by
  unfold loadConfig at h
  split at h
  · cases h
  · rename_i content hcontent
    split at h
    · cases h
    · cases h
    · rename_i settings buffer hread
      split at h
      · cases h
      · obtain ⟨-, t, hreads⟩ := reads_of_configRead hread
        have hnames : (settings.doc buffer).NamesTexts [none] := fun x hx name hname =>
          (settingName_of_configRead hread hx name hname).notMem (by decide)
        have hiff : HasTimeout files steps path ↔ (settings.doc buffer).SetsTimeout [none] := by
          constructor
          · rintro ⟨content', settings', buffer', hcontent', hread', hset⟩
            obtain rfl := Option.some.inj (hcontent.symm.trans hcontent')
            obtain ⟨rfl, rfl⟩ := Prod.mk.inj (ConfigResult.ok.inj (hread.symm.trans hread'))
            exact hset
          · exact fun hset => ⟨content, settings, buffer, hcontent, hread, hset⟩
        rw [hiff]
        exact settles_processConf hreads.groupsOnly hnames h

/-- The two forms are those of the configuration that is used to answer requests. -/
theorem exists_config_of_loadConfig (h : loadConfig env files steps path = .ok c) :
    ∃ d : Config, (d = defaultConfig ∨ ∃ value, defaultConfig.setKeepaliveTimeout value = some d) ∧
      c.timeouts = (d.keepaliveTimeout, d.keepaliveTimeoutVal) := by
  by_cases hset : HasTimeout files steps path
  · obtain ⟨value, hpos, -, heq⟩ := (settles_loadConfig h).1 hset
    have hsome : ∃ d, defaultConfig.setKeepaliveTimeout value = some d ∧
        (d.keepaliveTimeout, d.keepaliveTimeoutVal) = (intToStr value 10, value.toNat) := by
      rw [Config.setKeepaliveTimeout, dif_neg (by omega)]
      exact ⟨_, rfl, rfl⟩
    obtain ⟨d, hd, hforms⟩ := hsome
    exact ⟨d, .inr ⟨value, hd⟩, heq.trans hforms.symm⟩
  · exact ⟨defaultConfig, .inl rfl, ((settles_loadConfig h).2 hset).trans (by decide)⟩

/-- In a configuration that is accepted the two forms agree if and only if the file has
the directive. -/
theorem timeoutsAgree_iff_hasTimeout (h : loadConfig env files steps path = .ok c) :
    c.TimeoutsAgree ↔ HasTimeout files steps path := by
  obtain ⟨hset, hkept⟩ := settles_loadConfig h
  constructor
  · intro hagree
    by_contra hnot
    exact not_timeoutsAgree_default c (hkept hnot) hagree
  · exact fun hhas => (hset hhas).agree

end Loaded

/-- A file with the required directives, and what is added to `http`. -/
def smallestFile (more : List String) : ConfigFiles := fun _ =>
  some (["server: \x7b ", "listen: \"a:80\" ", "user: \"u\" ", "group: \"g\" ",
    "pid-file: \"/p/p\" ", "log-file: \"/p/l\" ", "data: \"/d\" \x7d ",
    "http: \x7b ", "document-root: ", "\"/r\" ", "temp: \"/t\" ", "cache: \x7b ",
    "prefix: \"/c\" ", "update: \"never\" ", "\x7d "].flatMap ascii ++ (more.flatMap ascii ++
    ["\x7d ", "template: \x7b ", "name: \"t\" \x7d ", "database: \x7b ",
      "servers: \"s\" \x7d"].flatMap ascii))

/-- A system with all directories. -/
def anySystem : LoadEnv := ⟨fun _ _ => true, nul, fun _ => nul⟩

theorem exists_of_timeouts {r : LoadResult LoadedConfig} {t : List UInt8 × Nat}
    (h : r.toOption.map LoadedConfig.timeouts = some t) : ∃ c, r = .ok c ∧ c.timeouts = t := by
  cases r with
  | error e => cases h
  | ok c => exact ⟨c, rfl, Option.some.inj h⟩

/-- A timeout of `7` agrees, so it comes from the directive. -/
theorem timeoutsAgree_iff_hasTimeout_seven :
    HasTimeout (smallestFile ["keepalive: \x7b ", "timeout: 7 \x7d "]) 60 [] := by
  obtain ⟨c, hc, hforms⟩ := exists_of_timeouts
    (show (loadConfig anySystem (smallestFile ["keepalive: \x7b ", "timeout: 7 \x7d "]) 60
      []).toOption.map LoadedConfig.timeouts = some (ascii "7", 7) by decide +kernel)
  obtain ⟨hbytes, hval⟩ := Prod.mk.inj hforms
  have hagree : c.TimeoutsAgree := by
    rw [LoadedConfig.TimeoutsAgree, hbytes, hval]
    decide +kernel
  exact (timeoutsAgree_iff_hasTimeout hc).1 hagree

/-- Without the directive `25` is sent, but the number is `0`. -/
theorem not_timeoutsAgree : ¬ TimeoutsAgree := by
  intro h
  obtain ⟨c, hc, hforms⟩ := exists_of_timeouts
    (show (loadConfig anySystem (smallestFile []) 60 []).toOption.map LoadedConfig.timeouts =
      some (ascii "25", 0) by decide +kernel)
  obtain ⟨hbytes, hval⟩ := Prod.mk.inj hforms
  have hagree := h _ _ _ _ c hc
  rw [LoadedConfig.TimeoutsAgree, hbytes, hval] at hagree
  exact absurd hagree (by decide +kernel)

end OpenTube
