import OpenTube.Config.Document
import OpenTube.Config.SettingPath

/-!
# Looking up a setting

`config_lookup_relative` takes a path component by component. A component that no child
has as its name is looked for in the included files, with the whole rest of the path, and
the setting that is found there becomes the place where the loop goes on, with the
components of the rest once more. The variable `include` keeps this setting over the
following rounds.
-/

namespace OpenTube

/-! ## The settings of a tree -/

/-- A `config_setting_t` of a tree: its name with those of its parents, the innermost
first, its value and its children. Included files and the root have no name. -/
structure ConfigSetting where
  chain : List (Option (List UInt8))
  value : DocValue
  childs : ConfigDoc
deriving DecidableEq, Repr

namespace ConfigSetting

/-- The names on the way to a setting, the outermost first. -/
def names (s : ConfigSetting) : List (List UInt8) := (chainNames s.chain).reverse

/-- What `config_setting_path` writes. -/
def path (s : ConfigSetting) : List UInt8 := dottedPath (chainNames s.chain)

end ConfigSetting

/-- The root of a tree. -/
def ConfigDoc.root (doc : ConfigDoc) : ConfigSetting := ⟨[none], .group, doc⟩

/-- The settings with a name, below a setting with this chain. -/
def ConfigDoc.settings : List (Option (List UInt8)) → ConfigDoc → List ConfigSetting
  | _, nil => []
  | up, setting name value childs next =>
      ⟨some name :: up, value, childs⟩ :: (childs.settings (some name :: up) ++ next.settings up)
  | up, included _ childs next => childs.settings (none :: up) ++ next.settings up

/-- The nodes of the included files. -/
def ConfigDoc.includeNodes (up : List (Option (List UInt8))) : ConfigDoc → List ConfigSetting
  | nil => []
  | setting _ _ _ next => next.includeNodes up
  | included _ childs next => ⟨none :: up, .group, childs⟩ :: next.includeNodes up

/-! ## The functions -/

/-- `config_find_child_by_name`, for a name that is not empty. -/
def configFindChildByName (up : List (Option (List UInt8))) (name : List UInt8) :
    ConfigDoc → Option ConfigSetting
  | .nil => none
  | .setting other value childs next =>
      if other = name then some ⟨some other :: up, value, childs⟩
      else configFindChildByName up name next
  | .included _ _ next => configFindChildByName up name next

/-- The loop over the included files. What `include` holds, `kept`, stays as it is if there
are none; `next` is what the called function does behind the component `name`. -/
def lookupIncluded (next : ConfigSetting → Option ConfigSetting → Option ConfigSetting)
    (name : List UInt8) :
    List (Option (List UInt8)) → ConfigDoc → Option ConfigSetting → Option ConfigSetting
  | _, .nil, kept => kept
  | up, .setting _ _ _ rest, kept => lookupIncluded next name up rest kept
  | up, .included _ childs rest, _ =>
      let found :=
        match configFindChildByName (none :: up) name childs with
        | some x => next x none
        | none => (lookupIncluded next name (none :: up) childs none).bind fun m => next m (some m)
      match found with
      | some m => some m
      | none => lookupIncluded next name up rest none

/-- One round of `config_lookup_relative` at the setting `s`. -/
def lookupRound (next : ConfigSetting → Option ConfigSetting → Option ConfigSetting)
    (name : List UInt8) (s : ConfigSetting) (kept : Option ConfigSetting) :
    Option ConfigSetting :=
  match configFindChildByName s.chain name s.childs with
  | some x => next x kept
  | none => (lookupIncluded next name s.chain s.childs kept).bind fun m => next m (some m)

/-- `config_lookup_relative` on the components of the rest of a path. -/
def configLookupRelative :
    List (List UInt8) → ConfigSetting → Option ConfigSetting → Option ConfigSetting
  | [], _, _ => none
  | name :: rest, s, kept =>
      if name = [] then none
      else lookupRound
        (fun x kept => if rest = [] then some x else configLookupRelative rest x kept)
        name s kept

/-- `config_lookup`. -/
def configLookup (doc : ConfigDoc) (path : List UInt8) : Option ConfigSetting :=
  configLookupRelative (path.splitOn dot) doc.root none

/-! ## What it is for -/

/-- A setting is found exactly if the tree has one with this path, and then the path is
that of the setting found. -/
def LookupAgrees (doc : ConfigDoc) (path : List UInt8) : Prop :=
  ((configLookup doc path).isSome = true ↔ ∃ x ∈ doc.settings [none], x.path = path) ∧
    ∀ x, configLookup doc path = some x → x ∈ doc.settings [none] ∧ x.path = path

namespace ConfigSetting

/-- The child with a name. -/
def find (s : ConfigSetting) (name : List UInt8) : Option ConfigSetting :=
  configFindChildByName s.chain name s.childs

/-- The files that are included in a setting. -/
def includes (s : ConfigSetting) : List ConfigSetting := s.childs.includeNodes s.chain

/-- The settings below a setting with this path relative to it. -/
def settingsAt (s : ConfigSetting) (rest : List (List UInt8)) : List ConfigSetting :=
  (s.childs.settings s.chain).filter fun x => x.names = s.names ++ rest

/-- The components lead back to `m`: from `s` on they name children, where one is missing
one starts anew at `m`, and the last one is missing. No file is included where one is
missing. -/
def LeadsBack (m : ConfigSetting) : List (List UInt8) → ConfigSetting → Prop
  | [], _ => True
  | name :: rest, s =>
      match s.find name with
      | some x => rest ≠ [] ∧ LeadsBack m rest x
      | none => s.includes = [] ∧ LeadsBack m rest m

end ConfigSetting

/-- A path leads through the children, and where a child is missing through all included
files. -/
inductive LooksAt : ConfigSetting → List (List UInt8) → ConfigSetting → List (List UInt8) → Prop
  | here {s rest} : LooksAt s rest s rest
  | child {s x t name rest more} (hx : s.find name = some x) (h : LooksAt x rest t more) :
      LooksAt s (name :: rest) t more
  | included {s g t name rest more} (hnone : s.find name = none) (hg : g ∈ s.includes)
      (h : LooksAt g (name :: rest) t more) : LooksAt s (name :: rest) t more

/-- Where a path leads through a child, the rest of it is below this child if it is there
at all. Where it leads through an included file, the components behind the first lead
from the setting that is meant back to it. -/
structure Undivided (s : ConfigSetting) (path : List (List UInt8)) : Prop where
  below : ∀ {t x name rest}, LooksAt s path t (name :: rest) → t.find name = some x →
    rest ≠ [] → t.settingsAt (name :: rest) ≠ [] → x.settingsAt rest ≠ []
  again : ∀ {t name rest}, LooksAt s path t (name :: rest) → t.find name = none →
    ∀ x ∈ t.settingsAt (name :: rest), x.LeadsBack rest x

end OpenTube
