import Mathlib.Data.List.Find
import Mathlib.Data.List.Induction
import OpenTube.Template.Render

/-!
# Setting variables

The variables of a context and the global ones are arrays in which a variable is
known by the checksum of its name only. Setting one replaces the last entry with
its checksum, or appends one.

So the arrays are maps from checksums to values, and maps from names to values as
far as no two names have one checksum. Adler-32 is not injective, and there are
such names already among those of three letters.
-/

namespace OpenTube

/-! ## The functions -/

/-- `struct assoc_variable`, with the flag that its value was allocated. -/
structure ContextVariable extends AssocVariable where
  allocated : Bool
deriving DecidableEq, Repr

/-- The last entry with the checksum of `v` becomes `v`. -/
def replaceVar (v : ContextVariable) : List ContextVariable → Option (List ContextVariable)
  | [] => none
  | x :: l =>
      match replaceVar v l with
      | some l => some (x :: l)
      | none => if x.checksum = v.checksum then some (v :: l) else none

/-- The entry for a value. Its length is a `uint`. -/
def ContextVariable.of (name value : List UInt8) (allocated : Bool) : ContextVariable :=
  ⟨⟨calcChecksum name, value.take (uint value.length)⟩, allocated⟩

/-- What the four functions have in common. -/
def setVariable (allocated : Bool) (vars : List ContextVariable) (name value : List UInt8) :
    List ContextVariable :=
  (replaceVar (.of name value allocated) vars).getD (vars ++ [.of name value allocated])

def tplSetVar (vars : List ContextVariable) (name value : List UInt8) : List ContextVariable :=
  setVariable true vars name value

def tplSetVarStatic (vars : List ContextVariable) (name value : List UInt8) :
    List ContextVariable :=
  setVariable false vars name value

def tplSetGlobalVar (vars : List ContextVariable) (name value : List UInt8) :
    List ContextVariable :=
  setVariable true vars name value

def tplSetGlobalVarStatic (vars : List ContextVariable) (name value : List UInt8) :
    List ContextVariable :=
  setVariable false vars name value

/-- `get_var` and `get_global_var` for a name. -/
def lookupVariable (vars : List ContextVariable) (name : List UInt8) : Option (List UInt8) :=
  getVar (vars.map ContextVariable.toAssocVariable) (calcChecksum name)

/-! ## One assignment -/

theorem getVar_cons (v : AssocVariable) (vars : List AssocVariable) (c : Nat) :
    getVar (v :: vars) c = (getVar vars c).or (if v.checksum = c then some v.value else none) := by
  unfold getVar
  rw [List.reverse_cons, List.find?_append]
  cases vars.reverse.find? fun v => v.checksum = c with
  | some x => rfl
  | none =>
      by_cases hc : v.checksum = c
      · simp [hc]
      · simp [hc]

theorem getVar_concat (vars : List AssocVariable) (v : AssocVariable) (c : Nat) :
    getVar (vars ++ [v]) c = if v.checksum = c then some v.value else getVar vars c := by
  unfold getVar
  rw [List.reverse_concat, List.find?_cons]
  by_cases hc : v.checksum = c
  · simp [hc]
  · simp [hc]

/-- There is no entry to replace if the checksum is not found. -/
theorem replaceVar_none {v : ContextVariable} {vars : List ContextVariable}
    (h : replaceVar v vars = none) :
    getVar (vars.map ContextVariable.toAssocVariable) v.checksum = none := by
  induction vars with
  | nil => rfl
  | cons x l ih =>
      rw [replaceVar] at h
      cases hl : replaceVar v l with
      | some l' => simp [hl] at h
      | none =>
          simp only [hl] at h
          split_ifs at h with hx
          rw [List.map_cons, getVar_cons, ih hl, if_neg hx]
          rfl

theorem getVar_replaceVar {v : ContextVariable} {vars vars' : List ContextVariable}
    (h : replaceVar v vars = some vars') (c : Nat) :
    getVar (vars'.map ContextVariable.toAssocVariable) c =
      if v.checksum = c then some v.value
      else getVar (vars.map ContextVariable.toAssocVariable) c := by
  induction vars generalizing vars' with
  | nil => simp [replaceVar] at h
  | cons x l ih =>
      rw [replaceVar] at h
      cases hl : replaceVar v l with
      | some l' =>
          simp only [hl, Option.some.injEq] at h
          subst h
          rw [List.map_cons, List.map_cons, getVar_cons, getVar_cons, ih hl]
          by_cases hc : v.checksum = c
          · simp [hc]
          · simp [hc]
      | none =>
          simp only [hl] at h
          split_ifs at h with hx
          obtain rfl := Option.some.inj h
          rw [List.map_cons, List.map_cons, getVar_cons, getVar_cons]
          by_cases hc : v.checksum = c
          · subst hc
            rw [replaceVar_none hl]
            simp
          · have hxc : x.checksum ≠ c := fun heq => hc (hx ▸ heq)
            simp [hc, hxc]

/-- An assignment changes the value for its checksum and no other. -/
theorem getVar_setVariable (allocated : Bool) (vars : List ContextVariable)
    (name value : List UInt8) (c : Nat) :
    getVar ((setVariable allocated vars name value).map ContextVariable.toAssocVariable) c =
      if calcChecksum name = c then some (value.take (uint value.length))
      else getVar (vars.map ContextVariable.toAssocVariable) c := by
  unfold setVariable
  cases h : replaceVar (.of name value allocated) vars with
  | some vars' => exact getVar_replaceVar h c
  | none =>
      rw [Option.getD_none, List.map_append, List.map_singleton]
      exact getVar_concat _ _ c

/-! ## All assignments -/

/-- A call of one of the functions. -/
structure TplSetCall where
  static : Bool
  name : List UInt8
  value : List UInt8
deriving DecidableEq, Repr

/-- A call for a context. -/
def TplSetCall.setVar (vars : List ContextVariable) (call : TplSetCall) : List ContextVariable :=
  if call.static then tplSetVarStatic vars call.name call.value
  else tplSetVar vars call.name call.value

/-- A call for the global variables. -/
def TplSetCall.setGlobalVar (vars : List ContextVariable) (call : TplSetCall) :
    List ContextVariable :=
  if call.static then tplSetGlobalVarStatic vars call.name call.value
  else tplSetGlobalVar vars call.name call.value

/-- The value that was set last under a name with the property. -/
def lastSet (p : List UInt8 → Prop) [DecidablePred p] (calls : List TplSetCall) :
    Option (List UInt8) :=
  (calls.reverse.find? fun call => p call.name).map TplSetCall.value

theorem getVar_setVar (vars : List ContextVariable) (call : TplSetCall) (c : Nat) :
    getVar ((call.setVar vars).map ContextVariable.toAssocVariable) c =
      if calcChecksum call.name = c then some (call.value.take (uint call.value.length))
      else getVar (vars.map ContextVariable.toAssocVariable) c := by
  unfold TplSetCall.setVar tplSetVar tplSetVarStatic
  split_ifs
  all_goals simp [getVar_setVariable, *]

/-- The last call with a checksum decides. -/
theorem getVar_foldl_setVar (calls : List TplSetCall) (c : Nat) :
    getVar ((calls.foldl TplSetCall.setVar []).map ContextVariable.toAssocVariable) c =
      (lastSet (fun n => calcChecksum n = c) calls).map fun v => v.take (uint v.length) := by
  induction calls using List.reverseRecOn with
  | nil => rfl
  | append_singleton calls call ih =>
      rw [List.foldl_concat, getVar_setVar, ih, lastSet, lastSet, List.reverse_concat,
        List.find?_cons]
      by_cases hc : calcChecksum call.name = c
      · simp [hc]
      · simp [hc]

theorem exists_call_of_lastSet {p : List UInt8 → Prop} [DecidablePred p] {calls : List TplSetCall}
    {v : List UInt8} (h : lastSet p calls = some v) : ∃ call ∈ calls, call.value = v := by
  obtain ⟨call, hcall, rfl⟩ := Option.map_eq_some_iff.1 h
  exact ⟨call, List.mem_reverse.1 (List.mem_of_find?_eq_some hcall), rfl⟩

theorem lookupVariable_foldl_setVar {calls : List TplSetCall}
    (hvalues : ∀ call ∈ calls, call.value.length < 2 ^ 32) (name : List UInt8) :
    lookupVariable (calls.foldl TplSetCall.setVar []) name =
      lastSet (fun n => calcChecksum n = calcChecksum name) calls := by
  rw [lookupVariable, getVar_foldl_setVar]
  cases h : lastSet (fun n => calcChecksum n = calcChecksum name) calls with
  | none => rfl
  | some v =>
      obtain ⟨call, hcall, rfl⟩ := exists_call_of_lastSet h
      rw [Option.map_some, uint_natCast (hvalues call hcall), List.take_length]

/-- The variables hold, under each name, what was set last under a name with its
checksum; so under a name whose checksum is that of no other, what was set last under
that name. A call does not change what there is under other checksums. -/
structure ActsAsMap (set : List ContextVariable → TplSetCall → List ContextVariable)
    (calls : List TplSetCall) : Prop where
  value : ∀ name, lookupVariable (calls.foldl set []) name =
    lastSet (fun n => calcChecksum n = calcChecksum name) calls
  own : ∀ name, (∀ call ∈ calls, calcChecksum call.name = calcChecksum name → call.name = name) →
    lookupVariable (calls.foldl set []) name = lastSet (fun n => n = name) calls
  other : ∀ call name, calcChecksum call.name ≠ calcChecksum name →
    lookupVariable (set (calls.foldl set []) call) name = lookupVariable (calls.foldl set []) name

theorem lastSet_congr {p q : List UInt8 → Prop} [DecidablePred p] [DecidablePred q]
    {calls : List TplSetCall} (h : ∀ call ∈ calls, p call.name ↔ q call.name) :
    lastSet p calls = lastSet q calls := by
  have hfind : (calls.reverse.find? fun call => p call.name) =
      calls.reverse.find? fun call => q call.name :=
    List.find?_congr fun call hcall => by simp [h call (List.mem_reverse.1 hcall)]
  rw [lastSet, lastSet, hfind]

theorem actsAsMap_of_setVar {calls : List TplSetCall}
    (hvalues : ∀ call ∈ calls, call.value.length < 2 ^ 32) :
    ActsAsMap TplSetCall.setVar calls where
  value := lookupVariable_foldl_setVar hvalues
  own name hown := by
    rw [lookupVariable_foldl_setVar hvalues]
    exact lastSet_congr fun call hcall => ⟨hown call hcall, fun heq => by rw [heq]⟩
  other call name hne := by
    rw [lookupVariable, getVar_setVar, if_neg hne]
    rfl

/-- Contexts and global variables are maps up to the checksums of the names. -/
theorem actsAsMap {calls : List TplSetCall}
    (hvalues : ∀ call ∈ calls, call.value.length < 2 ^ 32) :
    ActsAsMap TplSetCall.setVar calls ∧ ActsAsMap TplSetCall.setGlobalVar calls :=
  ⟨actsAsMap_of_setVar hvalues, actsAsMap_of_setVar hvalues⟩

theorem actsAsMap_twoNames :
    ActsAsMap TplSetCall.setVar
        [⟨false, ascii "title", ascii "a"⟩, ⟨true, ascii "body", ascii "b"⟩,
          ⟨true, ascii "title", ascii "c"⟩] ∧
      ActsAsMap TplSetCall.setGlobalVar
        [⟨false, ascii "title", ascii "a"⟩, ⟨true, ascii "body", ascii "b"⟩,
          ⟨true, ascii "title", ascii "c"⟩] :=
  actsAsMap (by decide +kernel)

/-- Two names with one checksum: each is found under the other. -/
theorem not_exact_sameChecksum :
    lookupVariable ([⟨false, ascii "aca", ascii "1"⟩].foldl TplSetCall.setVar []) (ascii "bab") =
        some (ascii "1") ∧
      lookupVariable ([⟨false, ascii "bab", ascii "1"⟩, ⟨true, ascii "aca", ascii "2"⟩].foldl
        TplSetCall.setGlobalVar []) (ascii "bab") = some (ascii "2") ∧
      ¬ (∀ calls name, lookupVariable (calls.foldl TplSetCall.setVar []) name =
        lastSet (fun n => n = name) calls) := by
  refine ⟨by decide +kernel, by decide +kernel, fun h => ?_⟩
  have hnone := h [⟨false, ascii "aca", ascii "1"⟩] (ascii "bab")
  exact absurd hnone (by decide +kernel)

end OpenTube
