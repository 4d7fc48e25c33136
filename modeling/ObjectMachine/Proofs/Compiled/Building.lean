import Mathlib.Data.List.Induction
import ObjectMachine.Compiled.Draft
import ObjectMachine.Proofs.Code.Accounts

/-!
# The calls that build a unit

A unit is built by calls that declare something, that ask for the number of a key, or that emit
code, in any order. What a draft holds after some calls is told from the calls alone: the keys of
a table are those asked for, each once, and a class has the members declared for its handle.
-/

namespace ObjectMachine

namespace Building

open Emission (Account Follows)

inductive UnitCall
  | use (moduleName : String)
  | string (value : String)
  | classRef (name : String)
  | fieldRef (name : String)
  | methodRef (name : String) (arity : UInt16)
  | declareClass (name : String) (parent : Option String) (kind : ClassKind)
  | field (owner : ClassHandle) (name : String)
  | staticField (owner : ClassHandle) (name : String)
  | method (owner : ClassHandle) (name : String) (argCount localCount : UInt16) (isStatic : Bool)
  | localName (owner : ClassHandle) (name : String) (slot : UInt32)
  | enumeration (name : String) (members : List (String × Int32))
  | code (call : Emission.Call)
deriving Repr

inductive Answer
  | nothing
  | number (number : UInt32)
  | handle (handle : ClassHandle)
  | labels (labels : List Label)
deriving DecidableEq, Repr

namespace UnitCall

def perform : UnitCall → Declare Answer
  | use moduleName => do Declare.use moduleName; pure .nothing
  | string value => do pure (.number (← Declare.string value))
  | classRef name => do pure (.number (← Declare.classRef name))
  | fieldRef name => do pure (.number (← Declare.fieldRef name))
  | methodRef name arity => do pure (.number (← Declare.methodRef name arity))
  | declareClass name parent kind => do pure (.handle (← Declare.declareClass name parent kind))
  | field owner name => do pure (.number (← Declare.field owner name))
  | staticField owner name => do pure (.number (← Declare.staticField owner name))
  | method owner name argCount localCount isStatic => do
    pure (.number (← Declare.method owner name argCount localCount isStatic))
  | localName owner name slot => do Declare.localName owner name slot; pure .nothing
  | enumeration name members => do Declare.enumeration name members; pure .nothing
  | code call => do pure (.labels (← Declare.code call.perform))

/-! ### What a call is about -/

def use? : UnitCall → Option String
  | use moduleName => some moduleName
  | _ => none

def string? : UnitCall → Option String
  | string value => some value
  | _ => none

def classRef? : UnitCall → Option String
  | classRef name => some name
  | _ => none

def fieldRef? : UnitCall → Option String
  | fieldRef name => some name
  | _ => none

def methodRef? : UnitCall → Option MethodRef
  | methodRef name arity => some ⟨name, arity⟩
  | _ => none

def class? : UnitCall → Option ClassDeclaration
  | declareClass name parent kind => some ⟨name, parent, kind, #[], #[], #[]⟩
  | _ => none

/-- The instance field that a call declares for a class. -/
def field? (handle : ClassHandle) : UnitCall → Option String
  | field owner name => if owner = handle then some name else none
  | _ => none

/-- The static field that a call declares for a class. -/
def staticField? (handle : ClassHandle) : UnitCall → Option String
  | staticField owner name => if owner = handle then some name else none
  | _ => none

def enumeration? : UnitCall → Option EnumInfo
  | enumeration name members => some ⟨name, members⟩
  | _ => none

def code? : UnitCall → Option Emission.Call
  | code call => some call
  | _ => none

/-- The class to which a call adds something. -/
def owner? : UnitCall → Option ClassHandle
  | field owner _ | staticField owner _ | method owner .. | localName owner .. => some owner
  | _ => none

/-- The methods of a class after a call that is made at a position. A local name belongs to the
last method so far. -/
def addMethod (handle : ClassHandle) (position : Nat) (methods : List MethodDraft) :
    UnitCall → List MethodDraft
  | method owner name argCount localCount isStatic =>
    if owner = handle then
      methods ++ [⟨name, position, argCount, localCount, isStatic, #[]⟩]
    else methods
  | localName owner name slot =>
    if owner = handle then
      methods.modify (methods.length - 1) fun method =>
        { method with locals := method.locals.push (name, slot) }
    else methods
  | _ => methods

def extend (position : Nat) (declaration : ClassDeclaration) : UnitCall → ClassDeclaration
  | field _ name => { declaration with fields := declaration.fields.push name }
  | staticField _ name => { declaration with staticFields := declaration.staticFields.push name }
  | method _ name argCount localCount isStatic =>
    { declaration with
      methods := declaration.methods.push ⟨name, position, argCount, localCount, isStatic, #[]⟩ }
  | localName _ name slot =>
    { declaration with
      methods := declaration.methods.modify (declaration.methods.size - 1) fun method =>
        { method with locals := method.locals.push (name, slot) } }
  | _ => declaration

end UnitCall

/-! ## What calls declare -/

def emission (calls : List UnitCall) : Account :=
  Account.ofCalls (calls.filterMap UnitCall.code?)

/-- The methods that calls declare for a class, each starting where code was emitted next. -/
def methodsOf (handle : ClassHandle) (calls : List UnitCall) : List MethodDraft :=
  (calls.foldl
    (fun state call =>
      (call.code?.elim state.1 state.1.call, call.addMethod handle state.1.position state.2))
    (Account.empty, [])).2

def classOf (calls : List UnitCall) (handle : ClassHandle) (bare : ClassDeclaration) :
    ClassDeclaration :=
  { bare with
    staticFields := (calls.filterMap (UnitCall.staticField? handle)).toArray
    fields := (calls.filterMap (UnitCall.field? handle)).toArray
    methods := (methodsOf handle calls).toArray }

section Concat

variable (calls : List UnitCall) (call : UnitCall)

theorem emission_concat :
    emission (calls ++ [call]) = call.code?.elim (emission calls) (emission calls).call := by
  unfold emission Account.ofCalls
  rw [List.filterMap_append, List.foldl_append]
  cases call <;> rfl

theorem methodsOf_concat (handle : ClassHandle) :
    methodsOf handle (calls ++ [call]) =
      call.addMethod handle (emission calls).position (methodsOf handle calls) := by
  have account (start : Account) (methods : List MethodDraft) :
      (calls.foldl
        (fun state call =>
          (call.code?.elim state.1 state.1.call, call.addMethod handle state.1.position state.2))
        (start, methods)).1 = (calls.filterMap UnitCall.code?).foldl Account.call start := by
    induction calls generalizing start methods with
    | nil => rfl
    | cons call calls ih =>
        rw [List.foldl_cons, ih]
        cases call <;> rfl
  rw [methodsOf, List.foldl_append, List.foldl_cons, List.foldl_nil, account]
  rfl

/-- A call adds something to its class and leaves the others as they are. -/
theorem classOf_concat (handle : ClassHandle) (bare : ClassDeclaration) :
    classOf (calls ++ [call]) handle bare =
      if call.owner? = some handle then
        call.extend (emission calls).position (classOf calls handle bare)
      else classOf calls handle bare := by
  rw [classOf, methodsOf_concat, List.filterMap_append, List.filterMap_append, classOf]
  cases call with
  | field owner name | staticField owner name | method owner name =>
      by_cases same : owner = handle <;>
        simp [same, UnitCall.owner?, UnitCall.field?, UnitCall.staticField?, UnitCall.addMethod,
          UnitCall.extend]
  | localName owner name slot =>
      by_cases same : owner = handle <;>
        simp [same, UnitCall.owner?, UnitCall.field?, UnitCall.staticField?, UnitCall.addMethod,
          UnitCall.extend]
  | _ =>
      simp [UnitCall.owner?, UnitCall.field?, UnitCall.staticField?, UnitCall.addMethod]

/-- A class to which no call adds anything has no members. -/
theorem classOf_of_forall {handle : ClassHandle} {calls : List UnitCall}
    (other : ∀ call ∈ calls, call.owner? ≠ some handle) (bare : ClassDeclaration) :
    classOf calls handle bare =
      { bare with staticFields := #[], fields := #[], methods := #[] } := by
  induction calls using List.reverseRecOn with
  | nil => rfl
  | append_singleton calls call ih =>
      rw [classOf_concat, if_neg (other call (by simp))]
      exact ih fun before member => other before (List.mem_append_left _ member)

end Concat

/-! ## Numbers of keys -/

/-- The number of a key among keys that are numbered from 1 on by their first occurrence. -/
def numberIn [BEq α] (keys : List α) (key : α) : UInt32 :=
  UInt32.ofNat (keys.eraseDups.idxOf key + 1)

section Keys

variable [BEq α] [LawfulBEq α]

theorem eraseDups_concat (keys : List α) (key : α) :
    (keys ++ [key]).eraseDups =
      if key ∈ keys then keys.eraseDups else keys.eraseDups ++ [key] := by
  rw [List.eraseDups_append]
  by_cases seen : key ∈ keys
  · simp [seen, List.removeAll]
  · simp [seen, List.removeAll, List.eraseDups_cons]

theorem numberIn_append {keys : List α} {key : α} (seen : key ∈ keys) (more : List α) :
    numberIn (keys ++ more) key = numberIn keys key := by
  rw [numberIn, numberIn, List.eraseDups_append, List.idxOf_append_of_mem]
  exact List.mem_eraseDups.mpr seen

theorem intern_eq {keys : Array α} {seen : List α} (h : keys.toList = seen.eraseDups) (key : α) :
    (intern keys key).1 = numberIn (seen ++ [key]) key ∧
      (intern keys key).2.toList = (seen ++ [key]).eraseDups := by
  have search : keys.idxOf? key = seen.eraseDups.idxOf? key := by
    rw [← h, ← List.idxOf?_toArray, Array.toArray_toList]
  rw [numberIn, eraseDups_concat]
  cases found : seen.eraseDups.idxOf? key with
  | some place =>
      have known : key ∈ seen := by
        rw [← List.mem_eraseDups, ← List.isSome_idxOf?, found]
        rfl
      have here : seen.eraseDups.idxOf key = place :=
        (List.findIdx?_eq_some_iff_findIdx_eq.mp found).2
      simp [intern, search, found, known, here, h]
  | none =>
      have new : key ∉ seen.eraseDups := List.idxOf?_eq_none_iff.mp found
      have unseen : key ∉ seen := fun known => new (List.mem_eraseDups.mpr known)
      have size : keys.size = seen.eraseDups.length := by
        rw [← h, Array.length_toList]
      simp [intern, search, found, unseen, h, size, List.idxOf_append_of_notMem new]

end Keys

/-! ## Drafts -/

/-- What a draft holds after calls. -/
structure Drafted (name : String) (calls : List UnitCall) (draft : UnitDraft) : Prop where
  name : draft.name = name
  uses : draft.uses.toList = (calls.filterMap UnitCall.use?).eraseDups
  classes : ∀ index : Nat, draft.classes[index]? =
    (calls.filterMap UnitCall.class?)[index]?.map (classOf calls ⟨index⟩)
  enums : draft.enums.toList = calls.filterMap UnitCall.enumeration?
  strings : draft.strings.toList = (calls.filterMap UnitCall.string?).eraseDups
  classRefs : draft.classRefs.toList = (calls.filterMap UnitCall.classRef?).eraseDups
  fieldAccesses : draft.fieldAccesses.toList = (calls.filterMap UnitCall.fieldRef?).eraseDups
  methodCalls : draft.methodCalls.toList = (calls.filterMap UnitCall.methodRef?).eraseDups
  follows : Follows draft.assembly (emission calls)
  sound : (emission calls).Sound
  owners : ∀ call ∈ calls, ∀ owner, call.owner? = some owner →
    owner.index < (calls.filterMap UnitCall.class?).length

theorem drafted_start (name : String) : Drafted name [] (UnitDraft.start name) where
  name := rfl
  uses := rfl
  classes _ := rfl
  enums := rfl
  strings := rfl
  classRefs := rfl
  fieldAccesses := rfl
  methodCalls := rfl
  follows := Emission.follows_empty
  sound := Account.sound_empty
  owners := nofun

namespace UnitCall

/-- Whether a call can be made after a number of classes and labels: it names only those. -/
def Valid (classes labels : Nat) (call : UnitCall) : Prop :=
  (∀ owner, call.owner? = some owner → owner.index < classes) ∧
    ∀ emitted, call.code? = some emitted → emitted.Valid labels

instance (classes labels : Nat) (call : UnitCall) : Decidable (call.Valid classes labels) :=
  inferInstanceAs (Decidable ((∀ owner ∈ call.owner?, owner.index < classes) ∧
    ∀ emitted ∈ call.code?, emitted.Valid labels))

end UnitCall

section Effects

variable (call : UnitCall) (draft : UnitDraft)

/-- The draft after a call. -/
def after : UnitDraft :=
  (call.perform.run draft).2

theorem after_use (moduleName : String) : after (.use moduleName) draft =
    { draft with
      uses := if draft.uses.contains moduleName then draft.uses
        else draft.uses.push moduleName } := by
  change (if _ then _ else _ : UnitDraft) = _
  split <;> rfl

theorem name_after : (after call draft).name = draft.name := by
  cases call with
  | use moduleName => rw [after_use]
  | _ => rfl

theorem uses_after : (after call draft).uses = call.use?.elim draft.uses fun moduleName =>
    if draft.uses.contains moduleName then draft.uses else draft.uses.push moduleName := by
  cases call with
  | use moduleName => rw [after_use]; rfl
  | _ => rfl

theorem enums_after : (after call draft).enums =
    call.enumeration?.elim draft.enums draft.enums.push := by
  cases call with
  | use moduleName => rw [after_use]; rfl
  | _ => rfl

theorem strings_after : (after call draft).strings =
    call.string?.elim draft.strings fun key => (intern draft.strings key).2 := by
  cases call with
  | use moduleName => rw [after_use]; rfl
  | _ => rfl

theorem classRefs_after : (after call draft).classRefs =
    call.classRef?.elim draft.classRefs fun key => (intern draft.classRefs key).2 := by
  cases call with
  | use moduleName => rw [after_use]; rfl
  | _ => rfl

theorem fieldAccesses_after : (after call draft).fieldAccesses =
    call.fieldRef?.elim draft.fieldAccesses fun key => (intern draft.fieldAccesses key).2 := by
  cases call with
  | use moduleName => rw [after_use]; rfl
  | _ => rfl

theorem methodCalls_after : (after call draft).methodCalls =
    call.methodRef?.elim draft.methodCalls fun key => (intern draft.methodCalls key).2 := by
  cases call with
  | use moduleName => rw [after_use]; rfl
  | _ => rfl

theorem assembly_after : (after call draft).assembly =
    call.code?.elim draft.assembly fun emitted => (emitted.perform.run draft.assembly).2 := by
  cases call with
  | use moduleName => rw [after_use]; rfl
  | _ => rfl

theorem classes_after : (after call draft).classes =
    match call.class?, call.owner? with
    | some bare, _ => draft.classes.push bare
    | none, some owner =>
      draft.classes.modify owner.index fun declaration =>
        call.extend draft.assembly.position declaration
    | none, none => draft.classes := by
  cases call with
  | use moduleName => rw [after_use]; rfl
  | _ => rfl

end Effects

/-! ### One call -/

theorem keys_concat [BEq α] [LawfulBEq α] {keys : Array α} {calls : List UnitCall}
    (key? : UnitCall → Option α) (h : keys.toList = (calls.filterMap key?).eraseDups)
    (call : UnitCall) :
    ((key? call).elim keys fun key => (intern keys key).2).toList =
      ((calls ++ [call]).filterMap key?).eraseDups := by
  rw [List.filterMap_append]
  cases asked : key? call with
  | none => simpa [asked] using h
  | some key => simpa [asked] using (intern_eq h key).2

theorem uses_concat {uses : Array String} {calls : List UnitCall}
    (h : uses.toList = (calls.filterMap UnitCall.use?).eraseDups) (call : UnitCall) :
    (call.use?.elim uses fun moduleName =>
        if uses.contains moduleName then uses else uses.push moduleName).toList =
      ((calls ++ [call]).filterMap UnitCall.use?).eraseDups := by
  rw [List.filterMap_append]
  cases asked : call.use? with
  | none => simpa [asked] using h
  | some moduleName =>
      have known : uses.contains moduleName = true ↔
          moduleName ∈ calls.filterMap UnitCall.use? := by
        rw [Array.contains_iff_mem, ← Array.mem_toList_iff, h, List.mem_eraseDups]
      have single : [call].filterMap UnitCall.use? = [moduleName] := by simp [asked]
      rw [Option.elim_some, single, eraseDups_concat, ← h]
      by_cases seen : moduleName ∈ calls.filterMap UnitCall.use?
      · rw [if_pos (known.mpr seen), if_pos seen]
      · rw [if_neg fun found => seen (known.mp found), if_neg seen, Array.toList_push]

theorem UnitCall.of_class? {call : UnitCall} {bare : ClassDeclaration}
    (h : call.class? = some bare) : call.owner? = none ∧
      { bare with staticFields := #[], fields := #[], methods := #[] } = bare := by
  cases call with
  | declareClass name parent kind =>
      injection h with same
      subst same
      exact ⟨rfl, rfl⟩
  | _ => cases h

theorem classes_concat {calls : List UnitCall} {classes : Array ClassDeclaration}
    (h : ∀ index : Nat, classes[index]? =
      (calls.filterMap UnitCall.class?)[index]?.map (classOf calls ⟨index⟩))
    (h' : ∀ call ∈ calls, ∀ owner, call.owner? = some owner →
      owner.index < (calls.filterMap UnitCall.class?).length)
    (call : UnitCall) (index : Nat) :
    (match call.class?, call.owner? with
      | some bare, _ => classes.push bare
      | none, some owner =>
        classes.modify owner.index fun declaration =>
          call.extend (emission calls).position declaration
      | none, none => classes)[index]? =
      ((calls ++ [call]).filterMap UnitCall.class?)[index]?.map
        (classOf (calls ++ [call]) ⟨index⟩) := by
  rw [List.filterMap_append]
  cases declares : call.class? with
  | some bare =>
      obtain ⟨unowned, memberless⟩ := UnitCall.of_class? declares
      have single : [call].filterMap UnitCall.class? = [bare] := by simp [declares]
      have kept (other : ClassDeclaration) :
          classOf (calls ++ [call]) ⟨index⟩ other = classOf calls ⟨index⟩ other := by
        rw [classOf_concat, unowned, if_neg nofun]
      have size : classes.size = (calls.filterMap UnitCall.class?).length :=
        Emission.size_eq_length h
      rw [single, funext kept, Array.getElem?_push, size]
      by_cases last : index = (calls.filterMap UnitCall.class?).length
      · have unused : ∀ call ∈ calls, call.owner? ≠ some ⟨index⟩ := fun call member owned => by
          have before : index < (calls.filterMap UnitCall.class?).length :=
            h' call member _ owned
          omega
        rw [if_pos last, last, List.getElem?_concat_length, Option.map_some, ← last,
          classOf_of_forall unused, memberless]
      · rw [if_neg last, h index]
        rcases Nat.lt_or_gt_of_ne last with inside | beyond
        · rw [List.getElem?_append_left inside]
        · rw [List.getElem?_eq_none (Nat.le_of_lt beyond), List.getElem?_eq_none]
          rw [List.length_append, List.length_singleton]
          exact beyond
  | none =>
      have same : [call].filterMap UnitCall.class? = [] := by simp [declares]
      rw [same, List.append_nil]
      cases owned : call.owner? with
      | none =>
          simp only [h index, funext (classOf_concat calls call ⟨index⟩), owned]
          rfl
      | some owner =>
          simp only [Array.getElem?_modify, h index, funext (classOf_concat calls call ⟨index⟩),
            owned]
          by_cases here : owner.index = index
          · subst here
            simp
            rfl
          · have other : owner ≠ ⟨index⟩ := fun same => here (congrArg ClassHandle.index same)
            simp [here, other]

theorem Drafted.step {name : String} {calls : List UnitCall} {draft : UnitDraft}
    (h : Drafted name calls draft) {call : UnitCall}
    (valid : call.Valid (calls.filterMap UnitCall.class?).length (emission calls).labels) :
    Drafted name (calls ++ [call]) (after call draft) where
  name := by rw [name_after, h.name]
  uses := by
    rw [uses_after]
    exact uses_concat h.uses call
  classes index := by
    rw [classes_after, h.follows.position]
    exact classes_concat h.classes h.owners call index
  enums := by
    rw [enums_after, List.filterMap_append, ← h.enums]
    cases asked : call.enumeration? <;> simp [asked]
  strings := by
    rw [strings_after]
    exact keys_concat _ h.strings call
  classRefs := by
    rw [classRefs_after]
    exact keys_concat _ h.classRefs call
  fieldAccesses := by
    rw [fieldAccesses_after]
    exact keys_concat _ h.fieldAccesses call
  methodCalls := by
    rw [methodCalls_after]
    exact keys_concat _ h.methodCalls call
  follows := by
    rw [assembly_after, emission_concat]
    cases emits : call.code? with
    | none => exact h.follows
    | some emitted =>
        obtain ⟨last, run, follows, -⟩ := h.follows.call h.sound (valid.2 emitted emits)
        rw [Option.elim_some, Option.elim_some, run]
        exact follows
  sound := by
    rw [emission_concat]
    cases emits : call.code? with
    | none => exact h.sound
    | some emitted =>
        obtain ⟨-, -, -, sound⟩ := h.follows.call h.sound (valid.2 emitted emits)
        exact sound
  owners other member owner owned := by
    rw [List.filterMap_append, List.length_append]
    rcases List.mem_append.mp member with old | new
    · exact Nat.lt_of_lt_of_le (h.owners other old owner owned) (Nat.le_add_right _ _)
    · rw [List.mem_singleton.mp new] at owned
      exact Nat.lt_of_lt_of_le (valid.1 owner owned) (Nat.le_add_right _ _)

/-! ### All calls -/

namespace UnitCall

/-- The number that a call which asks for one has to get, if `calls` are all calls made. -/
def interned? (calls : List UnitCall) : UnitCall → Option UInt32
  | string value => some (numberIn (calls.filterMap string?) value)
  | classRef name => some (numberIn (calls.filterMap classRef?) name)
  | fieldRef name => some (numberIn (calls.filterMap fieldRef?) name)
  | methodRef name arity => some (numberIn (calls.filterMap methodRef?) ⟨name, arity⟩)
  | _ => none

/-- Whether a call that asks for a number has got the one of its key among those of all calls. -/
def Answered (calls : List UnitCall) (call : UnitCall) (answer : Answer) : Prop :=
  ∀ number, call.interned? calls = some number → answer = .number number

def created (call : UnitCall) : Nat :=
  (call.code?.map Emission.Call.created).getD 0

def AllValid : Nat → Nat → List UnitCall → Prop
  | _, _, [] => True
  | classes, labels, call :: calls =>
    call.Valid classes labels ∧
      AllValid (classes + call.class?.toList.length) (labels + call.created) calls

instance : (classes labels : Nat) → (calls : List UnitCall) →
    Decidable (AllValid classes labels calls)
  | _, _, [] => isTrue trivial
  | classes, labels, call :: calls =>
    let _ := instDecidableAllValid (classes + call.class?.toList.length) (labels + call.created)
      calls
    inferInstanceAs (Decidable (call.Valid classes labels ∧
      AllValid (classes + call.class?.toList.length) (labels + call.created) calls))

end UnitCall

/-- A number that a call has got stays the number of its key. -/
theorem interned?_append {calls : List UnitCall} {call : UnitCall} (made : call ∈ calls)
    (more : List UnitCall) : call.interned? (calls ++ more) = call.interned? calls := by
  have listed {α : Type} (key? : UnitCall → Option α) {key : α} (own : key? call = some key) :
      key ∈ calls.filterMap key? := List.mem_filterMap.mpr ⟨call, made, own⟩
  cases call with
  | string value =>
      simp only [UnitCall.interned?, List.filterMap_append]
      rw [numberIn_append (listed UnitCall.string? rfl)]
  | classRef name =>
      simp only [UnitCall.interned?, List.filterMap_append]
      rw [numberIn_append (listed UnitCall.classRef? rfl)]
  | fieldRef name =>
      simp only [UnitCall.interned?, List.filterMap_append]
      rw [numberIn_append (listed UnitCall.fieldRef? rfl)]
  | methodRef name arity =>
      simp only [UnitCall.interned?, List.filterMap_append]
      rw [numberIn_append (listed UnitCall.methodRef? rfl)]
  | _ => rfl

/-- A call that asks for a number gets the one of its key. -/
theorem answer_eq {name : String} {calls : List UnitCall} {draft : UnitDraft}
    (h : Drafted name calls draft) {call : UnitCall} {number : UInt32}
    (asked : call.interned? (calls ++ [call]) = some number) :
    (call.perform.run draft).1 = .number number := by
  have first {α : Type} [BEq α] [LawfulBEq α] {keys : Array α} {key? : UnitCall → Option α}
      (drafted : keys.toList = (calls.filterMap key?).eraseDups) {key : α}
      (own : key? call = some key) :
      (intern keys key).1 = numberIn ((calls ++ [call]).filterMap key?) key := by
    have single : [call].filterMap key? = [key] := by simp [own]
    rw [List.filterMap_append, single]
    exact (intern_eq drafted key).1
  cases call with
  | string value =>
      injection asked with same
      rw [← same, ← first h.strings rfl]
      rfl
  | classRef name =>
      injection asked with same
      rw [← same, ← first h.classRefs rfl]
      rfl
  | fieldRef name =>
      injection asked with same
      rw [← same, ← first h.fieldAccesses rfl]
      rfl
  | methodRef name arity =>
      injection asked with same
      rw [← same, ← first h.methodCalls rfl]
      rfl
  | _ => cases asked

theorem labels_emission (calls : List UnitCall) (call : UnitCall) :
    (emission (calls ++ [call])).labels = (emission calls).labels + call.created := by
  rw [emission_concat, UnitCall.created]
  cases call.code? with
  | none => rfl
  | some emitted => exact Emission.labels_call _ emitted

/-- The run lemma of building: the draft holds what all calls declare, and every call that asks
for a number gets the one of its key among all keys. -/
theorem Drafted.mapM {name : String} {before calls : List UnitCall} {draft : UnitDraft}
    (h : Drafted name before draft)
    (valid : UnitCall.AllValid (before.filterMap UnitCall.class?).length (emission before).labels
      calls) :
    ∃ answers last, (calls.mapM UnitCall.perform).run draft = (answers, last) ∧
      Drafted name (before ++ calls) last ∧
      List.Forall₂ (UnitCall.Answered (before ++ calls)) calls answers := by
  induction calls generalizing before draft with
  | nil =>
      refine ⟨[], draft, rfl, ?_, .nil⟩
      rwa [List.append_nil]
  | cons call calls ih =>
      have rest : UnitCall.AllValid ((before ++ [call]).filterMap UnitCall.class?).length
          (emission (before ++ [call])).labels calls := by
        have classes : ((before ++ [call]).filterMap UnitCall.class?).length =
            (before.filterMap UnitCall.class?).length + call.class?.toList.length := by
          rw [List.filterMap_append, List.length_append]
          cases call <;> rfl
        rw [classes, labels_emission]
        exact valid.2
      obtain ⟨answers, last, run, drafted, answered⟩ := ih (h.step valid.1) rest
      rw [List.append_assoc, List.singleton_append] at drafted answered
      refine ⟨(call.perform.run draft).1 :: answers, last, ?_, drafted, .cons ?_ answered⟩
      · have both : ((call :: calls).mapM UnitCall.perform).run draft =
            ((call.perform.run draft).1 ::
                ((calls.mapM UnitCall.perform).run (after call draft)).1,
              ((calls.mapM UnitCall.perform).run (after call draft)).2) := by
          rw [List.mapM_cons]
          rfl
        rw [both, run]
      · intro number asked
        have made : call ∈ before ++ [call] := by simp
        have kept := interned?_append made calls
        rw [List.append_assoc, List.singleton_append, asked] at kept
        exact answer_eq h kept.symm

def build (name : String) (calls : List UnitCall) : List Answer × UnitDraft :=
  (calls.mapM UnitCall.perform).run (UnitDraft.start name)

end Building

end ObjectMachine
