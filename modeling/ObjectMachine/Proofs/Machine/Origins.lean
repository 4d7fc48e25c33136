import ObjectMachine.Machine.Store
import ObjectMachine.Native.Console
import ObjectMachine.Proofs.Program.Slots

/-!
# Objects and the classes they were created of

The classes that the objects of a heap were created of, in the order of creation, type the heap: an
object of a plain class has as many slots as its class counts, one of a native class has the state
of that, and every reference to an object views it as its class or as an ancestor. Whatever reads
and writes through such references keeps the heap typed.
-/

namespace ObjectMachine

namespace Value

def isObject : Value → Bool
  | object _ _ => true
  | _ => false

/-- Whether a value that refers to an object views it as the class that it was created of or as an
ancestor of that. -/
def Faithful (catalog : Catalog) (origins : List ClassId) (value : Value) : Prop :=
  ∀ view id, value = .object view id →
    ∃ origin, origins[id.index]? = some origin ∧ catalog.Descends origin view

variable {catalog : Catalog} {origins : List ClassId}

theorem faithful_of_not_isObject {value : Value} (h : value.isObject = false) :
    value.Faithful catalog origins := by
  rintro view id rfl
  cases h

@[simp] theorem faithful_object_iff {view : ClassId} {id : ObjectId} :
    Faithful catalog origins (.object view id) ↔
      ∃ origin, origins[id.index]? = some origin ∧ catalog.Descends origin view := by
  constructor
  · intro h
    exact h view id rfl
  · rintro h _ _ ⟨⟩
    exact h

theorem Faithful.append {value : Value} (h : value.Faithful catalog origins)
    (more : List ClassId) : value.Faithful catalog (origins ++ more) := by
  intro view id same
  obtain ⟨origin, found, descends⟩ := h view id same
  obtain ⟨inside, -⟩ := List.getElem?_eq_some_iff.mp found
  exact ⟨origin, by rw [List.getElem?_append_left inside, found], descends⟩

end Value

/-- Whether something is what is behind an object of a class. -/
def Instance.Houses (catalog : Catalog) (origins : List ClassId) (origin : ClassId) :
    Instance → Prop
  | .fields slots =>
    (catalog.get origin).facade = none ∧
      slots.size = (catalog.get origin).instanceFieldCount.toNat ∧
      ∀ value ∈ slots, value.Faithful catalog origins
  | .native typeName slots =>
    (∃ facade, (catalog.get origin).facade = some facade ∧ facade.typeName = typeName) ∧
      ∀ value ∈ slots, value.Faithful catalog origins

/-! ## Heaps -/

namespace Heap

/-- Whether the objects of a heap are laid out as the classes that they were created of say, and all
references in it are faithful. -/
structure Intact (catalog : Catalog) (origins : List ClassId) (heap : Heap) : Prop where
  size : heap.objects.size = origins.length
  arrays : ∀ items ∈ heap.arrays, ∀ value ∈ items, value.Faithful catalog origins
  objects : ∀ (place : Nat) (origin : ClassId) (content : Instance), origins[place]? = some origin →
    heap.objects[place]? = some content → content.Houses catalog origins origin

theorem mem_readSlot (slots : Array Value) (slot : UInt32) :
    readSlot slots slot = .null ∨ readSlot slots slot ∈ slots := by
  unfold readSlot
  split
  · next place _ =>
      rw [Array.getD_eq_getD_getElem?]
      cases found : slots[place]? with
      | none => exact .inl rfl
      | some value => exact .inr (Array.mem_of_getElem? found)
  · exact .inl rfl

theorem mem_writeSlot {slots : Array Value} {slot : UInt32} {value other : Value}
    (h : other ∈ writeSlot slots slot value) : other ∈ slots ∨ other = value ∨ other = .null := by
  unfold writeSlot at h
  split at h
  · split at h
    · rcases Array.mem_or_eq_of_mem_setIfInBounds h with old | rfl
      · exact .inl old
      · exact .inr (.inl rfl)
    · rcases Array.mem_push.mp h with before | rfl
      · rcases Array.mem_append.mp before with old | padding
        · exact .inl old
        · exact .inr (.inr (Array.mem_replicate.mp padding).2)
      · exact .inr (.inl rfl)
  · exact .inl h

/-- A slot that there is can be written without making room for it. -/
theorem size_writeSlot {slots : Array Value} {slot : UInt32} (inside : slot.toNat ≤ slots.size)
    (value : Value) : (writeSlot slots slot value).size = slots.size := by
  unfold writeSlot placeOf
  by_cases zero : slot = 0
  · simp [zero]
  · have positive : slot.toNat ≠ 0 := by
      intro none
      exact zero (UInt32.toNat_inj.mp none)
    have place : slot.toNat - 1 < slots.size := by omega
    simp [zero, place]

namespace Intact

variable {catalog : Catalog} {origins : List ClassId} {heap : Heap}

theorem empty (catalog : Catalog) : Heap.empty.Intact catalog [] where
  size := rfl
  arrays := by simp [Heap.empty]
  objects := by simp

theorem items (h : heap.Intact catalog origins) (id : ArrayId) :
    ∀ value ∈ heap.items id, value.Faithful catalog origins := by
  unfold Heap.items
  rw [Array.getD_eq_getD_getElem?]
  cases found : heap.arrays[id.index]? with
  | none => simp
  | some items => exact h.arrays items (Array.mem_of_getElem? found)

theorem newArray (h : heap.Intact catalog origins) {items : Array Value}
    (faithful : ∀ value ∈ items, value.Faithful catalog origins) :
    (heap.newArray items).2.Intact catalog origins where
  size := h.size
  arrays := by
    intro other member
    rcases Array.mem_push.mp member with old | rfl
    · exact h.arrays other old
    · exact faithful
  objects := h.objects

theorem setItem (h : heap.Intact catalog origins) (id : ArrayId) (place : Nat) {value : Value}
    (faithful : value.Faithful catalog origins) :
    (heap.setItem id place value).Intact catalog origins where
  size := h.size
  arrays := by
    intro items member other there
    obtain ⟨index, found⟩ := Array.getElem?_of_mem member
    simp only [Heap.setItem, Array.getElem?_modify] at found
    split at found
    · obtain ⟨old, here, rfl⟩ := Option.map_eq_some_iff.mp found
      rcases Array.mem_or_eq_of_mem_setIfInBounds there with before | rfl
      · exact h.arrays old (Array.mem_of_getElem? here) other before
      · exact faithful
    · exact h.arrays items (Array.mem_of_getElem? found) other there
  objects := h.objects

/-- What an object that has been created of a class houses. -/
theorem houses (h : heap.Intact catalog origins) {id : ObjectId} {content : Instance}
    (there : heap.content? id = some content) :
    ∃ origin, origins[id.index]? = some origin ∧ content.Houses catalog origins origin := by
  obtain ⟨inside, -⟩ := Array.getElem?_eq_some_iff.mp there
  rw [h.size] at inside
  exact ⟨origins[id.index], List.getElem?_eq_getElem inside,
    h.objects _ _ content (List.getElem?_eq_getElem inside) there⟩

theorem field (h : heap.Intact catalog origins) (id : ObjectId) (slot : UInt32) :
    (heap.field id slot).Faithful catalog origins := by
  unfold Heap.field
  split
  · next slots there =>
      obtain ⟨origin, -, -, -, faithful⟩ := h.houses there
      rcases mem_readSlot _ slot with null | member
      · rw [null]
        exact Value.faithful_of_not_isObject rfl
      · exact faithful _ member
  · exact Value.faithful_of_not_isObject rfl

/-- Changing what is behind objects leaves a heap intact if it still is what their classes say. -/
theorem modifyObject (h : heap.Intact catalog origins) (id : ObjectId)
    {change : Instance → Instance}
    (same : ∀ origin content, origins[id.index]? = some origin →
      heap.objects[id.index]? = some content → content.Houses catalog origins origin →
        (change content).Houses catalog origins origin) :
    Intact catalog origins { heap with objects := heap.objects.modify id.index change } where
  size := by
    rw [← h.size]
    exact Array.size_modify
  arrays := h.arrays
  objects := by
    intro place origin content created found
    rw [Array.getElem?_modify] at found
    split at found
    · next here =>
        subst here
        obtain ⟨old, there, rfl⟩ := Option.map_eq_some_iff.mp found
        exact same origin old created there (h.objects _ origin old created there)
    · exact h.objects place origin content created found

/-- A field of a class that an object is seen as lies among the slots that the object has. -/
theorem setField {facades : List Facade} (h : heap.Intact catalog origins)
    (laid : catalog.Laid facades) {view : ClassId} {id : ObjectId}
    (seen : Value.Faithful catalog origins (.object view id)) {slot : UInt32}
    (inside : slot ≤ (catalog.get view).instanceFieldCount) {value : Value}
    (faithful : value.Faithful catalog origins) :
    (heap.setField id slot value).Intact catalog origins := by
  apply h.modifyObject
  intro origin content created there houses
  cases content with
  | native typeName slots => exact houses
  | fields slots =>
      obtain ⟨plain, size, each⟩ := houses
      obtain ⟨_, found, descends⟩ := Value.faithful_object_iff.mp seen
      obtain rfl : _ = origin := Option.some.inj (found.symm.trans created)
      have room : slot.toNat ≤ slots.size := by
        rw [size]
        exact UInt32.le_iff_toNat_le.mp (UInt32.le_trans inside (laid.count_le descends))
      refine ⟨plain, (size_writeSlot room value).trans size, ?_⟩
      intro other member
      rcases mem_writeSlot member with old | rfl | rfl
      · exact each other old
      · exact faithful
      · exact Value.faithful_of_not_isObject rfl

/-- The state of a native object may become another one of its type. -/
theorem setContent (h : heap.Intact catalog origins) {id : ObjectId} {typeName : String}
    {slots after : Array Value} (there : heap.content? id = some (.native typeName slots))
    (faithful : ∀ value ∈ after, value.Faithful catalog origins) :
    (heap.setContent id (.native typeName after)).Intact catalog origins := by
  have same : heap.setContent id (.native typeName after) =
      { heap with objects := heap.objects.modify id.index fun _ => .native typeName after } := by
    simp only [Heap.setContent, Heap.mk.injEq, true_and]
    apply Array.ext_getElem?
    intro place
    rw [Array.getElem?_setIfInBounds, Array.getElem?_modify]
    grind
  rw [same]
  apply h.modifyObject
  intro origin content created found houses
  obtain rfl := Option.some.inj (there.symm.trans found)
  exact ⟨houses.1, faithful⟩

/-- A new object is one of the class that it is created of. -/
theorem newObject (h : heap.Intact catalog origins) {origin : ClassId} {content : Instance}
    (houses : content.Houses catalog origins origin) :
    (heap.newObject content).2.Intact catalog (origins ++ [origin]) ∧
      Value.Faithful catalog (origins ++ [origin]) (.object origin (heap.newObject content).1) := by
  have grown {content : Instance} {origin : ClassId}
      (houses : content.Houses catalog origins origin) (more : List ClassId) :
      content.Houses catalog (origins ++ more) origin := by
    cases content with
    | fields slots =>
        exact ⟨houses.1, houses.2.1, fun value member => (houses.2.2 value member).append more⟩
    | native typeName slots =>
        exact ⟨houses.1, fun value member => (houses.2 value member).append more⟩
  have last : (origins ++ [origin])[heap.objects.size]? = some origin := by
    rw [h.size, List.getElem?_concat_length]
  refine ⟨⟨?_, ?_, ?_⟩, ?_⟩
  · simp [Heap.newObject, h.size]
  · intro items member value there
    exact (h.arrays items member value there).append [origin]
  · intro place other found created there
    simp only [Heap.newObject, Array.getElem?_push] at there
    split at there
    · next new =>
        subst new
        cases there
        obtain rfl := Option.some.inj (last.symm.trans created)
        exact grown houses [origin]
    · obtain ⟨inside, -⟩ := Array.getElem?_eq_some_iff.mp there
      rw [h.size] at inside
      rw [List.getElem?_append_left inside] at created
      exact grown (h.objects place other found created there) [origin]
  · exact Value.faithful_object_iff.mpr ⟨origin, last, .refl⟩

end Intact

end Heap

/-! ## Native classes -/

/-- Whether the values that a native operation works on are all of a kind. -/
structure NativeScope.Holds (kind : Value → Prop) (scope : NativeScope) : Prop where
  shared : ∀ value ∈ scope.shared, kind value
  own : ∀ slots ∈ scope.own, ∀ value ∈ slots, kind value

/-- Whether a native operation has answers of a kind, and keeps values of a kind, wherever it works
on values of that kind. -/
def Native.Hands (kind : Value → Prop) (answers : α → Prop) (operation : Native α) : Prop :=
  ∀ scope, scope.Holds kind → ∀ answer after, operation.run scope = .ok (answer, after) →
    answers answer ∧ after.Holds kind

/-- Whether the operations of a native class make no references to objects of their own: whatever
they hand out or keep, they have been given, or it is no object. -/
structure Facade.Honest (facade : Facade) : Prop where
  shared : ∀ value ∈ facade.shared, value.isObject = false
  create : ∀ kind : Value → Prop, (∀ value, value.isObject = false → kind value) →
    facade.create.Hands kind fun slots => ∀ value ∈ slots, kind value
  get : ∀ kind : Value → Prop, (∀ value, value.isObject = false → kind value) →
    ∀ name, (facade.get name).Hands kind kind
  set : ∀ kind : Value → Prop, (∀ value, value.isObject = false → kind value) →
    ∀ display name value, kind value → (facade.set display name value).Hands kind fun _ => True
  call : ∀ kind : Value → Prop, (∀ value, value.isObject = false → kind value) →
    ∀ display name args, (∀ value ∈ args, kind value) →
      (facade.call display name args).Hands kind kind

namespace Native.Hands

variable {kind : Value → Prop} {answers : α → Prop}

theorem of_pure {answer : α} (h : answers answer) : Native.Hands kind answers (pure answer) := by
  intro scope holds _ _ done
  cases done
  exact ⟨h, holds⟩

theorem of_throw (problem : String) : Native.Hands kind answers (throw problem) := by
  intro scope holds _ _ done
  cases done

theorem bind {answers' : β → Prop} {operation : Native α} {next : α → Native β}
    (h : operation.Hands kind answers)
    (hn : ∀ answer, answers answer → (next answer).Hands kind answers') :
    Native.Hands kind answers' (operation >>= next) := by
  intro scope holds answer after done
  obtain ⟨⟨first, middle⟩, here, there⟩ := Except.bind_eq_ok_iff.mp done
  obtain ⟨good, held⟩ := h scope holds first middle here
  exact hn first good middle held answer after there

theorem of_get : Native.Hands kind (NativeScope.Holds kind) get := by
  intro scope holds _ _ done
  cases done
  exact ⟨holds, holds⟩

theorem of_modify {change : NativeScope → NativeScope}
    (h : ∀ scope, scope.Holds kind → (change scope).Holds kind) :
    Native.Hands kind (fun _ => True) (modify change) := by
  intro scope holds _ _ done
  cases done
  exact ⟨trivial, h scope holds⟩

end Native.Hands

namespace Console

variable {kind : Value → Prop} (plain : ∀ value, value.isObject = false → kind value)

include plain

theorem hands_lines : lines.Hands kind kind := by
  refine Native.Hands.of_get.bind fun scope holds => Native.Hands.of_pure ?_
  rw [Array.getD_eq_getD_getElem?]
  cases found : scope.shared[0]? with
  | none => exact plain _ rfl
  | some value => exact holds.shared value (Array.mem_of_getElem? found)

theorem hands_heading? : heading?.Hands kind fun value => ∀ text ∈ value, kind text := by
  refine Native.Hands.of_get.bind fun scope holds => Native.Hands.of_pure ?_
  intro text found
  obtain ⟨slots, own, rfl⟩ := Option.map_eq_some_iff.mp found
  rw [Array.getD_eq_getD_getElem?]
  cases first : slots[0]? with
  | none => exact plain _ rfl
  | some value => exact holds.own slots own value (Array.mem_of_getElem? first)

theorem hands_getField (name : String) : (getField name).Hands kind kind := by
  refine (hands_heading? plain).bind fun heading texts => ?_
  split
  · exact hands_lines plain
  · next text => exact Native.Hands.of_pure (texts text rfl)
  · exact Native.Hands.of_throw _

theorem hands_setField (display : Value → String) (name : String) (value : Value) :
    (setField display name value).Hands kind fun _ => True := by
  refine (hands_heading? plain).bind fun heading _ => ?_
  split
  · refine Native.Hands.of_modify fun scope holds => ⟨holds.shared, ?_⟩
    rintro _ ⟨⟩ text member
    obtain rfl := Array.mem_singleton.mp member
    exact plain _ rfl
  · exact Native.Hands.of_throw _
  · exact Native.Hands.of_throw _

theorem hands_print (display : Value → String) (endsLine : Bool) (value : Value) :
    (print display endsLine value).Hands kind kind := by
  refine (hands_heading? plain).bind fun heading _ => ?_
  refine (hands_lines plain).bind fun count counted => ?_
  refine (Native.Hands.of_modify fun scope holds => ?_).bind fun _ _ =>
    Native.Hands.of_pure (plain _ rfl)
  split
  · refine ⟨?_, holds.own⟩
    intro next member
    obtain rfl := Array.mem_singleton.mp member
    unfold nextLine
    split
    · exact plain _ rfl
    · exact counted
  · exact ⟨holds.shared, holds.own⟩

end Console

/-- The console prints values and keeps texts and a number. -/
theorem Console.honest : Console.facade.Honest where
  shared := by
    intro value member
    obtain rfl := Array.mem_singleton.mp member
    rfl
  create := by
    intro kind plain
    apply Native.Hands.of_pure
    intro value member
    obtain rfl := Array.mem_singleton.mp member
    exact plain _ rfl
  get kind plain := hands_getField plain
  set kind plain display name value _ := hands_setField plain display name value
  call kind plain display name args _ := by
    show (Console.call display name args).Hands kind kind
    unfold Console.call
    split
    · exact hands_print plain _ _ _
    · exact hands_print plain _ _ _
    · exact Native.Hands.of_throw _

/-! ## Stores -/

namespace Store

/-- Whether the heap of a store is intact and all references in the store are faithful. -/
structure Intact (catalog : Catalog) (origins : List ClassId) (store : Store) : Prop where
  heap : store.heap.Intact catalog origins
  statics : ∀ statics ∈ store.statics, ∀ value ∈ statics.slots, value.Faithful catalog origins
  shared : ∀ entry ∈ store.shared, ∀ value ∈ entry.2, value.Faithful catalog origins

/-- Before the first run of a program there are no objects. -/
theorem intact_ofCatalog {facades : List Facade} {catalog : Catalog}
    (parts : catalog.Parts facades) : (ofCatalog catalog).Intact catalog [] where
  heap := .empty catalog
  statics := by
    intro statics member value there
    obtain ⟨info, listed, rfl⟩ := Array.mem_map.mp member
    obtain ⟨place, found⟩ := Array.getElem?_of_mem listed
    have blank := parts.blank ⟨place⟩ value
    simp only [Catalog.get, Array.getD_eq_getD_getElem?, found, Option.getD_some] at blank
    rw [blank there]
    exact Value.faithful_of_not_isObject rfl
  shared := by simp [ofCatalog, empty]

/-- What a native operation works on: the shared values of its class and the state of its object. -/
theorem scopeOf_eq_ok {store : Store} {facade : Facade} {target : Option ObjectId}
    {scope : NativeScope} (found : store.scopeOf facade target = .ok scope) :
    scope.shared = (store.shared.lookup facade.typeName).getD facade.shared ∧
      (∀ slots ∈ scope.own, ∃ id ∈ target,
        store.heap.content? id = some (.native facade.typeName slots)) ∧
      ∀ id ∈ target, ∃ slots, store.heap.content? id = some (.native facade.typeName slots) := by
  unfold scopeOf at found
  cases target with
  | none =>
      cases found
      exact ⟨rfl, nofun, nofun⟩
  | some id =>
      simp only [Option.map_some] at found
      split at found
      · next none => cases none
      · next typeName slots content =>
          split at found
          · next same =>
              cases found
              subst same
              have there := Option.some.inj content
              refine ⟨rfl, ?_, ?_⟩
              · rintro _ ⟨⟩
                exact ⟨id, rfl, there⟩
              · rintro _ ⟨⟩
                exact ⟨slots, there⟩
          · cases found
      · cases found

namespace Intact

variable {catalog : Catalog} {origins : List ClassId} {store : Store}
  (h : store.Intact catalog origins)

include h

theorem withHeap {heap : Heap} (intact : heap.Intact catalog origins) :
    Intact catalog origins { store with heap } :=
  ⟨intact, h.statics, h.shared⟩

theorem withPrinted (printed : String) : Intact catalog origins { store with printed } :=
  ⟨h.heap, h.statics, h.shared⟩

/-- More objects leave all other references as they are. -/
theorem withMore {more : List ClassId} {heap : Heap}
    (intact : heap.Intact catalog (origins ++ more)) :
    Intact catalog (origins ++ more) { store with heap } where
  heap := intact
  statics statics member value there := (h.statics statics member value there).append more
  shared entry member value there := (h.shared entry member value there).append more

theorem value (id : ClassId) (slot : UInt32) :
    ((store.staticsOf id).value slot).Faithful catalog origins := by
  unfold staticsOf ClassStatics.value
  rw [Array.getD_eq_getD_getElem?]
  cases found : store.statics[id.index]? with
  | none =>
      rcases Heap.mem_readSlot #[] slot with null | member
      · rw [Option.getD_none]
        exact null ▸ Value.faithful_of_not_isObject rfl
      · simp at member
  | some statics =>
      rcases Heap.mem_readSlot statics.slots slot with null | member
      · rw [Option.getD_some, null]
        exact Value.faithful_of_not_isObject rfl
      · exact h.statics statics (Array.mem_of_getElem? found) _ member

theorem modifyStatics (id : ClassId) {change : ClassStatics → ClassStatics}
    (faithful : ∀ statics ∈ store.statics, ∀ value ∈ (change statics).slots,
      value.Faithful catalog origins) :
    Intact catalog origins { store with statics := store.statics.modify id.index change } := by
  refine ⟨h.heap, ?_, h.shared⟩
  intro statics member value there
  obtain ⟨place, found⟩ := Array.getElem?_of_mem member
  simp only [Array.getElem?_modify] at found
  split at found
  · obtain ⟨old, here, rfl⟩ := Option.map_eq_some_iff.mp found
    exact faithful old (Array.mem_of_getElem? here) value there
  · exact h.statics statics (Array.mem_of_getElem? found) value there

theorem setStatic (id : ClassId) (slot : UInt32) {value : Value}
    (faithful : value.Faithful catalog origins) :
    (store.setStatic id slot value).Intact catalog origins := by
  apply h.modifyStatics
  intro statics member other there
  rcases Heap.mem_writeSlot there with old | rfl | rfl
  · exact h.statics statics member other old
  · exact faithful
  · exact Value.faithful_of_not_isObject rfl

theorem beginInitialization (id : ClassId) :
    (store.beginInitialization id).Intact catalog origins :=
  h.modifyStatics id h.statics

/-! ### Native operations -/

theorem holds_of_scopeOf {facade : Facade} (honest : facade.Honest) {target : Option ObjectId}
    {scope : NativeScope} (found : store.scopeOf facade target = .ok scope) :
    scope.Holds (Value.Faithful catalog origins) := by
  obtain ⟨shared, own, -⟩ := scopeOf_eq_ok found
  constructor
  · intro value member
    rw [shared] at member
    cases kept : store.shared.lookup facade.typeName with
    | none =>
        rw [kept] at member
        exact Value.faithful_of_not_isObject (honest.shared value member)
    | some values =>
        rw [kept] at member
        obtain ⟨front, back, listed, -⟩ := List.lookup_eq_some_iff.mp kept
        exact h.shared (facade.typeName, values) (by rw [listed]; simp) value member
  · intro slots there value member
    obtain ⟨id, -, content⟩ := own slots there
    obtain ⟨origin, -, houses⟩ := h.heap.houses content
    exact houses.2 value member

/-- A native operation keeps the state of its object one of its type. -/
theorem operate {facade : Facade} (honest : facade.Honest) {target : Option ObjectId}
    {operation : Native α} {answers : α → Prop}
    (hands : operation.Hands (Value.Faithful catalog origins) answers) {answer : α} {after : Store}
    (done : store.operate facade target operation = .ok (answer, after)) :
    answers answer ∧ after.Intact catalog origins := by
  obtain ⟨scope, found, done⟩ := Except.bind_eq_ok_iff.mp done
  obtain ⟨⟨_, left⟩, ran, done⟩ := Except.bind_eq_ok_iff.mp done
  cases done
  obtain ⟨good, holds⟩ := hands scope (h.holds_of_scopeOf honest found) _ _ ran
  refine ⟨good, ?_, h.statics, ?_⟩
  · unfold withScope
    cases target with
    | none => exact h.heap
    | some id =>
        cases own : left.own with
        | none => exact h.heap
        | some slots =>
            obtain ⟨-, -, state⟩ := scopeOf_eq_ok found
            obtain ⟨before, content⟩ := state id rfl
            exact h.heap.setContent content (holds.own slots own)
  · intro entry member value there
    rcases mem_putEntry member with old | rfl
    · exact h.shared entry old value there
    · exact holds.shared value there

/-- A new object of a native class. -/
theorem newNative {facade : Facade} (honest : facade.Honest) {origin : ClassId}
    (native : (catalog.get origin).facade = some facade) {id : ObjectId} {after : Store}
    (done : store.newNative facade = .ok (id, after)) :
    after.Intact catalog (origins ++ [origin]) ∧
      Value.Faithful catalog (origins ++ [origin]) (.object origin id) := by
  obtain ⟨⟨slots, middle⟩, ran, done⟩ := Except.bind_eq_ok_iff.mp done
  cases done
  obtain ⟨faithful, intact⟩ := h.operate honest
    (honest.create _ fun _ => Value.faithful_of_not_isObject) ran
  have houses : Instance.Houses catalog origins origin (.native facade.typeName slots) :=
    ⟨⟨facade, native, rfl⟩, faithful⟩
  obtain ⟨heap, seen⟩ := intact.heap.newObject houses
  exact ⟨intact.withMore heap, seen⟩

/-- A new object of a class that is not native. -/
theorem newFields {origin : ClassId} (plain : (catalog.get origin).facade = none) :
    let created := store.heap.newFields (catalog.get origin).instanceFieldCount.toNat
    Intact catalog (origins ++ [origin]) { store with heap := created.2 } ∧
      Value.Faithful catalog (origins ++ [origin]) (.object origin created.1) := by
  have houses : Instance.Houses catalog origins origin (.fields
      (Array.replicate (catalog.get origin).instanceFieldCount.toNat .null)) := by
    refine ⟨plain, Array.size_replicate, ?_⟩
    intro value member
    rw [(Array.mem_replicate.mp member).2]
    exact Value.faithful_of_not_isObject rfl
  obtain ⟨heap, seen⟩ := h.heap.newObject houses
  exact ⟨h.withMore heap, seen⟩

end Intact

end Store

end ObjectMachine
