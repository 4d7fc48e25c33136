import Mathlib.Data.List.Nodup
import Mathlib.Data.List.Perm.Subperm
import Mathlib.Logic.Relation
import ObjectMachine.Proofs.Program.Inheritance

/-!
# Flattening

Flattening starts from every class in turn and goes up as far as nothing has been inherited yet.
Some classes may have been flattened before: they stay as they are. It ends with an error only if
some class is among its own ancestors, and always if a class on a cycle has not been flattened
before. Otherwise every class comes to what it inherits from the classes on its way up. If those
were flattened with the ancestors that they have now, that is what the classes on its way to the
root were declared with, wherever they stand in the catalog and whenever they were flattened.
-/

namespace ObjectMachine

namespace Catalog

/-! ## Ways to the root -/

def HasParent (catalog : Catalog) (id parent : ClassId) : Prop :=
  (catalog.get id).parent = some parent

def Cyclic (catalog : Catalog) : Prop :=
  ∃ id, Relation.TransGen catalog.HasParent id id

/-- Whether a list has a class and then its ancestors up to one without a parent. -/
inductive Lineage (catalog : Catalog) : ClassId → List ClassId → Prop
  | root {id : ClassId} : (catalog.get id).parent = none → Lineage catalog id [id]
  | child {id parent : ClassId} {above : List ClassId} : catalog.HasParent id parent →
      Lineage catalog parent above → Lineage catalog id (id :: above)

/-- Whether a list has a class and then its ancestors up to one that has been flattened or has no
parent. -/
inductive Climb (catalog : Catalog) : ClassId → List ClassId → Prop
  | flattened {id : ClassId} : (catalog.get id).expanded = true → Climb catalog id [id]
  | root {id : ClassId} : (catalog.get id).parent = none → Climb catalog id [id]
  | child {id parent : ClassId} {above : List ClassId} : (catalog.get id).expanded = false →
      catalog.HasParent id parent → Climb catalog parent above → Climb catalog id (id :: above)

/-- Whether parents are among the classes and nothing has been inherited yet. -/
structure Unflattened (catalog : Catalog) : Prop where
  alone : ∀ id, (catalog.get id).Alone
  resolved : ∀ id parent, catalog.HasParent id parent → parent.index < catalog.classes.size

variable {catalog : Catalog} {id : ClassId} {chain : List ClassId}

theorem Unflattened.alone_of_mem (h : catalog.Unflattened) (chain : List ClassId) :
    ∀ info ∈ chain.map catalog.get, info.Alone :=
  List.forall_mem_map.mpr fun other _ => h.alone other

theorem HasParent.lt_size {parent : ClassId} (h : catalog.HasParent id parent) :
    id.index < catalog.classes.size := by
  by_contra outside
  rw [HasParent, get_of_size_le (Nat.le_of_not_lt outside)] at h
  cases h

theorem lt_size_of_transGen {other : ClassId}
    (h : Relation.TransGen catalog.HasParent id other) : id.index < catalog.classes.size := by
  obtain ⟨parent, next, -⟩ := Relation.TransGen.head'_iff.mp h
  exact next.lt_size

namespace Lineage

theorem exists_cons (h : catalog.Lineage id chain) : ∃ above, chain = id :: above := by
  cases h with
  | root => exact ⟨_, rfl⟩
  | child => exact ⟨_, rfl⟩

theorem eq_of_lineage (h : catalog.Lineage id chain) {chain' : List ClassId}
    (h' : catalog.Lineage id chain') : chain = chain' := by
  induction h generalizing chain' with
  | root none =>
      cases h' with
      | root => rfl
      | child some => cases none.symm.trans some
  | child parent _ ih =>
      cases h' with
      | root none => cases none.symm.trans parent
      | child parent' above' =>
          cases parent.symm.trans parent'
          rw [ih above']

theorem descends_of_mem (h : catalog.Lineage id chain) {other : ClassId} (member : other ∈ chain) :
    Relation.ReflTransGen catalog.HasParent id other := by
  induction h with
  | root => rw [List.mem_singleton.mp member]
  | child parent _ ih =>
      rcases List.mem_cons.mp member with rfl | later
      · exact .refl
      · exact (ih later).head parent

theorem exists_of_transGen (h : catalog.Lineage id chain) {other : ClassId}
    (above : Relation.TransGen catalog.HasParent id other) :
    ∃ rest, catalog.Lineage other rest ∧ rest.length < chain.length := by
  have step {id parent : ClassId} {chain : List ClassId} (h : catalog.Lineage id chain)
      (next : catalog.HasParent id parent) :
      ∃ rest, catalog.Lineage parent rest ∧ rest.length < chain.length := by
    cases h with
    | root none => cases none.symm.trans next
    | child parent above =>
        cases parent.symm.trans next
        exact ⟨_, above, Nat.lt_succ_self _⟩
  induction above with
  | single next => exact step h next
  | tail _ next ih =>
      obtain ⟨rest, lineage, shorter⟩ := ih
      obtain ⟨rest', lineage', shorter'⟩ := step lineage next
      exact ⟨rest', lineage', Nat.lt_trans shorter' shorter⟩

theorem not_transGen (h : catalog.Lineage id chain) :
    ¬ Relation.TransGen catalog.HasParent id id := by
  intro cycle
  obtain ⟨rest, lineage, shorter⟩ := h.exists_of_transGen cycle
  rw [h.eq_of_lineage lineage] at shorter
  exact Nat.lt_irrefl _ shorter

theorem nodup (h : catalog.Lineage id chain) : chain.Nodup := by
  induction h with
  | root => exact List.nodup_singleton _
  | @child id parent above next lineage ih =>
      refine List.nodup_cons.mpr ⟨fun member => ?_, ih⟩
      have cycle := Relation.TransGen.head' next (lineage.descends_of_mem member)
      exact (Lineage.child next lineage).not_transGen cycle

theorem renumbered (h : catalog.Lineage id chain) {other : Catalog} {place : ClassId → ClassId}
    (same : ∀ member ∈ chain, other.get (place member) = (catalog.get member).renumbered place) :
    other.Lineage (place id) (chain.map place) := by
  induction h with
  | root none =>
      refine .root ?_
      rw [same _ List.mem_cons_self, ClassDef.renumbered, none, Option.map_none]
  | child next _ ih =>
      obtain ⟨here, above⟩ := List.forall_mem_cons.mp same
      refine .child ?_ (ih above)
      rw [HasParent, here, ClassDef.renumbered, next, Option.map_some]

theorem lt_size (h : catalog.Lineage id chain) (unflattened : catalog.Unflattened)
    (inside : id.index < catalog.classes.size) :
    ∀ other ∈ chain, other.index < catalog.classes.size := by
  induction h with
  | root => exact List.forall_mem_singleton.mpr inside
  | child parent _ ih =>
      exact List.forall_mem_cons.mpr ⟨inside, ih (unflattened.resolved _ _ parent)⟩

theorem hierarchyOnto_eq (h : catalog.Lineage id chain) {bound : Nat} {known : List ClassId}
    (new : ∀ other ∈ chain.tail, other ∉ known) (enough : chain.tail.length ≤ bound) :
    catalog.hierarchyOnto bound id known = known.reverse ++ chain.tail := by
  induction h generalizing bound known with
  | root none =>
      rw [List.tail_cons, List.append_nil]
      cases bound with
      | zero => rfl
      | succ bound => rw [hierarchyOnto, none]
  | @child id parent above next lineage ih =>
      have distinct := lineage.nodup
      obtain ⟨rest, rfl⟩ := lineage.exists_cons
      rw [List.tail_cons] at new enough ⊢
      obtain ⟨fresh, others⟩ := List.forall_mem_cons.mp new
      obtain ⟨first, -⟩ := List.nodup_cons.mp distinct
      cases bound with
      | zero => exact absurd enough (Nat.not_succ_le_zero _)
      | succ bound =>
          have apart : ∀ other ∈ rest, other ∉ parent :: known := by
            intro other member
            refine List.not_mem_cons_of_ne_of_not_mem ?_ (others other member)
            rintro rfl
            exact first member
          rw [hierarchyOnto, next]
          dsimp only
          rw [if_neg (by simpa using fresh), ih apart (Nat.le_of_succ_le_succ enough)]
          simp

end Lineage

namespace Climb

theorem exists_cons (h : catalog.Climb id chain) : ∃ above, chain = id :: above := by
  cases h with
  | flattened => exact ⟨_, rfl⟩
  | root => exact ⟨_, rfl⟩
  | child => exact ⟨_, rfl⟩

theorem eq_singleton (h : catalog.Climb id chain) (expanded : (catalog.get id).expanded = true) :
    chain = [id] := by
  cases h with
  | flattened => rfl
  | root => rfl
  | child unexpanded => cases expanded.symm.trans unexpanded

/-- Among classes that have not been flattened the way goes on to the root. -/
theorem lineage (h : catalog.Climb id chain)
    (unexpanded : ∀ other, (catalog.get other).expanded = false) : catalog.Lineage id chain := by
  induction h with
  | flattened expanded => cases expanded.symm.trans (unexpanded _)
  | root none => exact .root none
  | child _ next _ ih => exact .child next ih

theorem lt_size (h : catalog.Climb id chain)
    (resolved : ∀ id parent, catalog.HasParent id parent → parent.index < catalog.classes.size)
    (inside : id.index < catalog.classes.size) :
    ∀ other ∈ chain, other.index < catalog.classes.size := by
  induction h with
  | flattened => exact List.forall_mem_singleton.mpr inside
  | root => exact List.forall_mem_singleton.mpr inside
  | child _ next _ ih =>
      exact List.forall_mem_cons.mpr ⟨inside, ih (resolved _ _ next)⟩

theorem of_get_eq {other : Catalog} (h : catalog.Climb id chain)
    (same : ∀ member ∈ chain, other.get member = catalog.get member) : other.Climb id chain := by
  induction h with
  | flattened expanded => exact .flattened (same _ List.mem_cons_self ▸ expanded)
  | root none => exact .root (same _ List.mem_cons_self ▸ none)
  | child unexpanded next _ ih =>
      obtain ⟨here, above⟩ := List.forall_mem_cons.mp same
      refine .child (here ▸ unexpanded) ?_ (ih above)
      rw [HasParent, here]
      exact next

/-- Only above a class that has been flattened before may there be a cycle. -/
theorem not_transGen (h : catalog.Climb id chain) (apart : ∀ other,
      (catalog.get other).expanded = true →
        ¬ Relation.TransGen catalog.HasParent other other) :
    ¬ Relation.TransGen catalog.HasParent id id := by
  induction h with
  | flattened expanded => exact apart _ expanded
  | root none =>
      intro cycle
      obtain ⟨above, next, -⟩ := Relation.TransGen.head'_iff.mp cycle
      cases none.symm.trans next
  | child _ next _ ih =>
      -- The cycle goes through the parent as well.
      intro cycle
      obtain ⟨above, next', rest⟩ := Relation.TransGen.head'_iff.mp cycle
      cases next.symm.trans next'
      exact ih (.tail' rest next)

end Climb

theorem length_le_size (distinct : chain.Nodup)
    (inside : ∀ id ∈ chain, id.index < catalog.classes.size) :
    chain.length ≤ catalog.classes.size := by
  have among : chain ⊆ catalog.ids := by
    intro id member
    exact List.mem_map.mpr ⟨id.index, List.mem_range.mpr (inside id member), rfl⟩
  have fewer := (List.subperm_of_subset distinct among).length_le
  rwa [ids, List.length_map, List.length_range] at fewer

/-- All classes on a way but the last one have a parent, so they are in the catalog. -/
theorem Lineage.dropLast_lt_size (h : catalog.Lineage id chain) :
    ∀ other ∈ chain.dropLast, other.index < catalog.classes.size := by
  induction h with
  | root => simp
  | child next lineage ih =>
      obtain ⟨above, rfl⟩ := lineage.exists_cons
      rw [List.dropLast_cons_cons]
      exact List.forall_mem_cons.mpr ⟨next.lt_size, ih⟩

/-- A hierarchy is the whole way, wherever it ends. -/
theorem Lineage.hierarchy_eq (h : catalog.Lineage id chain) : catalog.hierarchy id = chain := by
  have distinct := h.nodup
  have few := length_le_size (distinct.sublist chain.dropLast_sublist) h.dropLast_lt_size
  obtain ⟨above, rfl⟩ := h.exists_cons
  have new : ∀ other ∈ above, other ∉ [id] := by
    intro other member same
    rw [List.mem_singleton.mp same] at member
    exact (List.nodup_cons.mp distinct).1 member
  exact h.hierarchyOnto_eq new (by simpa using few)

/-! ## One class after the other -/

theorem merged_of_expanded {info : ClassDef} (notInherited : List Symbol)
    (expanded : info.expanded = true) : merged notInherited [info] = info := by
  cases info
  cases expanded
  rfl

/-- There is nothing to flatten at a number that no class has. -/
theorem expand_of_size_le {notInherited : List Symbol}
    (outside : catalog.classes.size ≤ id.index) : catalog.expand notInherited id = catalog := by
  unfold expand modify
  refine congrArg Catalog.mk (Array.ext_getElem? fun place => ?_)
  rw [Array.getElem?_modify]
  by_cases same : id.index = place
  · subst same
    rw [if_pos rfl, Array.getElem?_eq_none outside, Option.map_none]
  · rw [if_neg same]

/-- Whether each class has not been flattened and is as it was at the start, or has what it
inherits. -/
structure Partly (notInherited : List Symbol) (start catalog : Catalog) : Prop where
  size : catalog.classes.size = start.classes.size
  each : ∀ id, (catalog.get id).expanded = false ∧ catalog.get id = start.get id ∨
    ∃ chain, start.Climb id chain ∧ catalog.get id = merged notInherited (chain.map start.get)

namespace Partly

variable {notInherited : List Symbol} {start : Catalog}

theorem refl (notInherited : List Symbol) (start : Catalog) : Partly notInherited start start := by
  refine ⟨rfl, fun id => ?_⟩
  cases expanded : (start.get id).expanded with
  | false => exact .inl ⟨rfl, rfl⟩
  | true => exact .inr ⟨[id], .flattened expanded, (merged_of_expanded notInherited expanded).symm⟩

theorem get_of_expanded (h : Partly notInherited start catalog)
    (expanded : (catalog.get id).expanded = true) : ∃ chain, start.Climb id chain ∧
      catalog.get id = merged notInherited (chain.map start.get) := by
  rcases h.each id with ⟨unexpanded, -⟩ | done
  · cases expanded.symm.trans unexpanded
  · exact done

theorem get_of_not_expanded (h : Partly notInherited start catalog)
    (unexpanded : (catalog.get id).expanded = false) : catalog.get id = start.get id := by
  rcases h.each id with ⟨-, same⟩ | ⟨chain, climb, done⟩
  · exact same
  · obtain ⟨above, rfl⟩ := climb.exists_cons
    rw [done, List.map_cons, expanded_merged] at unexpanded
    cases unexpanded

theorem get_eq_of_expanded (h : Partly notInherited start catalog)
    (expanded : (start.get id).expanded = true) : catalog.get id = start.get id := by
  rcases h.each id with ⟨-, same⟩ | ⟨chain, climb, done⟩
  · exact same
  · rw [done, climb.eq_singleton expanded]
    exact merged_of_expanded notInherited expanded

theorem kept (h : Partly notInherited start catalog) (id : ClassId) :
    (catalog.get id).parent = (start.get id).parent ∧
      (catalog.get id).facade = (start.get id).facade := by
  rcases h.each id with ⟨-, same⟩ | ⟨chain, climb, done⟩
  · rw [same]
    exact ⟨rfl, rfl⟩
  · obtain ⟨above, rfl⟩ := climb.exists_cons
    obtain ⟨fields, methods, slots, count, made⟩ :=
      merged_cons notInherited (start.get id) (above.map start.get)
    rw [done, List.map_cons, made]
    exact ⟨rfl, rfl⟩

theorem hasParent_eq (h : Partly notInherited start catalog) :
    catalog.HasParent = start.HasParent := by
  funext id parent
  rw [HasParent, (h.kept id).1, HasParent]

/-- What a class takes over of its ancestors as they are by now is what it takes over of them as
they were. -/
theorem merged_eq {middle : Catalog} (h : Partly notInherited start middle)
    (climb : middle.Climb id chain) : ∃ way, start.Climb id way ∧
      merged notInherited (chain.map middle.get) = merged notInherited (way.map start.get) := by
  induction climb with
  | flattened expanded =>
      obtain ⟨way, climb, done⟩ := h.get_of_expanded expanded
      exact ⟨way, climb, (merged_of_expanded notInherited expanded).trans done⟩
  | @root id none =>
      cases expanded : (middle.get id).expanded with
      | false =>
          have same := h.get_of_not_expanded expanded
          exact ⟨[id], .root (same ▸ none), by simp only [List.map_singleton, same]⟩
      | true =>
          obtain ⟨way, climb, done⟩ := h.get_of_expanded expanded
          exact ⟨way, climb, (merged_of_expanded notInherited expanded).trans done⟩
  | @child id parent above unexpanded next climb ih =>
      obtain ⟨way, climb', whole⟩ := ih
      have same := h.get_of_not_expanded unexpanded
      rw [HasParent, same] at next
      refine ⟨id :: way, .child (same ▸ unexpanded) next climb', ?_⟩
      obtain ⟨above, rfl⟩ := climb.exists_cons
      obtain ⟨way, rfl⟩ := climb'.exists_cons
      simp only [List.map_cons, merged] at whole ⊢
      rw [whole, same]

/-- Classes may be flattened some now and some later. -/
theorem trans {middle : Catalog} (h : Partly notInherited start middle)
    (h' : Partly notInherited middle catalog) : Partly notInherited start catalog := by
  refine ⟨h'.size.trans h.size, fun id => ?_⟩
  rcases h'.each id with ⟨unexpanded, same⟩ | ⟨chain, climb, done⟩
  · exact .inl ⟨unexpanded, same.trans (h.get_of_not_expanded (same ▸ unexpanded))⟩
  · obtain ⟨way, climb', whole⟩ := h.merged_eq climb
    exact .inr ⟨way, climb', done.trans whole⟩

theorem exists_climb (h : Partly notInherited start catalog)
    (expanded : id.index < start.classes.size → (catalog.get id).expanded = true) :
    ∃ chain, start.Climb id chain ∧
      { catalog.get id with expanded := true } = merged notInherited (chain.map start.get) := by
  by_cases inside : id.index < start.classes.size
  · obtain ⟨chain, climb, done⟩ := h.get_of_expanded (expanded inside)
    refine ⟨chain, climb, ?_⟩
    rw [← done]
    exact merged_of_expanded notInherited (expanded inside)
  · have none : start.get id = default := get_of_size_le (Nat.le_of_not_lt inside)
    have none' : catalog.get id = default :=
      get_of_size_le (h.size ▸ Nat.le_of_not_lt inside)
    refine ⟨[id], .root (none ▸ rfl), ?_⟩
    rw [List.map_singleton, none, none']
    rfl

/-- A class whose parent has what it inherits may inherit from it. -/
theorem expand (h : Partly notInherited start catalog)
    (unexpanded : (catalog.get id).expanded = false)
    (above : ∀ parent, start.HasParent id parent → parent.index < start.classes.size →
      (catalog.get parent).expanded = true) :
    Partly notInherited start (catalog.expand notInherited id) := by
  have same := h.get_of_not_expanded unexpanded
  by_cases inside : id.index < catalog.classes.size
  · refine ⟨?_, fun other => ?_⟩
    · rw [Catalog.expand, size_modify]
      exact h.size
    · by_cases here : id = other
      · subst here
        right
        cases own : (start.get id).parent with
        | none =>
            refine ⟨[id], .root own, ?_⟩
            rw [get_expand_of_root notInherited inside (same ▸ own), same]
            rfl
        | some parent =>
            obtain ⟨chain, climb, done⟩ := h.exists_climb (above parent own)
            refine ⟨id :: chain, .child (same ▸ unexpanded) own climb, ?_⟩
            obtain ⟨rest, rfl⟩ := climb.exists_cons
            rw [get_expand_of_parent notInherited inside (same ▸ own), same, List.map_cons,
              List.map_cons, merged, ← List.map_cons, ← done]
            rfl
      · rw [get_expand_of_ne notInherited here]
        exact h.each other
  · rwa [expand_of_size_le (Nat.le_of_not_lt inside)]

/-- A class may be registered after others have been flattened. -/
theorem push (h : Partly notInherited start catalog)
    (resolved : ∀ id parent, start.HasParent id parent → parent.index < start.classes.size)
    {info : ClassDef} (unexpanded : info.expanded = false) :
    Partly notInherited ⟨start.classes.push info⟩ ⟨catalog.classes.push info⟩ := by
  refine ⟨by rw [Array.size_push, Array.size_push, h.size], fun id => ?_⟩
  rw [get_push, get_push, h.size]
  split
  · exact .inl ⟨unexpanded, rfl⟩
  next old =>
  rcases h.each id with same | ⟨chain, climb, done⟩
  · exact .inl same
  have inside : id.index < start.classes.size := by
    by_contra outside
    obtain ⟨above, rfl⟩ := climb.exists_cons
    have expanded := expanded_merged notInherited (start.get id) (above.map start.get)
    rw [← List.map_cons, ← done, get_of_size_le (h.size ▸ Nat.le_of_not_lt outside)] at expanded
    cases expanded
  have same : ∀ member ∈ chain, get ⟨start.classes.push info⟩ member = start.get member := by
    intro member among
    rw [get_push, if_neg (Nat.ne_of_lt (climb.lt_size resolved inside member among))]
  exact .inr ⟨chain, climb.of_get_eq same, by rw [done, List.map_congr_left same]⟩

end Partly

/-- What holds while some classes have been flattened and others wait for their ancestors. -/
structure Underway (notInherited : List Symbol) (start : Catalog) (done waiting : List ClassId)
    (catalog : Catalog) : Prop extends Partly notInherited start catalog where
  done : ∀ id ∈ done, id.index < start.classes.size → (catalog.get id).expanded = true
  waits : ∀ id ∈ waiting, (catalog.get id).expanded = false

/-- What flattening may fail with: a class is among its own ancestors. -/
def Circular (start : Catalog) (fault : LoadError) : Prop :=
  ∃ culprit, Relation.TransGen start.HasParent culprit culprit ∧
    fault = .inheritanceCycle (start.name culprit)

section

variable {notInherited : List Symbol} {start : Catalog} {done waiting : List ClassId}

theorem Underway.expand (h : Underway notInherited start done (id :: waiting) catalog)
    (fresh : id ∉ waiting)
    (above : ∀ parent, start.HasParent id parent → parent.index < start.classes.size →
      (catalog.get parent).expanded = true) :
    Underway notInherited start done waiting (catalog.expand notInherited id) ∧
      (id.index < start.classes.size →
        ((catalog.expand notInherited id).get id).expanded = true) := by
  obtain ⟨unexpanded, others⟩ := List.forall_mem_cons.mp h.waits
  have here (inside : id.index < start.classes.size) :
      ((catalog.expand notInherited id).get id).expanded = true :=
    expanded_expand notInherited (h.size ▸ inside)
  refine ⟨⟨h.toPartly.expand unexpanded above, fun other member inside => ?_,
    fun other member => ?_⟩, here⟩
  · by_cases same : id = other
    · subst same
      exact here inside
    · rw [get_expand_of_ne notInherited same]
      exact h.done other member inside
  · have ne : id ≠ other := by
      rintro rfl
      exact fresh member
    rw [get_expand_of_ne notInherited ne]
    exact others other member

/-- A class inherits once its ancestors have, and its descendants wait for that. -/
theorem leads_inherit (bound : Nat) (distinct : waiting.Nodup)
    (below : ∀ other ∈ waiting, Relation.TransGen start.HasParent other id)
    (enough : start.classes.size < bound + waiting.length) :
    Leads (Underway notInherited start done waiting) start.Circular
      (fun _ catalog => Underway notInherited start done waiting catalog ∧
        (id.index < start.classes.size → (catalog.get id).expanded = true))
      (flatten notInherited bound waiting id) := by
  induction bound generalizing waiting id with
  | zero =>
      rw [Nat.zero_add] at enough
      have few := length_le_size distinct fun other member =>
        lt_size_of_transGen (below other member)
      exact absurd few (Nat.not_le_of_lt enough)
  | succ bound ih =>
      refine Leads.of_get_bind fun catalog before => ?_
      dsimp only
      split
      · next expanded =>
          apply Leads.of_pure
          rintro _ rfl
          exact ⟨before, fun _ => expanded⟩
      next unexpanded =>
      have unexpanded : (catalog.get id).expanded = false := by simpa using unexpanded
      have same := before.get_of_not_expanded unexpanded
      split
      · next waits =>
          apply Leads.of_throw
          exact ⟨id, below id (by simpa using waits), congrArg _ (congrArg _ same)⟩
      next fresh =>
      have fresh : id ∉ waiting := by simpa using fresh
      have waits : Underway notInherited start done (id :: waiting) catalog :=
        ⟨before.toPartly, before.done, List.forall_mem_cons.mpr ⟨unexpanded, before.waits⟩⟩
      rw [same]
      split
      · next parent own =>
          have next : start.HasParent id parent := own
          have first := ih (List.nodup_cons.mpr ⟨fresh, distinct⟩)
            (List.forall_mem_cons.mpr ⟨.single next, fun other member =>
              (below other member).tail next⟩)
            (by rw [List.length_cons]; omega)
          apply Leads.bind (Leads.of_start _ (by rintro _ rfl; exact waits) first)
          intro _
          apply Leads.of_modifyGet
          rintro middle ⟨reached, above⟩
          refine reached.expand fresh fun parent' own' => ?_
          cases own.symm.trans own'
          exact above
      · next root =>
          apply Leads.of_modifyGet
          rintro _ rfl
          exact waits.expand fresh fun parent own => absurd own (root parent)

theorem leads_inheritEach (ids : List ClassId) :
    Leads (Underway notInherited start done []) start.Circular
      (fun _ => Underway notInherited start (ids ++ done) [])
      (ids.forM (flatten notInherited (start.classes.size + 1) [])) := by
  induction ids generalizing done with
  | nil => exact Leads.of_pure fun _ => id
  | cons id rest ih =>
      have first : Leads (Underway notInherited start done []) start.Circular
          (fun _ catalog => Underway notInherited start done [] catalog ∧
            (id.index < start.classes.size → (catalog.get id).expanded = true))
          (flatten notInherited (start.classes.size + 1) [] id) :=
        leads_inherit (start.classes.size + 1) List.nodup_nil nofun (Nat.lt_succ_self _)
      have behind : Leads (Underway notInherited start (id :: done) []) start.Circular
          (fun _ => Underway notInherited start (rest ++ id :: done) [])
          (rest.forM (flatten notInherited (start.classes.size + 1) [])) := ih
      refine first.bind fun _ => ?_
      refine Leads.of_start _ (fun catalog reached => ?_)
        (Leads.mono behind fun _ catalog reached => ?_)
      · exact ⟨reached.1.toPartly, List.forall_mem_cons.mpr ⟨reached.2, reached.1.done⟩, nofun⟩
      · refine ⟨reached.toPartly, fun other member => reached.done other ?_, nofun⟩
        simp only [List.mem_append, List.mem_cons] at member ⊢
        tauto

end

/-! ## All classes -/

/-- The symbols of the names that no class inherits. -/
def uninherited (symbols : SymbolTable) : List Symbol :=
  [constructorName, initializerName].filterMap symbols.find?

theorem lt_size_of_mem_ids (member : id ∈ catalog.ids) : id.index < catalog.classes.size := by
  obtain ⟨place, inside, rfl⟩ := List.mem_map.mp member
  exact List.mem_range.mp inside

theorem mem_ids (inside : id.index < catalog.classes.size) : id ∈ catalog.ids :=
  List.mem_map.mpr ⟨id.index, List.mem_range.mpr inside, rfl⟩

/-- Every class has come to what it inherits. -/
structure Inherited (notInherited : List Symbol) (start flat : Catalog) : Prop
    extends Partly notInherited start flat where
  all : ∀ id, id.index < start.classes.size → (flat.get id).expanded = true

theorem leads_inheritAll (catalog : Catalog) (symbols : SymbolTable) :
    Leads (· = catalog) catalog.Circular
      (fun _ flat => Inherited (uninherited symbols) catalog flat) (flattenAll symbols) := by
  have each : Leads (Underway (uninherited symbols) catalog [] []) catalog.Circular
      (fun _ => Underway (uninherited symbols) catalog (catalog.ids ++ []) [])
      (catalog.ids.forM (flatten (uninherited symbols) (catalog.classes.size + 1) [])) :=
    leads_inheritEach catalog.ids
  apply Leads.of_get_bind
  rintro _ rfl
  refine Leads.of_start _ ?_ (Leads.mono each fun _ flat reached => ⟨reached.toPartly, ?_⟩)
  · rintro _ rfl
    exact ⟨.refl _ _, nofun, nofun⟩
  · exact fun id inside => reached.done id (List.mem_append_left _ (mem_ids inside)) inside

theorem Partly.inherited {notInherited : List Symbol} {start flat : Catalog}
    (h : Partly notInherited start catalog) (h' : Inherited notInherited catalog flat) :
    Inherited notInherited start flat :=
  ⟨h.trans h'.toPartly, fun id inside => h'.all id (h.size ▸ inside)⟩

namespace Inherited

variable {notInherited : List Symbol} {flat : Catalog} (h : Inherited notInherited catalog flat)

include h

/-- Without a cycle before, there is none. -/
theorem not_cyclic (apart : ∀ id, (catalog.get id).expanded = true →
      ¬ Relation.TransGen catalog.HasParent id id) : ¬ catalog.Cyclic := by
  rintro ⟨id, cycle⟩
  obtain ⟨chain, climb, -⟩ := h.get_of_expanded (h.all id (lt_size_of_transGen cycle))
  exact climb.not_transGen apart cycle

variable (unflattened : catalog.Unflattened)

include unflattened

/-- A class is made of those on its way alone. -/
theorem get_eq (inside : id.index < catalog.classes.size) :
    catalog.Lineage id (catalog.hierarchy id) ∧
      flat.get id = merged notInherited ((catalog.hierarchy id).map catalog.get) := by
  obtain ⟨chain, climb, made⟩ := h.get_of_expanded (h.all id inside)
  have lineage := climb.lineage fun other => (unflattened.alone other).unexpanded
  rw [lineage.hierarchy_eq]
  exact ⟨lineage, made⟩

theorem get_of_lineage (lineage : catalog.Lineage id chain)
    (inside : id.index < catalog.classes.size) :
    flat.get id = merged notInherited (chain.map catalog.get) := by
  rw [(h.get_eq unflattened inside).2, lineage.hierarchy_eq]

end Inherited

/-- Classes that have inherited are left as they are. -/
theorem flattenAll_of_expanded (symbols : SymbolTable)
    (all : ∀ id, id.index < catalog.classes.size → (catalog.get id).expanded = true) :
    flattenAll symbols catalog = .ok () catalog := by
  have keeps : Upheld (· = catalog) (fun _ => False) (fun _ => True)
      (catalog.ids.forM (flatten (uninherited symbols) (catalog.classes.size + 1) [])) := by
    refine Upheld.of_forM fun id member => ?_
    apply Leads.of_get_bind
    rintro _ rfl
    dsimp only
    rw [if_pos (all id (lt_size_of_mem_ids member))]
    exact Upheld.of_pure trivial
  have reached := keeps catalog rfl
  change flattenAll symbols catalog = _
  have whole : flattenAll symbols catalog =
      catalog.ids.forM (flatten (uninherited symbols) (catalog.classes.size + 1) []) catalog := rfl
  rw [whole]
  split at reached
  · next last run => rw [run, reached.2]
  · exact reached.elim

/-- What a class has that inherits from the other ones on its way, the nearest first. -/
structure Inherits (symbols : SymbolTable) (chain : List ClassDef) (info : ClassDef) : Prop where
  method : ∀ key, info.method? key = nearestMethod? (uninherited symbols) key chain
  field : (∀ isStatic, sizes isStatic chain < UInt32.size) → ∀ name,
    (info.field? name).map (fun field => (field.isStatic, field.slot.toNat)) =
      nearestField? name chain
  instances : sizes false chain < UInt32.size → info.instanceFieldCount.toNat = sizes false chain
  statics : info.statics.slots.size = sizes true chain
  kept : ∃ own above fields methods slots count, chain = own :: above ∧ info = { own with
    fields := fields
    methods := methods
    statics := { own.statics with slots := slots }
    instanceFieldCount := count
    expanded := true }

theorem Inherited.inherits {symbols : SymbolTable} {flat : Catalog}
    (h : Inherited (uninherited symbols) catalog flat) (unflattened : catalog.Unflattened)
    (inside : id.index < catalog.classes.size) :
    Inherits symbols ((catalog.hierarchy id).map catalog.get) (flat.get id) := by
  obtain ⟨lineage, made⟩ := h.get_eq unflattened inside
  have alone := unflattened.alone_of_mem (catalog.hierarchy id)
  obtain ⟨above, first⟩ := lineage.exists_cons
  rw [made]
  refine ⟨method?_merged _, field?_merged _ alone, toNat_instanceFieldCount_merged _ alone,
    size_statics_merged _ alone, ?_⟩
  obtain ⟨fields, methods, slots, count, same⟩ :=
    merged_cons (uninherited symbols) (catalog.get id) (above.map catalog.get)
  rw [first, List.map_cons]
  exact ⟨_, _, fields, methods, slots, count, rfl, same⟩

/-- **Classes inherit from the nearest ancestors.** Unless a class that has been flattened before is
among its own ancestors, flattening fails with an inheritance cycle exactly if some class is. Where
none is, classes that have been flattened before stay as they are, and flattening once more changes
nothing. If each class was as it is declared, or had what it inherits since an earlier time, every
class now has the nearest methods and fields on its way to the root and the room for all fields on
it, and it comes to the same among other classes, under another number, if those on its way are
declared the same there. A class without other members than those declared for it is still such a
class when one more has been declared. -/
theorem flattenAll_inherits_nearest (symbols : SymbolTable)
    (apart : ∀ id, (catalog.get id).expanded = true →
      ¬ Relation.TransGen catalog.HasParent id id) :
    ((∃ name after, flattenAll symbols catalog = .error (.inheritanceCycle name) after) ↔
      catalog.Cyclic) ∧
    (¬ catalog.Cyclic → ∃ flat,
      flattenAll symbols catalog = .ok () flat ∧ flattenAll symbols flat = .ok () flat ∧
      flat.classes.size = catalog.classes.size ∧
      (∀ id, (catalog.get id).expanded = true → flat.get id = catalog.get id) ∧
      ∀ declared : Catalog, declared.Unflattened →
        Partly (uninherited symbols) declared catalog →
        Partly (uninherited symbols) declared flat ∧
        ∀ id, id.index < catalog.classes.size →
          Inherits symbols ((declared.hierarchy id).map declared.get) (flat.get id) ∧
          ∀ (declared' catalog' flat' : Catalog) (place : ClassId → ClassId),
            declared'.Unflattened → Partly (uninherited symbols) declared' catalog' →
            flattenAll symbols catalog' = .ok () flat' →
            (place id).index < catalog'.classes.size →
            (∀ member ∈ declared.hierarchy id,
              declared'.get (place member) = (declared.get member).renumbered place) →
            flat'.get (place id) = (flat.get id).renumbered place) ∧
    (∀ info next name field, ClassDef.Alone info →
      ClassDef.declareField symbols name field info = .ok () next → next.Alone) ∧
    ∀ info next key entry, ClassDef.Alone info →
      ClassDef.declareMethod symbols key entry info = .ok () next → next.Alone := by
  refine and_assoc.mp ⟨?_, fun info next name field => ClassDef.Alone.of_declareField,
    fun info next key entry => ClassDef.Alone.of_declareMethod⟩
  have leads := leads_inheritAll catalog symbols
  cases run : flattenAll symbols catalog with
  | error fault after =>
      obtain ⟨culprit, cycle, rfl⟩ := leads.of_error rfl run
      refine ⟨⟨fun _ => ⟨culprit, cycle⟩, fun _ => ⟨_, after, rfl⟩⟩, fun acyclic => ?_⟩
      exact absurd ⟨culprit, cycle⟩ acyclic
  | ok _ flat =>
      have inherited := leads.of_ok rfl run
      refine ⟨⟨nofun, fun cycle => absurd cycle (inherited.not_cyclic apart)⟩, fun _ => ?_⟩
      refine ⟨flat, rfl, flattenAll_of_expanded symbols ?_, inherited.size,
        fun id => inherited.get_eq_of_expanded, fun declared unflattened partly => ?_⟩
      · intro id inside
        exact inherited.all id (inherited.size ▸ inside)
      have whole := partly.inherited inherited
      refine ⟨whole.toPartly, fun id inside => ?_⟩
      rw [partly.size] at inside
      refine ⟨whole.inherits unflattened inside, ?_⟩
      intro declared' catalog' flat' place unflattened' partly' run' inside' same
      have whole' := partly'.inherited ((leads_inheritAll catalog' symbols).of_ok rfl run')
      rw [partly'.size] at inside'
      obtain ⟨lineage, made⟩ := whole.get_eq unflattened inside
      have made' := (whole'.get_eq unflattened' inside').2
      rw [(lineage.renumbered same).hierarchy_eq, List.map_map] at made'
      rw [made', made, ← merged_renumbered, List.map_map]
      exact congrArg _ (List.map_congr_left same)

/-- A class with two fields. -/
def upper : ClassDef :=
  ((ClassDef.new "Upper" "sample" ⟨0⟩).withField ⟨0⟩ ⟨1, false⟩).withField ⟨1⟩ ⟨2, false⟩

/-- A class with a field of a name that `upper` has as well. -/
def lower : ClassDef :=
  (ClassDef.new "Lower" "sample" ⟨0⟩).withField ⟨0⟩ ⟨1, false⟩

/-- A class that inherits from the first one of a catalog. -/
def heir : ClassDef :=
  { lower with parent := some ⟨0⟩ }

/-- A class may be registered after its parent has been flattened. -/
theorem flattenAll_inherits_nearest_of_heir : ∃ first flat,
    flattenAll ⟨#["x", "y"]⟩ ⟨#[upper]⟩ = .ok () first ∧ (first.get ⟨0⟩).expanded = true ∧
    ¬ Cyclic ⟨first.classes.push heir⟩ ∧
    flattenAll ⟨#["x", "y"]⟩ ⟨first.classes.push heir⟩ = .ok () flat ∧
    ((flat.get ⟨1⟩).field? ⟨0⟩).map (fun field => (field.isStatic, field.slot.toNat)) =
      some (false, 3) ∧
    ((flat.get ⟨1⟩).field? ⟨1⟩).map (fun field => (field.isStatic, field.slot.toNat)) =
      some (false, 2) := by
  obtain ⟨first, run, expanded⟩ : ∃ first, flattenAll ⟨#["x", "y"]⟩ ⟨#[upper]⟩ = .ok () first ∧
      (first.get ⟨0⟩).expanded = true := ⟨_, rfl, rfl⟩
  have before := (leads_inheritAll ⟨#[upper]⟩ _).of_ok rfl run
  have root (id parent : ClassId) : ¬ HasParent ⟨#[upper]⟩ id parent := by
    intro next
    obtain ⟨index⟩ := id
    obtain rfl : index = 0 := Nat.lt_one_iff.mp next.lt_size
    cases next
  have falls (id parent : ClassId) (next : HasParent ⟨#[upper, heir]⟩ id parent) :
      parent.index < id.index ∧ id.index < 2 := by
    refine ⟨?_, next.lt_size⟩
    obtain ⟨index⟩ := id
    match index with
    | 0 => cases next
    | 1 =>
        cases next
        exact Nat.zero_lt_one
    | _ + 2 => cases next
  have partly := before.toPartly.push (fun id parent next => absurd next (root id parent))
    (rfl : heir.expanded = false)
  have unflattened : Unflattened ⟨#[upper, heir]⟩ := by
    constructor
    · rintro ⟨index⟩
      match index with
      | 0 | 1 => exact ⟨rfl, by decide, by decide⟩
      | _ + 2 => exact ClassDef.alone_default
    · intro id parent next
      exact Nat.lt_trans (falls id parent next).1 (falls id parent next).2
  have acyclic : ¬ Cyclic ⟨first.classes.push heir⟩ := by
    rintro ⟨id, cycle⟩
    rw [partly.hasParent_eq] at cycle
    have descending {id above : ClassId}
        (way : Relation.TransGen (HasParent ⟨#[upper, heir]⟩) id above) :
        above.index < id.index := by
      induction way with
      | single next => exact (falls _ _ next).1
      | tail _ next ih => exact Nat.lt_trans (falls _ _ next).1 ih
    exact Nat.lt_irrefl _ (descending cycle)
  obtain ⟨flat, run', -, -, -, each⟩ :=
    (flattenAll_inherits_nearest ⟨#["x", "y"]⟩ fun id _ cycle => acyclic ⟨id, cycle⟩).2.1 acyclic
  have inside : 1 < (first.classes.push heir).size := by
    rw [Array.size_push, before.size]
    exact Nat.lt_succ_self 1
  have field := ((each _ unflattened partly).2 ⟨1⟩ inside).1.field (by decide)
  exact ⟨first, flat, run, expanded, acyclic, run', (field ⟨0⟩).trans (by decide),
    (field ⟨1⟩).trans (by decide)⟩

def pair : Catalog where
  classes := #[ClassDef.new "A" "m" ⟨0⟩, ClassDef.new "B" "m" ⟨0⟩]

/-- Two classes that have been flattened, each of them the parent of the other one. -/
def crossed : Catalog where
  classes := #[
    { ClassDef.new "A" "m" ⟨0⟩ with parent := some ⟨1⟩, expanded := true },
    { ClassDef.new "B" "m" ⟨0⟩ with parent := some ⟨0⟩, expanded := true }]

/-- Classes that have been flattened are not looked at again: a cycle that parents have closed since
is not noticed, and members of a parent given since are not taken over. -/
theorem flattenAll_overlooks_parents :
    (∃ first, flattenAll ⟨#[]⟩ pair = .ok () first ∧
      (first.modify ⟨0⟩ fun info => { info with parent := some ⟨1⟩ }).modify ⟨1⟩
        (fun info => { info with parent := some ⟨0⟩ }) = crossed ∧
      crossed.Cyclic ∧ flattenAll ⟨#[]⟩ crossed = .ok () crossed) ∧
    ∃ first last, flattenAll ⟨#["x", "y"]⟩ ⟨#[upper, lower]⟩ = .ok () first ∧
      flattenAll ⟨#["x", "y"]⟩ (first.modify ⟨1⟩ fun info => { info with parent := some ⟨0⟩ }) =
        .ok () last ∧
      nearestField? ⟨1⟩ ((last.hierarchy ⟨1⟩).map (get ⟨#[upper, lower]⟩)) = some (false, 2) ∧
      (last.get ⟨1⟩).field? ⟨1⟩ = none := by
  have there : crossed.HasParent ⟨0⟩ ⟨1⟩ := rfl
  have back : crossed.HasParent ⟨1⟩ ⟨0⟩ := rfl
  refine ⟨⟨_, rfl, rfl, ⟨⟨0⟩, .tail (.single there) back⟩, rfl⟩, ?_⟩
  exact ⟨_, _, rfl, rfl, by decide, by decide⟩

end Catalog

end ObjectMachine
