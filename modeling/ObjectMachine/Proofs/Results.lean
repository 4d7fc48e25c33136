import Mathlib.Data.List.Forall2

/-!
# Results of computations

When a computation that is put together from others succeeds, and lists whose entries correspond.
-/

namespace ObjectMachine

theorem EStateM.bind_eq_ok_iff {step : EStateM ε σ α} {next : α → EStateM ε σ β}
    {state last : σ} {value : β} :
    (step >>= next) state = .ok value last ↔
      ∃ first middle, step state = .ok first middle ∧ next first middle = .ok value last := by
  change EStateM.bind step next state = _ ↔ _
  unfold EStateM.bind
  cases step state with
  | ok first middle => exact ⟨fun h => ⟨first, middle, rfl, h⟩, by rintro ⟨_, _, ⟨⟩, h⟩; exact h⟩
  | error fault middle => simp

namespace Except

theorem bind_eq_ok_iff {step : Except ε α} {next : α → Except ε β} {value : β} :
    step >>= next = .ok value ↔ ∃ first, step = .ok first ∧ next first = .ok value := by
  cases step with
  | error fault => simp [bind, Except.bind]
  | ok first => simp [bind, Except.bind]

theorem bind_eq_error_iff {step : Except ε α} {next : α → Except ε β} {fault : ε} :
    step >>= next = .error fault ↔
      step = .error fault ∨ ∃ first, step = .ok first ∧ next first = .error fault := by
  cases step with
  | error cause => simp [bind, Except.bind]
  | ok first => simp [bind, Except.bind]

theorem mapError_eq_ok_iff {step : Except ε α} {change : ε → δ} {value : α} :
    step.mapError change = .ok value ↔ step = .ok value := by
  cases step <;> simp [Except.mapError]

/-- A check in front of the rest. -/
theorem throw_if_eq_ok_iff {condition : Prop} [Decidable condition] {fault : ε}
    {rest : PUnit → Except ε α} {value : α} :
    (if condition then throw fault >>= rest else rest ⟨⟩) = .ok value ↔
      ¬ condition ∧ rest ⟨⟩ = .ok value := by
  split
  · next fails => exact iff_of_false nofun fun h => h.1 fails
  · next holds => exact (and_iff_right holds).symm

theorem mapM_eq_ok_iff {step : α → Except ε β} {items : List α} {results : List β} :
    items.mapM step = .ok results ↔
      List.Forall₂ (fun item result => step item = .ok result) items results := by
  induction items generalizing results with
  | nil => simp [pure, Except.pure, List.forall₂_nil_left_iff, eq_comm]
  | cons item rest ih =>
      simp only [List.mapM_cons, bind_eq_ok_iff, ih, List.forall₂_cons_left_iff, pure, Except.pure,
        Except.ok.injEq]
      constructor
      · rintro ⟨result, here, others, there, rfl⟩
        exact ⟨result, others, here, there, rfl⟩
      · rintro ⟨result, others, here, there, rfl⟩
        exact ⟨result, here, others, there, rfl⟩

theorem exists_mapM {step : α → Except ε β} {items : List α}
    (h : ∀ item ∈ items, ∃ result, step item = .ok result) :
    ∃ results, items.mapM step = .ok results := by
  induction items with
  | nil => exact ⟨[], rfl⟩
  | cons item rest ih =>
      obtain ⟨⟨result, here⟩, others⟩ := List.forall_mem_cons.mp h
      obtain ⟨results, there⟩ := ih others
      exact ⟨result :: results, by rw [List.mapM_cons, here, there]; rfl⟩

theorem forM_eq_ok_iff {step : α → Except ε PUnit} {items : List α} :
    items.forM step = .ok ⟨⟩ ↔ ∀ item ∈ items, step item = .ok ⟨⟩ := by
  induction items with
  | nil => simp [pure, Except.pure]
  | cons item rest ih =>
      rw [List.forall_mem_cons, ← ih]
      change (step item >>= fun _ => rest.forM step) = .ok ⟨⟩ ↔ _
      rw [bind_eq_ok_iff]
      exact ⟨fun ⟨_, here, there⟩ => ⟨here, there⟩, fun ⟨here, there⟩ => ⟨⟨⟩, here, there⟩⟩

/-- The correspondence of results: tied values or one error. -/
def Match (tie : α → β → Prop) : Except ε α → Except ε β → Prop
  | .ok value, .ok value' => tie value value'
  | .error fault, .error fault' => fault = fault'
  | _, _ => False

theorem Match.imp {tie tie' : α → β → Prop} {result : Except ε α} {result' : Except ε β}
    (h : Match tie result result') (weaker : ∀ value value', tie value value' → tie' value value') :
    Match tie' result result' := by
  unfold Match at *
  split at h
  · exact weaker _ _ h
  · exact h
  · exact h.elim

theorem Match.bind {tie : α → β → Prop} {tie' : γ → δ → Prop} {result : Except ε α}
    {result' : Except ε β} {next : α → Except ε γ} {next' : β → Except ε δ}
    (h : Match tie result result')
    (hn : ∀ value value', tie value value' → Match tie' (next value) (next' value')) :
    Match tie' (result >>= next) (result' >>= next') := by
  cases result with
  | ok value =>
      cases result' with
      | ok value' => exact hn value value' h
      | error fault' => exact h.elim
  | error fault =>
      cases result' with
      | ok value' => exact h.elim
      | error fault' => exact h

end Except

/-! ## Lists in step -/

theorem map_eq_of_forall₂ {f : α → γ} {g : β → γ} {items : List α} {others : List β}
    (h : List.Forall₂ (fun item other => g other = f item) items others) :
    others.map g = items.map f := by
  induction h with
  | nil => rfl
  | cons here _ ih => rw [List.map_cons, List.map_cons, here, ih]

theorem exists_of_mem_right {R : α → β → Prop} {items : List α} {others : List β}
    (h : List.Forall₂ R items others) {other : β} (member : other ∈ others) :
    ∃ item ∈ items, R item other := by
  obtain ⟨number, inside, rfl⟩ := List.getElem_of_mem member
  have within : number < items.length := h.length_eq ▸ inside
  exact ⟨items[number], List.getElem_mem within, h.get within inside⟩

/-- What a key of one list is paired with first corresponds to it. -/
theorem exists_lookup_zip [BEq α] [LawfulBEq α] {R : α → β → Prop} {keys : List α}
    {values : List β} (h : List.Forall₂ R keys values) {key : α} (member : key ∈ keys) :
    ∃ value, (keys.zip values).lookup key = some value ∧ R key value := by
  induction h with
  | nil => cases member
  | @cons first value _ _ here _ ih =>
      rw [List.zip_cons_cons, List.lookup_cons]
      by_cases same : key = first
      · subst same
        exact ⟨value, by rw [beq_self_eq_true], here⟩
      · rw [beq_false_of_ne same]
        exact ih (List.mem_of_ne_of_mem same member)

theorem exists_of_rel_some {R : α → β → Prop} {item : α} {other : Option β}
    (h : Option.Rel R (some item) other) : ∃ value, other = some value ∧ R item value := by
  cases h with
  | some related => exact ⟨_, rfl, related⟩

theorem exists_of_rel_to_some {R : α → β → Prop} {item : Option α} {other : β}
    (h : Option.Rel R item (some other)) : ∃ value, item = some value ∧ R value other := by
  cases h with
  | some related => exact ⟨_, rfl, related⟩

theorem exists_append_of_forall₂ {R : α → β → Prop} {items items' : List α} {others : List β}
    (h : List.Forall₂ R (items ++ items') others) :
    ∃ first second, others = first ++ second ∧ List.Forall₂ R items first ∧
      List.Forall₂ R items' second := by
  induction items generalizing others with
  | nil => exact ⟨[], others, rfl, .nil, h⟩
  | cons item rest ih =>
      cases h with
      | cons here there =>
          obtain ⟨first, second, rfl, others, more⟩ := ih there
          exact ⟨_ :: first, second, rfl, .cons here others, more⟩

theorem forall₂_trans {R : α → β → Prop} {S : β → γ → Prop} {items : List α} {others : List β}
    {thirds : List γ} (h : List.Forall₂ R items others) (h' : List.Forall₂ S others thirds) :
    List.Forall₂ (fun item third => ∃ other, R item other ∧ S other third) items thirds := by
  induction h generalizing thirds with
  | nil =>
      cases h'
      exact .nil
  | cons here _ ih =>
      cases h' with
      | cons there rest => exact .cons ⟨_, here, there⟩ (ih rest)

/-- Lists that correspond to one list are equal if each entry determines what it corresponds to. -/
theorem forall₂_unique {R : α → β → Prop} {S : α → β → Prop} {items : List α}
    {others others' : List β} (h : List.Forall₂ R items others) (h' : List.Forall₂ S items others')
    (same : ∀ item other other', R item other → S item other' → other = other') :
    others = others' := by
  induction h generalizing others' with
  | nil => exact (List.forall₂_nil_left_iff.mp h').symm
  | cons here _ ih =>
      cases h' with
      | cons here' rest => rw [same _ _ _ here here', ih rest]

theorem forall₂_isEmpty {R : α → β → Prop} {items : List α} {others : List β}
    (h : List.Forall₂ R items others) : items.isEmpty = others.isEmpty := by
  cases h <;> rfl

theorem forall₂_getElem? {R : α → β → Prop} {items : List α} {others : List β}
    (h : List.Forall₂ R items others) (place : Nat) :
    Option.Rel R items[place]? others[place]? := by
  induction h generalizing place with
  | nil => exact .none
  | cons here _ ih =>
      cases place with
      | zero => exact .some here
      | succ place => exact ih place

theorem forall₂_modify {R : α → β → Prop} {f : α → α} {g : β → β} {items : List α} {others : List β}
    (h : List.Forall₂ R items others) (same : ∀ {item other}, R item other → R (f item) (g other))
    (place : Nat) : List.Forall₂ R (items.modify place f) (others.modify place g) := by
  induction h generalizing place with
  | nil =>
      rw [List.modify_nil, List.modify_nil]
      exact .nil
  | cons here rest ih =>
      cases place with
      | zero => exact .cons (same here) rest
      | succ place =>
          rw [List.modify_succ_cons, List.modify_succ_cons]
          exact .cons here (ih place)

theorem forall₂_zipIdx {R : α → β → Prop} {items : List α} {others : List β}
    (h : List.Forall₂ R items others) (first : Nat) :
    List.Forall₂ (fun place other => R place.1 other.1 ∧ place.2 = other.2)
      (items.zipIdx first) (others.zipIdx first) := by
  induction h generalizing first with
  | nil => exact .nil
  | cons here _ ih => exact .cons ⟨here, rfl⟩ (ih (first + 1))

theorem forall₂_dropWhile {R : α → β → Prop} {p : α → Bool} {q : β → Bool} {items : List α}
    {others : List β} (h : List.Forall₂ R items others)
    (same : ∀ item other, R item other → p item = q other) :
    List.Forall₂ R (items.dropWhile p) (others.dropWhile q) := by
  induction h with
  | nil => exact .nil
  | @cons item other _ _ here rest ih =>
      rw [List.dropWhile_cons, List.dropWhile_cons, same item other here]
      split
      · exact ih
      · exact .cons here rest

theorem forall₂_and_right {R : α → β → Prop} {P : β → Prop} {items : List α} {others : List β}
    (h : List.Forall₂ R items others) (all : ∀ other ∈ others, P other) :
    List.Forall₂ (fun item other => R item other ∧ P other) items others := by
  induction h with
  | nil => exact .nil
  | cons here _ ih =>
      obtain ⟨first, rest⟩ := List.forall_mem_cons.mp all
      exact .cons ⟨here, first⟩ (ih rest)

end ObjectMachine
