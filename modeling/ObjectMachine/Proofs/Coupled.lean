import ObjectMachine.Proofs.Results

/-!
# Computations in step

Two computations are coupled if from states that correspond they come to states that correspond,
either both with tied values or both with the same fault. A computation coupled with itself on
equal states is one that keeps an invariant.
-/

namespace ObjectMachine

/-- The correspondence of results: tied values or one fault, and states that correspond. -/
def ResultsMatch (kept : σ → σ' → Prop) (tie : α → β → Prop) :
    EStateM.Result ε σ α → EStateM.Result ε σ' β → Prop
  | .ok value state, .ok value' state' => tie value value' ∧ kept state state'
  | .error fault state, .error fault' state' => fault = fault' ∧ kept state state'
  | _, _ => False

def Coupled (kept : σ → σ' → Prop) (tie : α → β → Prop) (step : EStateM ε σ α)
    (step' : EStateM ε σ' β) : Prop :=
  ∀ state state', kept state state' → ResultsMatch kept tie (step state) (step' state')

namespace Coupled

variable {kept : σ → σ' → Prop} {tie : α → β → Prop}

theorem mono {tie' : α → β → Prop} {step : EStateM ε σ α} {step' : EStateM ε σ' β}
    (h : Coupled kept tie step step') (weaker : ∀ value value', tie value value' →
      tie' value value') : Coupled kept tie' step step' := by
  intro state state' hs
  have results := h state state' hs
  unfold ResultsMatch at *
  split at results
  · exact ⟨weaker _ _ results.1, results.2⟩
  · exact results
  · exact results.elim

theorem of_ok {step : EStateM ε σ α} {step' : EStateM ε σ' β} (h : Coupled kept tie step step')
    {state next : σ} {state' : σ'} (hs : kept state state') {value : α}
    (hr : step state = .ok value next) :
    ∃ value' next', step' state' = .ok value' next' ∧ tie value value' ∧ kept next next' := by
  have := h state state' hs
  rw [hr] at this
  cases hr' : step' state' with
  | ok value' next' =>
      rw [hr'] at this
      exact ⟨value', next', rfl, this.1, this.2⟩
  | error fault next' =>
      rw [hr'] at this
      exact this.elim

theorem of_error {step : EStateM ε σ α} {step' : EStateM ε σ' β} (h : Coupled kept tie step step')
    {state next : σ} {state' : σ'} (hs : kept state state') {fault : ε}
    (hr : step state = .error fault next) :
    ∃ next', step' state' = .error fault next' ∧ kept next next' := by
  have := h state state' hs
  rw [hr] at this
  cases hr' : step' state' with
  | ok value' next' =>
      rw [hr'] at this
      exact this.elim
  | error fault' next' =>
      rw [hr'] at this
      obtain ⟨rfl, hn⟩ := this
      exact ⟨next', rfl, hn⟩

/-! ## Rules -/

theorem of_pure {value : α} {value' : β} (h : tie value value') :
    Coupled kept tie (pure value : EStateM ε σ α) (pure value' : EStateM ε σ' β) :=
  fun _ _ hs => ⟨h, hs⟩

theorem of_throw (fault : ε) :
    Coupled kept tie (throw fault : EStateM ε σ α)
      (throw fault : EStateM ε σ' β) :=
  fun _ _ hs => ⟨rfl, hs⟩

/-- Nothing follows a fault. -/
theorem of_throw_bind (fault : ε) {next : γ → EStateM ε σ α} {next' : δ → EStateM ε σ' β} :
    Coupled kept tie (throw fault >>= next) (throw fault >>= next') :=
  fun _ _ hs => ⟨rfl, hs⟩

theorem bindWith {tie' : γ → δ → Prop} {step : EStateM ε σ α} {step' : EStateM ε σ' β}
    {next : α → EStateM ε σ γ} {next' : β → EStateM ε σ' δ} (h : Coupled kept tie step step')
    (hn : ∀ value value', tie value value' → Coupled kept tie' (next value) (next' value')) :
    Coupled kept tie' (step >>= next) (step' >>= next') := by
  intro state state' hs
  have first := h state state' hs
  change ResultsMatch kept tie' (EStateM.bind step next state) (EStateM.bind step' next' state')
  unfold EStateM.bind
  cases hr : step state with
  | ok value middle =>
      obtain ⟨value', middle', hr', ht, hm⟩ := h.of_ok hs hr
      rw [hr']
      exact hn value value' ht middle middle' hm
  | error fault middle =>
      obtain ⟨middle', hr', hm⟩ := h.of_error hs hr
      rw [hr']
      exact ⟨rfl, hm⟩

/-- The rule for steps with the same value. -/
theorem bind {tie' : γ → δ → Prop} {step : EStateM ε σ α} {step' : EStateM ε σ' α}
    {next : α → EStateM ε σ γ} {next' : α → EStateM ε σ' δ} (h : Coupled kept Eq step step')
    (hn : ∀ value, Coupled kept tie' (next value) (next' value)) :
    Coupled kept tie' (step >>= next) (step' >>= next') :=
  h.bindWith fun value _ same => same ▸ hn value

theorem map {tie' : γ → δ → Prop} {step : EStateM ε σ α} {step' : EStateM ε σ' β} {f : α → γ}
    {g : β → δ} (h : Coupled kept tie step step')
    (hf : ∀ value value', tie value value' → tie' (f value) (g value')) :
    Coupled kept tie' (f <$> step) (g <$> step') := by
  rw [← bind_pure_comp, ← bind_pure_comp]
  exact h.bindWith fun value value' ht => of_pure (hf value value' ht)

theorem of_get : Coupled kept kept (get : EStateM ε σ σ)
    (get : EStateM ε σ' σ') :=
  fun _ _ hs => ⟨hs, hs⟩

theorem of_set {state : σ} {state' : σ'} (h : kept state state') :
    Coupled kept (fun _ _ => True) (set state : EStateM ε σ PUnit)
      (set state' : EStateM ε σ' PUnit) :=
  fun _ _ _ => ⟨trivial, h⟩

theorem of_modify {change : σ → σ} {change' : σ' → σ'}
    (h : ∀ state state', kept state state' → kept (change state) (change' state')) :
    Coupled kept Eq (modify change : EStateM ε σ PUnit)
      (modify change' : EStateM ε σ' PUnit) :=
  fun state state' hs => ⟨rfl, h state state' hs⟩

theorem of_modifyGet {change : σ → α × σ} {change' : σ' → β × σ'}
    (h : ∀ state state', kept state state' →
      tie (change state).1 (change' state').1 ∧ kept (change state).2 (change' state').2) :
    Coupled kept tie (modifyGet change : EStateM ε σ α)
      (modifyGet change' : EStateM ε σ' β) :=
  fun state state' hs => h state state' hs

/-! ## Lists -/

theorem of_mapM₂ {items : List γ} {others : List δ} {step : γ → EStateM ε σ α}
    {step' : δ → EStateM ε σ' β}
    (h : List.Forall₂ (fun item other => Coupled kept tie (step item) (step' other)) items others) :
    Coupled kept (List.Forall₂ tie) (items.mapM step) (others.mapM step') := by
  induction h with
  | nil => exact of_pure .nil
  | cons first _ ih =>
      rw [List.mapM_cons, List.mapM_cons]
      exact first.bindWith fun _ _ here => ih.bindWith fun _ _ more => of_pure (.cons here more)

theorem of_mapM {items : List γ} {step : γ → EStateM ε σ α} {step' : γ → EStateM ε σ' β}
    (h : ∀ item ∈ items, Coupled kept tie (step item) (step' item)) :
    Coupled kept (List.Forall₂ tie) (items.mapM step) (items.mapM step') :=
  of_mapM₂ (List.forall₂_same.mpr h)

theorem of_mapM_eq {items : List γ} {step : γ → EStateM ε σ α} {step' : γ → EStateM ε σ' α}
    (h : ∀ item ∈ items, Coupled kept Eq (step item) (step' item)) :
    Coupled kept Eq (items.mapM step) (items.mapM step') :=
  (of_mapM h).mono fun _ _ same => List.forall₂_eq_eq_eq ▸ same

theorem of_forM₂ {items : List γ} {others : List δ} {step : γ → EStateM ε σ PUnit}
    {step' : δ → EStateM ε σ' PUnit}
    (h : List.Forall₂ (fun item other => Coupled kept Eq (step item) (step' other)) items others) :
    Coupled kept Eq (items.forM step) (others.forM step') := by
  induction h with
  | nil => exact of_pure rfl
  | cons first _ ih => exact first.bind fun _ => ih

theorem of_forM {items : List γ} {step : γ → EStateM ε σ PUnit} {step' : γ → EStateM ε σ' PUnit}
    (h : ∀ item ∈ items, Coupled kept Eq (step item) (step' item)) :
    Coupled kept Eq (items.forM step) (items.forM step') :=
  of_forM₂ (List.forall₂_same.mpr h)

theorem of_foldlM₂ {items : List γ} {others : List δ} {step : α → γ → EStateM ε σ α}
    {step' : β → δ → EStateM ε σ' β}
    (h : List.Forall₂ (fun item other => ∀ value value', tie value value' →
      Coupled kept tie (step value item) (step' value' other)) items others)
    {value : α} {value' : β} (ht : tie value value') :
    Coupled kept tie (items.foldlM step value) (others.foldlM step' value') := by
  induction h generalizing value value' with
  | nil => exact of_pure ht
  | cons first _ ih =>
      rw [List.foldlM_cons, List.foldlM_cons]
      exact (first value value' ht).bindWith fun _ _ here => ih here

theorem of_foldlM {items : List γ} {step : α → γ → EStateM ε σ α} {step' : β → γ → EStateM ε σ' β}
    (h : ∀ item ∈ items, ∀ value value', tie value value' →
      Coupled kept tie (step value item) (step' value' item)) {value : α} {value' : β}
    (ht : tie value value') :
    Coupled kept tie (items.foldlM step value) (items.foldlM step' value') :=
  of_foldlM₂ (List.forall₂_same.mpr h) ht

end Coupled

end ObjectMachine
