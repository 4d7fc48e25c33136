import ObjectMachine.Proofs.Results

/-!
# What computations lead to

A computation leads from states of a kind to answers and states of a kind; where it fails, it does
so for reasons of a kind. It upholds an invariant of its state if from states that have it it comes
to states that have it.
-/

namespace ObjectMachine

def Leads (start : σ → Prop) (allowed : ε → Prop) (results : α → σ → Prop)
    (step : EStateM ε σ α) : Prop :=
  ∀ state, start state → match step state with
    | .ok answer next => results answer next
    | .error fault _ => allowed fault

def Upheld (kept : σ → Prop) (allowed : ε → Prop) (answers : α → Prop) (step : EStateM ε σ α) :
    Prop :=
  Leads kept allowed (fun answer next => answers answer ∧ kept next) step

namespace Leads

variable {start : σ → Prop} {allowed : ε → Prop} {results : α → σ → Prop}

theorem of_ok {step : EStateM ε σ α} (h : Leads start allowed results step) {state next : σ}
    (hs : start state) {answer : α} (hr : step state = .ok answer next) : results answer next := by
  have := h state hs
  rw [hr] at this
  exact this

theorem of_error {step : EStateM ε σ α} (h : Leads start allowed results step) {state next : σ}
    (hs : start state) {fault : ε} (hr : step state = .error fault next) : allowed fault := by
  have := h state hs
  rw [hr] at this
  exact this

theorem mono {results' : α → σ → Prop} {step : EStateM ε σ α} (h : Leads start allowed results step)
    (weaker : ∀ answer next, results answer next → results' answer next) :
    Leads start allowed results' step := by
  intro state hs
  have reached := h state hs
  split at reached
  · exact weaker _ _ reached
  · exact reached

/-- Reasons of a kind are also reasons of a wider kind. -/
theorem allow {allowed' : ε → Prop} {step : EStateM ε σ α} (h : Leads start allowed results step)
    (wider : ∀ fault, allowed fault → allowed' fault) : Leads start allowed' results step := by
  intro state hs
  have reached := h state hs
  split at reached
  · exact reached
  · exact wider _ reached

theorem of_start (start : σ → Prop) {start' : σ → Prop} {step : EStateM ε σ α}
    (stronger : ∀ state, start' state → start state) (h : Leads start allowed results step) :
    Leads start' allowed results step :=
  fun state hs => h state (stronger state hs)

/-! ## Rules -/

theorem of_pure {answer : α} (h : ∀ state, start state → results answer state) :
    Leads start allowed results (pure answer : EStateM ε σ α) :=
  h

theorem of_throw {fault : ε} (h : allowed fault) :
    Leads start allowed results (throw fault : EStateM ε σ α) :=
  fun _ _ => h

/-- Nothing follows a fault. -/
theorem of_throw_bind {fault : ε} (h : allowed fault) {next : γ → EStateM ε σ α} :
    Leads start allowed results ((throw fault : EStateM ε σ γ) >>= next) :=
  fun _ _ => h

theorem bind {results' : β → σ → Prop} {step : EStateM ε σ α} {next : α → EStateM ε σ β}
    (h : Leads start allowed results step)
    (hn : ∀ answer, Leads (results answer) allowed results' (next answer)) :
    Leads start allowed results' (step >>= next) := by
  intro state hs
  have first := h state hs
  change match EStateM.bind step next state with
    | .ok answer last => results' answer last
    | .error fault _ => allowed fault
  unfold EStateM.bind
  cases hr : step state with
  | ok answer middle =>
      rw [hr] at first
      exact hn answer middle first
  | error fault middle =>
      rw [hr] at first
      exact first

/-- What follows a look at the state may depend on the state that is seen. -/
theorem of_get_bind {next : σ → EStateM ε σ α}
    (h : ∀ state, start state → Leads (· = state) allowed results (next state)) :
    Leads start allowed results (get >>= next) :=
  fun state hs => h state hs state rfl

theorem of_set_bind {state : σ} {next : PUnit → EStateM ε σ α}
    (h : Leads (· = state) allowed results (next ⟨⟩)) :
    Leads start allowed results (set state >>= next) :=
  fun _ _ => h state rfl

theorem of_modifyGet {change : σ → α × σ}
    (h : ∀ state, start state → results (change state).1 (change state).2) :
    Leads start allowed results (modifyGet change : EStateM ε σ α) :=
  h

theorem of_foldlM {items : List γ} {step : α → γ → EStateM ε σ α}
    (h : ∀ item ∈ items, ∀ answer, Leads (results answer) allowed results (step answer item))
    (answer : α) : Leads (results answer) allowed results (items.foldlM step answer) := by
  induction items generalizing answer with
  | nil => exact of_pure fun _ hs => hs
  | cons item rest ih =>
      obtain ⟨first, others⟩ := List.forall_mem_cons.mp h
      rw [List.foldlM_cons]
      exact (first answer).bind fun next => ih others next

section

variable {kept : List α → σ → Prop} {items : List γ} {step : γ → EStateM ε σ α}
  (h : ∀ item ∈ items, ∀ answers, Leads (kept answers) allowed
    (fun answer => kept (answers ++ [answer])) (step item))

include h

theorem of_mapM_onto (before : List α) :
    Leads (kept before) allowed (fun answers => kept (before ++ answers)) (items.mapM step) := by
  induction items generalizing before with
  | nil => exact of_pure fun _ hs => by simpa using hs
  | cons item rest ih =>
      obtain ⟨first, others⟩ := List.forall_mem_cons.mp h
      rw [List.mapM_cons]
      refine (first before).bind fun answer => (ih others _).bind fun answers => ?_
      refine of_pure fun _ hs => ?_
      rwa [List.append_assoc] at hs

/-- Something is kept that may speak of all answers so far. -/
theorem of_mapM : Leads (kept []) allowed kept (items.mapM step) :=
  of_mapM_onto h []

end

end Leads

namespace Upheld

variable {kept : σ → Prop} {allowed : ε → Prop} {answers : α → Prop}

theorem of_ok {step : EStateM ε σ α} (h : Upheld kept allowed answers step) {state next : σ}
    (hs : kept state) {answer : α} (hr : step state = .ok answer next) :
    answers answer ∧ kept next :=
  Leads.of_ok h hs hr

theorem of_error {step : EStateM ε σ α} (h : Upheld kept allowed answers step) {state next : σ}
    (hs : kept state) {fault : ε} (hr : step state = .error fault next) : allowed fault :=
  Leads.of_error h hs hr

theorem mono {answers' : α → Prop} {step : EStateM ε σ α} (h : Upheld kept allowed answers step)
    (weaker : ∀ answer, answers answer → answers' answer) : Upheld kept allowed answers' step :=
  Leads.mono h fun answer _ => And.imp_left (weaker answer)

/-! ## Rules -/

theorem of_pure {answer : α} (h : answers answer) :
    Upheld kept allowed answers (pure answer : EStateM ε σ α) :=
  Leads.of_pure fun _ hs => ⟨h, hs⟩

theorem of_throw {fault : ε} (h : allowed fault) :
    Upheld kept allowed answers (throw fault : EStateM ε σ α) :=
  Leads.of_throw h

/-- Nothing follows a fault. -/
theorem of_throw_bind {fault : ε} (h : allowed fault) {next : γ → EStateM ε σ α} :
    Upheld kept allowed answers ((throw fault : EStateM ε σ γ) >>= next) :=
  Leads.of_throw_bind h

theorem bind {answers' : β → Prop} {step : EStateM ε σ α} {next : α → EStateM ε σ β}
    (h : Upheld kept allowed answers step)
    (hn : ∀ answer, answers answer → Upheld kept allowed answers' (next answer)) :
    Upheld kept allowed answers' (step >>= next) :=
  Leads.bind h fun answer state hs => hn answer hs.1 state hs.2

theorem of_get : Upheld kept allowed kept (get : EStateM ε σ σ) :=
  fun _ hs => ⟨hs, hs⟩

theorem of_set {state : σ} (h : kept state) :
    Upheld kept allowed (fun _ => True) (set state : EStateM ε σ PUnit) :=
  fun _ _ => ⟨trivial, h⟩

theorem of_modify {change : σ → σ} (h : ∀ state, kept state → kept (change state)) :
    Upheld kept allowed (fun _ => True) (modify change : EStateM ε σ PUnit) :=
  fun state hs => ⟨trivial, h state hs⟩

theorem of_modifyGet {change : σ → α × σ}
    (h : ∀ state, kept state → answers (change state).1 ∧ kept (change state).2) :
    Upheld kept allowed answers (modifyGet change : EStateM ε σ α) :=
  Leads.of_modifyGet h

/-! ## Lists -/

theorem of_mapM {items : List γ} {step : γ → EStateM ε σ α} {R : γ → α → Prop}
    (h : ∀ item ∈ items, Upheld kept allowed (R item) (step item)) :
    Upheld kept allowed (List.Forall₂ R items) (items.mapM step) := by
  induction items with
  | nil => exact of_pure .nil
  | cons item rest ih =>
      obtain ⟨first, others⟩ := List.forall_mem_cons.mp h
      rw [List.mapM_cons]
      exact first.bind fun _ here => (ih others).bind fun _ more => of_pure (.cons here more)

theorem of_forM {items : List γ} {step : γ → EStateM ε σ PUnit}
    (h : ∀ item ∈ items, Upheld kept allowed (fun _ => True) (step item)) :
    Upheld kept allowed (fun _ => True) (items.forM step) := by
  induction items with
  | nil => exact of_pure trivial
  | cons item rest ih =>
      obtain ⟨first, others⟩ := List.forall_mem_cons.mp h
      exact first.bind fun _ _ => ih others

end Upheld

end ObjectMachine
