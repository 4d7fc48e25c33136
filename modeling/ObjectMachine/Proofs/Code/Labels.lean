import ObjectMachine.Proofs.Code.Accounts

/-!
# Code emitted with labels

Whatever calls are made, and however instructions and anchorings follow each other, the finished
code holds the instructions that were asked for, each branch leading to the place where its label
was anchored last. Emission fails if a distance did not fit at the time it was computed, and else
if a label that something branches to was never anchored.
-/

namespace ObjectMachine

namespace Emission

/-! ## Labels without a target -/

/-- Whether a label was never anchored though something branches to it, and where the first
branch to it is. -/
def Account.Dangling (account : Account) (label site : Nat) : Prop :=
  account.anchors.lookup ⟨label⟩ = none ∧
    (account.sites ⟨label⟩).head?.map (·.offset) = some site

def unanchored : LabelState × Nat → Option AssemblyError := fun (state, label) =>
  match state.target, state.sites[0]? with
  | none, some site => some (AssemblyError.unresolvedLabel label site.offset)
  | _, _ => none

theorem finish_eq (assembly : Assembly) :
    assembly.finish = match assembly.overflow with
      | some site => .error (.offsetOverflow site)
      | none => match assembly.labels.toList.zipIdx.findSome? unanchored with
        | some fault => .error fault
        | none => .ok assembly.bytes :=
  rfl

/-- A search through numbered items stops at the first one that it is looking for. -/
theorem exists_of_findSome?_zipIdx {search : α × Nat → Option β} {items : List α} {found : β}
    (h : items.zipIdx.findSome? search = some found) :
    ∃ place item, items[place]? = some item ∧ search (item, place) = some found ∧
      ∀ earlier < place, ∀ item, items[earlier]? = some item → search (item, earlier) = none := by
  obtain ⟨front, ⟨item, place⟩, back, split, here, before⟩ := List.findSome?_eq_some_iff.mp h
  have entry (line : Nat) : items.zipIdx[line]? = items[line]?.map fun item => (item, line) := by
    simp [List.getElem?_zipIdx]
  have there := entry front.length
  rw [split, List.getElem?_append_right (Nat.le_refl _), Nat.sub_self] at there
  obtain ⟨other, known, same⟩ := Option.map_eq_some_iff.mp there.symm
  injection same with same number
  subst same number
  refine ⟨front.length, other, known, here, fun earlier less item known => ?_⟩
  have member := entry earlier
  rw [split, List.getElem?_append_left less, known] at member
  exact before _ (List.mem_of_getElem? member)

inductive Account.Ends (account : Account) : Except AssemblyError Bytes → Prop
  | overflow {site : Nat} (far : firstFar account.computed = some site) :
    Ends account (.error (.offsetOverflow site))
  | unresolved {label site : Nat} (near : firstFar account.computed = none)
    (dangling : account.Dangling label site)
    (lowest : ∀ lower < label, ∀ site, ¬account.Dangling lower site) :
    Ends account (.error (.unresolvedLabel label site))
  | finished (near : firstFar account.computed = none)
    (resolved : ∀ label site, ¬account.Dangling label site) :
    Ends account (.ok (Code.encode account.instructions))

namespace Follows

variable {assembly : Assembly} {account : Account}

/-- The labels that finishing objects to are those without a target. -/
theorem unanchored_iff (h : Follows assembly account) (sound : account.Sound) {number : Nat}
    {fault : AssemblyError} :
    (∃ state, assembly.labels.toList[number]? = some state ∧
        unanchored (state, number) = some fault) ↔
      ∃ site, account.Dangling number site ∧ fault = .unresolvedLabel number site := by
  by_cases created : number < account.labels
  · have known : assembly.labels.toList[number]? =
        some ⟨(account.sites ⟨number⟩).toArray, account.anchors.lookup ⟨number⟩⟩ := by
      rw [Array.getElem?_toList]
      exact h.labels ⟨number⟩ created
    simp only [known, Option.some.injEq, exists_eq_left', Account.Dangling, unanchored]
    cases account.anchors.lookup ⟨number⟩ with
    | some target => simp
    | none =>
        cases account.sites ⟨number⟩ with
        | nil => simp
        | cons site sites => simp [eq_comm]
  · have beyond : assembly.labels.toList[number]? = none := by
      rw [Array.getElem?_toList, Array.getElem?_eq_none_iff, h.size]
      omega
    have unused : account.sites ⟨number⟩ = [] :=
      sound.toScoped.sites_eq_nil (Nat.le_of_not_lt created)
    simp [beyond, Account.Dangling, unused]

theorem ends (h : Follows assembly account) (sound : account.Sound) :
    account.Ends assembly.finish := by
  rw [finish_eq, h.overflow]
  cases far : firstFar account.computed with
  | some site => exact .overflow far
  | none =>
      cases found : assembly.labels.toList.zipIdx.findSome? unanchored with
      | some fault =>
          obtain ⟨label, state, known, here, before⟩ := exists_of_findSome?_zipIdx found
          obtain ⟨site, dangling, rfl⟩ := (h.unanchored_iff sound).mp ⟨state, known, here⟩
          refine .unresolved far dangling fun lower less other dangles => ?_
          obtain ⟨state, known, here⟩ := (h.unanchored_iff sound).mpr ⟨other, dangles, rfl⟩
          rw [before lower less state known] at here
          cases here
      | none =>
          have bytes : assembly.bytes = Code.encode account.instructions := by
            rw [Assembly.bytes, h.instructions far]
          rw [bytes]
          refine .finished far fun label site dangles => ?_
          obtain ⟨state, known, here⟩ := (h.unanchored_iff sound).mpr ⟨site, dangles, rfl⟩
          have member : (state, label) ∈ assembly.labels.toList.zipIdx :=
            List.mk_mem_zipIdx_iff_getElem?.mpr known
          rw [List.findSome?_eq_none_iff.mp found _ member] at here
          cases here

end Follows

/-! ## Finished code -/

theorem fits_iff {distance : Int} :
    Assembly.fits distance = true ↔ Width.wide.Holds distance := by
  simp [Assembly.fits, Width.Holds, Width.reach]

/-- Whether an instruction is the one asked for, each distance being the one between its start
and the position that its destination stands for. -/
structure Item.Emitted (account : Account) (distance : Nat → Nat → Int) (item : Item)
    (instruction : Instruction) : Prop where
  offset : instruction.offset = item.offset
  opcode : instruction.opcode = item.opcode
  width : instruction.width = item.width
  operand : ∃ distances : Destination → Int32, instruction.operand = item.form.resolve distances ∧
    ∀ entry ∈ item.form.slots, ∃ target, account.target entry.1 = some target ∧
      (distances entry.1).toInt = distance item.offset target

/-- A destination without a target would be a label that dangles. -/
theorem Account.exists_target {account : Account}
    (resolved : ∀ label site, ¬account.Dangling label site)
    {item : Item} (member : item ∈ account.items) {entry : Destination × Nat}
    (slot : entry ∈ item.form.slots) : ∃ target, account.target entry.1 = some target := by
  cases destination : entry.1 with
  | position position => exact ⟨position, rfl⟩
  | label label =>
      cases anchored : account.anchors.lookup label with
      | some target => exact ⟨target, anchored⟩
      | none =>
          obtain ⟨site, here, -⟩ := Account.mem_sites member slot destination
          cases sites : account.sites label with
          | nil =>
              rw [sites] at here
              exact absurd here List.not_mem_nil
          | cons first others =>
              have dangles : account.Dangling label.id first.offset :=
                ⟨anchored, by rw [sites]; rfl⟩
              exact absurd dangles (resolved _ _)

namespace Account.Sound

variable {account : Account}

theorem distance_eq (h : account.Sound) (near : firstFar account.computed = none) {item : Item}
    (member : item ∈ account.items) {entry : Destination × Nat} (slot : entry ∈ item.form.slots)
    {target : Nat} (known : account.target entry.1 = some target) :
    (account.distance item.offset entry.1).toInt = reach item.offset target ∧
      Width.wide.Holds (reach item.offset target) := by
  have fits := fits_iff.mp
    (firstFar_eq_none_iff.mp near _ (h.computed item member entry slot target known))
  have same : account.distance item.offset entry.1 = Int32.ofInt (reach item.offset target) := by
    rw [Account.distance, known]
    rfl
  rw [same]
  exact ⟨fits.toInt_ofInt, fits⟩

theorem laid_instructions (h : account.Sound) (near : firstFar account.computed = none) :
    Code.Laid 0 account.instructions := by
  refine Emission.laid_instructions h.laid fun item member => ?_
  refine item.wellFormed (h.suits item member) _ fun target form => ?_
  have slot : (Destination.position target, 0) ∈ item.form.slots := by
    rw [form]
    exact List.mem_singleton_self _
  obtain ⟨distance, holds⟩ := h.distance_eq near member slot rfl
  have width : item.width = Width.forOffset (reach item.offset target) := by
    have suits := h.suits item member
    rw [form] at suits
    exact suits.2
  rw [distance, width]
  exact Width.holds_forOffset holds

theorem emitted (h : account.Sound) (near : firstFar account.computed = none)
    (resolved : ∀ label site, ¬account.Dangling label site) {distance : Nat → Nat → Int}
    (agrees : ∀ pair ∈ account.computed, distance pair.1 pair.2 = reach pair.1 pair.2) :
    List.Forall₂ (Item.Emitted account distance) account.items account.instructions := by
  rw [Account.instructions, List.forall₂_map_right_iff, List.forall₂_same]
  intro item member
  refine ⟨rfl, rfl, rfl, account.distance item.offset, rfl, fun entry slot => ?_⟩
  obtain ⟨target, known⟩ := Account.exists_target resolved member slot
  have computed := h.computed item member entry slot target known
  exact ⟨target, known, by rw [(h.distance_eq near member slot known).1, agrees _ computed]⟩

end Account.Sound

theorem Account.labels_ofCalls (calls : List Call) :
    (Account.ofCalls calls).labels = (calls.map Call.created).sum := by
  have counted (account : Account) : (calls.foldl Account.call account).labels =
      account.labels + (calls.map Call.created).sum := by
    induction calls generalizing account with
    | nil => rfl
    | cons call calls ih =>
        rw [List.foldl_cons, ih, labels_call, List.map_cons, List.sum_cons, Nat.add_assoc]
  rw [ofCalls, counted]
  exact Nat.zero_add _

/-! ## What becomes of calls -/

def emit (calls : List Call) : List (List Label) × Assembly :=
  (calls.mapM Call.perform).run .empty

/-- What calls come to, if the distance between two positions is measured in a certain way. -/
structure Describes (distance : Nat → Nat → Int) (calls : List Call) : Prop where
  /-- New labels are numbered in the order of their creation. -/
  answers : (emit calls).1.flatten = Call.fresh 0 (Account.ofCalls calls).labels
  decodes : ∀ code, (emit calls).2.finish = .ok code →
    ∃ instructions, Code.decode code = .ok instructions ∧
      List.Forall₂ (Item.Emitted (Account.ofCalls calls) distance)
        (Account.ofCalls calls).items instructions
  overflows : (∃ site, (emit calls).2.finish = .error (.offsetOverflow site)) ↔
    ∃ pair ∈ (Account.ofCalls calls).computed, Assembly.fits (distance pair.1 pair.2) = false
  unresolved : ∀ label site, (emit calls).2.finish = .error (.unresolvedLabel label site) ↔
    (∀ pair ∈ (Account.ofCalls calls).computed, Assembly.fits (distance pair.1 pair.2) = true) ∧
      (Account.ofCalls calls).Dangling label site ∧
      ∀ lower < label, ∀ site, ¬(Account.ofCalls calls).Dangling lower site

theorem Account.Ends.overflow_iff {account : Account} {result : Except AssemblyError Bytes}
    (h : account.Ends result) :
    (∃ site, result = .error (.offsetOverflow site)) ↔ firstFar account.computed ≠ none := by
  cases h with
  | overflow far => simp [far]
  | unresolved near => simp [near]
  | finished near => simp [near]

theorem Account.Ends.unresolved_iff {account : Account} {result : Except AssemblyError Bytes}
    (h : account.Ends result) {label site : Nat} :
    result = .error (.unresolvedLabel label site) ↔
      firstFar account.computed = none ∧ account.Dangling label site ∧
        ∀ lower < label, ∀ site, ¬account.Dangling lower site := by
  cases h with
  | overflow far => simp [far]
  | finished near resolved => simp [resolved]
  | @unresolved found first near dangling lowest =>
      constructor
      · intro same
        injection same with same
        injection same with same same'
        subst same same'
        exact ⟨near, dangling, lowest⟩
      · rintro ⟨-, dangles, least⟩
        have same : found = label := by
          rcases Nat.lt_trichotomy found label with less | same | more
          · exact absurd dangling (least found less first)
          · exact same
          · exact absurd dangles (lowest label more site)
        subst same
        have sites : some first = some site := dangling.2.symm.trans dangles.2
        injection sites with sites
        rw [sites]

theorem describes {distance : Nat → Nat → Int} {calls : List Call}
    (valid : Call.AllValid 0 calls)
    (agrees : ∀ pair ∈ (Account.ofCalls calls).computed,
      distance pair.1 pair.2 = reach pair.1 pair.2) : Describes distance calls := by
  obtain ⟨answers, last, run, fresh, follows, sound⟩ :=
    follows_empty.mapM Account.sound_empty valid
  have emitted : emit calls = (answers, last) := run
  have ends : (Account.ofCalls calls).Ends last.finish := follows.ends sound
  have near_iff : firstFar (Account.ofCalls calls).computed = none ↔
      ∀ pair ∈ (Account.ofCalls calls).computed,
        Assembly.fits (distance pair.1 pair.2) = true := by
    rw [firstFar_eq_none_iff]
    exact forall₂_congr fun pair member => by rw [agrees pair member]
  exact {
    answers := by
      rw [emitted, fresh, Account.labels_ofCalls]
      rfl
    decodes := fun code ok => by
      rw [emitted] at ok
      rw [ok] at ends
      cases ends with
      | finished near resolved =>
          exact ⟨_, Code.decode_encode (sound.laid_instructions near),
            sound.emitted near resolved agrees⟩
    overflows := by
      rw [emitted, ends.overflow_iff, ne_eq, near_iff]
      simp
    unresolved := fun label site => by
      rw [emitted, ends.unresolved_iff, near_iff] }

def apart (site target : Nat) : Int :=
  target - site

theorem reach_eq_apart {site target : Nat} (near : site < 0x8000000000000000)
    (near' : target < 0x8000000000000000) : reach site target = apart site target := by
  unfold reach apart
  exact Code.wrapped_of_mem_range (by omega) (by omega)

/-- Code is emitted as its calls describe it, distances being words that wrap around. As long as
the positions of all branches and of what they lead to are below the largest such word, that is
the distance between them. -/
theorem emission_resolves_labels (calls : List Call) (valid : Call.AllValid 0 calls) :
    Describes reach calls ∧
      ((∀ pair ∈ (Account.ofCalls calls).computed,
          pair.1 < 0x8000000000000000 ∧ pair.2 < 0x8000000000000000) →
        Describes apart calls) := by
  refine ⟨describes valid fun _ _ => rfl, fun near => describes valid fun pair member => ?_⟩
  obtain ⟨site, target⟩ := near pair member
  exact (reach_eq_apart site target).symm

/-- A loop with a try construct in it, whose labels are anchored in another order than they are
created, one of them twice. -/
def loopCalls : List Call :=
  [.newLabel, .anchor ⟨0⟩, .enterTry true, .index .loadLocal 1, .branch .jf ⟨0⟩,
    .jump .jmp, .anchor ⟨2⟩, .op .leaveFinally, .anchor ⟨1⟩, .op .leaveCatch, .anchor ⟨3⟩,
    .anchorTo ⟨0⟩ 9, .jumpTo .jmp 0, .switch [4, 5, 6] 2, .anchor ⟨4⟩, .anchor ⟨5⟩, .anchor ⟨6⟩,
    .anchor ⟨7⟩, .op .ret]

theorem emission_resolves_labels_loop :
    Call.AllValid 0 loopCalls ∧ Describes reach loopCalls ∧ Describes apart loopCalls ∧
      (emit loopCalls).2.finish.isOk = true :=
  ⟨by decide, (emission_resolves_labels loopCalls (by decide)).1,
    (emission_resolves_labels loopCalls (by decide)).2 (by decide +kernel), by decide +kernel⟩

/-- A target beyond the largest signed word is reached by a distance that has wrapped around: it
does not fit 32 bits, and yet the code is finished. -/
theorem not_emission_resolves_labels :
    ¬∀ calls, Call.AllValid 0 calls → Describes apart calls := by
  intro measured
  have described := measured [.jump .jmp, .anchorTo ⟨0⟩ 0xFFFFFFFFFFFFFFFF] (by decide)
  obtain ⟨site, fault⟩ := described.overflows.mpr
    ⟨(0, 0xFFFFFFFFFFFFFFFF), by decide, by decide⟩
  have finished : (emit [.jump .jmp, .anchorTo ⟨0⟩ 0xFFFFFFFFFFFFFFFF]).2.finish.isOk = true := by
    decide
  rw [fault] at finished
  cases finished

end Emission

end ObjectMachine
