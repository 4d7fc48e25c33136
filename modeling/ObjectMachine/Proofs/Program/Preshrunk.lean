import ObjectMachine.Proofs.Code.Append
import ObjectMachine.Proofs.Compiled.Shrunk
import ObjectMachine.Proofs.Program.Shrinking

/-!
# Linking units that have been shrunk

Streams in a row shrink as each of them does alone. So it makes no difference whether the branches
of units are shrunk before these are linked or those of the whole program when it is linked: the
code is the same, and every method has moved to the same place.
-/

namespace ObjectMachine

/-! ## Catalogs that are similar to one catalog -/

section

variable {Address : Nat → Nat → Prop}
  (same : ∀ address target target', Address address target → Address address target' →
    target = target')

include same

theorem MethodBody.Similar.unique {body body' body'' : MethodBody} (h : body.Similar Address body')
    (h' : body.Similar Address body'') : body' = body'' := by
  cases body with
  | native =>
      cases body' <;> cases body'' <;> first | rfl | exact h.elim | exact h'.elim
  | bytecode address localCount =>
      cases body' with
      | native => exact h.elim
      | bytecode target localCount' =>
          cases body'' with
          | native => exact h'.elim
          | bytecode target' localCount'' =>
              obtain ⟨there, rfl⟩ := h
              obtain ⟨there', rfl⟩ := h'
              rw [same _ _ _ there there']

theorem MethodEntry.Similar.unique {entry entry' entry'' : MethodEntry}
    (h : entry.Similar Address entry') (h' : entry.Similar Address entry'') : entry' = entry'' := by
  obtain ⟨moduleId, argCount, isStatic, declaring, body⟩ := h
  obtain ⟨moduleId', argCount', isStatic', declaring', body'⟩ := h'
  have bodies := body.unique same body'
  cases entry'
  cases entry''
  simp_all

theorem MethodsSimilar.unique {methods methods' methods'' : List (MethodKey × MethodEntry)}
    (h : MethodsSimilar Address methods methods') (h' : MethodsSimilar Address methods methods'') :
    methods' = methods'' := by
  refine forall₂_unique h h' fun method method' method'' here here' => ?_
  exact Prod.ext (here.1.symm.trans here'.1) (here.2.unique same here'.2)

theorem ClassDef.Similar.unique {info info' info'' : ClassDef} (h : info.Similar Address info')
    (h' : info.Similar Address info'') : info' = info'' := by
  have rest := h.rest.symm.trans h'.rest
  have methods := h.methods.unique same h'.methods
  cases info'
  cases info''
  simp_all

theorem Catalog.Similar.unique {catalog catalog' catalog'' : Catalog}
    (h : catalog.Similar Address catalog') (h' : catalog.Similar Address catalog'') :
    catalog' = catalog'' := by
  have classes := forall₂_unique h h' fun _ _ _ here here' => here.unique same here'
  exact congrArg Catalog.mk (Array.toList_inj.mp classes)

theorem Linkage.Similar.unique {linkage linkage' linkage'' : Linkage}
    (h : linkage.Similar Address linkage') (h' : linkage.Similar Address linkage'') :
    linkage' = linkage'' := by
  have symbols := h.symbols.symm.trans h'.symbols
  have catalog := h.catalog.unique same h'.catalog
  cases linkage'
  cases linkage''
  simp_all

end

/-! ## Streams that have been shrunk -/

namespace Code

/-- Whether two addresses are those of one line in two streams, or of their ends. -/
def SameBoundary (before after : List Instruction) (address address' : Nat) : Prop :=
  ∃ line ≤ before.length, address = boundary before line ∧ address' = boundary after line

theorem SameBoundary.append_left {front front' : List Instruction} {address address' : Nat}
    (h : SameBoundary front front' address address') (length : front.length = front'.length)
    (back back' : List Instruction) :
    SameBoundary (front ++ back) (front' ++ back') address address' := by
  obtain ⟨line, inside, rfl, rfl⟩ := h
  refine ⟨line, by rw [List.length_append]; omega, ?_, ?_⟩
  · rw [boundary_append_left _ inside]
  · rw [boundary_append_left _ (length ▸ inside)]

theorem SameBoundary.append_right {back back' : List Instruction} {address address' : Nat}
    (h : SameBoundary back back' address address') {front front' : List Instruction}
    (length : front.length = front'.length) (bytes bytes' : Nat) :
    SameBoundary (front ++ back.map (Instruction.shift bytes))
      (front' ++ back'.map (Instruction.shift bytes'))
      (boundary front front.length + address) (boundary front' front'.length + address') := by
  obtain ⟨line, inside, rfl, rfl⟩ := h
  refine ⟨front.length + line, by rw [List.length_append, List.length_map]; omega, ?_, ?_⟩
  · rw [boundary_joined]
  · rw [length, boundary_joined]

/-- Before the end there are lines. -/
theorem SameBoundary.sameLine {front front' back back' : List Instruction} {address address' : Nat}
    (h : SameBoundary front front' address address') (length : front.length = front'.length)
    (more : back ≠ []) : SameLine (front ++ back) (front' ++ back') address address' := by
  obtain ⟨line, inside, rfl, rfl⟩ := h
  have positive := List.length_pos_iff.mpr more
  refine ⟨line, by rw [List.length_append]; omega, ?_, ?_⟩
  · rw [boundary_append_left _ inside]
  · rw [boundary_append_left _ (length ▸ inside)]

/-- Whether code is what is left of other code when it is shrunk, and the instructions of both. -/
structure ShrinksTo (code code' : Bytes) (before after : List Instruction) : Prop where
  decoded : decode code = .ok before
  decoded' : decode code' = .ok after
  length : before.length = after.length
  shrinks : ∃ shrunk, shrink code [] = .ok shrunk ∧ shrunk.code = code'

theorem ShrinksTo.append {front front' back back' : Bytes}
    {instructions instructions' others others' : List Instruction}
    (h : ShrinksTo front front' instructions instructions')
    (h' : ShrinksTo back back' others others')
    (small : front.length + back.length < 0x100000000) :
    ShrinksTo (front ++ back) (front' ++ back')
      (instructions ++ others.map (Instruction.shift front.length))
      (instructions' ++ others'.map (Instruction.shift front'.length)) := by
  refine ⟨decode_append h.decoded h'.decoded, decode_append h.decoded' h'.decoded', ?_, ?_⟩
  · simp only [List.length_append, List.length_map, h.length, h'.length]
  · obtain ⟨shrunk, shrinks, rfl⟩ := h.shrinks
    obtain ⟨shrunk', shrinks', rfl⟩ := h'.shrinks
    exact ⟨_, shrink_append shrinks shrinks' small, rfl⟩

/-- Entry points do not count for what is left of a stream. -/
theorem ShrinksTo.of_shrink {code : Bytes} {entryPoints : List UInt32} {shrunk : Shrunk}
    {before after : List Instruction} (h : shrink code entryPoints = .ok shrunk)
    (decoded : decode code = .ok before) (decoded' : decode shrunk.code = .ok after)
    (length : before.length = after.length) : ShrinksTo code shrunk.code before after := by
  have none : ∀ entry ∈ ([] : List UInt32), ∃ line ≤ before.length,
      entry.toNat = boundary before line := nofun
  obtain ⟨_, shrinks⟩ := exists_shrink_entries h decoded none
  exact ⟨decoded, decoded', length, _, shrinks, rfl⟩

/-- What is left of a stream is left of itself. -/
theorem ShrinksTo.again {code code' : Bytes} {before after : List Instruction}
    (h : ShrinksTo code code' before after) : ShrinksTo code' code' after after := by
  obtain ⟨shrunk, shrinks, rfl⟩ := h.shrinks
  have again := ShrinksTo.of_shrink (shrink_shrunk shrinks) h.decoded' h.decoded' rfl
  exact again

theorem ShrinksTo.nil : ShrinksTo [] [] [] [] :=
  ⟨Encodes.nil.decoded, Encodes.nil.decoded, rfl, ⟨[], [], 1, 0⟩, by decide +kernel, rfl⟩

end Code

open Code

/-! ## Units that have been shrunk -/

namespace LoadedUnit

def Preshrunk (unit unit' : LoadedUnit) : Prop :=
  ∃ before after, ShrinksTo unit.code unit'.code before after ∧
    unit.view.Relocated (Moved before after) unit'.view

theorem check_eq_ok_iff {options : LoadOptions} {name : String} {file : CompiledUnit}
    {unit : LoadedUnit} :
    check options name file = .ok unit ↔ unit.code = file.code ∧ file.view = .ok unit.view ∧
      (options.verify = true → file.verify = .ok unit.view) := by
  obtain ⟨code, view⟩ := unit
  unfold check
  by_cases verifies : options.verify = true
  · rw [if_pos verifies]
    cases verified : file.verify with
    | ok own =>
        have viewed := (CompiledUnit.verify_eq_ok_iff.mp verified).1
        simp only [Except.ok.injEq, LoadedUnit.mk.injEq, viewed, verifies, forall_true_left]
        exact ⟨fun ⟨code, view⟩ => ⟨code.symm, view, view⟩,
          fun ⟨code, view, _⟩ => ⟨code.symm, view⟩⟩
    | error fault => simp [verifies]
  · rw [if_neg verifies]
    cases viewed : file.view with
    | ok own =>
        simp [verifies, eq_comm]
    | error fault => simp

/-- The loader accepts a shrunk file if it accepts the file. -/
theorem exists_preshrunk {options : LoadOptions} {name : String} {file : CompiledUnit}
    {unit : LoadedUnit} {shrunk : ShrunkUnit} (accepted : check options name file = .ok unit)
    (h : file.shrink = .ok shrunk) (small : unit.code.length < 0x8000000000000000) :
    ∃ unit', (∀ name, check options name shrunk.unit = .ok unit') ∧ unit.Preshrunk unit' := by
  obtain ⟨code, viewed, verified⟩ := check_eq_ok_iff.mp accepted
  obtain ⟨view', before, after, viewed', decoded, decoded', counterparts, moved⟩ :=
    CompiledUnit.view_shrink viewed h
  have shrinks : ShrinksTo file.code shrunk.unit.code before after := by
    obtain ⟨_, _, -, shrinks, rfl⟩ := CompiledUnit.shrink_eq_ok_iff.mp h
    exact .of_shrink shrinks decoded decoded' counterparts.length_eq
  refine ⟨⟨shrunk.unit.code, view'⟩, fun name => check_eq_ok_iff.mpr ⟨rfl, viewed', ?_⟩,
    before, after, by rw [code]; exact shrinks, moved⟩
  intro verifies
  obtain ⟨own, _, _, verified', -⟩ :=
    CompiledUnit.verify_of_shrink (verified verifies) (code ▸ small) h
  obtain rfl := Except.ok.inj (viewed'.symm.trans (CompiledUnit.verify_eq_ok_iff.mp verified').1)
  exact verified'

end LoadedUnit

namespace Link

open Agree

/-- The methods of units lie on the same lines as those of the shrunk units, whatever stands in
front of either. -/
theorem shrinksTo_flatMap {units units' : List LoadedUnit}
    (h : List.Forall₂ LoadedUnit.Preshrunk units units') {front front' : Bytes}
    {instructions instructions' : List Instruction}
    (before : ShrinksTo front front' instructions instructions')
    (small : (front ++ units.flatMap (·.code)).length < 0x100000000) :
    ∃ joined joined', ShrinksTo (front ++ units.flatMap (·.code))
        (front' ++ units'.flatMap (·.code)) joined joined' ∧
      (∀ address address', SameBoundary instructions instructions' address address' →
        SameBoundary joined joined' address address') ∧
      List.Forall₂ (fun (place place' : LoadedUnit × Nat) => place.1.view.Relocated
          (Within (SameBoundary joined joined') place.2 place'.2) place'.1.view)
        (units.zip (units.scanl (fun base unit => base + unit.code.length) front.length))
        (units'.zip (units'.scanl (fun base unit => base + unit.code.length) front'.length)) := by
  induction h generalizing front front' instructions instructions' with
  | nil =>
      rw [List.flatMap_nil, List.append_nil, List.append_nil]
      exact ⟨_, _, before, fun _ _ => id, .nil⟩
  | @cons unit unit' units units' here _ ih =>
      obtain ⟨own, own', shrinks, moved⟩ := here
      rw [List.flatMap_cons, List.flatMap_cons, ← List.append_assoc, ← List.append_assoc] at *
      have fits : front.length + unit.code.length < 0x100000000 := by
        rw [List.length_append, List.length_append] at small
        omega
      obtain ⟨joined, joined', whole, keeps, places⟩ := ih (before.append shrinks fits) small
      refine ⟨joined, joined', whole,
        fun _ _ same => keeps _ _ (same.append_left before.length _ _), ?_⟩
      rw [List.scanl_cons, List.scanl_cons, List.zip_cons_cons, List.zip_cons_cons]
      rw [List.length_append, List.length_append] at places
      refine .cons (moved.imp fun info listed method member offset there => keeps _ _ ?_) places
      rw [length_eq_boundary before.decoded, length_eq_boundary before.decoded']
      exact SameBoundary.append_right there before.length _ _

/-- The code of a program is left of that of the program of the units before they were shrunk. -/
theorem exists_shrinksTo_wholeCode {units units' : List LoadedUnit}
    (h : List.Forall₂ LoadedUnit.Preshrunk units units') (takesArgs : Bool)
    (small : (units.flatMap (·.code)).length + 7 < 0x100000000) :
    ∃ before after, ShrinksTo (wholeCode units takesArgs) (wholeCode units' takesArgs)
        before after ∧
      SameLine before after (units.flatMap (·.code)).length (units'.flatMap (·.code)).length ∧
      List.Forall₂ (fun (place place' : LoadedUnit × Nat) => place.1.view.Relocated
          (Within (SameLine before after) place.2 place'.2) place'.1.view)
        (units.zip (units.scanl (fun base unit => base + unit.code.length) 0))
        (units'.zip (units'.scanl (fun base unit => base + unit.code.length) 0)) := by
  obtain ⟨merged, merged', shrinks, -, places⟩ :=
    shrinksTo_flatMap h ShrinksTo.nil (by rw [List.nil_append]; omega)
  obtain ⟨entry, exit, sequence, -⟩ := encodes_entrySequence takesArgs
  have fits := length_entrySequence_le takesArgs
  have rests : ∃ shrunk, shrink (entrySequence takesArgs) [] = .ok shrunk ∧
      shrunk.code = entrySequence takesArgs := by
    cases takesArgs with
    | false => exact ⟨⟨entrySequence false, [], 1, 0⟩, by decide +kernel, rfl⟩
    | true => exact ⟨⟨entrySequence true, [], 1, 0⟩, by decide +kernel, rfl⟩
  rw [List.nil_append, List.nil_append] at shrinks
  have last : ShrinksTo (entrySequence takesArgs) (entrySequence takesArgs) (entry ++ [exit])
      (entry ++ [exit]) := ⟨sequence.decoded, sequence.decoded, rfl, rests⟩
  have more (bytes : Nat) : (entry ++ [exit]).map (Instruction.shift bytes) ≠ [] := by simp
  refine ⟨_, _, shrinks.append last (by omega), ?_, places.imp fun place place' moved =>
    moved.imp fun _ _ _ _ _ there => SameBoundary.sameLine there shrinks.length (more _)⟩
  refine SameBoundary.sameLine ⟨merged.length, Nat.le_refl _, ?_, ?_⟩ shrinks.length (more _)
  · rw [length_eq_boundary shrinks.decoded]
  · rw [length_eq_boundary shrinks.decoded', shrinks.length]

/-- Shrinking a segment gives what is left of its code, with all addresses on their lines. -/
theorem shrinkSegment_of_shrinksTo {code code' : Bytes} {before after : List Instruction}
    (h : ShrinksTo code code' before after) (small : code.length < 0x100000000)
    {entry entry' : Nat} (entered : SameLine before after entry entry') {linkage linkage' : Linkage}
    (similar : linkage.Similar (SameLine before after) linkage') :
    shrinkSegment code entry linkage = .ok (code', entry') linkage' := by
  obtain ⟨shrunk, shrinks, rfl⟩ := h.shrinks
  have starts : ∀ address ∈ linkage.catalog.addresses, Starts before address := by
    intro address member
    obtain ⟨address', -, same⟩ := similar.catalog.exists_address member
    exact same.starts
  obtain ⟨moved, others, segment, same, relocated⟩ :=
    shrinkSegment_of_starts shrinks h.decoded h.decoded' small entered.starts starts
  have linkages := relocated.unique (fun _ _ _ here there => here.unique there) similar
  rw [segment, same.unique entered, linkages]

/-- Units that have been shrunk make up the program that is shrunk when it is linked, whether or not
it is shrunk once more. -/
theorem link_preshrunk {units units' : List LoadedUnit}
    (h : List.Forall₂ LoadedUnit.Preshrunk units units')
    (small : (units.flatMap (·.code)).length + 7 < 0x100000000) (facades : List Facade)
    (optimize : Bool) :
    Program.link facades optimize units' = Program.link facades true units := by
  have start (Address : Nat → Nat → Prop) :
      Linkage.Similar Address ⟨.empty, .empty⟩ ⟨.empty, .empty⟩ := ⟨rfl, .nil⟩
  unfold Program.link
  cases assembled : assemble facades units ⟨.empty, .empty⟩ with
  | error fault linkage =>
      obtain ⟨before, after, -, -, places⟩ := exists_shrinksTo_wholeCode h false small
      obtain ⟨linkage', assembled', -⟩ := (of_assemble facades places).of_error (start _) assembled
      rw [link_of_assemble_error assembled, link_of_assemble_error assembled']
  | ok assembly linkage =>
      obtain ⟨before, after, shrinks, entered, places⟩ :=
        exists_shrinksTo_wholeCode h (assembly.mainKey.arity == 1) small
      obtain ⟨_, linkage', assembled', rfl, similar⟩ :=
        (of_assemble facades places).of_ok (start _) assembled
      have fits := length_entrySequence_le (assembly.mainKey.arity == 1)
      have bytes : (wholeCode units (assembly.mainKey.arity == 1)).length < 0x100000000 := by
        rw [wholeCode, List.length_append]
        omega
      -- Shrinking the whole program moves everything to where it is in the other program.
      have optimized := (link_of_assemble assembled).2
        (shrinkSegment_of_shrinksTo shrinks bytes entered similar)
      -- There everything stays.
      have stays : linkage'.Similar (SameLine after after) linkage' := by
        have coupled : Agree (SameLine after after) Eq (assemble facades units')
            (assemble facades units') := by
          refine of_assemble facades (List.forall₂_same.mpr fun place' listed =>
            Metadata.relocated_self fun info' declared method' own => ?_)
          obtain ⟨place, -, moved⟩ := exists_of_mem_right places listed
          obtain ⟨_, _, _, _, there⟩ := moved.exists_method declared own
          exact (SameLine.starts_right there shrinks.length).sameLine
        obtain ⟨_, _, same, -, stays⟩ := coupled.of_ok (start _) assembled'
        rw [assembled'] at same
        cases same
        exact stays
      have bytes' : (wholeCode units' (assembly.mainKey.arity == 1)).length < 0x100000000 := by
        obtain ⟨shrunk, shrinks, code⟩ := shrinks.shrinks
        have shorter := length_shrink_le shrinks
        rw [code] at shorter
        omega
      have again := (link_of_assemble assembled').2 (shrinkSegment_of_shrinksTo shrinks.again
        bytes' (entered.starts_right shrinks.length).sameLine stays)
      have plain := (link_of_assemble assembled').1
      cases optimize with
      | false => rw [optimized, plain]
      | true => rw [optimized, again]

/-- **Shrinking is compositional.** Two streams in a row shrink as each of them does alone, with the
entry points into the second one behind the first one, the bytes that both save, and the passes of
the slower one. So files whose branches are shrunk one by one are loaded and make up the program
that is shrunk as a whole when it is linked, or do not link for the same reason. -/
theorem shrinking_composes :
    (∀ (code code' : Bytes) (entryPoints entryPoints' : List UInt32) (front back : Shrunk),
      shrink code entryPoints = .ok front → shrink code' entryPoints' = .ok back →
      code.length + code'.length < 0x80000000 →
      shrink (code ++ code') (entryPoints ++ shiftEntries code.length entryPoints') = .ok {
        code := front.code ++ back.code
        entryPoints := front.entryPoints ++ shiftEntries front.code.length back.entryPoints
        passes := Nat.max front.passes back.passes
        bytesSaved := front.bytesSaved + back.bytesSaved }) ∧
    ∀ (options : LoadOptions) (units : List LoadedUnit) (reports : List ShrunkUnit),
      List.Forall₂ (fun unit report => ∃ name file, LoadedUnit.check options name file = .ok unit ∧
        file.shrink = .ok report) units reports →
      (units.flatMap (·.code)).length < 0x80000000 →
      ∃ units', List.Forall₂ (fun report unit' =>
          ∀ name, LoadedUnit.check options name report.unit = .ok unit') reports units' ∧
        ∀ facades optimize,
          Program.link facades optimize units' = Program.link facades true units := by
  constructor
  · intro code code' entryPoints entryPoints' front back shrinks shrinks' small
    exact shrink_append shrinks shrinks' (by omega)
  · intro options units reports loaded small
    have made : ∃ units', List.Forall₂ (fun report unit' =>
          ∀ name, LoadedUnit.check options name report.unit = .ok unit') reports units' ∧
        List.Forall₂ LoadedUnit.Preshrunk units units' := by
      induction loaded with
      | nil => exact ⟨[], .nil, .nil⟩
      | cons here _ ih =>
          rw [List.flatMap_cons, List.length_append] at small
          obtain ⟨name, file, accepted, shrinks⟩ := here
          obtain ⟨unit', accepted', preshrunk⟩ :=
            LoadedUnit.exists_preshrunk accepted shrinks (by omega)
          obtain ⟨units', others, more⟩ := ih (by omega)
          exact ⟨unit' :: units', .cons accepted' others, .cons preshrunk more⟩
    obtain ⟨units', accepted, preshrunk⟩ := made
    exact ⟨units', accepted, fun facades optimize => link_preshrunk preshrunk (by omega) facades
      optimize⟩

/-- A branch to the end of its stream, with a loop behind it, and a unit whose branches are shrunk
before it is linked. -/
theorem shrinking_composes_loop :
    shrink [88, 5, 0, 0, 0] [0] = .ok ⟨[86, 2], [0], 2, 3⟩ ∧
    shrink [1, 81, 255, 255] [1] = .ok ⟨[1, 80, 255], [1], 2, 1⟩ ∧
    shrink [88, 5, 0, 0, 0, 1, 81, 255, 255] [0, 6] = .ok ⟨[86, 2, 1, 80, 255], [0, 3], 2, 4⟩ ∧
    ∃ report, CompiledUnit.loop.shrink = .ok report ∧
      ∃ units', List.Forall₂ (fun report unit' =>
          ∀ name, LoadedUnit.check ⟨true, true⟩ name report.unit = .ok unit') [report] units' ∧
        ∀ facades optimize, Program.link facades optimize units' =
          Program.link facades true [⟨CompiledUnit.loop.code, CompiledUnit.loopView⟩] := by
  have front : shrink [88, 5, 0, 0, 0] [0] = .ok ⟨[86, 2], [0], 2, 3⟩ := by decide +kernel
  have back : shrink [1, 81, 255, 255] [1] = .ok ⟨[1, 80, 255], [1], 2, 1⟩ := by decide +kernel
  have whole := shrinking_composes.1 _ _ _ _ _ _ front back (by decide)
  have moved : shiftEntries (List.length ([88, 5, 0, 0, 0] : Bytes)) [1] = [6] := by decide
  have moved' : shiftEntries (List.length ([86, 2] : Bytes)) [1] = [3] := by decide
  dsimp only at whole
  rw [moved, moved'] at whole
  refine ⟨front, back, whole, ?_⟩
  have verified := CompiledUnit.verify_loop
  have accepted : LoadedUnit.check ⟨true, true⟩ "m" CompiledUnit.loop =
      .ok ⟨CompiledUnit.loop.code, CompiledUnit.loopView⟩ :=
    LoadedUnit.check_eq_ok_iff.mpr
      ⟨rfl, (CompiledUnit.verify_eq_ok_iff.mp verified).1, fun _ => verified⟩
  obtain ⟨report, shrinks⟩ := CompiledUnit.exists_shrink verified (by decide)
  exact ⟨report, shrinks, shrinking_composes.2 _ _ _ (.cons ⟨_, _, accepted, shrinks⟩ .nil)
    (by decide)⟩

end Link

end ObjectMachine
