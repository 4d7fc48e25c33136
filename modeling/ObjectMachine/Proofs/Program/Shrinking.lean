import ObjectMachine.Proofs.Code.Settled
import ObjectMachine.Proofs.Program.Checked
import ObjectMachine.Proofs.Program.Similar

/-!
# Linking with shrunk branches

Shrinking the code of checked units succeeds. It moves the methods and the entry sequence along
with their lines and leaves everything else as it is.
-/

namespace ObjectMachine

open Code

theorem Link.address?_eq_some_iff {method : MethodEntry} {address : Nat} :
    Link.address? method = some address ↔
      ∃ localCount, method.body = .bytecode address localCount := by
  unfold Link.address?
  cases method.body <;> simp

theorem MethodEntry.relocated_similar {Address : Nat → Nat → Prop} {method : MethodEntry}
    {moved : UInt32 → Option UInt32}
    (moves : ∀ address, Link.address? method = some address →
      ∃ target, moved (UInt32.ofNat address) = some target ∧ Address address target.toNat) :
    method.Similar Address (Link.relocated moved method) := by
  unfold Link.relocated
  split
  · next address localCount bytecode =>
      obtain ⟨target, found, tied⟩ :=
        moves address (Link.address?_eq_some_iff.mpr ⟨localCount, bytecode⟩)
      rw [found]
      exact ⟨rfl, rfl, rfl, rfl, by rw [bytecode]; exact ⟨tied, rfl⟩⟩
  · next native => exact ⟨rfl, rfl, rfl, rfl, by rw [native]; trivial⟩

namespace Catalog

def addresses (catalog : Catalog) : List Nat :=
  catalog.classes.toList.flatMap fun info =>
    info.methods.filterMap fun (_, method) => Link.address? method

def relocated (moved : UInt32 → Option UInt32) (catalog : Catalog) : Catalog :=
  ⟨catalog.classes.map fun info =>
    { info with
      methods := info.methods.map fun (key, method) => (key, Link.relocated moved method) }⟩

theorem mem_addresses {catalog : Catalog} {info : ClassDef} (listed : info ∈ catalog.classes.toList)
    {key : MethodKey} {method : MethodEntry} (own : (key, method) ∈ info.methods) {address : Nat}
    (here : Link.address? method = some address) : address ∈ catalog.addresses :=
  List.mem_flatMap.mpr ⟨info, listed, List.mem_filterMap.mpr ⟨(key, method), own, here⟩⟩

/-- A method of classes that are similar to others corresponds to one of these. -/
theorem Similar.exists_address {Address : Nat → Nat → Prop} {catalog catalog' : Catalog}
    (h : catalog.Similar Address catalog') {address : Nat} (member : address ∈ catalog.addresses) :
    ∃ address' ∈ catalog'.addresses, Address address address' := by
  obtain ⟨info, listed, member⟩ := List.mem_flatMap.mp member
  obtain ⟨⟨key, method⟩, own, here⟩ := List.mem_filterMap.mp member
  obtain ⟨info', listed', alike⟩ := exists_of_mem_right (List.Forall₂.flip h) listed
  obtain ⟨⟨key', method'⟩, own', same, alike'⟩ := exists_of_mem_right alike.methods.flip own
  obtain ⟨localCount, bytecode⟩ := Link.address?_eq_some_iff.mp here
  have body : method.body.Similar Address method'.body := alike'.body
  rw [bytecode] at body
  cases bytecode' : method'.body with
  | bytecode address' localCount' =>
      rw [bytecode'] at body
      exact ⟨address', mem_addresses listed' own' (Link.address?_eq_some_iff.mpr ⟨_, bytecode'⟩),
        body.1⟩
  | native =>
      rw [bytecode'] at body
      exact body.elim

theorem relocated_similar {Address : Nat → Nat → Prop} {catalog : Catalog}
    {moved : UInt32 → Option UInt32}
    (moves : ∀ address ∈ catalog.addresses, ∃ target, moved (UInt32.ofNat address) = some target ∧
      Address address target.toNat) :
    catalog.Similar Address (catalog.relocated moved) := by
  unfold Catalog.Similar relocated
  rw [Array.toList_map, List.forall₂_map_right_iff, List.forall₂_same]
  refine fun info listed => ⟨rfl, ?_⟩
  unfold MethodsSimilar
  rw [List.forall₂_map_right_iff, List.forall₂_same]
  rintro ⟨key, method⟩ own
  exact ⟨rfl, MethodEntry.relocated_similar fun address here =>
    moves address (mem_addresses listed own here)⟩

end Catalog

namespace Link

theorem shrinkSegment_of_shrink {code : Bytes} {entry : Nat} {linkage : Linkage} {shrunk : Shrunk}
    (h : shrink code ((entry :: linkage.catalog.addresses).map UInt32.ofNat) = .ok shrunk) :
    let moved (address : UInt32) :=
      (((entry :: linkage.catalog.addresses).map UInt32.ofNat).zip shrunk.entryPoints).lookup
        address
    shrinkSegment code entry linkage =
      .ok (shrunk.code, ((moved (UInt32.ofNat entry)).getD (UInt32.ofNat entry)).toNat)
        { linkage with catalog := linkage.catalog.relocated moved } := by
  unfold Catalog.addresses at h
  unfold shrinkSegment
  dsimp only [bind, EStateM.bind, get, getThe, MonadStateOf.get, EStateM.get]
  rw [h]
  rfl

/-- Shrinking a segment moves the addresses at which instructions start along with their lines. -/
theorem shrinkSegment_of_starts {code : Bytes} {shrunk : Shrunk} {before after : List Instruction}
    (shrinks : shrink code [] = .ok shrunk) (decoded : decode code = .ok before)
    (decoded' : decode shrunk.code = .ok after) (small : code.length < 0x100000000) {entry : Nat}
    (entered : Starts before entry) {linkage : Linkage}
    (starts : ∀ address ∈ linkage.catalog.addresses, Starts before address) :
    ∃ entry' linkage', shrinkSegment code entry linkage = .ok (shrunk.code, entry') linkage' ∧
      SameLine before after entry entry' ∧ linkage.Similar (SameLine before after) linkage' := by
  have fits {address : Nat} (there : Starts before address) :
      (UInt32.ofNat address).toNat = address := by
    obtain ⟨line, inside, rfl⟩ := there
    have within := boundary_le_boundary (Nat.le_of_lt inside) (Nat.le_refl _)
    rw [← length_eq_boundary decoded] at within
    exact UInt32.toNat_ofNat_of_lt' (show _ < 0x100000000 by omega)
  have all : ∀ address ∈ entry :: linkage.catalog.addresses, Starts before address :=
    List.forall_mem_cons.mpr ⟨entered, starts⟩
  have points : ∀ point ∈ (entry :: linkage.catalog.addresses).map UInt32.ofNat,
      ∃ line ≤ before.length, point.toNat = boundary before line := by
    intro point member
    obtain ⟨address, listed, rfl⟩ := List.mem_map.mp member
    obtain ⟨line, inside, here⟩ := all address listed
    exact ⟨line, Nat.le_of_lt inside, (fits (all address listed)).trans here⟩
  obtain ⟨entries, shrinks'⟩ := exists_shrink_entries shrinks decoded points
  obtain ⟨own, own', same, same', -, moved⟩ := exists_counterparts shrinks'
  obtain rfl := Except.ok.inj (decoded.symm.trans same)
  obtain rfl := Except.ok.inj (decoded'.symm.trans same')
  have moves (address : Nat) (member : address ∈ entry :: linkage.catalog.addresses) :
      ∃ target, (((entry :: linkage.catalog.addresses).map UInt32.ofNat).zip
          entries).lookup (UInt32.ofNat address) = some target ∧
        SameLine before after address target.toNat := by
    have listed := List.mem_map_of_mem (f := UInt32.ofNat) member
    obtain ⟨target, found, there⟩ := exists_lookup_zip moved listed
    have same := there.sameLine (by rw [fits (all address member)]; exact all address member)
    rw [fits (all address member)] at same
    exact ⟨target, found, same⟩
  obtain ⟨target, found, tied⟩ := moves entry List.mem_cons_self
  have segment := shrinkSegment_of_shrink shrinks'
  dsimp only at segment
  rw [found, Option.getD_some] at segment
  exact ⟨_, _, segment, tied, rfl,
    Catalog.relocated_similar fun address member => moves address (List.mem_cons_of_mem _ member)⟩

/-- The code of a closed stream is shrunk, and the addresses at which instructions start move along
with their lines. -/
theorem shrinkSegment_eq_ok {code : Bytes} {before : List Instruction} (h : Encodes code before)
    (small : code.length < 0x100000000) {entry : Nat} (entered : Starts before entry)
    {linkage : Linkage} (starts : ∀ address ∈ linkage.catalog.addresses, Starts before address) :
    ∃ shrunk after entry' linkage',
      shrinkSegment code entry linkage = .ok (shrunk, entry') linkage' ∧
      decode shrunk = .ok after ∧ List.Forall₂ (Counterpart before after) before after ∧
      SameLine before after entry entry' ∧ linkage.Similar (SameLine before after) linkage' := by
  obtain ⟨shrunk, shrinks⟩ : ∃ shrunk, shrink code [] = .ok shrunk := h.exists_shrink nofun
  obtain ⟨own, after, decoded, decoded', counterparts, -⟩ := exists_counterparts shrinks
  obtain rfl := Except.ok.inj (h.decoded.symm.trans decoded)
  obtain ⟨entry', linkage', segment, moved, similar⟩ :=
    shrinkSegment_of_starts shrinks decoded decoded' small entered starts
  exact ⟨_, after, entry', linkage', segment, decoded', counterparts, moved, similar⟩

/-- Programs put together from one assembly differ in their code and in addresses. -/
theorem complete_agree {Address : Nat → Nat → Prop} (assembly : Assembly) (code code' : Bytes)
    {entry entry' : Nat} (he : Address entry entry') :
    Agree Address (fun program program' => program.code = .ofBytes code ∧
        program'.code = .ofBytes code' ∧ program.Similar Address program' ∧
        Address program.entry program'.entry ∧ program.entryModule = program'.entryModule ∧
        program.mainTakesArgs = program'.mainTakesArgs)
      (complete assembly code entry) (complete assembly code' entry') := by
  refine Coupled.of_get.bindWith fun linkage linkage' hl => ?_
  dsimp only
  rw [hl.symbols]
  refine (Agree.of_inCatalog (Catalog.flattenAll_coupled _)).bind fun _ =>
    Coupled.of_get.bindWith fun linkage linkage' hl => Coupled.of_pure ?_
  exact ⟨rfl, rfl, ⟨rfl, rfl, hl.catalog⟩, he, rfl, rfl⟩

end Link

/-- Whether a program is another one with its branches shrunk. The code of the first one ends with
an exit. -/
structure Program.Shrinks (before after : List Instruction) (plain shrunk : Program) : Prop where
  encodes : Encodes plain.code.bytes before
  decoded : decode shrunk.code.bytes = .ok after
  counterparts : List.Forall₂ (Counterpart before after) before after
  exits : ∃ front exit, before = front ++ [exit] ∧ exit.opcode = .exit
  similar : plain.Similar (SameLine before after) shrunk
  entry : SameLine before after plain.entry shrunk.entry
  entryModule : plain.entryModule = shrunk.entryModule
  mainTakesArgs : plain.mainTakesArgs = shrunk.mainTakesArgs

namespace Link

theorem length_entrySequence_le (takesArgs : Bool) : (entrySequence takesArgs).length ≤ 7 := by
  cases takesArgs <;> decide

/-- The second part of linking, once the units are assembled. -/
theorem link_of_assemble {facades : List Facade} {units : List LoadedUnit}
    {start linkage : Linkage} {assembly : Assembly}
    (assembled : assemble facades units start = .ok assembly linkage) :
    let whole := wholeCode units (assembly.mainKey.arity == 1)
    let entry := (units.flatMap (·.code)).length
    link facades false units start = complete assembly whole entry linkage ∧
      ∀ {shrunk : Bytes} {entry' : Nat} {linkage' : Linkage},
        shrinkSegment whole entry linkage = .ok (shrunk, entry') linkage' →
        link facades true units start = complete assembly shrunk entry' linkage' := by
  have first (optimize : Bool) : link facades optimize units start = (do
      let placed ←
        if optimize then
          shrinkSegment (wholeCode units (assembly.mainKey.arity == 1))
            (units.flatMap (·.code)).length
        else pure (wholeCode units (assembly.mainKey.arity == 1), (units.flatMap (·.code)).length)
      complete assembly placed.1 placed.2 : Link Program) linkage := by
    unfold link
    change EStateM.bind _ _ _ = _
    unfold EStateM.bind
    rw [assembled]
  refine ⟨first false, fun shrinks => (first true).trans ?_⟩
  change EStateM.bind _ _ _ = _
  unfold EStateM.bind
  rw [shrinks]

theorem link_of_assemble_error {facades : List Facade} {units : List LoadedUnit}
    {start linkage : Linkage} {fault : LoadError}
    (assembled : assemble facades units start = .error fault linkage) {optimize : Bool} :
    link facades optimize units start = .error fault linkage := by
  unfold link
  change EStateM.bind _ _ _ = _
  unfold EStateM.bind
  rw [assembled]

/-- Linking checked units with and without shrinking gives two such programs, or fails in the same
way, if the addresses in their program are words. -/
theorem link_match_of_words {units : List LoadedUnit} (checked : ∀ unit ∈ units, unit.Checked)
    (small : (units.flatMap (·.code)).length + 7 < 0x100000000) (facades : List Facade) :
    Except.Match (fun plain shrunk => ∃ before after, plain.Shrinks before after shrunk)
      (Program.link facades false units) (Program.link facades true units) := by
  unfold Program.link
  cases assembled : assemble facades units ⟨.empty, .empty⟩ with
  | error fault linkage =>
      rw [link_of_assemble_error assembled, link_of_assemble_error assembled]
      rfl
  | ok assembly linkage =>
      obtain ⟨front, exit, encodes, exits, entered, methods⟩ :=
        exists_encodes_wholeCode checked (assembly.mainKey.arity == 1) (by omega)
      have own : linkage.Similar (SameLine (front ++ [exit]) (front ++ [exit])) linkage := by
        have coupled : Agree (SameLine (front ++ [exit]) (front ++ [exit])) Eq
            (assemble facades units) (assemble facades units) :=
          Agree.of_assemble facades (List.forall₂_same.mpr fun place member =>
            Metadata.relocated_self fun info listed method own =>
              (methods place member info listed method own).sameLine)
        have start : Linkage.Similar (SameLine (front ++ [exit]) (front ++ [exit]))
            ⟨.empty, .empty⟩ ⟨.empty, .empty⟩ := ⟨rfl, .nil⟩
        obtain ⟨_, _, again, -, own⟩ := coupled.of_ok start assembled
        rw [assembled] at again
        cases again
        exact own
      have fits := length_entrySequence_le (assembly.mainKey.arity == 1)
      obtain ⟨shrunk, after, entry', linkage', segment, decoded, counterparts, moved, similar⟩ :=
        shrinkSegment_eq_ok encodes (by rw [wholeCode, List.length_append]; omega) entered
          fun address member => by
            obtain ⟨address', -, same⟩ := own.catalog.exists_address member
            exact same.starts
      obtain ⟨plainly, optimized⟩ := link_of_assemble assembled
      rw [plainly, optimized segment]
      have results := complete_agree assembly
        (wholeCode units (assembly.mainKey.arity == 1)) shrunk moved linkage linkage' similar
      generalize complete assembly _ _ linkage = result at results ⊢
      generalize complete assembly _ _ linkage' = result' at results ⊢
      cases result with
      | ok program last =>
          cases result' with
          | error fault' last' => exact results.elim
          | ok program' last' =>
              obtain ⟨⟨code, code', alike, entries, entryModules, takesArgs⟩, -⟩ := results
              exact ⟨_, after, by rw [code]; exact encodes, by rw [code']; exact decoded,
                counterparts, ⟨front, exit, rfl, exits⟩, alike, entries, entryModules, takesArgs⟩
      | error fault last =>
          cases result' with
          | ok program' last' => exact results.elim
          | error fault' last' => exact results.1

theorem link_match {units : List LoadedUnit} (checked : ∀ unit ∈ units, unit.Checked)
    (small : (units.flatMap (·.code)).length < 0x80000000) (facades : List Facade) :
    Except.Match (fun plain shrunk => ∃ before after, plain.Shrinks before after shrunk)
      (Program.link facades false units) (Program.link facades true units) :=
  link_match_of_words checked (by omega) facades

/-- A program of checked units is one that is linked without shrinking, or such a program with its
branches shrunk. -/
theorem exists_shrinks_of_link {units : List LoadedUnit} (checked : ∀ unit ∈ units, unit.Checked)
    (small : (units.flatMap (·.code)).length + 7 < 0x100000000) {facades : List Facade}
    {optimize : Bool} {program : Program}
    (linked : Program.link facades optimize units = .ok program) :
    ∃ before after plain shrunk, Program.link facades false units = .ok plain ∧
      plain.Shrinks before after shrunk ∧ program = if optimize then shrunk else plain := by
  have programs := link_match_of_words checked small facades
  cases plainly : Program.link facades false units with
  | error fault =>
      rw [plainly] at programs
      cases optimize with
      | false => cases plainly.symm.trans linked
      | true =>
          rw [linked] at programs
          exact programs.elim
  | ok plain =>
      rw [plainly] at programs
      cases optimized : Program.link facades true units with
      | error fault =>
          rw [optimized] at programs
          exact programs.elim
      | ok shrunk =>
          rw [optimized] at programs
          obtain ⟨before, after, shrinks⟩ := programs
          refine ⟨before, after, plain, shrunk, rfl, shrinks, ?_⟩
          cases optimize with
          | false => exact Except.ok.inj (linked.symm.trans plainly)
          | true => exact Except.ok.inj (linked.symm.trans optimized)

end Link

end ObjectMachine
