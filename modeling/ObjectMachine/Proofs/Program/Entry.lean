import ObjectMachine.Proofs.Program.Declarations
import ObjectMachine.Proofs.Program.References

/-!
# The entry sequence

Behind the code of its units a linked program has the instructions that load the main class, push
the arguments if the main method takes them, call that method and exit. None of them is a branch, so
that shrinking only moves them, whatever the code before them is.
-/

namespace ObjectMachine

open Code

namespace Instruction

def outline (instruction : Instruction) : Opcode × UInt32 :=
  (instruction.opcode, instruction.index)

end Instruction

/-- Whether instructions of given outlines stand one behind the other at an address. -/
def Segment.Hosts (segment : Segment) : Nat → List (Opcode × UInt32) → Prop
  | _, [] => True
  | address, step :: rest =>
    ∃ instruction, segment.fetch address = .ok instruction ∧ instruction.outline = step ∧
      Hosts segment (instruction.offset + instruction.size) rest

def Link.entryCode (takesArgs : Bool) : List (Opcode × UInt32) :=
  (.loadClass, 1) :: (if takesArgs then [(.loadLocal, 0)] else []) ++ [(.call, 1), (.exit, 0)]

/-! ## Streams -/

namespace Segment

variable {segment moved : Segment}

/-- What stands in the midst of other code is fetched there, even if that code is no stream. -/
theorem fetch_amid {front code back : Bytes} (whole : segment.bytes = front ++ code ++ back)
    {own : List Instruction} (decoded : decode code = .ok own) {line : Nat}
    {instruction : Instruction} (found : own[line]? = some instruction) :
    segment.fetch (front.length + boundary own line) =
      .ok (instruction.shift front.length) := by
  obtain ⟨laid, rfl⟩ := decode_eq_ok_iff.mp decoded
  obtain ⟨inside, rfl⟩ := List.getElem?_eq_some_iff.mp found
  have within := boundary_le_boundary (Nat.le_of_lt inside) (Nat.le_refl own.length)
  rw [← laid.length_encode] at within
  have rest := laid.drop_encode (Nat.le_of_lt inside)
  rw [List.drop_eq_getElem_cons inside] at rest
  have sound := (laid.wellFormed _ (List.getElem_mem inside)).shift front.length
  have read := Read.instruction_encode _ (encode (own.drop (line + 1)) ++ back) sound
  rw [Instruction.offset_shift, laid.offset found, Nat.zero_add, Instruction.encode_shift] at read
  have start : segment.bytes.drop (front.length + boundary own line) =
      own[line].encode ++ (encode (own.drop (line + 1)) ++ back) := by
    rw [whole, List.append_assoc, List.drop_append,
      List.drop_eq_nil_of_le (Nat.le_add_right _ _), List.nil_append, Nat.add_sub_cancel_left,
      List.drop_append_of_le_length within, ← List.append_assoc]
    exact congrArg (· ++ back) rest
  rw [fetch_eq_decodeAt, Instruction.decodeAt, Cursor.seek_of_drop start, Read.run_eq_ok]
  · exact ⟨_, read⟩
  · rw [whole, List.length_append, List.length_append]
    omega

theorem hosts_of_decode {front back : Bytes} (whole : segment.bytes = front ++ back)
    {own : List Instruction} (decoded : decode back = .ok own) {line : Nat}
    (inside : line ≤ own.length) :
    segment.Hosts (front.length + boundary own line)
      ((own.drop line).map Instruction.outline) := by
  generalize ahead : own.drop line = rest
  induction rest generalizing line with
  | nil => trivial
  | cons instruction rest ih =>
      have found : own[line]? = some instruction := by
        rw [← List.head?_drop, ahead]
        rfl
      have offset := (decode_eq_ok_iff.mp decoded).1.offset found
      refine ⟨_, fetch_amid (whole.trans (List.append_nil _).symm) decoded found, rfl, ?_⟩
      have behind : (instruction.shift front.length).offset +
          (instruction.shift front.length).size = front.length + boundary own (line + 1) := by
        rw [Instruction.offset_shift, Instruction.size_shift, boundary_succ found, offset]
        omega
      rw [behind]
      refine ih (List.getElem?_eq_some_iff.mp found).1 ?_
      rw [← List.tail_drop, ahead]
      rfl

/-- Shrinking moves instructions that are no branches along with their lines. -/
theorem Hosts.shrunk {before after : List Instruction} (decoded : decode segment.bytes = .ok before)
    (decoded' : decode moved.bytes = .ok after)
    (counterparts : List.Forall₂ (Counterpart before after) before after)
    {code : List (Opcode × UInt32)} (plain : ∀ step ∈ code, step.1.shape.isBranch = false)
    {line : Nat} (inside : line ≤ before.length)
    (hosts : segment.Hosts (boundary before line) code) :
    moved.Hosts (boundary after line) code := by
  induction code generalizing line with
  | nil => trivial
  | cons step code ih =>
      obtain ⟨fixed, others⟩ := List.forall_mem_cons.mp plain
      obtain ⟨instruction, fetched, rfl, hosts⟩ := hosts
      rcases Nat.lt_or_eq_of_le inside with within | rfl
      · have here := List.getElem?_eq_getElem within
        obtain rfl := Except.ok.inj (fetched.symm.trans (fetch_boundary decoded here))
        have rel := forall₂_getElem? counterparts line
        rw [here] at rel
        obtain ⟨found, there, alike⟩ := exists_of_rel_some rel
        refine ⟨found, fetch_boundary decoded' there, ?_, ?_⟩
        · rw [Instruction.outline, Instruction.index, alike.opcode_eq, (alike.same fixed).2]
          rfl
        · have offset := (decode_eq_ok_iff.mp decoded).1.offset here
          have offset' := (decode_eq_ok_iff.mp decoded').1.offset there
          rw [offset, Nat.zero_add, ← boundary_succ here] at hosts
          rw [offset', Nat.zero_add, ← boundary_succ there]
          exact ih others within hosts
      · rw [← length_eq_boundary decoded] at fetched
        exact absurd fetched (segment.fetch_end instruction)

end Segment

/-! ## Linking -/

/-- What a program has for its entry: the sequence, and the main method that it calls. -/
structure Program.EntersMain (program : Program) (key : MethodKey) : Prop where
  hosts : program.code.Hosts program.entry (Link.entryCode (key.arity == 1))
  method : (program.moduleOf program.entryModule).methodCall 1 = .ok key
  named : program.symbols.Knows key.name mainName

namespace Link

theorem hosts_wholeCode (units : List LoadedUnit) (takesArgs : Bool) :
    (Segment.ofBytes (wholeCode units takesArgs)).Hosts (units.flatMap (·.code)).length
      (entryCode takesArgs) := by
  obtain ⟨own, decoded, outline⟩ : ∃ own, decode (entrySequence takesArgs) = .ok own ∧
      own.map Instruction.outline = entryCode takesArgs := by
    cases takesArgs with
    | false =>
        exact ⟨[⟨0, .loadClass, .narrow, .index 1⟩, ⟨2, .call, .narrow, .index 1⟩,
          ⟨4, .exit, .narrow, .absent⟩], by decide +kernel, rfl⟩
    | true =>
        exact ⟨[⟨0, .loadClass, .narrow, .index 1⟩, ⟨2, .loadLocal, .narrow, .index 0⟩,
          ⟨4, .call, .narrow, .index 1⟩, ⟨6, .exit, .narrow, .absent⟩], by decide +kernel, rfl⟩
  have hosts : (Segment.ofBytes (wholeCode units takesArgs)).Hosts _ _ :=
    Segment.hosts_of_decode rfl decoded (Nat.zero_le _)
  rwa [boundary_zero, List.drop_zero, outline] at hosts

theorem plain_entryCode (takesArgs : Bool) :
    ∀ step ∈ entryCode takesArgs, step.1.shape.isBranch = false := by
  cases takesArgs <;> decide

/-- Shrinking a segment moves the entry along with the code that stands there. -/
theorem leads_shrinkSegment_hosts (start : SymbolTable → Prop) {code : Bytes} {entry : Nat}
    (small : entry < 0x100000000) {steps : List (Opcode × UInt32)}
    (plain : ∀ step ∈ steps, step.1.shape.isBranch = false)
    (hosts : (Segment.ofBytes code).Hosts entry steps) :
    Leads (fun linkage => start linkage.symbols) (fun _ => True)
      (fun placed linkage => (Segment.ofBytes placed.1).Hosts placed.2 steps ∧
        start linkage.symbols) (shrinkSegment code entry) := by
  intro linkage started
  cases shrinks : shrink code ((entry :: linkage.catalog.addresses).map UInt32.ofNat) with
  | error fault =>
      unfold Catalog.addresses at shrinks
      unfold shrinkSegment
      dsimp only [bind, EStateM.bind, get, getThe, MonadStateOf.get, EStateM.get]
      rw [shrinks]
      trivial
  | ok shrunk =>
      have segment := shrinkSegment_of_shrink shrinks
      dsimp only at segment
      rw [segment]
      refine ⟨?_, started⟩
      obtain ⟨before, after, decoded, decoded', counterparts, moved⟩ := exists_counterparts shrinks
      rw [List.map_cons] at moved
      obtain ⟨target, targets, ⟨line, inside, here, there⟩, -, points⟩ :=
        List.forall₂_cons_left_iff.mp moved
      rw [UInt32.toNat_ofNat_of_lt' small] at here
      rw [List.map_cons, points, List.zip_cons_cons, List.lookup_cons_self, Option.getD_some]
      dsimp only
      rw [there]
      rw [here] at hosts
      exact hosts.shrunk decoded decoded' counterparts plain inside

theorem leads_findMain (mainModule : String) :
    Leads (fun _ => True) (fun _ => True) (fun (main : ClassId × MethodKey) linkage =>
      linkage.symbols.Knows main.2.name mainName) (findMain mainModule) := by
  have interns : Leads (fun _ => True) (fun _ => True) (fun symbol linkage =>
      linkage.symbols.Knows symbol mainName) (intern mainName) :=
    Leads.of_modifyGet fun linkage _ => linkage.symbols.knows_intern mainName
  refine interns.bind fun name => Leads.of_get_bind fun linkage known => ?_
  dsimp only
  split
  · next main found =>
      apply Leads.of_pure
      rintro _ rfl
      rcases Option.or_eq_some_iff.mp found with one | ⟨-, zero⟩
      · obtain ⟨id, -, rfl⟩ := Option.map_eq_some_iff.mp one
        exact known
      · obtain ⟨id, -, rfl⟩ := Option.map_eq_some_iff.mp zero
        exact known
  · exact Leads.of_throw trivial

theorem leads_assemble_main (facades : List Facade) (units : List LoadedUnit) :
    Leads (fun _ => True) (fun _ => True) (fun assembly linkage =>
      linkage.symbols.Knows assembly.mainKey.name mainName) (assemble facades units) := by
  -- Nothing has to be known of the state before the main method is looked for.
  have anyhow {α : Type} (step : Link α) :
      Leads (fun _ => True) (fun _ => True) (fun _ _ => True) step := by
    intro linkage _
    cases step linkage <;> trivial
  exact (anyhow _).bind fun children => (anyhow _).bind fun _ => (anyhow _).bind fun records =>
    (leads_findMain _).bind fun main => Leads.of_pure fun _ known => known

theorem leads_complete_main (assembly : Assembly) {code : Bytes} {entry : Nat}
    (hosts : (Segment.ofBytes code).Hosts entry (entryCode (assembly.mainKey.arity == 1))) :
    Leads (fun linkage => linkage.symbols.Knows assembly.mainKey.name mainName) (fun _ => True)
      (fun program _ => program.EntersMain assembly.mainKey) (complete assembly code entry) := by
  refine Leads.of_get_bind fun linkage known => ?_
  refine Leads.bind (?_ : Leads _ _ (fun _ _ => True) _) fun _ =>
    Leads.of_get_bind fun last _ => Leads.of_pure fun _ _ => ⟨hosts, ?_, known⟩
  · intro state _
    cases inCatalog (Catalog.flattenAll linkage.symbols) state <;> trivial
  · simp [Program.moduleOf, ModuleRecord.methodCall, ModuleRecord.entry, Heap.placeOf]

end Link

/-- A linked program enters its main method. Where its code is shrunk, addresses have to be
words. -/
theorem Program.entersMain_of_link {facades : List Facade} {optimize : Bool}
    {units : List LoadedUnit} {program : Program}
    (room : optimize = true → (units.flatMap (·.code)).length < 0x100000000)
    (linked : link facades optimize units = .ok program) : ∃ key, program.EntersMain key := by
  have whole : Leads (fun _ => True) (fun _ => True)
      (fun program _ => ∃ key, Program.EntersMain program key)
      (Link.link facades optimize units) := by
    refine (Link.leads_assemble_main facades units).bind fun assembly => ?_
    have hosts := Link.hosts_wholeCode units (assembly.mainKey.arity == 1)
    have plain := Link.plain_entryCode (assembly.mainKey.arity == 1)
    have completes {code : Bytes} {entry : Nat} (hosts : (Segment.ofBytes code).Hosts entry
        (Link.entryCode (assembly.mainKey.arity == 1))) :=
      Leads.mono (Link.leads_complete_main assembly hosts) fun _ _ enters =>
        Exists.intro assembly.mainKey enters
    dsimp only
    split
    · next shrinks =>
        refine Leads.bind (Link.leads_shrinkSegment_hosts
          (·.Knows assembly.mainKey.name mainName) (room shrinks) plain hosts) fun placed => ?_
        intro linkage ⟨moved, known⟩
        exact completes moved linkage known
    · exact completes hosts
  unfold link at linked
  split at linked
  · next found =>
      cases linked
      exact whole.of_ok trivial found
  · cases linked

end ObjectMachine
