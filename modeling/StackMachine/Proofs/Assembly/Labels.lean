import StackMachine.Proofs.Assembly.Resolution
import StackMachine.Proofs.Vm.ControlFlow

/-!
# Programs that jump to labels only

When every target is left to a label and no bytes are written by hand, the directives alone tell the
listing of the assembled program: an entry for each instruction and branch, at the offset of the
draft at which it was made.  A label is bound between two directives, so its place is the offset of
the next instruction, or the end of the bytecode when only labels follow.

That end is a boundary for the draft, but not a place where the machine lets a program jump.  A run
can therefore find one fault of the bytecode, at a branch to a label behind the last instruction.
-/

namespace StackMachine.Assembly

open Listing

/-- Whether a directive leaves the target of its instruction, if there is one, to a label. -/
def Directive.isSymbolic : Directive → Bool
  | .raw _ => false
  | .instruction opcode _ => opcode.operandKind? ≠ some .target
  | .label _ | .branch _ _ => true

/-- A label is bound behind the last instruction. -/
def BoundLast (directives : List Directive) (name : String) : Prop :=
  ∃ before after, directives = before ++ .label name :: after ∧
    ∀ directive ∈ after, ∃ other, directive = .label other

/-- The branch made at `offset` refers to a label behind the last instruction. -/
def BranchesPast (directives : List Directive) (offset : Nat) : Prop :=
  ∃ kind name, (offset, .branch kind name) ∈ Draft.empty.sites directives ∧
    BoundLast directives name

/-- The listing that a program shows by its directives: what each instruction and branch decodes to,
at the offset at which it is made. -/
def listingOf (directives : List Directive) : Listing :=
  (Draft.empty.sites directives).filterMap fun site =>
    (site.2.instruction? (Draft.empty.appendAll directives).place?).map fun instruction =>
      instruction.entryAt site.1

namespace Draft

variable {draft : Draft} {directives : List Directive} {place? : String → Option Nat}

theorem sites_append (draft : Draft) (before after : List Directive) :
    draft.sites (before ++ after) =
      draft.sites before ++ (draft.appendAll before).sites after := by
  induction before generalizing draft with
  | nil => rfl
  | cons directive rest ih => simp [sites, ih, appendAll_cons]

theorem mem_of_mem_sites {site : Nat × Directive} (made : site ∈ draft.sites directives) :
    site.2 ∈ directives := by
  induction directives generalizing draft with
  | nil => contradiction
  | cons directive rest ih =>
      rcases List.mem_cons.mp made with rfl | later
      · exact List.mem_cons_self
      · exact List.mem_cons_of_mem _ (ih later)

/-- A label has the place that it had before, or the offset at which some directive binds it. -/
theorem exists_label_of_place? {name : String} {place : Nat}
    (bound : (draft.appendAll directives).place? name = some place) :
    draft.place? name = some place ∨
      ∃ before after, directives = before ++ .label name :: after ∧
        (draft.appendAll before).offset = place := by
  induction directives generalizing draft with
  | nil => exact Or.inl bound
  | cons directive rest ih =>
      rcases ih bound with earlier | ⟨before, after, rfl, same⟩
      · cases directive with
        | label other =>
            by_cases rebinds : name = other
            · subst rebinds
              right
              refine ⟨[], rest, rfl, ?_⟩
              simpa [append, bind, Draft.place?, appendAll] using earlier
            · left
              have differs : (name == other) = false := beq_false_of_ne rebinds
              simpa [append, bind, Draft.place?, List.lookup_cons, differs] using earlier
        | _ => exact Or.inl earlier
      · exact Or.inr ⟨directive :: before, after, rfl, same⟩

theorem layout_eq_sites (draft : Draft)
    (unraw : ∀ directive ∈ directives, ∀ bytes, directive ≠ .raw bytes) :
    layout draft.offset (directives.filterMap (Directive.instruction? place?)) =
      (draft.sites directives).filterMap fun site =>
        (site.2.instruction? place?).map fun instruction => instruction.entryAt site.1 := by
  induction directives generalizing draft with
  | nil => rfl
  | cons directive rest ih =>
      rcases List.forall_mem_cons.mp unraw with ⟨first, others⟩
      have later := ih (draft.append directive) others
      rw [offset_append place?] at later
      cases writes : directive.instruction? place? with
      | none =>
          rw [Directive.encode_of_instruction?_none first writes] at later
          simpa [sites, writes] using later
      | some instruction =>
          rw [Directive.encode_of_instruction? writes, Instruction.length_encode] at later
          simpa [sites, writes, layout] using later

theorem flatMap_encode_eq
    (unraw : ∀ directive ∈ directives, ∀ bytes, directive ≠ .raw bytes) :
    directives.flatMap (Directive.encode place?) =
      (directives.filterMap (Directive.instruction? place?)).flatMap Instruction.encode := by
  induction directives with
  | nil => rfl
  | cons directive rest ih =>
      rcases List.forall_mem_cons.mp unraw with ⟨first, others⟩
      cases writes : directive.instruction? place? with
      | none => simp [writes, Directive.encode_of_instruction?_none first writes, ih others]
      | some instruction => simp [writes, Directive.encode_of_instruction? writes, ih others]

/-- The next instruction is made right where the draft ends, however many labels stand before it. -/
theorem labels_or_site (place? : String → Option Nat) (draft : Draft)
    (unraw : ∀ directive ∈ directives, ∀ bytes, directive ≠ .raw bytes) :
    (∀ directive ∈ directives, ∃ other, directive = .label other) ∨
      ∃ directive instruction, (draft.offset, directive) ∈ draft.sites directives ∧
        directive.instruction? place? = some instruction := by
  induction directives generalizing draft with
  | nil =>
      left
      intro directive member
      contradiction
  | cons directive rest ih =>
      rcases List.forall_mem_cons.mp unraw with ⟨first, others⟩
      cases directive with
      | label name =>
          rcases ih (draft.append (.label name)) others with
            labels | ⟨found, instruction, made, writes⟩
          · exact Or.inl (List.forall_mem_cons.mpr ⟨⟨name, rfl⟩, labels⟩)
          · exact Or.inr ⟨found, instruction, List.mem_cons_of_mem _ made, writes⟩
      | raw bytes => exact absurd rfl (first bytes)
      | _ => exact Or.inr ⟨_, _, List.mem_cons_self, rfl⟩

theorem offset_appendAll_of_labels
    (labels : ∀ directive ∈ directives, ∃ other, directive = .label other) :
    (draft.appendAll directives).offset = draft.offset := by
  have silent : directives.flatMap (Directive.encode fun _ => none) = [] := by
    apply List.flatMap_eq_nil_iff.mpr
    intro directive member
    rcases labels directive member with ⟨other, rfl⟩
    rfl
  rw [offset_appendAll fun _ => none, silent]
  rfl

end Draft

section Assembled

variable {directives : List Directive} {code : Bytes}

theorem length_of_assemble (assembled : assemble directives = .ok code) :
    code.length = (Draft.empty.appendAll directives).offset := by
  rcases eq_flatMap_of_assemble assembled with ⟨_, written⟩
  rw [written, Draft.offset_appendAll (Draft.empty.appendAll directives).place?]
  exact (Nat.zero_add _).symm

theorem disassemble_of_assemble (unraw : ∀ directive ∈ directives, ∀ bytes, directive ≠ .raw bytes)
    (assembled : assemble directives = .ok code) :
    disassemble code = .ok (listingOf directives) := by
  rcases eq_flatMap_of_assemble assembled with ⟨_, written⟩
  rw [written, Draft.flatMap_encode_eq unraw, disassemble_flatMap_encode]
  exact congrArg Except.ok (Draft.empty.layout_eq_sites unraw)

theorem mem_listingOf {entry : Entry} :
    entry ∈ listingOf directives ↔
      ∃ offset directive instruction, (offset, directive) ∈ Draft.empty.sites directives ∧
        directive.instruction? (Draft.empty.appendAll directives).place? = some instruction ∧
        instruction.entryAt offset = entry := by
  simp [listingOf, List.mem_filterMap, Option.map_eq_some_iff]

theorem unraw_of_symbolic (symbolic : ∀ directive ∈ directives, directive.isSymbolic = true) :
    ∀ directive ∈ directives, ∀ bytes, directive ≠ .raw bytes := by
  rintro _ member bytes rfl
  have impossible := symbolic _ member
  contradiction

/-- The place of a label is a boundary, and the end of the bytecode only if the label is bound
behind the last instruction. -/
theorem isBoundary_of_place? (unraw : ∀ directive ∈ directives, ∀ bytes, directive ≠ .raw bytes)
    (assembled : assemble directives = .ok code) {name : String} {place : Nat}
    (bound : (Draft.empty.appendAll directives).place? name = some place) :
    IsBoundary (listingOf directives) code place ∧
      (place = code.length → BoundLast directives name) := by
  rcases Draft.exists_label_of_place? bound with impossible | ⟨before, after, same, here⟩
  · contradiction
  · have behind : ∀ directive ∈ after, ∀ bytes, directive ≠ .raw bytes := by
      intro directive member
      apply unraw directive
      simp [same, member]
    have cut : Draft.empty.appendAll directives =
        ((Draft.empty.appendAll before).append (.label name)).appendAll after := by
      rw [same, Draft.appendAll_append, Draft.appendAll_cons]
    rcases Draft.labels_or_site (Draft.empty.appendAll directives).place?
      ((Draft.empty.appendAll before).append (.label name)) behind with
      labels | ⟨directive, instruction, made, writes⟩
    · have ended : place = code.length := by
        rw [length_of_assemble assembled, cut, Draft.offset_appendAll_of_labels labels]
        exact here.symm
      exact ⟨Or.inl ended, fun _ => ⟨before, after, same, labels⟩⟩
    · have member : instruction.entryAt place ∈ listingOf directives := by
        refine mem_listingOf.mpr ⟨place, directive, instruction, ?_, writes, rfl⟩
        rw [← here, same, Draft.sites_append, Draft.sites]
        exact List.mem_append_right _ (List.mem_cons_of_mem _ made)
      have covers := disassemble_eq_ok_iff.mp (disassemble_of_assemble unraw assembled)
      have inside : place < code.length := lt_length_of_decodeAt (covers.decodeAt_of_mem member)
      exact ⟨Or.inr ⟨_, member, rfl⟩, fun ended => by omega⟩

/-- In a symbolic program only branches have targets, and these are the places of their labels. -/
theorem exists_branch_of_target? (symbolic : ∀ directive ∈ directives, directive.isSymbolic = true)
    (assembled : assemble directives = .ok code) {entry : Entry}
    (member : entry ∈ listingOf directives) {target : UInt64} (given : target ∈ entry.target?) :
    ∃ kind name place, (entry.offset, .branch kind name) ∈ Draft.empty.sites directives ∧
      (Draft.empty.appendAll directives).place? name = some place ∧
      target = UInt64.ofNat place := by
  rcases mem_listingOf.mp member with ⟨offset, directive, instruction, made, writes, rfl⟩
  have among := Draft.mem_of_mem_sites made
  cases directive with
  | instruction opcode operand? =>
      rcases Option.some.inj writes with rfl
      have unaimed : opcode.operandKind? ≠ some .target := by
        simpa [Directive.isSymbolic] using symbolic _ among
      simp [Entry.target?, Instruction.entryAt, unaimed] at given
  | branch kind name =>
      rcases Option.some.inj writes with rfl
      have placed := List.findSome?_eq_none_iff.mp (eq_flatMap_of_assemble assembled).1 _ among
      cases bound : (Draft.empty.appendAll directives).place? name with
      | none => simp [Directive.missing?, bound] at placed
      | some place =>
          refine ⟨kind, name, place, made, bound, ?_⟩
          simpa [Entry.target?, Instruction.entryAt, kind.operandKind?, bound, eq_comm] using given
  | _ => contradiction

theorem target_of_symbolic (symbolic : ∀ directive ∈ directives, directive.isSymbolic = true)
    (bounded : (Draft.empty.appendAll directives).offset < 2 ^ 63)
    (assembled : assemble directives = .ok code) {entry : Entry}
    (member : entry ∈ listingOf directives) {target : UInt64} (given : target ∈ entry.target?) :
    IsBoundary (listingOf directives) code target.toNat ∧
      (target.toNat = code.length → BranchesPast directives entry.offset) := by
  have unraw := unraw_of_symbolic symbolic
  rcases exists_branch_of_target? symbolic assembled member given with
    ⟨kind, name, place, made, bound, rfl⟩
  rcases isBoundary_of_place? unraw assembled bound with ⟨boundary, last⟩
  have covers := disassemble_eq_ok_iff.mp (disassemble_of_assemble unraw assembled)
  have within := covers.le_length_of_isBoundary boundary
  -- The bound on the program keeps the place from wrapping when it becomes an operand.
  have exact : (UInt64.ofNat place).toNat = place := by
    rw [length_of_assemble assembled] at within
    rw [UInt64.toNat_ofNat']
    omega
  rw [exact]
  exact ⟨boundary, fun ended => ⟨kind, name, made, last ended⟩⟩

end Assembled

/-- A program that leaves its targets to labels is listed as it was written, and its targets are
boundaries of that listing.  While it stays loaded, no instruction is unknown or cut off, and a jump
leaves the bytecode only at a branch to a label behind the last instruction. -/
theorem symbolic_program_safety {directives : List Directive} {code : Bytes}
    (symbolic : ∀ directive ∈ directives, directive.isSymbolic = true)
    (bounded : (Draft.empty.appendAll directives).offset < 2 ^ 63)
    (assembled : assemble directives = .ok code) :
    disassemble code = .ok (listingOf directives) ∧
      (∀ entry ∈ listingOf directives, ∀ target ∈ entry.target?,
        IsBoundary (listingOf directives) code target.toNat ∧
          (target.toNat = code.length → BranchesPast directives entry.offset)) ∧
      ∀ (vm now : Vm) (allocator : Allocator) (events : List Event),
        (vm.load allocator code).result = .ok () →
        (vm.load allocator code).vm.History events now →
        (∀ event ∈ events, event.renews = false) →
        ∀ event ∈ events, ∀ error, event.stepError? = some error → error.isCodeFault = true →
          ∃ offset target, error = .trap offset (.jumpOutOfRange target code.length) ∧
            target.toNat = code.length ∧ BranchesPast directives offset := by
  have listed := disassemble_of_assemble (unraw_of_symbolic symbolic) assembled
  have aimed : ∀ entry ∈ listingOf directives, ∀ target ∈ entry.target?,
      IsBoundary (listingOf directives) code target.toNat ∧
        (target.toNat = code.length → BranchesPast directives entry.offset) := by
    intro entry member target given
    exact target_of_symbolic symbolic bounded assembled member given
  refine ⟨listed, aimed, ?_⟩
  intro vm now allocator events installed history quiet event member error reports blamed
  have closed : (listingOf directives).Closed code :=
    ⟨listed, fun entry member target given => (aimed entry member target given).1⟩
  rcases Vm.codeFault_of_closed closed installed history quiet member reports blamed with
    ⟨entry, among, target, given, ended, same⟩
  exact ⟨entry.offset, target, same, ended, (aimed entry among target given).2 ended⟩

/-- A call forward and, on return, a jump to a label that nothing follows. -/
def leaving : List Directive :=
  [.branch .call "body", .branch .jump "end", .label "body", .instruction .ret none, .label "end"]

def leavingCode : Bytes :=
  Opcode.call.encode (some 18) ++ Opcode.jump.encode (some 19) ++ Opcode.ret.encode none

def leavingVm : Vm :=
  ((Vm.mk ⟨8, 1, 1⟩ (some (.ofConfig ⟨8, 1, 1⟩))).load .unlimited leavingCode).vm

/-- The call and its return stay on the listing, and the jump is refused. -/
theorem execute_leaving :
    disassemble leavingCode = .ok [⟨0, .call, some 18⟩, ⟨9, .jump, some 19⟩, ⟨18, .ret, none⟩] ∧
      leavingVm.execute 3 =
        some ⟨.error (.trap 9 (.jumpOutOfRange 19 19)), #[], leavingVm.after 3⟩ ∧
      BranchesPast leaving 9 := by
  have symbolic : ∀ directive ∈ leaving, directive.isSymbolic = true := by decide
  have bounded : (Draft.empty.appendAll leaving).offset < 2 ^ 63 := by decide
  have assembled : assemble leaving = .ok leavingCode := by rfl
  have finished : leavingVm.execute 3 =
      some ⟨.error (.trap 9 (.jumpOutOfRange 19 19)), #[], leavingVm.after 3⟩ := rfl
  rcases symbolic_program_safety symbolic bounded assembled with ⟨listed, _, safe⟩
  have history : leavingVm.History [.execute (.error (.trap 9 (.jumpOutOfRange 19 19))) #[]]
      (leavingVm.after 3) := Vm.History.nil.snoc (.execute finished)
  rcases safe _ _ .unlimited _ rfl history (by simp [Event.renews]) _ List.mem_cons_self _ rfl rfl
    with ⟨offset, target, same, _, past⟩
  rcases Error.trap.inj same with ⟨rfl, _⟩
  exact ⟨listed, finished, past⟩

end StackMachine.Assembly
