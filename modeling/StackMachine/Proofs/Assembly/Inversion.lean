import StackMachine.Proofs.Assembly.Resolution

/-!
# Assembly and disassembly

A list of instructions without labels is written as the concatenation of its encodings, and a
listing shows exactly the instructions that its bytecode was written from.  So the two directions
are inverse to each other, up to operands that an encoding does not tell apart.
-/

namespace StackMachine

/-- The directive that writes an instruction. -/
def Instruction.directive (instruction : Instruction) : Assembly.Directive :=
  .instruction instruction.opcode instruction.operand?

namespace Assembly

open Listing

theorem assemble_map_directive (instructions : List Instruction) :
    assemble (instructions.map Instruction.directive) =
      .ok (instructions.flatMap Instruction.encode) := by
  have unlabeled : ∀ directive ∈ instructions.map Instruction.directive,
      ∀ name, directive ≠ .label name := by
    intro directive member name
    rcases List.mem_map.mp member with ⟨instruction, _, rfl⟩
    exact Directive.noConfusion
  have complete : ∀ place?, (instructions.map Instruction.directive).findSome?
      (Directive.missing? place?) = none := by
    intro place?
    apply List.findSome?_eq_none_iff.mpr
    intro directive member
    rcases List.mem_map.mp member with ⟨instruction, _, rfl⟩
    rfl
  rw [assemble_eq, Draft.duplicate?_appendAll _ unlabeled]
  simp only [Draft.empty, complete, List.flatMap_map]
  rfl

theorem assemble_of_disassemble {code : Bytes} {listing : Listing}
    (listed : disassemble code = .ok listing) :
    assemble (listing.map fun entry => entry.instruction.directive) = .ok code := by
  have written := assemble_map_directive (listing.map Entry.instruction)
  rwa [flatMap_encode_of_disassemble listed, List.map_map] at written

/-- Instructions are read back from the bytecode that they are written as, each behind the encodings
of those before it; bytecode is written back from its listing; and nothing but concatenated
encodings has a listing, which no other bytecode shares. -/
theorem assembly_inverts_disassembly :
    (∀ instructions : List Instruction, ∃ code listing,
      assemble (instructions.map Instruction.directive) = .ok code ∧
        disassemble code = .ok listing ∧
        ∀ index : Nat, listing[index]? = instructions[index]?.map fun instruction =>
          instruction.entryAt
            ((instructions.take index).map fun before => before.opcode.length).sum) ∧
    (∀ code listing, disassemble code = .ok listing →
      assemble (listing.map fun entry => entry.instruction.directive) = .ok code) ∧
    (∀ code, (∃ listing, disassemble code = .ok listing) ↔
      ∃ instructions : List Instruction, code = instructions.flatMap Instruction.encode) ∧
    ∀ first second listing, disassemble first = .ok listing → disassemble second = .ok listing →
      first = second := by
  refine ⟨?_, ?_, ?_, ?_⟩
  · intro instructions
    refine ⟨_, _, assemble_map_directive instructions, disassemble_flatMap_encode instructions, ?_⟩
    intro index
    simpa using getElem?_layout 0 index instructions
  · intro code listing listed
    exact assemble_of_disassemble listed
  · intro code
    exact exists_disassemble_iff
  · intro first second listing listedFirst listedSecond
    rw [← flatMap_encode_of_disassemble listedFirst, flatMap_encode_of_disassemble listedSecond]

/-- A PUSH without its operand before an ADD with one too many. -/
def careless : List Instruction := [⟨.push, none⟩, ⟨.add, some 99⟩]

/-- The listing shows the operands as they are encoded, and so they are written back. -/
theorem assemble_listed_careless :
    disassemble (careless.flatMap Instruction.encode) =
        .ok [⟨0, .push, some 0⟩, ⟨9, .add, none⟩] ∧
      assemble [.instruction .push (some 0), .instruction .add none] =
        .ok (careless.flatMap Instruction.encode) := by
  have listed : disassemble (careless.flatMap Instruction.encode) =
      .ok [⟨0, .push, some 0⟩, ⟨9, .add, none⟩] := disassemble_flatMap_encode careless
  exact ⟨listed, assembly_inverts_disassembly.2.1 _ _ listed⟩

end Assembly

end StackMachine
