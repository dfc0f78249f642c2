import StackMachine.Proofs.Listing.Coverage

/-!
# Listings laid out from instructions

Instructions written one after another have a listing that can be told without reading any byte: an
instruction stands behind the encodings of those before it.  This file shows that bytecode has such
a listing exactly when it is the concatenation of the encodings, whatever the opcodes and operands.

The encoding of an instruction does not say whether an operand was missing or zero, nor whether one
was superfluous, so the entry of an instruction shows the operand as it is encoded.
-/

namespace StackMachine

/-- An opcode with the operand it is written with, if any. -/
structure Instruction where
  opcode : Opcode
  operand? : Option UInt64
  deriving DecidableEq, Repr

namespace Instruction

def encode (instruction : Instruction) : Bytes :=
  instruction.opcode.encode instruction.operand?

/-- The entry of an instruction that stands at `offset`. -/
def entryAt (instruction : Instruction) (offset : Nat) : Entry where
  offset := offset
  opcode := instruction.opcode
  operand? := instruction.opcode.operandKind?.map fun _ => instruction.operand?.getD 0

theorem isComplete_entryAt (instruction : Instruction) (offset : Nat) :
    (instruction.entryAt offset).IsComplete := by
  simp [Entry.IsComplete, entryAt]

theorem encode_entryAt (instruction : Instruction) (offset : Nat) :
    (instruction.entryAt offset).encode = instruction.encode := by
  cases kind : instruction.opcode.operandKind? with
  | none => simp [Entry.encode, encode, Opcode.encode, entryAt, kind]
  | some kind => simp [Entry.encode, encode, Opcode.encode, entryAt, kind]

theorem length_encode (instruction : Instruction) :
    instruction.encode.length = instruction.opcode.length :=
  Opcode.length_encode instruction.opcode instruction.operand?

end Instruction

namespace Entry

/-- The instruction that an entry shows. -/
def instruction (entry : Entry) : Instruction := ⟨entry.opcode, entry.operand?⟩

theorem entryAt_instruction {entry : Entry} (complete : entry.IsComplete) :
    entry.instruction.entryAt entry.offset = entry := by
  rcases entry with ⟨offset, opcode, operand?⟩
  simp only [IsComplete] at complete
  cases kind : opcode.operandKind? with
  | none =>
      have missing : operand? = none := by simpa [kind] using complete
      simp [instruction, Instruction.entryAt, kind, missing]
  | some kind =>
      have given : operand?.isSome = true := by simp [complete, kind]
      rcases Option.isSome_iff_exists.mp given with ⟨word, rfl⟩
      simp [instruction, Instruction.entryAt, kind]

end Entry

namespace Listing

/-- The listing of instructions that stand one after another from `offset` on. -/
def layout (offset : Nat) : List Instruction → Listing
  | [] => []
  | instruction :: rest =>
      instruction.entryAt offset :: layout (offset + instruction.opcode.length) rest

theorem getElem?_layout (offset index : Nat) (instructions : List Instruction) :
    (layout offset instructions)[index]? =
      instructions[index]?.map fun instruction =>
        instruction.entryAt
          (offset + ((instructions.take index).map fun before => before.opcode.length).sum) := by
  induction instructions generalizing offset index with
  | nil => simp [layout]
  | cons instruction rest ih =>
      cases index with
      | zero => simp [layout]
      | succ index => simp [layout, ih, Nat.add_assoc]

/-- Behind any bytes, the encodings of instructions are covered by the layout of the
instructions. -/
theorem covers_layout (front : Bytes) (instructions : List Instruction) :
    Covers (front ++ instructions.flatMap Instruction.encode) front.length
      (layout front.length instructions) := by
  induction instructions generalizing front with
  | nil =>
      simp only [List.flatMap_nil, List.append_nil]
      exact .nil
  | cons instruction rest ih =>
      have later := ih (front ++ instruction.encode)
      rw [List.length_append, Instruction.length_encode, List.append_assoc] at later
      refine .cons (decodeAt_eq_ok_iff.mpr ⟨rfl, instruction.isComplete_entryAt _, ?_⟩) later
      rw [List.drop_left, Instruction.encode_entryAt]
      exact List.prefix_append _ _

/-- A listing that covers bytecode is the layout of its instructions, whose encodings make up the
bytecode. -/
theorem Covers.eq_layout {code : Bytes} {offset : Nat} {listing : Listing}
    (covers : Covers code offset listing) :
    listing = layout offset (listing.map Entry.instruction) ∧
      code.drop offset = (listing.map Entry.instruction).flatMap Instruction.encode := by
  induction covers with
  | nil => simp [layout]
  | cons decoded covers ih =>
      rename_i place entry rest
      rcases decodeAt_eq_ok_iff.mp decoded with ⟨rfl, complete, behind, stands⟩
      rcases ih with ⟨laid, encoded⟩
      have remaining : code.drop entry.next = behind := by
        rw [Entry.next, ← List.drop_drop, ← stands]
        exact List.drop_left' entry.length_encode
      constructor
      · rw [List.map_cons, layout, Entry.entryAt_instruction complete]
        exact congrArg (entry :: ·) laid
      · rw [List.map_cons, List.flatMap_cons, ← encoded, remaining, ← stands]
        rfl

theorem disassemble_flatMap_encode (instructions : List Instruction) :
    disassemble (instructions.flatMap Instruction.encode) = .ok (layout 0 instructions) :=
  disassemble_eq_ok_iff.mpr (covers_layout [] instructions)

theorem flatMap_encode_of_disassemble {code : Bytes} {listing : Listing}
    (listed : disassemble code = .ok listing) :
    (listing.map Entry.instruction).flatMap Instruction.encode = code :=
  (disassemble_eq_ok_iff.mp listed).eq_layout.2.symm

/-- Bytecode has a listing exactly when it is a concatenation of encodings. -/
theorem exists_disassemble_iff {code : Bytes} :
    (∃ listing, disassemble code = .ok listing) ↔
      ∃ instructions : List Instruction, code = instructions.flatMap Instruction.encode := by
  constructor
  · rintro ⟨listing, listed⟩
    exact ⟨_, (flatMap_encode_of_disassemble listed).symm⟩
  · rintro ⟨instructions, rfl⟩
    exact ⟨_, disassemble_flatMap_encode instructions⟩

end Listing

end StackMachine
