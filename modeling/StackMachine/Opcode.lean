import StackMachine.Word

/-!
# The instruction set

One table gives for each of the seventeen opcodes its byte, its mnemonic, the kind of its operand
and the number of words it takes from the operand stack and leaves there.  Encoding, decoding,
listings and mnemonic lookup all read this table.

An instruction is its opcode byte, followed by an eight-byte little-endian operand if the opcode has
one.
-/

namespace StackMachine

/-- What the operand of an instruction stands for. -/
inductive OperandKind where
  /-- A word for the operand stack. -/
  | immediate
  /-- An offset into the memory. -/
  | address
  /-- An offset into the bytecode. -/
  | target
  deriving DecidableEq, Repr

inductive Opcode where
  | push | pop
  | add | sub | mul | div
  | store | load | print
  | call | ret | jump | jumpIf
  | equal | greater | less
  | halt
  deriving DecidableEq, Repr

namespace Opcode

structure Row where
  byte : UInt8
  mnemonic : String
  operand : Option OperandKind
  inputs : Nat
  outputs : Nat

def row : Opcode → Row
  | push => ⟨0x01, "PUSH", some .immediate, 0, 1⟩
  | pop => ⟨0x02, "POP", none, 1, 0⟩
  | add => ⟨0x03, "ADD", none, 2, 1⟩
  | sub => ⟨0x04, "SUB", none, 2, 1⟩
  | mul => ⟨0x05, "MUL", none, 2, 1⟩
  | div => ⟨0x06, "DIV", none, 2, 1⟩
  | store => ⟨0x07, "STORE", some .address, 1, 0⟩
  | load => ⟨0x08, "LOAD", some .address, 0, 1⟩
  | print => ⟨0x09, "PRINT", none, 1, 1⟩
  | call => ⟨0x0A, "CALL", some .target, 0, 0⟩
  | ret => ⟨0x0B, "RET", none, 0, 0⟩
  | jump => ⟨0x0C, "JMP", some .target, 0, 0⟩
  | jumpIf => ⟨0x0D, "JMPIF", some .target, 1, 0⟩
  | equal => ⟨0x0E, "EQ", none, 2, 1⟩
  | greater => ⟨0x0F, "GT", none, 2, 1⟩
  | less => ⟨0x10, "LT", none, 2, 1⟩
  | halt => ⟨0x11, "END", none, 0, 0⟩

/-- Every opcode, in the order of the table. -/
def all : List Opcode :=
  [push, pop, add, sub, mul, div, store, load, print, call, ret, jump, jumpIf, equal, greater, less,
    halt]

def byte (opcode : Opcode) : UInt8 := opcode.row.byte

def mnemonic (opcode : Opcode) : String := opcode.row.mnemonic

def operandKind? (opcode : Opcode) : Option OperandKind := opcode.row.operand

/-- Words an instruction takes from the operand stack. -/
def inputs (opcode : Opcode) : Nat := opcode.row.inputs

/-- Words an instruction leaves in place of those it took. -/
def outputs (opcode : Opcode) : Nat := opcode.row.outputs

/-- Bytes of an instruction: the opcode and its operand. -/
def length (opcode : Opcode) : Nat :=
  if opcode.operandKind?.isSome then 1 + Word.size else 1

/-- Whether an instruction can continue elsewhere than at its successor. -/
def isControlFlow : Opcode → Bool
  | call | ret | jump | jumpIf | halt => true
  | _ => false

def ofByte? (byte : UInt8) : Option Opcode := all.find? (·.byte == byte)

/-- The opcode of a mnemonic, in upper or lower case of its ASCII letters. -/
def ofMnemonic? (name : String) : Option Opcode :=
  all.find? (·.mnemonic.toList == name.toList.map Char.toUpper)

/-- The bytes of an instruction.  A missing operand is written as zero, and an operand that the
opcode does not have is left out. -/
def encode (opcode : Opcode) (operand? : Option UInt64) : Bytes :=
  opcode.byte :: if opcode.operandKind?.isSome then Word.bytes (operand?.getD 0) else []

@[simp]
theorem mem_all (opcode : Opcode) : opcode ∈ all := by cases opcode <;> decide

theorem ofByte?_byte (opcode : Opcode) : ofByte? opcode.byte = some opcode := by
  cases opcode <;> rfl

theorem byte_of_ofByte? {byte : UInt8} {opcode : Opcode} (found : ofByte? byte = some opcode) :
    opcode.byte = byte := by
  simpa using List.find?_some found

theorem ofByte?_eq_some_iff {byte : UInt8} {opcode : Opcode} :
    ofByte? byte = some opcode ↔ opcode.byte = byte :=
  ⟨byte_of_ofByte?, fun same => same ▸ ofByte?_byte opcode⟩

theorem length_pos (opcode : Opcode) : 0 < opcode.length := by
  cases opcode <;> decide

@[simp]
theorem length_encode (opcode : Opcode) (operand? : Option UInt64) :
    (opcode.encode operand?).length = opcode.length := by
  cases opcode <;> simp [encode, length, operandKind?, row, Word.size]

end Opcode

end StackMachine
