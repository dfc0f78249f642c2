import StackMachine.Error
import StackMachine.Opcode

/-!
# Listings

A listing is the front-to-back decoding of a byte string.  Bytecode has no section marks, so bytes
after the last executed instruction are read as instructions too, and the first position that does
not decode ends the attempt.

`Entry.decode` reads one instruction at the front of a byte string and is told the offset it stands
at; `decodeAt` and `disassemble` both go through it.
-/

namespace StackMachine

/-- An instruction and the offset of its opcode byte. -/
structure Entry where
  offset : Nat
  opcode : Opcode
  operand? : Option UInt64
  deriving DecidableEq, Repr

namespace Entry

def next (entry : Entry) : Nat := entry.offset + entry.opcode.length

def operandText (kind : OperandKind) (operand : UInt64) : String :=
  match kind with
  | .immediate => " " ++ Numeral.decimal operand.toNat
  | .address => " @0x" ++ Numeral.hexadecimal operand.toNat
  | .target => " ->0x" ++ Numeral.paddedHexadecimal 4 operand.toNat

/-- The line of an entry in a listing, without the line break.  An operand is shown when the opcode
has one and it is given. -/
def text (entry : Entry) : String :=
  let operand := match entry.opcode.operandKind?, entry.operand? with
    | some kind, some operand => operandText kind operand
    | _, _ => ""
  Numeral.paddedHexadecimal 4 entry.offset ++ ": " ++ entry.opcode.mnemonic ++ operand

/-- Reads the instruction at the front of `code`, which stands at `offset`. -/
def decode (offset : Nat) (code : Bytes) : Except Error Entry :=
  match code with
  | [] => .error (.trap offset (.truncated 1 0))
  | byte :: rest =>
      match Opcode.ofByte? byte with
      | none => .error (.trap offset (.unknownOpcode byte))
      | some opcode =>
          match opcode.operandKind? with
          | none => .ok ⟨offset, opcode, none⟩
          | some _ =>
              match Word.front? rest with
              | none => .error (.trap offset (.truncated Word.size rest.length))
              | some operand => .ok ⟨offset, opcode, some operand⟩

end Entry

/-- A decoded byte string. -/
abbrev Listing := List Entry

namespace Listing

def decodeAt (code : Bytes) (offset : Nat) : Except Error Entry :=
  Entry.decode offset (code.drop offset)

/-- Reads every instruction of `code`, which starts at `offset`. -/
def disassembleFrom (offset : Nat) (code : Bytes) : Except Error Listing :=
  match code with
  | [] => .ok []
  | byte :: rest => do
      let entry ← Entry.decode offset (byte :: rest)
      let entries ← disassembleFrom entry.next ((byte :: rest).drop entry.opcode.length)
      return entry :: entries
termination_by code.length
decreasing_by
  have := entry.opcode.length_pos
  simp only [List.length_drop, List.length_cons]
  omega

def disassemble (code : Bytes) : Except Error Listing := disassembleFrom 0 code

/-- The text of a listing, one line for each entry. -/
def render (listing : Listing) : String :=
  String.join (listing.map fun entry => entry.text ++ "\n")

end Listing

end StackMachine
