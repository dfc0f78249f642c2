import StackMachine.Machine.Basic
import StackMachine.Proofs.Listing.Decoding
import StackMachine.Proofs.Machine.Storage

/-!
# The meaning of an instruction

This file gives a decoded instruction its meaning in the way a manual does: first the conditions
under which it faults, in the order in which they count, and then, for an instruction that meets
none of them, each component of the machine afterwards.  Numbers are integers here and wrap only
when they become words; addresses and targets are natural numbers, so no bound can be missed by a
sum that wraps.

The underflow check comes first for every opcode and reads the table of stack effects.  A stack
never holds more words than its capacity, so it is full when it holds at least that many, and the
same goes for pending calls.
-/

namespace StackMachine

namespace Opcode

/-- The number that a binary instruction makes of two words, of which the first lies below the
second. -/
def binary? : Opcode → Option (Int → Int → Int)
  | add => some fun first second => first + second
  | sub => some fun first second => first - second
  | mul => some fun first second => first * second
  | div => some fun first second => first / second
  | equal => some fun first second => if first = second then 1 else 0
  | greater => some fun first second => if second < first then 1 else 0
  | less => some fun first second => if first < second then 1 else 0
  | _ => none

end Opcode

/-- The word that stands for an integer: its residue modulo 2⁶⁴. -/
def Word.ofInt (value : Int) : UInt64 := UInt64.ofNat (value % 2 ^ 64).toNat

/-- The word that lies `depth` words below the top of the operand stack. -/
def Machine.word (machine : Machine) (depth : Nat) : UInt64 := machine.stack.words.getD depth 0

/-- A condition under which an instruction faults, and the trap it then ends in. -/
structure Check where
  fails : Bool
  cause : Trap

namespace Check

/-- The trap of the first condition that is met. -/
def fault? (checks : List Check) : Option Trap := (checks.find? (·.fails)).map (·.cause)

variable (machine : Machine)

def underflow (needed : Nat) : Check :=
  ⟨machine.stack.depth < needed, .stackUnderflow needed machine.stack.depth⟩

def overflow : Check :=
  ⟨machine.stack.capacity ≤ machine.stack.depth, .stackOverflow machine.stack.capacity⟩

/-- The word at an address is not wholly inside the memory. -/
def outside (address : UInt64) : Check :=
  ⟨machine.memory.size < address.toNat + 8, .memoryOutOfRange address machine.memory.size⟩

/-- A target is not the offset of a byte of the bytecode. -/
def beyond (codeSize : Nat) (target : UInt64) : Check :=
  ⟨codeSize ≤ target.toNat, .jumpOutOfRange target codeSize⟩

def callOverflow : Check :=
  ⟨machine.calls.maxDepth ≤ machine.calls.depth, .callStackOverflow machine.calls.maxDepth⟩

def callUnderflow : Check := ⟨machine.calls.depth = 0, .callStackUnderflow⟩

def zeroDivisor : Check := ⟨machine.word 0 = 0, .divideByZero⟩

/-- A condition that counts only if the word on top is not zero. -/
def whenTaken (check : Check) : Check := ⟨machine.word 0 ≠ 0 && check.fails, check.cause⟩

theorem underflow_fails_iff (needed : Nat) :
    (underflow machine needed).fails = true ↔ machine.stack.depth < needed :=
  decide_eq_true_iff

theorem overflow_fails_iff :
    (overflow machine).fails = true ↔ machine.stack.capacity ≤ machine.stack.depth :=
  decide_eq_true_iff

theorem outside_fails_iff (address : UInt64) :
    (outside machine address).fails = true ↔ machine.memory.size < address.toNat + 8 :=
  decide_eq_true_iff

theorem beyond_fails_iff (codeSize : Nat) (target : UInt64) :
    (beyond codeSize target).fails = true ↔ codeSize ≤ target.toNat :=
  decide_eq_true_iff

theorem callOverflow_fails_iff :
    (callOverflow machine).fails = true ↔ machine.calls.maxDepth ≤ machine.calls.depth :=
  decide_eq_true_iff

theorem zeroDivisor_fails_iff : (zeroDivisor machine).fails = true ↔ machine.word 0 = 0 :=
  decide_eq_true_iff

end Check

namespace Entry

variable (entry : Entry) (machine : Machine) (codeSize : Nat)

/-- The conditions under which an entry faults, the one that counts most first. -/
def checks : List Check :=
  .underflow machine entry.opcode.inputs :: match entry.opcode with
    | .push => [.overflow machine]
    | .div => [.zeroDivisor machine]
    | .store => [.outside machine entry.operand]
    | .load => [.outside machine entry.operand, .overflow machine]
    | .call => [.beyond codeSize entry.operand, .callOverflow machine]
    | .ret => [.callUnderflow machine]
    | .jump => [.beyond codeSize entry.operand]
    | .jumpIf => [.whenTaken machine (.beyond codeSize entry.operand)]
    | _ => []

/-- The trap an entry ends in; none if it completes. -/
def fault? : Option Trap := Check.fault? (entry.checks machine codeSize)

/-- The words an entry leaves in place of those it takes. -/
def pushed : List UInt64 :=
  match entry.opcode with
  | .push => [entry.operand]
  | .load => [Word.ofBytes ((machine.memory.bytes.toList.drop entry.operand.toNat).take 8)]
  | .print => [machine.word 0]
  | opcode =>
      match opcode.binary? with
      | some operation => [Word.ofInt (operation (machine.word 1).toNat (machine.word 0).toNat)]
      | none => []

def wordsAfter : List UInt64 :=
  entry.pushed machine ++ machine.stack.words.drop entry.opcode.inputs

def memoryAfter : Memory :=
  match entry.opcode with
  | .store => machine.memory.splice entry.operand.toNat (machine.word 0)
  | _ => machine.memory

def framesAfter : List Nat :=
  match entry.opcode with
  | .call => entry.next :: machine.calls.frames
  | .ret => machine.calls.frames.tail
  | _ => machine.calls.frames

def ipAfter : Nat :=
  match entry.opcode with
  | .call | .jump => entry.operand.toNat
  | .jumpIf => if machine.word 0 = 0 then entry.next else entry.operand.toNat
  | .ret => machine.calls.frames.headD entry.next
  | _ => entry.next

def printed? : Option UInt64 :=
  match entry.opcode with
  | .print => some (machine.word 0)
  | _ => none

/-- Where a program stands after an entry: END stops it, and every other instruction goes on unless
no byte is left. -/
def statusAfter : Status :=
  if entry.opcode = .halt then .halted
  else if codeSize ≤ entry.ipAfter machine then .endOfProgram
  else .running

/-- The machine after an entry that completes. -/
def machineAfter : Machine where
  memory := entry.memoryAfter machine
  stack := { words := entry.wordsAfter machine, capacity := machine.stack.capacity }
  calls := { frames := entry.framesAfter machine, maxDepth := machine.calls.maxDepth }
  code? := machine.code?
  ip := entry.ipAfter machine
  executed := machine.executed + 1

/-- What a step shows when it meets an entry. -/
def transition : Transition Machine :=
  match entry.fault? machine codeSize with
  | some cause => ⟨.error (.trap entry.offset cause), none, machine⟩
  | none => ⟨.ok (entry.statusAfter machine codeSize), entry.printed? machine,
      entry.machineAfter machine⟩

end Entry

end StackMachine
