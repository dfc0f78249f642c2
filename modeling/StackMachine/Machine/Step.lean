import StackMachine.Machine.Basic
import StackMachine.Opcode

/-!
# One instruction

A step works on the machine in place.  It moves past the opcode and past the operand, and then the
actions of the instruction change one thing after another.  An action that fails ends the
instruction, and what was changed before stays changed; only the offset is put back to the opcode.
That a trap leaves no trace is thus a property of the order in which each instruction acts, and not
of the way in which a step is taken.

Faults have a fixed order: the opcode, then its operand, then the words it takes from the stack,
then the checks of the instruction itself.
-/

namespace StackMachine

/-- What a step is working on: a machine in the middle of an instruction, and the value that was
printed. -/
structure Work where
  machine : Machine
  printed? : Option UInt64

/-- Something a step does.  What it changes before it fails stays changed. -/
abbrev Action (α : Type) : Type := EStateM Trap Work α

/-- How an instruction that completed goes on. -/
inductive Flow where
  | proceed
  | halt
  deriving DecidableEq, Repr

/-- The offset of a jump or call target, which has to be inside the bytecode. -/
def jumpTarget (codeSize : Nat) (target : UInt64) : Except Trap Nat :=
  if target.toNat < codeSize then .ok target.toNat
  else .error (.jumpOutOfRange target codeSize)

/-- The word that stands for a truth value. -/
def truth (holds : Bool) : UInt64 := if holds then 1 else 0

/-- Unsigned division, which truncates. -/
def divide (dividend divisor : UInt64) : Except Trap UInt64 :=
  if divisor = 0 then .error .divideByZero else .ok (dividend / divisor)

namespace Action

variable {α : Type}

/-- Looks at the machine and changes nothing. -/
def inspect (look : Machine → Except Trap α) : Action α := fun work =>
  match look work.machine with
  | .ok value => .ok value work
  | .error cause => .error cause work

/-- Does something to the operand stack. -/
def onStack (change : OperandStack → Except Trap (α × OperandStack)) : Action α
  | ⟨machine, printed?⟩ =>
      match change machine.stack with
      | .ok (value, stack) => .ok value ⟨{ machine with stack }, printed?⟩
      | .error cause => .error cause ⟨machine, printed?⟩

/-- Does something to the pending calls. -/
def onCalls (change : CallStack → Except Trap (α × CallStack)) : Action α
  | ⟨machine, printed?⟩ =>
      match change machine.calls with
      | .ok (value, calls) => .ok value ⟨{ machine with calls }, printed?⟩
      | .error cause => .error cause ⟨machine, printed?⟩

/-- Fails if the operand stack has less than `needed` words. -/
def require (needed : Nat) : Action Unit := inspect fun machine =>
  if machine.stack.depth < needed then .error (.stackUnderflow needed machine.stack.depth)
  else .ok ()

def peek : Action UInt64 := inspect fun machine => machine.stack.peek

def pop : Action UInt64 := onStack OperandStack.pop

def push (word : UInt64) : Action Unit := onStack fun stack => return ((), ← stack.push word)

/-- Replaces the top two words by one. -/
def combine (operation : UInt64 → UInt64 → Except Trap UInt64) : Action Unit :=
  onStack fun stack => return ((), ← stack.combine operation)

def readWord (address : UInt64) : Action UInt64 := inspect fun machine =>
  return machine.memory.wordAt (← machine.memory.locate address)

def writeWord (address word : UInt64) : Action Unit
  -- Taken apart at once, so that nothing else holds the memory while a word is put into it.
  | ⟨⟨memory, stack, calls, code?, ip, executed⟩, printed?⟩ =>
      match memory.locate address with
      | .ok position =>
          .ok () ⟨⟨memory.putWord position word, stack, calls, code?, ip, executed⟩, printed?⟩
      | .error cause => .error cause ⟨⟨memory, stack, calls, code?, ip, executed⟩, printed?⟩

def print (word : UInt64) : Action Unit
  | ⟨machine, _⟩ => .ok () ⟨machine, some word⟩

def jumpTo (offset : Nat) : Action Unit
  | ⟨machine, printed?⟩ => .ok () ⟨{ machine with ip := offset }, printed?⟩

/-- The offset of a target. -/
def resolve (target : UInt64) : Action Nat := inspect fun machine =>
  jumpTarget machine.code.length target

/-- Starts a call that returns to the current offset. -/
def pushCall : Action Unit
  | ⟨machine, printed?⟩ =>
      onCalls (fun calls => return ((), ← calls.push machine.ip)) ⟨machine, printed?⟩

def popCall : Action Nat := onCalls CallStack.pop

/-- Reads the operand at the current offset and moves past it. -/
def readOperand : Action UInt64
  | ⟨machine, printed?⟩ =>
      let rest := machine.code.drop machine.ip
      match Word.front? rest with
      | some operand =>
          .ok operand ⟨{ machine with ip := machine.ip + Word.size }, printed?⟩
      | none => .error (.truncated Word.size rest.length) ⟨machine, printed?⟩

/-- What an instruction does once its operand is read and the words it takes are there. -/
def execute (operand : UInt64) : Opcode → Action Flow
  | .push => do
      push operand
      return .proceed
  | .pop => do
      let _ ← pop
      return .proceed
  | .add => do
      combine fun first second => .ok (first + second)
      return .proceed
  | .sub => do
      combine fun first second => .ok (first - second)
      return .proceed
  | .mul => do
      combine fun first second => .ok (first * second)
      return .proceed
  | .div => do
      combine divide
      return .proceed
  | .store => do
      -- The word is taken away only when it is in memory.
      let word ← peek
      writeWord operand word
      let _ ← pop
      return .proceed
  | .load => do
      -- A bad address is noticed before a full stack.
      let word ← readWord operand
      push word
      return .proceed
  | .print => do
      let word ← peek
      print word
      return .proceed
  | .call => do
      let target ← resolve operand
      pushCall
      jumpTo target
      return .proceed
  | .ret => do
      let address ← popCall
      jumpTo address
      return .proceed
  | .jump => do
      let target ← resolve operand
      jumpTo target
      return .proceed
  | .jumpIf => do
      let condition ← peek
      -- A jump that is not taken may name any target.
      if condition ≠ 0 then
        let target ← resolve operand
        let _ ← pop
        jumpTo target
      else
        let _ ← pop
      return .proceed
  | .equal => do
      combine fun first second => .ok (truth (first == second))
      return .proceed
  | .greater => do
      combine fun first second => .ok (truth (first > second))
      return .proceed
  | .less => do
      combine fun first second => .ok (truth (first < second))
      return .proceed
  | .halt => return .halt

/-- Runs the instruction with opcode `byte`, when the current offset is the one behind it. -/
def perform (byte : UInt8) : Action Flow :=
  match Opcode.ofByte? byte with
  | none => throw (.unknownOpcode byte)
  | some opcode => do
      let operand ← if opcode.operandKind?.isSome then readOperand else pure 0
      require opcode.inputs
      execute operand opcode

end Action

namespace Machine

/-- Where the program stands after an instruction that completed. -/
def status (machine : Machine) : Flow → Status
  | .halt => .halted
  | .proceed => if machine.code.length ≤ machine.ip then .endOfProgram else .running

/-- How a step ends whose opcode stands at `offset`.  An instruction that completed is counted, and
a trap puts the offset back. -/
def finish (offset : Nat) : EStateM.Result Trap Work Flow → Transition Machine
  | .ok flow ⟨machine, printed?⟩ =>
      let machine := { machine with executed := machine.executed + 1 }
      ⟨.ok (machine.status flow), printed?, machine⟩
  | .error cause ⟨machine, printed?⟩ =>
      ⟨.error (.trap offset cause), printed?, { machine with ip := offset }⟩

/-- Runs the instruction at the current offset.  At the end of the bytecode nothing happens. -/
def step (machine : Machine) : Transition Machine :=
  match machine.code? with
  | none => ⟨.error .notInitialized, none, machine⟩
  | some code =>
      let offset := machine.ip
      match code[offset]? with
      | none => ⟨.ok .endOfProgram, none, machine⟩
      | some byte =>
          finish offset ((Action.perform byte).run ⟨{ machine with ip := offset + 1 }, none⟩)

end Machine

end StackMachine
