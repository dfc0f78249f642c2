import StackMachine.Config
import StackMachine.Machine.CallStack
import StackMachine.Machine.Memory
import StackMachine.Machine.OperandStack

/-!
# The machine

A machine holds the buffers of a live instance, the loaded program and the position in it.  This
file fixes its state and the vocabulary of a single step: a `Status` for an instruction that
completed, and a `Transition` that pairs the result of a step with what it printed and the state
after it.
-/

namespace StackMachine

/-- The state of a live instance. -/
structure Machine where
  memory : Memory
  stack : OperandStack
  calls : CallStack
  /-- The loaded program; none before the first load. -/
  code? : Option Bytes
  /-- Offset of the next opcode. -/
  ip : Nat
  /-- Instructions completed since the program was loaded, as a 64-bit counter. -/
  executed : UInt64
  deriving DecidableEq, Repr

/-- Where a machine stands after a step. -/
inductive Status where
  /-- More bytecode follows. -/
  | running
  /-- The program asked to stop. -/
  | halted
  /-- The end of the bytecode is reached. -/
  | endOfProgram
  deriving DecidableEq, Repr

def Status.isFinished (status : Status) : Bool := status != .running

/-- One step of a state: its result, the value it printed, and the state after it. -/
structure Transition (State : Type) where
  result : Except Error Status
  printed? : Option UInt64
  state : State

/-- A run to its end: its result, the values it printed, and the state after it. -/
structure Execution (State : Type) where
  result : Except Error Unit
  printed : Array UInt64
  state : State

/-- The printed values followed by the value of one more step. -/
def record (printed : Array UInt64) : Option UInt64 → Array UInt64
  | none => printed
  | some value => printed.push value

namespace Machine

/-- A machine of the given sizes with zero memory, empty stacks and no program. -/
def ofConfig (config : Config) : Machine where
  memory := .zeroed config.memorySize.toNat
  stack := .empty config.stackSize.toNat
  calls := .empty config.maxCallDepth.toNat
  code? := none
  ip := 0
  executed := 0

/-- The loaded bytes; none are there before the first load. -/
def code (machine : Machine) : Bytes := machine.code?.getD []

/-- Installs a program and starts it anew.  Memory and the operand stack are kept. -/
def load (machine : Machine) (code : Bytes) : Machine :=
  { machine with code? := some code, ip := 0, executed := 0, calls := machine.calls.clear }

end Machine

end StackMachine
