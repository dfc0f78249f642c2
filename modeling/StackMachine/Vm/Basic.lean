import StackMachine.Allocator
import StackMachine.Listing
import StackMachine.Machine.Basic

/-!
# Instances

A `Vm` is the handle a host owns.  It is live while it holds a machine; a destroyed instance keeps
only its sizes and can be armed again.  Operations that may fail give an `Attempt`: the result
together with the instance afterwards, which after a failure is the instance as it was.

All questions about a destroyed instance have an answer: zero, empty or none.
-/

namespace StackMachine

/-- An instance of the machine with the sizes it was last given. -/
structure Vm where
  config : Config
  machine? : Option Machine
  deriving DecidableEq, Repr

structure Attempt where
  result : Except Error Unit
  vm : Vm

namespace Vm

/-- Acquires the buffers of a machine, in a fixed order, once the sizes are accepted. -/
def acquire (allocator : Allocator) (config : Config) : Except Error Machine := do
  config.validate
  allocator.reserve .memory config.memorySize.toNat
  allocator.reserve .operandStack (Word.size * config.stackSize.toNat)
  allocator.reserve .callStack (Word.size * config.maxCallDepth.toNat)
  return .ofConfig config

/-- A live instance with zero memory, empty stacks and no program. -/
def create (allocator : Allocator) (config : Config) : Except Error Vm := do
  return ⟨config, some (← acquire allocator config)⟩

def isInitialized (vm : Vm) : Bool := vm.machine?.isSome

/-- Acquires buffers for a destroyed instance.  A live one is refused before the sizes are looked
at. -/
def rearm (allocator : Allocator) (config : Config) (vm : Vm) : Attempt :=
  match vm.machine? with
  | some _ => ⟨.error .alreadyInitialized, vm⟩
  | none =>
      match acquire allocator config with
      | .error error => ⟨.error error, vm⟩
      | .ok machine => ⟨.ok (), ⟨config, some machine⟩⟩

/-- Gives up the buffers.  A destroyed instance stays as it is. -/
def destroy (vm : Vm) : Vm := { vm with machine? := none }

def load (allocator : Allocator) (code : Bytes) (vm : Vm) : Attempt :=
  match vm.machine? with
  | none => ⟨.error .notInitialized, vm⟩
  | some machine =>
      match allocator.reserve .bytecode code.length with
      | .error error => ⟨.error error, vm⟩
      | .ok () => ⟨.ok (), { vm with machine? := some (machine.load code) }⟩

def peek (vm : Vm) : Except Error UInt64 :=
  match vm.machine? with
  | none => .error .notInitialized
  | some machine => machine.stack.peek.mapError (.trap machine.ip)

/-- The instruction at the current offset, if there is one that decodes. -/
def current? (vm : Vm) : Option Entry := do
  let machine ← vm.machine?
  let code ← machine.code?
  (Listing.decodeAt code machine.ip).toOption

/-- Offset of the next opcode. -/
def ip (vm : Vm) : Nat := (vm.machine?.map (·.ip)).getD 0

/-- The words of the operand stack in the order in which they were pushed. -/
def stack (vm : Vm) : List UInt64 := (vm.machine?.map (·.stack.bottomFirst)).getD []

def stackDepth (vm : Vm) : Nat := (vm.machine?.map (·.stack.depth)).getD 0

def stackCapacity (vm : Vm) : Nat := (vm.machine?.map (·.stack.capacity)).getD 0

def memory (vm : Vm) : Memory := (vm.machine?.map (·.memory)).getD (.zeroed 0)

def callDepth (vm : Vm) : Nat := (vm.machine?.map (·.calls.depth)).getD 0

def codeSize (vm : Vm) : Nat := (vm.machine?.map (·.code.length)).getD 0

def executed (vm : Vm) : UInt64 := (vm.machine?.map (·.executed)).getD 0

end Vm

end StackMachine
