import StackMachine.Error

/-!
# Sizes of an instance

The sizes are fixed when an instance acquires its buffers.  A machine without memory still runs
programs that do not touch it, but without a stack word or a call frame it is refused.
-/

namespace StackMachine

structure Config where
  /-- Bytes of memory. -/
  memorySize : UInt32
  /-- Words of the operand stack. -/
  stackSize : UInt32
  /-- Greatest number of pending calls. -/
  maxCallDepth : UInt32
  deriving DecidableEq, Repr

namespace Config

/-- The sizes used when none are asked for. -/
def standard : Config := ⟨64 * 1024, 1024, 256⟩

/-- Why sizes are refused. -/
inductive Fault where
  | emptyStack
  | noCallDepth
  deriving DecidableEq, Repr

def Fault.reason : Fault → String
  | emptyStack => "stack size must be at least one word"
  | noCallDepth => "max call depth must be at least one"

/-- The first fault of the sizes, the operand stack before the call depth. -/
def fault? (config : Config) : Option Fault :=
  if config.stackSize = 0 then some .emptyStack
  else if config.maxCallDepth = 0 then some .noCallDepth
  else none

def validate (config : Config) : Except Error Unit :=
  match config.fault? with
  | some fault => .error (.invalidConfig fault.reason)
  | none => .ok ()

end Config

end StackMachine
