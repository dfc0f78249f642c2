import StackMachine.Error

/-!
# Buffers and their allocation

An instance asks an allocator for each buffer it needs.  The allocator is an argument of the
operations that ask, so any pattern of refusals can be played.  A request for no bytes needs no
allocator and always succeeds.
-/

namespace StackMachine

inductive Buffer where
  | memory | operandStack | callStack | bytecode
  deriving DecidableEq, Repr

/-- The name of a buffer in an error. -/
def Buffer.label : Buffer → String
  | memory => "memory"
  | operandStack => "operand stack"
  | callStack => "call stack"
  | bytecode => "bytecode"

/-- Decides on requests for bytes. -/
structure Allocator where
  grants : Buffer → Nat → Bool

namespace Allocator

def limited (limit : Nat) : Allocator := ⟨fun _ bytes => bytes ≤ limit⟩

def unlimited : Allocator := ⟨fun _ _ => true⟩

def reserve (allocator : Allocator) (buffer : Buffer) (bytes : Nat) : Except Error Unit :=
  if bytes = 0 ∨ allocator.grants buffer bytes then .ok ()
  else .error (.allocationFailure buffer.label bytes)

end Allocator

end StackMachine
