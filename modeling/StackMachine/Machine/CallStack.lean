import StackMachine.Error

/-!
# Call stack

Return addresses of the pending calls.  The list holds the innermost call first.
-/

namespace StackMachine

structure CallStack where
  /-- The return addresses, innermost first. -/
  frames : List Nat
  maxDepth : Nat
  deriving DecidableEq, Repr

namespace CallStack

def empty (maxDepth : Nat) : CallStack := ⟨[], maxDepth⟩

def depth (calls : CallStack) : Nat := calls.frames.length

/-- Starts a call that returns to `address`. -/
def push (calls : CallStack) (address : Nat) : Except Trap CallStack :=
  if calls.depth < calls.maxDepth then .ok { calls with frames := address :: calls.frames }
  else .error (.callStackOverflow calls.maxDepth)

/-- Ends the innermost call and gives its return address. -/
def pop (calls : CallStack) : Except Trap (Nat × CallStack) :=
  match calls.frames with
  | address :: rest => .ok (address, { calls with frames := rest })
  | [] => .error .callStackUnderflow

def clear (calls : CallStack) : CallStack := empty calls.maxDepth

end CallStack

end StackMachine
