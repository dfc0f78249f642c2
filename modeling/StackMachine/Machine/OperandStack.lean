import StackMachine.Error

/-!
# Operand stack

A stack of words with a fixed capacity.  The list holds the top word first; `bottomFirst` is the
order in which stacks are shown.
-/

namespace StackMachine

structure OperandStack where
  /-- The words, top first. -/
  words : List UInt64
  capacity : Nat
  deriving DecidableEq, Repr

namespace OperandStack

def empty (capacity : Nat) : OperandStack := ⟨[], capacity⟩

def depth (stack : OperandStack) : Nat := stack.words.length

/-- The words in the order in which they were pushed. -/
def bottomFirst (stack : OperandStack) : List UInt64 := stack.words.reverse

def push (stack : OperandStack) (word : UInt64) : Except Trap OperandStack :=
  if stack.depth < stack.capacity then .ok { stack with words := word :: stack.words }
  else .error (.stackOverflow stack.capacity)

def pop (stack : OperandStack) : Except Trap (UInt64 × OperandStack) :=
  match stack.words with
  | top :: rest => .ok (top, { stack with words := rest })
  | [] => .error (.stackUnderflow 1 0)

def peek (stack : OperandStack) : Except Trap UInt64 := stack.pop.map (·.1)

/-- Replaces the top two words `first second`, of which `second` is the top, by one. -/
def combine (stack : OperandStack) (operation : UInt64 → UInt64 → Except Trap UInt64) :
    Except Trap OperandStack :=
  match stack.words with
  | second :: first :: rest => do
      return { stack with words := (← operation first second) :: rest }
  | _ => .error (.stackUnderflow 2 stack.depth)

end OperandStack

end StackMachine
