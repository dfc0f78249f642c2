import StackMachine.Error
import StackMachine.Word

/-!
# Memory

A memory is a byte string of fixed size that starts out zero.  Instructions read and write whole
words at any byte address, aligned or not, as long as all eight bytes are inside.
-/

namespace StackMachine

structure Memory where
  bytes : Array UInt8
  deriving DecidableEq, Repr

namespace Memory

def zeroed (size : Nat) : Memory := ⟨Array.replicate size 0⟩

def size (memory : Memory) : Nat := memory.bytes.size

/-- The position of the word at an address, if the whole word is inside the memory. -/
def locate (memory : Memory) (address : UInt64) : Except Trap Nat :=
  if address.toNat + Word.size ≤ memory.size then .ok address.toNat
  else .error (.memoryOutOfRange address memory.size)

def wordAt (memory : Memory) (position : Nat) : UInt64 :=
  Word.ofBytes (memory.bytes.extract position (position + Word.size)).toList

/-- Puts bytes into an array one after another, starting at `position`. -/
def putBytes (bytes : Array UInt8) (position : Nat) : Bytes → Array UInt8
  | [] => bytes
  | byte :: rest => putBytes (bytes.setIfInBounds position byte) (position + 1) rest

def putWord (memory : Memory) (position : Nat) (word : UInt64) : Memory :=
  ⟨putBytes memory.bytes position (Word.bytes word)⟩

/-- The `length` bytes from `start` on, if they are inside the memory. -/
def range? (memory : Memory) (start length : Nat) : Option Bytes :=
  if start + length ≤ memory.size then some (memory.bytes.extract start (start + length)).toList
  else none

/-- Puts the byte before `position` in front of the runs that start at `position` or later. -/
def extendRuns (byte : UInt8) : Nat × List (Nat × Bytes) → Nat × List (Nat × Bytes)
  | (position, runs) =>
      if byte = 0 then (position - 1, runs)
      else match runs with
        | (start, run) :: later =>
            if start = position then (position - 1, (position - 1, byte :: run) :: later)
            else (position - 1, (position - 1, [byte]) :: (start, run) :: later)
        | [] => (position - 1, [(position - 1, [byte])])

/-- The longest runs of bytes other than zero, with their positions, in order. -/
def runs (memory : Memory) : List (Nat × Bytes) :=
  (memory.bytes.foldr extendRuns (memory.size, [])).2

@[simp]
theorem size_zeroed (size : Nat) : (zeroed size).size = size := by
  simp [zeroed, Memory.size]

theorem size_putBytes (bytes : Array UInt8) (position : Nat) (written : Bytes) :
    (putBytes bytes position written).size = bytes.size := by
  induction written generalizing bytes position with
  | nil => rfl
  | cons byte rest ih => simp [putBytes, ih]

@[simp]
theorem size_putWord (memory : Memory) (position : Nat) (word : UInt64) :
    (memory.putWord position word).size = memory.size := by
  rw [size, putWord, size_putBytes, size]

end Memory

end StackMachine
