import StackMachine.Assembly

/-!
# Benchmark programs

Small programs that spend their time in one kind of work each.  All of them count down a word at the
start of memory and repeat their body while it is not zero, testing after each round.
-/

namespace StackMachine.Benchmark

open Assembly

/-- Where the loop counter is kept. -/
def counter : UInt64 := 0

/-- Where a body keeps its own word. -/
def scratch : UInt64 := 8

def bare (opcode : Opcode) : Directive := .instruction opcode none

def withOperand (opcode : Opcode) (operand : UInt64) : Directive :=
  .instruction opcode (some operand)

def push (word : UInt64) : Directive := withOperand .push word

def store (address : UInt64) : Directive := withOperand .store address

def load (address : UInt64) : Directive := withOperand .load address

/-- Repeats a body, which leaves the stack and the counter as it found them. -/
def countedLoop (iterations : UInt64) (body : List Directive) : List Directive :=
  [push iterations, store counter, .label "__loop"] ++ body ++
    [load counter, push 1, bare .sub, store counter, load counter, .branch .jumpIf "__loop"]

/-- Multiplies the numbers from `n` down to 1 and leaves the product on the stack. -/
def factorial (n : UInt64) : List Directive :=
  [push 1, store scratch] ++
    countedLoop n [load scratch, load counter, bare .mul, store scratch] ++
    [load scratch, bare .halt]

/-- Counts down and does nothing else. -/
def tightLoop : List Directive := countedLoop 100000 [] ++ [bare .halt]

/-- Works out an expression with each kind of arithmetic. -/
def arithmeticMix : List Directive :=
  countedLoop 10000
    [push 7, push 3, bare .add, push 5, bare .mul, push 2, bare .sub, push 4, bare .div, push 9,
      bare .less, bare .pop] ++
    [bare .halt]

/-- Takes a branch in the first half of the rounds and counts in the other half. -/
def branchHeavy : List Directive :=
  countedLoop 50000
    [load counter, push 25000, bare .greater, .branch .jumpIf "__upper", load scratch, push 1,
      bare .add, store scratch, .label "__upper"] ++
    [bare .halt]

/-- Calls a subroutine that returns at once. -/
def callOverhead : List Directive :=
  countedLoop 10000 [.branch .call "noop"] ++ [bare .halt, .label "noop", bare .ret]

/-- Stores a word and loads it again. -/
def memoryTraffic : List Directive :=
  countedLoop 5000 [push 42, store scratch, load scratch, bare .pop] ++ [bare .halt]

/-- The programs with their names, in the order of the report. -/
def suite : List (String × List Directive) :=
  [10, 100, 1000].map (fun n => (s!"factorial({n})", factorial (UInt64.ofNat n))) ++
    [("tight_loop(100K)", tightLoop),
      ("arithmetic_mix(10K)", arithmeticMix),
      ("branch_heavy(50K)", branchHeavy),
      ("call_overhead(10K)", callOverhead),
      ("memory_load_store(5K)", memoryTraffic)]

end StackMachine.Benchmark
