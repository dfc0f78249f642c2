import StackMachine.Benchmark.Harness
import StackMachine.Benchmark.Programs
import StackMachine.Decimal
import StackMachine.Vm.Run

/-!
# Benchmark report

A table with a line for each program of the suite: the number of timed runs, the average time of a
run in microseconds, the instructions of a run and the average time of an instruction in
nanoseconds.
-/

namespace StackMachine.Benchmark

/-- The time every benchmark runs for at least, in nanoseconds. -/
def minimumTime : Nat := 2000000000

/-- The instructions that a program runs on a fresh instance of standard size.  There is no count
when it does not assemble, does not succeed, or takes more than `fuel` steps. -/
def instructionCount (fuel : Nat) (program : List Assembly.Directive) : Option UInt64 := do
  let code ← (Assembly.assemble program).toOption
  let vm ← (Vm.create .unlimited .standard).toOption
  let loaded := vm.load .unlimited code
  loaded.result.toOption
  let execution ← loaded.vm.execute fuel
  execution.result.toOption
  return execution.state.executed

def leftAligned (width : Nat) (text : String) : String := Numeral.padRight width ' ' text

def rightAligned (width : Nat) (text : String) : String := Numeral.padLeft width ' ' text

def heading : String :=
  "VM Benchmarks (each runs for >= 2s)\n\n" ++
    "  " ++ leftAligned 30 "benchmark" ++ " " ++ rightAligned 7 "iters" ++ "       " ++
    rightAligned 14 "avg time" ++ " " ++ rightAligned 12 "instrs/run" ++ "        " ++
    rightAligned 10 "ns/instr" ++ "\n" ++
    "  " ++ String.ofList (List.replicate 88 '-') ++ "\n"

/-- The time of an instruction when a run of `instructions` takes `average` nanoseconds. -/
def instructionTime (average : Nat) (instructions : UInt64) : String :=
  if instructions = 0 then "       -"
  else rightAligned 8 (Decimal.ratio 2 average instructions.toNat)

/-- The line of a measurement.  There is none without an average. -/
def Measurement.line? (measurement : Measurement) : Option String := do
  let average ← measurement.average?
  return "  " ++ leftAligned 30 measurement.name ++ " " ++
    rightAligned 7 (Numeral.decimal measurement.iterations.toNat) ++ " iters " ++
    rightAligned 10 (Decimal.ratio 3 average 1000) ++ " us/iter " ++
    rightAligned 12 (Numeral.decimal measurement.instructions.toNat) ++ " instrs  " ++
    instructionTime average measurement.instructions ++ " ns/instr\n"

/-- The benchmark of a program, which runs on a fresh instance in each call. -/
def measureProgram (fuel : Nat) (name : String) (program : List Assembly.Directive)
    (readings : List Nat) : Option Measurement := do
  let executed ← instructionCount fuel program
  let (measurement, _) ← measure name minimumTime (fun state => (executed, state)) () readings
  return measurement

/-- What is left of a report when the program is over. -/
structure Printout where
  exitCode : UInt8
  text : String
  deriving DecidableEq, Repr

/-- The exit code of a program that is broken off. -/
def brokenOff : UInt8 := 101

/-- Prints the lines of the programs that are left, behind a text.  A measurement without an average
breaks the report off. -/
def printFrom (fuel : Nat) (readings : List Nat) (printed : String) :
    (programs : List (String × List Assembly.Directive)) → Option Printout
  | [] => some ⟨0, printed ++ "\n"⟩
  | (name, program) :: rest => do
      let measurement ← measureProgram fuel name program readings
      match measurement.line? with
      | some line => printFrom fuel readings (printed ++ line) rest
      | none => some ⟨brokenOff, printed⟩

/-- The report under a clock whose readings for each benchmark are given. -/
def print (fuel : Nat) (readings : List Nat) : Option Printout :=
  printFrom fuel readings heading suite

/-- The text of a report that has all its lines. -/
def report? (fuel : Nat) (readings : List Nat) : Option String := do
  let printout ← print fuel readings
  if printout.exitCode = 0 then some printout.text else none

end StackMachine.Benchmark
