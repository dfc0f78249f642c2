import StackMachine.CommandLine.Options
import StackMachine.CommandLine.Usage
import StackMachine.Container
import StackMachine.Vm.Description
import StackMachine.Vm.Run

/-!
# A session of the command line

A session reads the options, then the program file, and either shows the listing of the program or
runs it on a fresh instance.  It is a function of the arguments and of a `Host`, which reads files
and allocates buffers; its `Transcript` holds all that the user sees.

Printed values go to the standard output, one a line, and after a run that succeeds the top of the
stack does.  All else goes to the log.
-/

namespace StackMachine.CommandLine

/-- What a session asks of its surroundings. -/
structure Host where
  allocator : Allocator
  /-- The contents of a file, or why it cannot be read. -/
  fileContents : String → Except String Bytes

/-- What a session leaves behind. -/
structure Transcript where
  exitCode : UInt32
  output : String
  log : Log

namespace Transcript

/-- The end of a session that failed. -/
def failure (output : String) (log : Log) (message : String) : Transcript :=
  ⟨1, output, log.write .error message⟩

end Transcript

/-- One line for each value. -/
def valueLines (values : List UInt64) : String :=
  String.join (values.map fun value => Numeral.decimal value.toNat ++ "\n")

def createdNote (config : Config) : String :=
  s!"vm created: memory={config.memorySize.toNat}B stack={config.stackSize.toNat} words " ++
    s!"call depth={config.maxCallDepth.toNat}"

def loadedNote (codeSize : Nat) : String := s!"loaded {codeSize} bytes of bytecode"

def executedNote (vm : Vm) : String :=
  s!"Executed {vm.executed.toNat} instructions ({vm.codeSize} bytes of bytecode)"

/-- The note on an instruction that is about to run, with the operand stack before it. -/
def traceNote (entry : Entry) (stack : List UInt64) : String :=
  entry.text ++ "  stack=" ++ wordsText stack

/-- Executes the program of an instance and logs its trap. -/
def executePlain (fuel : Nat) (log : Log) (vm : Vm) : Option (Execution Vm × Log) := do
  let execution ← vm.execute fuel
  match execution.result with
  | .ok () => return (execution, log)
  | .error error =>
      return (execution, log.write .warn s!"execution trapped: {error.message}")

/-- Logs the instruction of an observation, if it decodes. -/
def logObservation (log : Log) (observation : Observation) : Log :=
  match observation.entry? with
  | some entry => log.write .debug (traceNote entry observation.stackBefore)
  | none => log

/-- Steps through the program of an instance and logs each instruction before it runs. -/
def executeTraced (fuel : Nat) (log : Log) (vm : Vm) : Option (Execution Vm × Log) := do
  let (observations, after) := vm.trace fuel
  let last ← observations.back?
  -- A trace that used up its steps ends with a step that did not finish, and gives no answer.
  let result ← match last.result with
    | .error error => some (.error error)
    | .ok status => if status.isFinished then some (.ok ()) else none
  let printed := observations.foldl (fun printed seen => record printed seen.printed?) #[]
  return (⟨result, printed, after⟩, observations.foldl logObservation log)

/-- The end of a session that ran its program. -/
def conclude (execution : Execution Vm) (log : Log) : Transcript :=
  let printed := valueLines execution.printed.toList
  match execution.result with
  | .error error => .failure printed log s!"Execution failed: {error.message}"
  | .ok () =>
      let top := match execution.state.peek with
        | .ok word => valueLines [word]
        | .error _ => ""
      ⟨0, printed ++ top, log.write .info (executedNote execution.state)⟩

/-- Runs a program on a fresh instance. -/
def runProgram (fuel : Nat) (host : Host) (options : Options) (log : Log) (code : Bytes) :
    Option Transcript :=
  -- Tracing shows debug messages whatever level was asked for, but not for opening the file.
  let log := if options.trace then log.setMinimum .debug else log
  match Vm.create host.allocator options.config with
  | .error error => some (.failure "" log error.message)
  | .ok vm =>
      let log := log.write .debug (createdNote options.config)
      let attempt := vm.load host.allocator code
      match attempt.result with
      | .error error => some (.failure "" log error.message)
      | .ok () => do
          let log := log.write .debug (loadedNote code.length)
          let (execution, log) ← if options.trace then executeTraced fuel log attempt.vm
            else executePlain fuel log attempt.vm
          return conclude execution log

def showListing (log : Log) (code : Bytes) : Transcript :=
  match Listing.disassemble code with
  | .error error => .failure "" log s!"Disassembly failed: {error.message}"
  | .ok listing => ⟨0, listing.render, log⟩

/-- Opens the program file and does what the options ask for. -/
def openProgram (fuel : Nat) (host : Host) (path : String) (options : Options) :
    Option Transcript :=
  let log := Log.empty.setMinimum options.minimum
  match host.fileContents path with
  | .error reason => some (.failure "" log s!"Failed to read {path}: {reason}")
  | .ok file =>
      match ProgramFile.read file with
      | .error error =>
          some (.failure "" log s!"Invalid program file {path}: {error.message}")
      | .ok code =>
          if options.listing then some (showListing log code)
          else runProgram fuel host options log code

/-- The end of a session whose options are not understood.  The help text follows when an argument
was not expected at all. -/
def reject (program : String) (rejection : Rejection) : Transcript :=
  let transcript :=
    Transcript.failure "" (Log.empty.setMinimum rejection.minimum) rejection.fault.message
  match rejection.fault with
  | .unexpected _ => { transcript with log := transcript.log.write .info (usage program) }
  | _ => transcript

def help (program : String) (exitCode : UInt32) : Transcript :=
  ⟨exitCode, "", Log.empty.write .info (usage program)⟩

/-- A session with these arguments, for a program of this name.  There is no transcript when the run
takes more than `fuel` steps. -/
def session (fuel : Nat) (host : Host) (program : String) : List String → Option Transcript
  | [] => some (help program 1)
  | path :: arguments =>
      if path = "--help" ∨ path = "-h" then some (help program 0)
      else match Options.standard.read arguments with
        | .error rejection => some (reject program rejection)
        | .ok options => openProgram fuel host path options

end StackMachine.CommandLine
