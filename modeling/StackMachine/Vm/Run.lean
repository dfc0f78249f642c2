import StackMachine.Machine.Execute
import StackMachine.Vm.Basic

/-!
# Running an instance

A host may execute a program to its end, take single steps, or run it in slices of bounded length.
A traced run takes steps as well and notes what can be seen before and after each of them.
-/

namespace StackMachine

/-- A run of bounded length. -/
structure Run where
  /-- The status that ended the run; none when the budget was spent before that. -/
  outcome : Except Error (Option Status)
  /-- Steps taken, the last one included. -/
  calls : Nat
  printed : Array UInt64
  vm : Vm

/-- What can be seen of one step. -/
structure Observation where
  /-- The offset before the step. -/
  ip : Nat
  /-- The instruction at that offset, if it decodes. -/
  entry? : Option Entry
  stackBefore : List UInt64
  result : Except Error Status
  printed? : Option UInt64
  ipAfter : Nat
  stackAfter : List UInt64
  callsAfter : Nat

/-- What becomes of the printed values. -/
inductive Sink where
  /-- They are kept, in the order in which they were printed. -/
  | capture
  | discard
  deriving DecidableEq, Repr

/-- The printed values that a sink holds after a run. -/
def Sink.deliver (sink : Sink) (printed : Array UInt64) : List UInt64 :=
  match sink with
  | capture => printed.toList
  | discard => []

namespace Vm

def step : Vm → Transition Vm
  | ⟨config, none⟩ => ⟨.error .notInitialized, none, ⟨config, none⟩⟩
  | ⟨config, some machine⟩ =>
      let transition := machine.step
      ⟨transition.result, transition.printed?, ⟨config, some transition.state⟩⟩

/-- Runs to the end; see `Machine.execute`. -/
def execute (fuel : Nat) : Vm → Option (Execution Vm)
  | ⟨config, none⟩ => some ⟨.error .notInitialized, #[], ⟨config, none⟩⟩
  | ⟨config, some machine⟩ => do
      let execution ← machine.execute fuel #[]
      return ⟨execution.result, execution.printed, ⟨config, some execution.state⟩⟩

/-- Takes up to `budget` steps after those of an earlier slice. -/
def runFrom (calls : Nat) (printed : Array UInt64) : (budget : Nat) → Vm → Run
  | 0, vm => ⟨.ok none, calls, printed, vm⟩
  | budget + 1, vm =>
      let transition := vm.step
      let printed := record printed transition.printed?
      match transition.result with
      | .error error => ⟨.error error, calls + 1, printed, transition.state⟩
      | .ok .running => runFrom (calls + 1) printed budget transition.state
      | .ok status => ⟨.ok (some status), calls + 1, printed, transition.state⟩

/-- Takes steps until the program is over, one fails, or `budget` of them are taken. -/
def run (budget : Nat) (vm : Vm) : Run := runFrom 0 #[] budget vm

def observe (before : Vm) (transition : Transition Vm) : Observation where
  ip := before.ip
  entry? := before.current?
  stackBefore := before.stack
  result := transition.result
  printed? := transition.printed?
  ipAfter := transition.state.ip
  stackAfter := transition.state.stack
  callsAfter := transition.state.callDepth

/-- Takes up to `budget` steps and adds what can be seen of them to earlier observations. -/
def traceFrom (observations : Array Observation) : (budget : Nat) → Vm → Array Observation × Vm
  | 0, vm => (observations, vm)
  | budget + 1, vm =>
      let transition := vm.step
      let observations := observations.push (vm.observe transition)
      match transition.result with
      | .ok .running => traceFrom observations budget transition.state
      | _ => (observations, transition.state)

/-- A run like `Vm.run` that notes what can be seen of each step. -/
def trace (budget : Nat) (vm : Vm) : Array Observation × Vm := traceFrom #[] budget vm

end Vm

end StackMachine
