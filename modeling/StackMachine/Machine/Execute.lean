import StackMachine.Machine.Step

/-!
# Running to the end

`execute` repeats `step` until the program halts, its end is reached or an instruction traps.
Programs may run forever, so the number of steps is bounded by an argument, and a run that uses it
up has no answer rather than a wrong one.
-/

namespace StackMachine.Machine

/-- Runs for at most `fuel` steps, adding the printed values to those before the run.  There is no
answer when the run is not over by then. -/
def execute : (fuel : Nat) → (printed : Array UInt64) → Machine → Option (Execution Machine)
  | 0, _, _ => none
  | fuel + 1, printed, machine =>
      let transition := machine.step
      let printed := record printed transition.printed?
      match transition.result with
      | .ok .running => execute fuel printed transition.state
      | .ok _ => some ⟨.ok (), printed, transition.state⟩
      | .error error => some ⟨.error error, printed, transition.state⟩

end StackMachine.Machine
