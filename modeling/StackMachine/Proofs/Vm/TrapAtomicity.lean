import StackMachine.Proofs.Machine.Refinement
import StackMachine.Proofs.Vm.Rest

/-!
# Traps change nothing

An instruction that traps leaves no trace: the instance after the step is the instance before it.
The step undoes nothing but the offset, so this holds because no instruction has an action that
fails behind one that changes something else.  So the trap repeats, however often the host tries to
go on, and an execution that traps ends in the state after the last instruction that completed.

Only an event that renews the instance can get it past the trap.
-/

namespace StackMachine

/-- An event that tries to go on meets `error` and prints nothing. -/
def Event.FailsWith (error : Error) : Event → Prop
  | step result printed? => result = .error error ∧ printed? = none
  | execute result printed => result = .error error ∧ printed = #[]
  | _ => True

theorem Event.failsWith_of_repeats {error : Error} {event : Event}
    (repeats : event.Repeats (.error error)) : event.FailsWith error := by
  cases event with
  | step _ _ | execute _ _ => exact repeats
  | _ => trivial

namespace Machine

/-- An instruction that traps has changed nothing but the offset by then. -/
theorem work_of_trap {machine : Machine} {code rest : Bytes} {byte : UInt8} {cause : Trap}
    {work : Work} (loaded : machine.code? = some code)
    (here : code.drop machine.ip = byte :: rest)
    (traps : Action.perform byte machine.opened = .error cause work) :
    work.printed? = none ∧ { work.machine with ip := machine.ip } = machine := by
  rcases perform_opened loaded here with ⟨found, _, performed⟩ | ⟨entry, _, performed⟩
  · rcases EStateM.Result.error.inj (performed.symm.trans traps) with ⟨_, rfl⟩
    exact ⟨rfl, rfl⟩
  · have settled := performed.symm.trans traps
    rw [Check.settle] at settled
    cases fault : Check.fault? (entry.checks machine code.length) with
    | none => simp [fault] at settled
    | some found =>
        rw [fault] at settled
        rcases EStateM.Result.error.inj settled with ⟨_, rfl⟩
        exact ⟨rfl, rfl⟩

theorem step_of_result_error {machine : Machine} {error : Error}
    (fails : machine.step.result = .error error) :
    machine.step = ⟨.error error, none, machine⟩ := by
  cases loaded : machine.code? with
  | none =>
      rw [step_of_code?_none loaded] at fails ⊢
      rw [Except.error.inj fails]
  | some code =>
      by_cases inside : machine.ip < code.length
      · have here := List.drop_eq_getElem_cons inside
        rw [step_eq_finish loaded here] at fails ⊢
        cases outcome : Action.perform code[machine.ip] machine.opened with
        | ok flow work =>
            rw [outcome] at fails
            contradiction
        | error cause work =>
            rw [outcome] at fails
            rcases work_of_trap loaded here outcome with ⟨silent, kept⟩
            rw [finish, silent, kept, Except.error.inj fails]
      · rw [step_of_length_le loaded (Nat.not_lt.mp inside)] at fails
        contradiction

theorem ip?_of_step_error {machine : Machine} {code : Bytes} {error : Error}
    (loaded : machine.code? = some code) (fails : machine.step.result = .error error) :
    error.ip? = some machine.ip := by
  revert fails
  apply step_cases (motive := fun transition => transition.result = .error error →
    error.ip? = some machine.ip) loaded
  · intro _ fails
    contradiction
  · intro found _ undecodable fails
    rw [← Except.error.inj fails]
    exact Entry.ip?_of_decode_error undecodable
  · intro entry cause _ _ fails
    rw [← Except.error.inj fails]
    rfl
  · intro entry _ _ fails
    contradiction

end Machine

namespace Vm

/-- Each attempt to go on ends in the same error at the current offset and changes nothing. -/
structure TrapsWith (vm : Vm) (error : Error) : Prop where
  step_eq : vm.step = ⟨.error error, none, vm⟩
  execute_eq : ∀ fuel, vm.execute (fuel + 1) = some ⟨.error error, #[], vm⟩
  ip?_eq : error.ip? = some vm.ip

theorem trapsWith_of_step_error {vm : Vm} {machine : Machine} {code : Bytes} {error : Error}
    (live : vm.machine? = some machine) (loaded : machine.code? = some code)
    (fails : vm.step.result = .error error) : vm.TrapsWith error := by
  rw [step_live live] at fails
  have stepped : vm.step = ⟨.error error, none, vm⟩ := by
    rw [step_live live, Machine.step_of_result_error fails, ← live]
  have place : error.ip? = some vm.ip := by
    simpa [ip, live] using Machine.ip?_of_step_error loaded fails
  have rests := rests_of_step live stepped (by simp)
  exact ⟨rests.step_eq, rests.execute_eq, place⟩

/-- A trap outlasts every history without a renewal, and each of its events meets it. -/
theorem TrapsWith.history {vm last : Vm} {error : Error} {events : List Event}
    (traps : vm.TrapsWith error) (history : vm.History events last)
    (quiet : ∀ event ∈ events, event.renews = false) :
    last = vm ∧ ∀ event ∈ events, event.FailsWith error := by
  have rests : vm.Rests (.error error) := ⟨traps.step_eq, traps.execute_eq⟩
  rcases rests.history history quiet with ⟨place, repeated⟩
  refine ⟨place, ?_⟩
  intro event member
  exact Event.failsWith_of_repeats (repeated event member)

/-- An execution that ends in an error ran some instructions to their end, printed their values, and
stands before the one that cannot complete. -/
theorem runs_of_execute_error {vm final : Vm} {machine : Machine} {code : Bytes} {fuel : Nat}
    {error : Error} {printed : Array UInt64} (live : vm.machine? = some machine)
    (loaded : machine.code? = some code)
    (failed : vm.execute fuel = some ⟨.error error, printed, final⟩) :
    ∃ count, vm.Runs count ∧ final = vm.after count ∧ printed.toList = vm.printed count ∧
      final.TrapsWith error := by
  rcases step_error_of_execute live failed with ⟨count, runs, fails, values, place⟩
  rcases loaded_after live loaded count with ⟨later, laterLive, laterLoaded⟩
  have traps := trapsWith_of_step_error laterLive laterLoaded fails
  have fixed : vm.after (count + 1) = vm.after count := by
    rw [after_succ, traps.step_eq]
  have silent : vm.printed (count + 1) = vm.printed count := by
    rw [printed_succ, traps.step_eq, Option.toList_none, List.append_nil]
  rcases place.trans fixed with rfl
  refine ⟨count, runs, rfl, ?_, traps⟩
  rw [values]
  exact silent

/-- A trap is atomic and final: a step that fails changes nothing and fails again in the same way,
and an execution that fails stops right before the instruction at fault, where every attempt to go
on fails in the same way until the instance is renewed. -/
theorem trap_atomicity {vm : Vm} {machine : Machine} {code : Bytes}
    (live : vm.machine? = some machine) (loaded : machine.code? = some code) :
    (∀ error, vm.step.result = .error error → vm.TrapsWith error) ∧
      ∀ fuel error printed final, vm.execute fuel = some ⟨.error error, printed, final⟩ →
        ∃ count, vm.Runs count ∧ final = vm.after count ∧ printed.toList = vm.printed count ∧
          final.TrapsWith error ∧
          ∀ events last, final.History events last → (∀ event ∈ events, event.renews = false) →
            last = final ∧ ∀ event ∈ events, event.FailsWith error := by
  constructor
  · intro error fails
    exact trapsWith_of_step_error live loaded fails
  · intro fuel error printed final failed
    rcases runs_of_execute_error live loaded failed with ⟨count, runs, place, values, traps⟩
    refine ⟨count, runs, place, values, traps, ?_⟩
    intro events last history quiet
    exact traps.history history quiet

/-- An instance that prints five and then divides it by zero. -/
def dividing : Vm where
  config := ⟨8, 2, 1⟩
  machine? := some ((Machine.ofConfig ⟨8, 2, 1⟩).load
    (Opcode.push.encode (some 5) ++ Opcode.print.encode none ++ Opcode.push.encode (some 0) ++
      Opcode.div.encode none))

/-- The division by zero stops the execution for good, and both its operands stay. -/
theorem execute_dividing :
    ∃ final, dividing.execute 4 = some ⟨.error (.trap 19 .divideByZero), #[5], final⟩ ∧
      final.stack = [5, 0] ∧ final.TrapsWith (.trap 19 .divideByZero) := by
  have failed : dividing.execute 4 =
      some ⟨.error (.trap 19 .divideByZero), #[5], dividing.after 3⟩ := rfl
  rcases (trap_atomicity rfl rfl).2 _ _ _ _ failed with ⟨_, _, _, _, traps, _⟩
  exact ⟨_, failed, rfl, traps⟩

end Vm

end StackMachine
