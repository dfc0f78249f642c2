import StackMachine.Proofs.Machine.Stepping

/-!
# Histories of instances

A host makes calls on an instance in any order and with any arguments.  An `Event` is a call
together with what the host sees of it, and a history is a sequence of events that leads from one
state of an instance to another.  Each call that acquires buffers has an allocator of its own, so
every pattern of refusals occurs in some history.  An execution that never ends is not an event,
since the host gets nothing back from it.

Events that give the instance neither a new life nor a new program amount to steps.
-/

namespace StackMachine

/-- A call on an instance and what is seen of it. -/
inductive Event where
  | rearm (config : Config) (result : Except Error Unit)
  | destroy
  | load (code : Bytes) (result : Except Error Unit)
  | step (result : Except Error Status) (printed? : Option UInt64)
  | execute (result : Except Error Unit) (printed : Array UInt64)

/-- Whether an event ends the life of the instance, starts a new one or installs a program. -/
def Event.renews : Event → Bool
  | rearm _ (.ok _) | destroy | load _ (.ok _) => true
  | _ => false

/-- The error that a step or an execution ends in. -/
def Event.stepError? : Event → Option Error
  | step (.error error) _ | execute (.error error) _ => some error
  | _ => none

namespace Vm

/-- A call takes an instance from one state to another and is seen as an event. -/
inductive Does : Vm → Event → Vm → Prop where
  | rearm (allocator : Allocator) (config : Config) (vm : Vm) :
      Does vm (.rearm config (vm.rearm allocator config).result) (vm.rearm allocator config).vm
  | destroy (vm : Vm) : Does vm .destroy vm.destroy
  | load (allocator : Allocator) (code : Bytes) (vm : Vm) :
      Does vm (.load code (vm.load allocator code).result) (vm.load allocator code).vm
  | step (vm : Vm) : Does vm (.step vm.step.result vm.step.printed?) vm.step.state
  | execute {vm : Vm} {fuel : Nat} {execution : Execution Vm}
      (finished : vm.execute fuel = some execution) :
      Does vm (.execute execution.result execution.printed) execution.state

/-- Events, in the order in which they happen, between two states of an instance. -/
inductive History (first : Vm) : List Event → Vm → Prop where
  | nil : History first [] first
  | snoc {last next : Vm} {events : List Event} {event : Event}
      (history : History first events last) (does : Does last event next) :
      History first (events ++ [event]) next

/-- The states of instances that were created at some time. -/
def Reachable (vm : Vm) : Prop :=
  ∃ allocator config start events, create allocator config = .ok start ∧ History start events vm

theorem vm_of_rearm_error {vm : Vm} {allocator : Allocator} {config : Config} {error : Error}
    (refused : (vm.rearm allocator config).result = .error error) :
    (vm.rearm allocator config).vm = vm := by
  unfold rearm at refused ⊢
  split
  · rfl
  · split
    · rfl
    · simp_all

theorem vm_of_load_error {vm : Vm} {allocator : Allocator} {code : Bytes} {error : Error}
    (refused : (vm.load allocator code).result = .error error) :
    (vm.load allocator code).vm = vm := by
  unfold load at refused ⊢
  split
  · rfl
  · split
    · rfl
    · simp_all

theorem vm_of_load_ok {vm : Vm} {allocator : Allocator} {code : Bytes}
    (installed : (vm.load allocator code).result = .ok ()) :
    ∃ machine, vm.machine? = some machine ∧
      (vm.load allocator code).vm = { vm with machine? := some (machine.load code) } := by
  unfold load at installed ⊢
  split
  · simp_all
  · rename_i machine live
    refine ⟨machine, live, ?_⟩
    split
    · simp_all
    · rfl

theorem state_of_execute {vm : Vm} {fuel : Nat} {execution : Execution Vm}
    (finished : vm.execute fuel = some execution) : ∃ count, execution.state = vm.after count := by
  cases live : vm.machine? with
  | none =>
      rw [execute_destroyed live] at finished
      exact ⟨0, by rw [← Option.some.inj finished]; rfl⟩
  | some machine =>
      rcases (execute_eq_some_iff live).mp finished with ⟨count, _, _, _, rfl⟩
      exact ⟨count + 1, rfl⟩

theorem Does.exists_after {before next : Vm} {event : Event} (does : before.Does event next)
    (quiet : event.renews = false) : ∃ count, next = before.after count := by
  cases does with
  | rearm allocator config _ =>
      cases result : (before.rearm allocator config).result with
      | ok _ => simp [result, Event.renews] at quiet
      | error error => exact ⟨0, vm_of_rearm_error result⟩
  | destroy _ => simp [Event.renews] at quiet
  | load allocator code _ =>
      cases result : (before.load allocator code).result with
      | ok _ => simp [result, Event.renews] at quiet
      | error error => exact ⟨0, vm_of_load_error result⟩
  | step _ => exact ⟨1, rfl⟩
  | execute finished => exact state_of_execute finished

/-- Without a renewal, all that happened to an instance is some number of steps. -/
theorem History.exists_after {first last : Vm} {events : List Event}
    (history : first.History events last) (quiet : ∀ event ∈ events, event.renews = false) :
    ∃ count, last = first.after count := by
  induction history with
  | nil => exact ⟨0, rfl⟩
  | snoc history does ih =>
      rcases ih (fun event member => quiet event (by simp [member])) with ⟨before, rfl⟩
      rcases does.exists_after (quiet _ (by simp)) with ⟨more, rfl⟩
      exact ⟨before + more, (Transition.after_add step before more _).symm⟩

theorem Does.exists_step_error {before next : Vm} {event : Event} {error : Error}
    (does : before.Does event next) (reports : event.stepError? = some error) :
    ∃ count, (before.after count).step.result = .error error := by
  cases does with
  | step _ =>
      refine ⟨0, ?_⟩
      change before.step.result = .error error
      cases result : before.step.result with
      | ok status => simp [Event.stepError?, result] at reports
      | error found => simp_all [Event.stepError?]
  | @execute _ fuel execution finished =>
      rcases execution with ⟨result | result, printed, final⟩
      · cases Option.some.inj reports
        cases live : before.machine? with
        | none =>
            rw [execute_destroyed live] at finished
            cases finished
            exact ⟨0, congrArg Transition.result (step_destroyed live)⟩
        | some machine =>
            rcases step_error_of_execute live finished with ⟨count, _, fails, _⟩
            exact ⟨count, fails⟩
      · contradiction
  | _ => contradiction

/-- Without a renewal, each error that is seen was found by a step on the way. -/
theorem History.exists_step_error {first last : Vm} {events : List Event}
    (history : first.History events last) (quiet : ∀ event ∈ events, event.renews = false)
    {event : Event} {error : Error} (member : event ∈ events)
    (reports : event.stepError? = some error) :
    ∃ count, (first.after count).step.result = .error error := by
  induction history with
  | nil => contradiction
  | snoc history does ih =>
      have calm := fun event member => quiet event (List.mem_append_left _ member)
      rcases List.mem_append.mp member with earlier | latest
      · exact ih calm earlier
      · rw [List.mem_singleton.mp latest] at reports
        rcases history.exists_after calm with ⟨before, rfl⟩
        rcases does.exists_step_error reports with ⟨more, fails⟩
        refine ⟨before + more, ?_⟩
        rw [after, Transition.after_add]
        exact fails

end Vm

end StackMachine
