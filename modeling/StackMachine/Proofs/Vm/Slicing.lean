import StackMachine.Proofs.Machine.Refinement
import StackMachine.Proofs.Vm.Coherence
import StackMachine.Proofs.Vm.Rest

/-!
# Execution in slices

An execution takes steps up to the first one that does not leave the program running, and so does a
host that runs slices of bounded length and executes what is left.  Where the slices end makes no
difference, because a slice that spends its budget stops between two steps and nothing but the
instance goes from one slice to the next.

An execution that succeeds has stopped behind END or at the end of the bytecode.  Only the second is
final: behind END the program can be resumed.
-/

namespace StackMachine

open Transition

/-- An execution that follows on what was printed before it. -/
def Execution.prepend {State : Type} (printed : Array UInt64) (execution : Execution State) :
    Execution State :=
  { execution with printed := printed ++ execution.printed }

namespace Machine

variable {machine : Machine} {code : Bytes}

/-- A step that ends the program is END or leaves no byte to go on with. -/
theorem step_of_ne_running {status : Status} (loaded : machine.code? = some code)
    (completes : machine.step.result = .ok status) (stops : status ≠ .running) :
    code.length ≤ machine.step.state.ip ∨
      machine.step.result = .ok .halted ∧ code[machine.ip]? = some Opcode.halt.byte ∧
        machine.step.state.ip = machine.ip + 1 := by
  revert completes
  apply step_cases (motive := fun transition => transition.result = .ok status →
    code.length ≤ transition.state.ip ∨
      transition.result = .ok .halted ∧ code[machine.ip]? = some Opcode.halt.byte ∧
        transition.state.ip = machine.ip + 1) loaded
  · intro past _
    exact Or.inl past
  · intro _ _ _ fails
    contradiction
  · intro _ _ _ _ fails
    contradiction
  · intro entry decoded _ completes
    by_cases halts : entry.opcode = .halt
    · right
      rcases Listing.decodeAt_eq_ok_iff.mp decoded with ⟨place, _, rest, stands⟩
      rw [Entry.encode_of_no_operandKind (by rw [halts]; rfl), halts] at stands
      refine ⟨by simp [Entry.statusAfter, halts], ?_, ?_⟩
      · rw [← List.head?_drop, ← stands]
        rfl
      · simp only [Entry.machineAfter, Entry.ipAfter, halts, Entry.next, place]
        rfl
    · left
      by_contra inside
      simp only [Entry.machineAfter] at inside
      simp only [Entry.statusAfter, halts, inside, if_false, Except.ok.injEq] at completes
      exact stops completes.symm

end Machine

namespace Vm

/-- Runs slices with the given budgets, and executes what they leave.  The first slice that does not
end by its budget ends the whole. -/
def executeSliced (fuel : Nat) : (budgets : List Nat) → Vm → Option (Execution Vm)
  | [], vm => vm.execute fuel
  | budget :: budgets, vm =>
      let slice := vm.run budget
      match slice.outcome with
      | .error error => some ⟨.error error, slice.printed, slice.vm⟩
      | .ok (some _) => some ⟨.ok (), slice.printed, slice.vm⟩
      | .ok none => (executeSliced fuel budgets slice.vm).map (·.prepend slice.printed)

section Slices

variable {vm : Vm} {calls budget count : Nat} {printed : Array UInt64}

theorem runFrom_of_runs (runs : vm.Runs budget) :
    vm.runFrom calls printed budget =
      ⟨.ok none, calls + budget, printed ++ (vm.printed budget).toArray, vm.after budget⟩ := by
  induction budget generalizing vm calls printed with
  | zero => simp [runFrom, Transition.printed, Transition.after]
  | succ budget ih =>
      rcases runs with ⟨running, runs⟩
      simp only [runFrom, running, ih runs, record_eq_append, Transition.printed, Transition.after,
        List.append_toArray, Array.append_assoc, Nat.add_assoc, Nat.add_comm 1]

theorem runFrom_of_stops (bound : count < budget) (runs : vm.Runs count)
    (stops : (vm.after count).step.result ≠ .ok .running) :
    vm.runFrom calls printed budget =
      ⟨(vm.after count).step.result.map some, calls + (count + 1),
        printed ++ (vm.printed (count + 1)).toArray, vm.after (count + 1)⟩ := by
  induction count generalizing vm budget calls printed with
  | zero =>
      rcases budget with _ | budget
      · omega
      · simp only [Transition.after] at stops
        simp only [runFrom, record_eq_append, Transition.after, Transition.printed, List.append_nil]
        rcases result : vm.step.result with error | status
        · rfl
        · cases status with
          | running => exact absurd result stops
          | halted => rfl
          | endOfProgram => rfl
  | succ count ih =>
      rcases budget with _ | budget
      · omega
      · rcases runs with ⟨running, runs⟩
        simp only [runFrom, running, ih (Nat.lt_of_succ_lt_succ bound) runs stops,
          record_eq_append, Transition.printed, Transition.after, List.append_toArray,
          Array.append_assoc, Nat.add_assoc, Nat.add_comm 1]

/-- A slice takes all the steps of its budget if they leave the program running, and otherwise stops
at the first one that does not. -/
theorem run_spends_or_stops (vm : Vm) (budget : Nat) :
    vm.Runs budget ∧
        vm.run budget = ⟨.ok none, budget, (vm.printed budget).toArray, vm.after budget⟩ ∨
      ∃ count, count < budget ∧ vm.Runs count ∧ (vm.after count).step.result ≠ .ok .running ∧
        vm.run budget = ⟨(vm.after count).step.result.map some, count + 1,
          (vm.printed (count + 1)).toArray, vm.after (count + 1)⟩ := by
  by_cases runs : vm.Runs budget
  · left
    refine ⟨runs, ?_⟩
    simp only [run, runFrom_of_runs runs, Nat.zero_add, Array.empty_append]
  · right
    rcases exists_stop_lt runs with ⟨count, bound, before, stops⟩
    refine ⟨count, bound, before, stops, ?_⟩
    simp only [run, runFrom_of_stops bound before stops, Nat.zero_add, Array.empty_append]

end Slices

variable {vm : Vm} {machine : Machine} {code : Bytes}

theorem execute_add (live : vm.machine? = some machine) {count : Nat} (runs : vm.Runs count)
    (fuel : Nat) :
    vm.execute (count + fuel) =
      ((vm.after count).execute fuel).map (·.prepend (vm.printed count).toArray) := by
  apply Option.ext
  intro execution
  simp only [Option.map_eq_some_iff, execute_eq_some_iff live,
    execute_eq_some_iff (congrArg Vm.machine? (after_live live count))]
  constructor
  · rintro ⟨total, bound, all, stops, rfl⟩
    have further : count ≤ total := by
      by_contra earlier
      exact stops ((runs_iff step).mp runs total (by omega))
    rcases Nat.exists_eq_add_of_le further with ⟨more, rfl⟩
    rw [after, after_add] at stops
    refine ⟨_, ⟨more, by omega, ((runs_add step).mp all).2, stops, rfl⟩, ?_⟩
    exact (stop_add step count more vm).symm
  · rintro ⟨_, ⟨more, bound, rest, stops, rfl⟩, rfl⟩
    rw [after, ← after_add] at stops
    refine ⟨count + more, by omega, (runs_add step).mpr ⟨runs, rest⟩, stops, ?_⟩
    exact (stop_add step count more vm).symm

/-- Slices take the same steps as one execution with all their budgets. -/
theorem executeSliced_eq (live : vm.machine? = some machine) (fuel : Nat) (budgets : List Nat) :
    vm.executeSliced fuel budgets = vm.execute (budgets.sum + fuel) := by
  induction budgets generalizing vm machine with
  | nil => simp [executeSliced]
  | cons budget budgets ih =>
      rw [List.sum_cons, Nat.add_assoc, executeSliced]
      rcases run_spends_or_stops vm budget with
        ⟨runs, spent⟩ | ⟨count, bound, runs, stops, stopped⟩
      · simp only [spent, ih (congrArg Vm.machine? (after_live live budget)),
          execute_add live runs]
      · have ended : vm.execute (budget + (budgets.sum + fuel)) = some (stop step count vm) :=
          (execute_eq_some_iff live).mpr ⟨count, by omega, runs, stops, rfl⟩
        simp only [stopped, ended, stop]
        cases (vm.after count).step.result <;> rfl

theorem exists_execute_iff (live : vm.machine? = some machine) :
    (∃ fuel execution, vm.execute fuel = some execution) ↔
      ∃ count, (vm.after count).step.result ≠ .ok .running := by
  constructor
  · rintro ⟨fuel, execution, finished⟩
    rcases (execute_eq_some_iff live).mp finished with ⟨count, _, _, stops, _⟩
    exact ⟨count, stops⟩
  · rintro ⟨index, stops⟩
    rcases exists_stop stops with ⟨count, _, runs, stops⟩
    refine ⟨count + 1, stop step count vm, ?_⟩
    exact (execute_eq_some_iff live).mpr ⟨count, by omega, runs, stops, rfl⟩

theorem execute_of_le {fuel more : Nat} {execution : Execution Vm} (enough : fuel ≤ more)
    (finished : vm.execute fuel = some execution) : vm.execute more = some execution := by
  induction enough with
  | refl => exact finished
  | step _ ih => exact execute_succ ih

theorem executeSliced_iff (live : vm.machine? = some machine) {budgets : List Nat}
    {execution : Execution Vm} :
    (∃ fuel, vm.executeSliced fuel budgets = some execution) ↔
      ∃ fuel, vm.execute fuel = some execution := by
  simp only [executeSliced_eq live]
  constructor
  · rintro ⟨fuel, finished⟩
    exact ⟨_, finished⟩
  · rintro ⟨fuel, finished⟩
    exact ⟨fuel, execute_of_le (by omega) finished⟩

theorem Coherent.step_of_ne_running {status : Status} (coherent : vm.Coherent)
    (live : vm.machine? = some machine) (loaded : machine.code? = some code)
    (completes : vm.step.result = .ok status) (stops : status ≠ .running) :
    vm.step.state.ip = code.length ∨
      vm.step.result = .ok .halted ∧ code[vm.ip]? = some Opcode.halt.byte ∧
        vm.step.state.ip = vm.ip + 1 := by
  have here : vm.ip = machine.ip := by simp [ip, live]
  rw [step_live live] at completes
  rw [step_live live, here]
  rcases Machine.step_of_ne_running loaded completes stops with past | ends
  · left
    have within := (coherent machine live).step.ip_le
    rw [Machine.code, Machine.code?_step, loaded] at within
    exact Nat.le_antisymm within past
  · exact Or.inr ends

/-- An execution that succeeds ends at the end of the bytecode, or right behind END. -/
theorem Coherent.place_of_execute {fuel : Nat} {printed : Array UInt64} {final : Vm}
    (coherent : vm.Coherent) (live : vm.machine? = some machine)
    (loaded : machine.code? = some code)
    (succeeds : vm.execute fuel = some ⟨.ok (), printed, final⟩) :
    final.ip = code.length ∨
      ∃ count, vm.Runs count ∧ (vm.after count).step.result = .ok .halted ∧
        code[(vm.after count).ip]? = some Opcode.halt.byte ∧ final = vm.after (count + 1) ∧
        final.ip = (vm.after count).ip + 1 := by
  rcases (execute_eq_some_iff live).mp succeeds with ⟨count, _, runs, stops, ended⟩
  simp only [stop, Execution.mk.injEq] at ended
  rcases ended with ⟨result, _, place⟩
  have reached : final = (vm.after count).step.state := place.trans (vm.after_succ count)
  rcases loaded_after live loaded count with ⟨later, laterLive, laterLoaded⟩
  cases completes : (vm.after count).step.result with
  | error error =>
      rw [completes] at result
      contradiction
  | ok status =>
      have stopped : status ≠ .running := by
        rintro rfl
        exact stops completes
      rcases (coherent.after count).step_of_ne_running laterLive laterLoaded completes stopped with
        ends | ⟨halts, byte, next⟩
      · left
        rw [reached]
        exact ends
      · right
        refine ⟨count, runs, halts, byte, place, ?_⟩
        rw [reached]
        exact next

theorem rests_of_ip_eq (live : vm.machine? = some machine) (loaded : machine.code? = some code)
    (ended : vm.ip = code.length) : vm.Rests (.ok .endOfProgram) := by
  have here : vm.ip = machine.ip := by simp [ip, live]
  apply rests_of_step live
  · rw [step_live live, Machine.step_of_length_le loaded (by omega), ← live]
  · simp

/-- Executing is stepping up to the first step that ends the run, and can be interrupted anywhere: a
slice takes its steps and reports a spent budget only after the last of them, and slices of any
lengths come to the same end.  An execution that succeeds stops behind an END or at the end of the
bytecode, and the end of the bytecode is final until the instance is renewed. -/
theorem execute_interruptible (live : vm.machine? = some machine)
    (loaded : machine.code? = some code) :
    ((∃ fuel execution, vm.execute fuel = some execution) ↔
      ∃ count, (vm.after count).step.result ≠ .ok .running) ∧
    (∀ execution, (∃ fuel, vm.execute fuel = some execution) ↔
      ∃ count, vm.Runs count ∧ (vm.after count).step.result ≠ .ok .running ∧
        execution = ⟨(vm.after count).step.result.map fun _ => (),
          (vm.printed (count + 1)).toArray, vm.after (count + 1)⟩) ∧
    (∀ budget, vm.Runs budget ∧
        vm.run budget = ⟨.ok none, budget, (vm.printed budget).toArray, vm.after budget⟩ ∨
      ∃ count, count < budget ∧ vm.Runs count ∧ (vm.after count).step.result ≠ .ok .running ∧
        vm.run budget = ⟨(vm.after count).step.result.map some, count + 1,
          (vm.printed (count + 1)).toArray, vm.after (count + 1)⟩) ∧
    (∀ budgets execution, (∃ fuel, vm.executeSliced fuel budgets = some execution) ↔
      ∃ fuel, vm.execute fuel = some execution) ∧
    (vm.Reachable → ∀ fuel printed final, vm.execute fuel = some ⟨.ok (), printed, final⟩ →
      final.ip = code.length ∨
        ∃ count, vm.Runs count ∧ (vm.after count).step.result = .ok .halted ∧
          code[(vm.after count).ip]? = some Opcode.halt.byte ∧ final = vm.after (count + 1) ∧
          final.ip = (vm.after count).ip + 1) ∧
    (vm.ip = code.length → vm.Rests (.ok .endOfProgram) ∧
      ∀ events last, vm.History events last → (∀ event ∈ events, event.renews = false) →
        last = vm ∧ ∀ event ∈ events, event.Repeats (.ok .endOfProgram)) := by
  refine ⟨exists_execute_iff live, ?_, run_spends_or_stops vm, ?_, ?_, ?_⟩
  · intro execution
    constructor
    · rintro ⟨fuel, finished⟩
      rcases (execute_eq_some_iff live).mp finished with ⟨count, _, runs, stops, same⟩
      exact ⟨count, runs, stops, same⟩
    · rintro ⟨count, runs, stops, same⟩
      exact ⟨count + 1, (execute_eq_some_iff live).mpr ⟨count, by omega, runs, stops, same⟩⟩
  · intro budgets execution
    exact executeSliced_iff live
  · intro reachable fuel printed final succeeds
    have coherent : vm.Coherent := fun _ present => coherent_of_reachable reachable present
    exact coherent.place_of_execute live loaded succeeds
  · intro ended
    have rests := rests_of_ip_eq live loaded ended
    refine ⟨rests, ?_⟩
    intro events last history quiet
    exact rests.history history quiet

/-- An instance with END in the middle of its program, before the PRINT of a seven. -/
def resuming : Vm :=
  ((Vm.mk ⟨8, 1, 1⟩ (some (.ofConfig ⟨8, 1, 1⟩))).load .unlimited
    (Opcode.push.encode (some 7) ++ Opcode.halt.encode none ++ Opcode.print.encode none)).vm

theorem reachable_resuming : resuming.Reachable :=
  ⟨.unlimited, ⟨8, 1, 1⟩, _, _, rfl, History.nil.snoc (.load _ _ _)⟩

/-- A slice of one step ends before the END.  Slices stop behind END as an execution does, and one
more step reaches the end for good. -/
theorem sliced_resuming :
    resuming.run 1 = ⟨.ok none, 1, #[], resuming.after 1⟩ ∧
      (∃ fuel, resuming.executeSliced fuel [1, 0] = some ⟨.ok (), #[], resuming.after 2⟩) ∧
      (∃ count, (resuming.after count).step.result = .ok .halted ∧
        (resuming.after 2).ip = (resuming.after count).ip + 1) ∧
      (resuming.after 2).execute 1 = some ⟨.ok (), #[7], resuming.after 3⟩ ∧
      (resuming.after 3).Rests (.ok .endOfProgram) := by
  have executed : resuming.execute 2 = some ⟨.ok (), #[], resuming.after 2⟩ := rfl
  have start : resuming.machine? = some (resuming.machine?.get rfl) := rfl
  have final : (resuming.after 3).machine? = some ((resuming.after 3).machine?.get rfl) := rfl
  rcases execute_interruptible start rfl with ⟨_, _, takes, slices, places, _⟩
  rcases execute_interruptible final rfl with ⟨_, _, _, _, _, rests⟩
  refine ⟨?_, (slices _ _).mpr ⟨2, executed⟩, ?_, rfl, (rests rfl).1⟩
  · rcases takes 1 with ⟨_, spent⟩ | ⟨count, bound, _, stops, _⟩
    · exact spent
    · rcases Nat.lt_one_iff.mp bound with rfl
      exact absurd rfl stops
  · rcases places reachable_resuming _ _ _ executed with ended | ⟨count, _, halts, _, _, behind⟩
    · contradiction
    · exact ⟨count, halts, behind⟩

end Vm

end StackMachine
