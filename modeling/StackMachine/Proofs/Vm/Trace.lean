import StackMachine.Proofs.Vm.Accounting

/-!
# What a trace sees

A trace takes the steps of the run and notes what can be seen before and after each.  It ends with
the step that ends the run, so that it sees every instruction that the run completes.  Where the
last step fails, it also sees the instruction that is at fault, if that one decodes.
-/

namespace StackMachine

open Transition

/-- An instruction and the operand stack before it. -/
abbrev Sighting := Entry × List UInt64

/-- The instruction that can be seen before a step. -/
def Observation.sighting? (observation : Observation) : Option Sighting :=
  observation.entry?.map fun entry => (entry, observation.stackBefore)

/-- A run has one step that ends it. -/
theorem Transition.stop_unique {State : Type} {step : State → Transition State} {state : State}
    {count other : Nat} (runs : Runs step count state)
    (stops : (step (after step count state)).result ≠ .ok .running)
    (otherRuns : Runs step other state)
    (otherStops : (step (after step other state)).result ≠ .ok .running) : other = count := by
  apply Nat.le_antisymm
  · by_contra later
    exact stops ((runs_iff step).mp otherRuns count (Nat.lt_of_not_le later))
  · by_contra earlier
    exact otherStops ((runs_iff step).mp runs other (Nat.lt_of_not_le earlier))

namespace Vm

/-- What can be seen of the next `count` steps, in order. -/
def observations (vm : Vm) (count : Nat) : List Observation :=
  (List.range count).map fun index => (vm.after index).observe (vm.after index).step

/-- The instructions that the next `count` steps complete, in order, each with the operand stack
before it. -/
def completions (vm : Vm) (count : Nat) : List Sighting :=
  (List.range count).filterMap fun index =>
    (vm.after index).completed?.map fun entry => (entry, (vm.after index).stack)

/-- The instruction that the next step fails to complete, if there is one and it decodes. -/
def faulting? (vm : Vm) : Option Sighting :=
  if vm.step.result.isOk then none else vm.current?.map fun entry => (entry, vm.stack)

variable {vm : Vm} {budget count : Nat} {seen : Array Observation}

theorem observations_succ (vm : Vm) (count : Nat) :
    vm.observations (count + 1) = vm.observe vm.step :: vm.step.state.observations count := by
  rw [observations, List.range_succ_eq_map, List.map_cons, List.map_map]
  rfl

theorem observations_concat (vm : Vm) (count : Nat) :
    vm.observations (count + 1) =
      vm.observations count ++ [(vm.after count).observe (vm.after count).step] := by
  rw [observations, List.range_succ, List.map_append]
  rfl

theorem completions_concat (vm : Vm) (count : Nat) :
    vm.completions (count + 1) = vm.completions count ++
      ((vm.after count).completed?.map fun entry => (entry, (vm.after count).stack)).toList := by
  rw [completions, List.range_succ, List.filterMap_append]
  cases completed : (vm.after count).completed? with
  | none => simp [completions, completed]
  | some entry => simp [completions, completed]

theorem map_fst_completions (vm : Vm) (count : Nat) :
    (vm.completions count).map Prod.fst = vm.completedWithin count := by
  rw [completions, List.map_filterMap]
  apply List.filterMap_congr
  intro index _
  cases (vm.after index).completed? <;> rfl

theorem executed_eq_length_completions (vm : Vm) (count : Nat) :
    (vm.after count).executed = vm.executed + UInt64.ofNat (vm.completions count).length := by
  rw [executed_after, ← map_fst_completions, List.length_map]

theorem traceFrom_of_runs (runs : vm.Runs budget) :
    vm.traceFrom seen budget = (seen ++ (vm.observations budget).toArray, vm.after budget) := by
  induction budget generalizing vm seen with
  | zero => simp [traceFrom, observations, Transition.after]
  | succ budget ih =>
      rcases runs with ⟨running, runs⟩
      simp only [traceFrom, running, ih runs, observations_succ, Transition.after,
        List.push_append_toArray]

theorem traceFrom_of_stops (bound : count < budget) (runs : vm.Runs count)
    (stops : (vm.after count).step.result ≠ .ok .running) :
    vm.traceFrom seen budget =
      (seen ++ (vm.observations (count + 1)).toArray, vm.after (count + 1)) := by
  induction count generalizing vm budget seen with
  | zero =>
      rcases budget with _ | budget
      · omega
      · simp only [Transition.after] at stops
        simp only [traceFrom, observations_succ, Transition.after]
        rcases result : vm.step.result with error | status
        · simp [observations]
        · cases status with
          | running => exact absurd result stops
          | halted => simp [observations]
          | endOfProgram => simp [observations]
  | succ count ih =>
      rcases budget with _ | budget
      · omega
      · rcases runs with ⟨running, runs⟩
        simp only [traceFrom, running, ih (Nat.lt_of_succ_lt_succ bound) runs stops]
        simp only [observations_succ vm (count + 1), Transition.after, List.push_append_toArray]

theorem record_observations (vm : Vm) (count : Nat) (values : Array UInt64) :
    (vm.observations count).foldl (fun printed seen => record printed seen.printed?) values =
      values ++ (vm.printed count).toArray := by
  induction count generalizing vm values with
  | zero => simp [observations, Transition.printed]
  | succ count ih =>
      have first : (vm.observe vm.step).printed? = vm.step.printed? := rfl
      rw [observations_succ, List.foldl_cons, ih, record_eq_append, first]
      simp only [Transition.printed, Array.append_assoc, List.append_toArray]

theorem sighting?_observe (vm : Vm) :
    (vm.observe vm.step).sighting?.toList =
      (vm.completed?.map fun entry => (entry, vm.stack)).toList ++ vm.faulting?.toList := by
  cases succeeds : vm.step.result.isOk with
  | false => simp [Observation.sighting?, observe, completed?, faulting?, succeeds]
  | true => simp [Observation.sighting?, observe, completed?, faulting?, succeeds]

theorem sighting?_of_ok {status : Status} (succeeds : vm.step.result = .ok status) :
    (vm.observe vm.step).sighting? = vm.completed?.map fun entry => (entry, vm.stack) := by
  rw [completed?_of_ok succeeds]
  rfl

/-- What is seen of a run are the instructions that it completes and the one that it ends in if that
one is at fault. -/
theorem sightings_of_runs (runs : vm.Runs count) :
    (vm.observations (count + 1)).filterMap Observation.sighting? =
      vm.completions (count + 1) ++ (vm.after count).faulting?.toList := by
  have earlier : (vm.observations count).filterMap Observation.sighting? =
      vm.completions count := by
    rw [observations, List.filterMap_map]
    apply List.filterMap_congr
    intro index member
    have running := (runs_iff step).mp runs index (List.mem_range.mp member)
    exact sighting?_of_ok running
  have last (observation : Observation) :
      [observation].filterMap Observation.sighting? = observation.sighting?.toList := by
    cases seen : observation.sighting? <;> simp [seen]
  rw [observations_concat, List.filterMap_append, earlier, last, sighting?_observe,
    completions_concat, List.append_assoc]

theorem toOption_peek (vm : Vm) : vm.peek.toOption = vm.stack.getLast? := by
  cases live : vm.machine? with
  | none => simp [peek, stack, live, Except.toOption]
  | some machine =>
      cases words : machine.stack.words with
      | nil =>
          simp [peek, stack, live, OperandStack.peek, OperandStack.pop, OperandStack.bottomFirst,
            words, Except.map, Except.mapError, Except.toOption]
      | cons top rest =>
          simp [peek, stack, live, OperandStack.peek, OperandStack.pop, OperandStack.bottomFirst,
            words, Except.map, Except.mapError, Except.toOption]

end Vm

end StackMachine
