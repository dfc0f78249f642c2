import StackMachine.Vm.Run

/-!
# Step after step

A run is a sequence of steps, each from the state that the one before it left.  This file names the
state after some number of steps and the values they print, and shows that an execution is such a
run: it stops at the first step that does not leave the program running.

Everything is stated for any system that takes steps, and used for machines and for instances.
-/

namespace StackMachine

namespace Transition

variable {State Image : Type} (step : State → Transition State)

/-- The state after `count` steps. -/
def after : (count : Nat) → State → State
  | 0, state => state
  | count + 1, state => after count (step state).state

/-- The values that `count` steps print. -/
def printed : (count : Nat) → State → List UInt64
  | 0, _ => []
  | count + 1, state => (step state).printed?.toList ++ printed count (step state).state

/-- Each of the next `count` steps completes and leaves the program running. -/
def Runs : (count : Nat) → State → Prop
  | 0, _ => True
  | count + 1, state => (step state).result = .ok .running ∧ Runs count (step state).state

/-- What an execution gives that ends with the step after `count` others. -/
def stop (count : Nat) (state : State) : Execution State where
  result := (step (after step count state)).result.map fun _ => ()
  printed := (printed step (count + 1) state).toArray
  state := after step (count + 1) state

theorem after_succ (count : Nat) (state : State) :
    after step (count + 1) state = (step (after step count state)).state := by
  induction count generalizing state with
  | zero => rfl
  | succ count ih => exact ih (step state).state

theorem after_add (count more : Nat) (state : State) :
    after step (count + more) state = after step more (after step count state) := by
  induction count generalizing state with
  | zero => rw [Nat.zero_add, after]
  | succ count ih => rw [Nat.succ_add, after, ih, after]

theorem printed_add (count more : Nat) (state : State) :
    printed step (count + more) state =
      printed step count state ++ printed step more (after step count state) := by
  induction count generalizing state with
  | zero => simp [printed, after]
  | succ count ih => rw [Nat.succ_add, printed, ih, printed, after, List.append_assoc]

theorem printed_succ (count : Nat) (state : State) :
    printed step (count + 1) state =
      printed step count state ++ (step (after step count state)).printed?.toList := by
  rw [printed_add]
  simp [printed]

theorem runs_iff {count : Nat} {state : State} :
    Runs step count state ↔
      ∀ index < count, (step (after step index state)).result = .ok .running := by
  induction count generalizing state with
  | zero => simp [Runs]
  | succ count ih =>
      rw [Runs, ih]
      constructor
      · rintro ⟨first, later⟩ index bound
        cases index with
        | zero => exact first
        | succ index => exact later index (by omega)
      · intro all
        exact ⟨all 0 (by omega), fun index bound => all (index + 1) (by omega)⟩

theorem runs_add {count more : Nat} {state : State} :
    Runs step (count + more) state ↔
      Runs step count state ∧ Runs step more (after step count state) := by
  induction count generalizing state with
  | zero => simp [Runs, after]
  | succ count ih => simp only [Nat.succ_add, Runs, after, ih, and_assoc]

theorem stop_add (count more : Nat) (state : State) :
    stop step (count + more) state =
      { stop step more (after step count state) with
        printed := (printed step count state).toArray ++
          (stop step more (after step count state)).printed } := by
  simp [stop, Nat.add_assoc, after_add, printed_add]

variable {step}

/-- Where a step does not leave the program running, a first such step is not later. -/
theorem exists_stop {index : Nat} {state : State}
    (stops : (step (after step index state)).result ≠ .ok .running) :
    ∃ count ≤ index, Runs step count state ∧
      (step (after step count state)).result ≠ .ok .running := by
  induction index generalizing state with
  | zero => exact ⟨0, Nat.le_refl 0, trivial, stops⟩
  | succ index ih =>
      by_cases running : (step state).result = .ok .running
      · rcases ih stops with ⟨count, bound, runs, found⟩
        exact ⟨count + 1, by omega, ⟨running, runs⟩, found⟩
      · exact ⟨0, by omega, trivial, running⟩

theorem exists_stop_lt {budget : Nat} {state : State} (ends : ¬ Runs step budget state) :
    ∃ count < budget, Runs step count state ∧
      (step (after step count state)).result ≠ .ok .running := by
  simp only [runs_iff, Classical.not_forall] at ends
  rcases ends with ⟨index, inside, stops⟩
  rcases exists_stop stops with ⟨count, bound, runs, found⟩
  exact ⟨count, by omega, runs, found⟩

/-- A property that each step keeps is kept by any number of steps. -/
theorem after_induction {motive : State → Prop}
    (keeps : ∀ state, motive state → motive (step state).state) {state : State}
    (start : motive state) (count : Nat) : motive (after step count state) := by
  induction count generalizing state with
  | zero => exact start
  | succ count ih => exact ih (keeps state start)

/-- A state that a step leaves as it is stays for good. -/
theorem after_of_fixed {state : State} (fixed : (step state).state = state) (count : Nat) :
    after step count state = state := by
  induction count with
  | zero => rfl
  | succ count ih => rw [after, fixed, ih]

section Embedding

variable {stepImage : Image → Transition Image} {embed : State → Image}

/-- An image keeps up with a run as long as steps commute with the embedding on the way. -/
theorem after_embed_of_le {count index : Nat} {state : State}
    (commutes : ∀ earlier < count, stepImage (embed (after step earlier state)) =
      ⟨(step (after step earlier state)).result, (step (after step earlier state)).printed?,
        embed (step (after step earlier state)).state⟩)
    (bound : index ≤ count) :
    after stepImage index (embed state) = embed (after step index state) := by
  induction index with
  | zero => rfl
  | succ index ih =>
      have before := ih (by omega)
      simp only [after_succ, before, commutes index bound]

variable (commutes : ∀ state, stepImage (embed state) =
  ⟨(step state).result, (step state).printed?, embed (step state).state⟩)

include commutes

theorem after_embed (count : Nat) (state : State) :
    after stepImage count (embed state) = embed (after step count state) := by
  refine after_embed_of_le ?_ (Nat.le_refl count)
  intro earlier _
  apply commutes

theorem printed_embed (count : Nat) (state : State) :
    printed stepImage count (embed state) = printed step count state := by
  induction count generalizing state with
  | zero => rfl
  | succ count ih => rw [printed, commutes, ih, printed]

theorem runs_embed {count : Nat} {state : State} :
    Runs stepImage count (embed state) ↔ Runs step count state := by
  simp only [runs_iff, after_embed commutes, commutes]

theorem stop_embed (count : Nat) (state : State) :
    stop stepImage count (embed state) =
      ⟨(stop step count state).result, (stop step count state).printed,
        embed (stop step count state).state⟩ := by
  simp only [stop, after_embed commutes, printed_embed commutes, commutes]

end Embedding

end Transition

open Transition

theorem record_eq_append (printed : Array UInt64) (value? : Option UInt64) :
    record printed value? = printed ++ value?.toList.toArray := by
  cases value? <;> simp [record]

namespace Machine

theorem execute_of_runs {fuel count : Nat} {printed : Array UInt64} {machine : Machine}
    (bound : count < fuel) (runs : Runs step count machine)
    (stops : (step (after step count machine)).result ≠ .ok .running) :
    machine.execute fuel printed =
      some { stop step count machine with
        printed := printed ++ (stop step count machine).printed } := by
  induction count generalizing fuel printed machine with
  | zero =>
      rcases fuel with _ | fuel
      · omega
      · simp only [after] at stops
        simp only [execute, stop, after, Transition.printed, record_eq_append, List.append_nil]
        rcases result : machine.step.result with error | status
        · rfl
        · cases status with
          | running => exact absurd result stops
          | halted => rfl
          | endOfProgram => rfl
  | succ count ih =>
      rcases fuel with _ | fuel
      · omega
      · rcases runs with ⟨running, runs⟩
        rw [execute, running]
        simp only
        rw [ih (by omega) runs stops, record_eq_append]
        simp only [stop, after, Transition.printed, Array.append_assoc, List.append_toArray]

theorem runs_of_execute {fuel : Nat} {printed : Array UInt64} {machine : Machine}
    {execution : Execution Machine} (finished : machine.execute fuel printed = some execution) :
    ∃ count < fuel, Runs step count machine ∧
      (step (after step count machine)).result ≠ .ok .running := by
  induction fuel generalizing printed machine with
  | zero => simp [execute] at finished
  | succ fuel ih =>
      by_cases running : machine.step.result = .ok .running
      · rw [execute, running] at finished
        rcases ih finished with ⟨count, bound, runs, stops⟩
        exact ⟨count + 1, by omega, ⟨running, runs⟩, stops⟩
      · exact ⟨0, by omega, trivial, running⟩

/-- An execution is a run up to the first step that does not leave the program running. -/
theorem execute_eq_some_iff {fuel : Nat} {printed : Array UInt64} {machine : Machine}
    {execution : Execution Machine} :
    machine.execute fuel printed = some execution ↔
      ∃ count < fuel, Runs step count machine ∧
        (step (after step count machine)).result ≠ .ok .running ∧
        execution = { stop step count machine with
          printed := printed ++ (stop step count machine).printed } := by
  constructor
  · intro finished
    rcases runs_of_execute finished with ⟨count, bound, runs, stops⟩
    rw [execute_of_runs bound runs stops] at finished
    exact ⟨count, bound, runs, stops, (Option.some.inj finished).symm⟩
  · rintro ⟨count, bound, runs, stops, rfl⟩
    exact execute_of_runs bound runs stops

end Machine

namespace Vm

/-- The instance after `count` steps. -/
abbrev after (vm : Vm) (count : Nat) : Vm := Transition.after step count vm

/-- The values that `count` steps print. -/
abbrev printed (vm : Vm) (count : Nat) : List UInt64 := Transition.printed step count vm

/-- Each of the next `count` steps completes and leaves the program running. -/
abbrev Runs (vm : Vm) (count : Nat) : Prop := Transition.Runs step count vm

theorem after_succ (vm : Vm) (count : Nat) : vm.after (count + 1) = (vm.after count).step.state :=
  Transition.after_succ step count vm

theorem printed_succ (vm : Vm) (count : Nat) :
    vm.printed (count + 1) = vm.printed count ++ (vm.after count).step.printed?.toList :=
  Transition.printed_succ step count vm

theorem step_mk (config : Config) (machine : Machine) :
    (Vm.mk config (some machine)).step =
      ⟨machine.step.result, machine.step.printed?, ⟨config, some machine.step.state⟩⟩ :=
  rfl

theorem step_live {vm : Vm} {machine : Machine} (live : vm.machine? = some machine) :
    vm.step = ⟨machine.step.result, machine.step.printed?,
      { vm with machine? := some machine.step.state }⟩ := by
  rcases vm with ⟨config, machine?⟩
  subst live
  exact step_mk config machine

theorem step_destroyed {vm : Vm} (destroyed : vm.machine? = none) :
    vm.step = ⟨.error .notInitialized, none, vm⟩ := by
  rcases vm with ⟨config, machine?⟩
  subst destroyed
  rfl

theorem after_live {vm : Vm} {machine : Machine} (live : vm.machine? = some machine)
    (count : Nat) :
    vm.after count =
      { vm with machine? := some (Transition.after Machine.step count machine) } := by
  rcases vm with ⟨config, machine?⟩
  subst live
  exact after_embed (step_mk config) count machine

theorem execute_eq_some_iff {vm : Vm} {machine : Machine} (live : vm.machine? = some machine)
    {fuel : Nat} {execution : Execution Vm} :
    vm.execute fuel = some execution ↔
      ∃ count < fuel, vm.Runs count ∧ (vm.after count).step.result ≠ .ok .running ∧
        execution = Transition.stop step count vm := by
  rcases vm with ⟨config, machine?⟩
  subst live
  have lifted : (Vm.mk config (some machine)).execute fuel =
      (machine.execute fuel #[]).map fun execution =>
        ⟨execution.result, execution.printed, ⟨config, some execution.state⟩⟩ := by
    cases finished : machine.execute fuel #[] <;> simp [Vm.execute, finished]
  simp only [lifted, Option.map_eq_some_iff, Machine.execute_eq_some_iff, Array.empty_append,
    runs_embed (step_mk config), after_embed (step_mk config), stop_embed (step_mk config),
    step_mk]
  constructor
  · rintro ⟨_, ⟨count, bound, runs, stops, rfl⟩, rfl⟩
    exact ⟨count, bound, runs, stops, rfl⟩
  · rintro ⟨count, bound, runs, stops, rfl⟩
    exact ⟨_, ⟨count, bound, runs, stops, rfl⟩, rfl⟩

theorem execute_destroyed {vm : Vm} (destroyed : vm.machine? = none) (fuel : Nat) :
    vm.execute fuel = some ⟨.error .notInitialized, #[], vm⟩ := by
  rcases vm with ⟨config, machine?⟩
  subst destroyed
  rfl

/-- An execution that ends in an error reports the error of its last step. -/
theorem step_error_of_execute {vm final : Vm} {machine : Machine} {fuel : Nat} {error : Error}
    {printed : Array UInt64} (live : vm.machine? = some machine)
    (failed : vm.execute fuel = some ⟨.error error, printed, final⟩) :
    ∃ count, vm.Runs count ∧ (vm.after count).step.result = .error error ∧
      printed.toList = vm.printed (count + 1) ∧ final = vm.after (count + 1) := by
  rcases (execute_eq_some_iff live).mp failed with ⟨count, _, runs, _, ended⟩
  simp only [Transition.stop, Execution.mk.injEq] at ended
  rcases ended with ⟨result, values, place⟩
  refine ⟨count, runs, ?_, by rw [values], place⟩
  cases status : (vm.after count).step.result with
  | ok status => simp [status, Except.map] at result
  | error found => simp_all [Except.map]

/-- More fuel keeps the answer of an execution that ended. -/
theorem execute_succ {vm : Vm} {fuel : Nat} {execution : Execution Vm}
    (finished : vm.execute fuel = some execution) : vm.execute (fuel + 1) = some execution := by
  cases live : vm.machine? with
  | none => rwa [execute_destroyed live] at finished ⊢
  | some machine =>
      rw [execute_eq_some_iff live] at finished ⊢
      rcases finished with ⟨count, bound, runs, stops, same⟩
      exact ⟨count, by omega, runs, stops, same⟩

end Vm

end StackMachine
