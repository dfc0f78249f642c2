import StackMachine.Proofs.Vm.Accounting
import StackMachine.Proofs.Vm.Refusal
import StackMachine.Proofs.Vm.Slicing
import StackMachine.Proofs.Vm.TrapAtomicity

/-!
# What the past of an instance tells

A host that keeps a record of its calls can answer many questions about an instance without asking
it.  The last call that succeeded in giving the instance its buffers or in taking them away tells
whether it is live and of which sizes.  A load that succeeded since then tells whether there is a
program to run, and the instructions completed since the last such load are those that the instance
has counted.

Calls that fail and questions leave no trace in these answers.
-/

namespace StackMachine

/-- A call of the host and what came of it. -/
inductive Deed where
  | rearm (config : Config) (result : Except Error Unit)
  | destroy
  | load (code : Bytes) (result : Except Error Unit)
  /-- A step or an execution that completed some instructions. -/
  | work (completed : List Entry)
  | inspect

namespace Deed

/-- Whether the instance is live after a deed that gives it its buffers or takes them away. -/
def life? : Deed → Option Bool
  | rearm _ (.ok _) => some true
  | destroy => some false
  | _ => none

def sizes? : Deed → Option Config
  | rearm config (.ok _) => some config
  | _ => none

def installs : Deed → Bool
  | load _ (.ok _) => true
  | _ => false

def completed : Deed → List Entry
  | work completed => completed
  | _ => []

/-- Whether the latest of some deeds and a creation before them leave an instance live.  Here and
below, the latest deed is the first of the list. -/
def lives (deeds : List Deed) : Bool := (deeds.findSome? life?).getD true

/-- The sizes an instance was given last, if it was created with the sizes `created`. -/
def sizes (created : Config) (deeds : List Deed) : Config :=
  (deeds.findSome? sizes?).getD created

/-- Whether a program was loaded since the instance was created or armed. -/
def hasProgram (deeds : List Deed) : Bool :=
  (deeds.takeWhile (·.sizes?.isNone)).any installs

def completedSinceLoad (deeds : List Deed) : Nat :=
  ((deeds.takeWhile fun deed => !deed.installs).map (·.completed.length)).sum

def count (deeds : List Deed) : Nat :=
  if lives deeds && hasProgram deeds then completedSinceLoad deeds else 0

variable (deed : Deed) (deeds : List Deed)

theorem lives_cons : lives (deed :: deeds) = deed.life?.getD (lives deeds) := by
  cases life : deed.life? <;> simp [lives, life]

theorem sizes_cons (created : Config) :
    sizes created (deed :: deeds) = deed.sizes?.getD (sizes created deeds) := by
  cases sized : deed.sizes? <;> simp [sizes, sized]

theorem hasProgram_cons :
    hasProgram (deed :: deeds) = (deed.sizes?.isNone && (deed.installs || hasProgram deeds)) := by
  cases sized : deed.sizes? <;> simp [hasProgram, sized]

theorem completedSinceLoad_cons :
    completedSinceLoad (deed :: deeds) =
      if deed.installs then 0 else deed.completed.length + completedSinceLoad deeds := by
  cases installed : deed.installs <;> simp [completedSinceLoad, installed]

end Deed

namespace Vm

def isLoaded (vm : Vm) : Bool := (vm.machine?.bind (·.code?)).isSome

/-- The deeds that led from one state of an instance to another, the latest first. -/
inductive Past (first : Vm) : List Deed → Vm → Prop where
  | start : Past first [] first
  | rearm {deeds : List Deed} {vm : Vm} (past : Past first deeds vm) (allocator : Allocator)
      (config : Config) :
      Past first (.rearm config (vm.rearm allocator config).result :: deeds)
        (vm.rearm allocator config).vm
  | destroy {deeds : List Deed} {vm : Vm} (past : Past first deeds vm) :
      Past first (.destroy :: deeds) vm.destroy
  | load {deeds : List Deed} {vm : Vm} (past : Past first deeds vm) (allocator : Allocator)
      (code : Bytes) :
      Past first (.load code (vm.load allocator code).result :: deeds) (vm.load allocator code).vm
  | step {deeds : List Deed} {vm : Vm} (past : Past first deeds vm) :
      Past first (.work vm.completed?.toList :: deeds) vm.step.state
  /-- An execution takes the steps of a run that has its fuel as a budget. -/
  | execute {deeds : List Deed} {vm : Vm} {fuel : Nat} {execution : Execution Vm}
      (past : Past first deeds vm) (finished : vm.execute fuel = some execution) :
      Past first (.work (vm.completedWithin (vm.run fuel).calls) :: deeds) execution.state
  | inspect {deeds : List Deed} {vm : Vm} (past : Past first deeds vm) :
      Past first (.inspect :: deeds) vm

variable {vm next first : Vm}

section Loaded

theorem isLoaded_eq_true_iff :
    vm.isLoaded = true ↔
      ∃ machine code, vm.machine? = some machine ∧ machine.code? = some code := by
  cases live : vm.machine? with
  | none => simp [isLoaded, live]
  | some machine => simp [isLoaded, live, Option.isSome_iff_exists]

theorem step_of_not_isLoaded (unloaded : vm.isLoaded = false) :
    vm.step = ⟨.error .notInitialized, none, vm⟩ := by
  cases live : vm.machine? with
  | none => exact step_destroyed live
  | some machine =>
      have missing : machine.code? = none := by simpa [isLoaded, live] using unloaded
      rw [step_live live, Machine.step_of_code?_none missing, ← live]

theorem after_of_not_isLoaded (unloaded : vm.isLoaded = false) (count : Nat) :
    vm.after count = vm := by
  apply Transition.after_of_fixed
  rw [step_of_not_isLoaded unloaded]

theorem isLoaded_after (vm : Vm) (count : Nat) : (vm.after count).isLoaded = vm.isLoaded := by
  cases loaded : vm.isLoaded with
  | false => rw [after_of_not_isLoaded loaded, loaded]
  | true =>
      rcases isLoaded_eq_true_iff.mp loaded with ⟨machine, code, live, installed⟩
      rcases loaded_after live installed count with ⟨later, laterLive, laterInstalled⟩
      exact isLoaded_eq_true_iff.mpr ⟨later, code, laterLive, laterInstalled⟩

theorem step_eq_notInitialized_iff :
    vm.step.result = .error .notInitialized ↔ vm.isLoaded = false := by
  constructor
  · intro fails
    apply Bool.eq_false_iff.mpr
    intro loaded
    rcases isLoaded_eq_true_iff.mp loaded with ⟨machine, code, live, installed⟩
    rw [step_live live] at fails
    have place := Machine.ip?_of_step_error installed fails
    contradiction
  · intro unloaded
    rw [step_of_not_isLoaded unloaded]

theorem execute_eq_notInitialized_iff :
    (∃ fuel printed final, vm.execute fuel = some ⟨.error .notInitialized, printed, final⟩) ↔
      vm.isLoaded = false := by
  constructor
  · rintro ⟨fuel, printed, final, failed⟩
    cases live : vm.machine? with
    | none => simp [isLoaded, live]
    | some machine =>
        rcases step_error_of_execute live failed with ⟨count, _, fails, _⟩
        rw [← vm.isLoaded_after count]
        exact step_eq_notInitialized_iff.mp fails
  · intro unloaded
    cases live : vm.machine? with
    | none => exact ⟨0, #[], vm, execute_destroyed live 0⟩
    | some machine =>
        have rests := rests_of_step live (step_of_not_isLoaded unloaded) (by simp)
        exact ⟨1, #[], vm, rests.execute_eq 0⟩

theorem load_eq_notInitialized_iff (allocator : Allocator) (code : Bytes) :
    (vm.load allocator code).result = .error .notInitialized ↔ vm.isInitialized = false := by
  rw [load_eq]
  cases live : vm.isInitialized with
  | false => simp [Obstacle.first?_cons]
  | true =>
      by_cases refused : allocator.refuses .bytecode code.length = true
      · simp [Obstacle.first?_cons, refused]
      · simp [Obstacle.first?, refused]

theorem peek_eq_notInitialized_iff :
    vm.peek = .error .notInitialized ↔ vm.isInitialized = false := by
  cases live : vm.machine? with
  | none => simp [peek, isInitialized, live]
  | some machine =>
      cases top : machine.stack.peek <;> simp [peek, isInitialized, live, top, Except.mapError]

end Loaded

section Effects

theorem isInitialized_after (vm : Vm) (count : Nat) :
    (vm.after count).isInitialized = vm.isInitialized := by
  cases live : vm.machine? with
  | none => rw [after_of_not_isLoaded (by simp [isLoaded, live])]
  | some machine => simp [after_live live, isInitialized, live]

theorem config_after (vm : Vm) (count : Nat) : (vm.after count).config = vm.config := by
  cases live : vm.machine? with
  | none => rw [after_of_not_isLoaded (by simp [isLoaded, live])]
  | some machine => rw [after_live live]

theorem completedWithin_of_not_isLoaded (unloaded : vm.isLoaded = false) (count : Nat) :
    vm.completedWithin count = [] := by
  apply List.filterMap_eq_nil_iff.mpr
  intro index _
  rw [after_of_not_isLoaded unloaded, completed?, step_of_not_isLoaded unloaded]
  rfl

theorem state_of_execute_run {fuel : Nat} {execution : Execution Vm}
    (finished : vm.execute fuel = some execution) :
    execution.state = vm.after (vm.run fuel).calls := by
  cases live : vm.machine? with
  | none =>
      have unloaded : vm.isLoaded = false := by simp [isLoaded, live]
      rw [execute_destroyed live] at finished
      rw [after_of_not_isLoaded unloaded, ← Option.some.inj finished]
  | some machine =>
      rcases (execute_eq_some_iff live).mp finished with ⟨count, bound, runs, stops, rfl⟩
      rw [run, runFrom_of_stops bound runs stops, Nat.zero_add]
      rfl

end Effects

/-- An instance is as its past tells. -/
structure Follows (created : Config) (deeds : List Deed) (vm : Vm) : Prop where
  isInitialized_eq : vm.isInitialized = Deed.lives deeds
  config_eq : vm.config = Deed.sizes created deeds
  isLoaded_eq : vm.isLoaded = (Deed.lives deeds && Deed.hasProgram deeds)
  executed_eq : vm.executed = UInt64.ofNat (Deed.count deeds)

namespace Follows

variable {created : Config} {deeds : List Deed}

/-- A deed that neither renews the instance nor installs a program adds what it completed. -/
theorem quiet {deed : Deed} (follows : Follows created deeds vm) (lives : deed.life? = none)
    (sizes : deed.sizes? = none) (installs : deed.installs = false)
    (isInitialized_eq : next.isInitialized = vm.isInitialized) (config_eq : next.config = vm.config)
    (isLoaded_eq : next.isLoaded = vm.isLoaded)
    (executed_eq : next.executed = vm.executed + UInt64.ofNat deed.completed.length)
    (idle : vm.isLoaded = false → deed.completed = []) : Follows created (deed :: deeds) next := by
  have alive : Deed.lives (deed :: deeds) = Deed.lives deeds := by simp [Deed.lives_cons, lives]
  have program : Deed.hasProgram (deed :: deeds) = Deed.hasProgram deeds := by
    simp [Deed.hasProgram_cons, sizes, installs]
  refine ⟨?_, ?_, ?_, ?_⟩
  · rw [isInitialized_eq, alive, follows.isInitialized_eq]
  · rw [config_eq, follows.config_eq, Deed.sizes_cons, sizes, Option.getD_none]
  · rw [isLoaded_eq, alive, program, follows.isLoaded_eq]
  · have known := follows.isLoaded_eq
    rw [executed_eq, follows.executed_eq, Deed.count, Deed.count, alive, program, ← known,
      Deed.completedSinceLoad_cons, installs]
    -- Without a program the count is zero whatever the sum is, so nothing may be added then.
    cases loaded : vm.isLoaded with
    | false => simp [idle loaded]
    | true => simp [UInt64.ofNat_add, UInt64.add_comm]

theorem still {deed : Deed} (follows : Follows created deeds vm) (lives : deed.life? = none)
    (sizes : deed.sizes? = none) (installs : deed.installs = false)
    (completed : deed.completed = []) : Follows created (deed :: deeds) vm :=
  follows.quiet lives sizes installs rfl rfl rfl (by simp [completed]) (fun _ => completed)

theorem work (follows : Follows created deeds vm) (count : Nat) :
    Follows created (.work (vm.completedWithin count) :: deeds) (vm.after count) := by
  apply follows.quiet rfl rfl rfl
  · exact isInitialized_after vm count
  · exact config_after vm count
  · exact isLoaded_after vm count
  · exact executed_after vm count
  · intro unloaded
    exact completedWithin_of_not_isLoaded unloaded count

theorem rearm (follows : Follows created deeds vm) (allocator : Allocator) (config : Config) :
    Follows created (.rearm config (vm.rearm allocator config).result :: deeds)
      (vm.rearm allocator config).vm := by
  rw [rearm_eq]
  split
  · exact follows.still rfl rfl rfl rfl
  · exact ⟨rfl, rfl, rfl, rfl⟩

theorem load (follows : Follows created deeds vm) (allocator : Allocator) (code : Bytes) :
    Follows created (.load code (vm.load allocator code).result :: deeds)
      (vm.load allocator code).vm := by
  cases result : (vm.load allocator code).result with
  | error error =>
      rw [vm_of_load_error result]
      exact follows.still rfl rfl rfl rfl
  | ok _ =>
      rcases vm_of_load_ok result with ⟨machine, live, installed⟩
      have lives : Deed.lives deeds = true := by
        rw [← follows.isInitialized_eq, isInitialized, live]
        rfl
      rw [installed]
      refine ⟨?_, ?_, ?_, ?_⟩
      · rw [Deed.lives_cons]
        exact lives.symm
      · rw [Deed.sizes_cons]
        exact follows.config_eq
      · rw [Deed.lives_cons, Deed.hasProgram_cons]
        simp [isLoaded, Machine.load, Deed.life?, Deed.sizes?, Deed.installs, lives]
      · simp [executed, Machine.load, Deed.count, Deed.completedSinceLoad_cons, Deed.installs]

theorem destroy (follows : Follows created deeds vm) :
    Follows created (.destroy :: deeds) vm.destroy :=
  ⟨rfl, follows.config_eq, rfl, rfl⟩

theorem past {deeds : List Deed} (follows : Follows created [] first)
    (past : Past first deeds vm) : Follows created deeds vm := by
  induction past with
  | start => exact follows
  | rearm _ allocator config ih => exact ih.rearm allocator config
  | destroy _ ih => exact ih.destroy
  | load _ allocator code ih => exact ih.load allocator code
  | @step deeds vm _ ih =>
      have single : vm.completedWithin 1 = vm.completed?.toList := completedWithin_succ vm 0
      rw [← single]
      exact ih.work 1
  | @execute deeds vm fuel execution _ finished ih =>
      rw [state_of_execute_run finished]
      exact ih.work (vm.run fuel).calls
  | inspect _ ih => exact ih.still rfl rfl rfl rfl

end Follows

theorem follows_of_create {allocator : Allocator} {config : Config}
    (created : create allocator config = .ok first) : Follows config [] first := by
  rcases bind_eq_ok_iff.mp created with ⟨machine, acquired, made⟩
  rcases eq_of_acquire acquired with ⟨_, rfl⟩
  rcases Except.ok.inj made with rfl
  exact ⟨rfl, rfl, rfl, rfl⟩

/-- The deeds since an instance was created answer for it.

The instance is live unless it was destroyed after the latest deed that gave it buffers, and its
sizes are those of that deed even when it is destroyed.  Steps and executions are refused when it is
destroyed or has had no program since then, and loads and peeks when it is destroyed.  It has
counted the instructions that were completed since its program was loaded, unless the counter
wraps. -/
theorem past_answers_for_instance {allocator : Allocator} {config : Config} {deeds : List Deed}
    (created : create allocator config = .ok first) (past : Past first deeds vm) :
    vm.isInitialized = Deed.lives deeds ∧
    vm.config = Deed.sizes config deeds ∧
    (vm.step.result = .error .notInitialized ↔
      Deed.lives deeds = false ∨ Deed.hasProgram deeds = false) ∧
    ((∃ fuel printed final, vm.execute fuel = some ⟨.error .notInitialized, printed, final⟩) ↔
      Deed.lives deeds = false ∨ Deed.hasProgram deeds = false) ∧
    (∀ allocator code, (vm.load allocator code).result = .error .notInitialized ↔
      Deed.lives deeds = false) ∧
    (vm.peek = .error .notInitialized ↔ Deed.lives deeds = false) ∧
    (Deed.count deeds < 2 ^ 64 → vm.executed.toNat = Deed.count deeds) := by
  have follows := (follows_of_create created).past past
  have unloaded : vm.isLoaded = false ↔
      Deed.lives deeds = false ∨ Deed.hasProgram deeds = false := by
    rw [follows.isLoaded_eq, Bool.and_eq_false_iff]
  refine ⟨follows.isInitialized_eq, follows.config_eq, ?_, ?_, ?_, ?_, ?_⟩
  · rw [step_eq_notInitialized_iff, unloaded]
  · rw [execute_eq_notInitialized_iff, unloaded]
  · intro allocator code
    rw [load_eq_notInitialized_iff, follows.isInitialized_eq]
  · rw [peek_eq_notInitialized_iff, follows.isInitialized_eq]
  · intro bounded
    rw [follows.executed_eq, UInt64.toNat_ofNat', Nat.mod_eq_of_lt bounded]

/-- Of the calls on an instance that pushes a word and ends, those that are refused do not count. -/
theorem past_answers_for_refused :
    ∃ first deeds last, create .unlimited ⟨8, 1, 1⟩ = .ok first ∧ Past first deeds last ∧
      deeds.length = 5 ∧ last.config = ⟨8, 1, 1⟩ ∧ last.executed.toNat = 2 := by
  let code := Opcode.push.encode (some 7) ++ Opcode.halt.encode none
  let first : Vm := ⟨⟨8, 1, 1⟩, some (.ofConfig ⟨8, 1, 1⟩)⟩
  have created : create .unlimited ⟨8, 1, 1⟩ = .ok first := rfl
  have started : Past first [] first := .start
  have stepped := ((started.rearm .unlimited ⟨1, 1, 1⟩).load .unlimited code).step
  have worked := (stepped.load (.limited 0) code).execute (show Vm.execute 2 _ = some _ from rfl)
  rcases past_answers_for_instance created worked with ⟨_, config, _, _, _, _, executed⟩
  exact ⟨_, _, _, created, worked, rfl, config, executed (by decide)⟩

end Vm

end StackMachine
