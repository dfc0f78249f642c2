import StackMachine.Proofs.Listing.Decoding
import StackMachine.Proofs.Vm.History

/-!
# Fresh instances

An instance is fresh right after it was created or armed again.  Its sizes alone tell its state, so
what it was before leaves no trace, and every accepted size has a fresh instance.
-/

namespace StackMachine.Vm

theorem eq_of_acquire {allocator : Allocator} {config : Config} {machine : Machine}
    (acquired : acquire allocator config = .ok machine) :
    config.fault? = none ∧ machine = .ofConfig config := by
  simp only [acquire, Config.validate] at acquired
  cases fault : config.fault? with
  | some fault => simp [fault, bind, Except.bind] at acquired
  | none =>
      simp only [fault, bind_eq_ok_iff] at acquired
      rcases acquired with ⟨_, _, _, _, _, _, _, _, made⟩
      exact ⟨rfl, (Except.ok.inj made).symm⟩

theorem acquire_unlimited {config : Config} (accepted : config.fault? = none) :
    acquire .unlimited config = .ok (.ofConfig config) := by
  simp [acquire, Config.validate, accepted, Allocator.reserve, Allocator.unlimited, bind,
    Except.bind, pure, Except.pure]

/-- An instance right after it acquired its buffers. -/
inductive Fresh : Vm → Prop where
  | create {allocator : Allocator} {config : Config} {vm : Vm}
      (created : create allocator config = .ok vm) : Fresh vm
  | rearm {allocator : Allocator} {config : Config} {vm : Vm}
      (armed : (vm.rearm allocator config).result = .ok ()) : Fresh (vm.rearm allocator config).vm

/-- A load of `code` succeeds and leads from one state of an instance to another. -/
def Installs (code : Bytes) (vm next : Vm) : Prop :=
  ∃ allocator, (vm.load allocator code).result = .ok () ∧ next = (vm.load allocator code).vm

/-- An instance of these sizes that was fresh and has just loaded `code`. -/
def Starts (config : Config) (code : Bytes) (vm : Vm) : Prop :=
  ∃ first, Fresh first ∧ first.config = config ∧ Installs code first vm

variable {vm next : Vm} {config : Config} {code : Bytes}

theorem fresh_iff :
    vm.Fresh ↔ vm.config.fault? = none ∧ vm.machine? = some (.ofConfig vm.config) := by
  constructor
  · intro fresh
    cases fresh with
    | create created =>
        rcases bind_eq_ok_iff.mp created with ⟨machine, acquired, made⟩
        rcases eq_of_acquire acquired with ⟨accepted, rfl⟩
        rcases Except.ok.inj made with rfl
        exact ⟨accepted, rfl⟩
    | @rearm allocator config vm armed =>
        unfold Vm.rearm at armed ⊢
        cases live : vm.machine? with
        | some machine => simp [live] at armed
        | none =>
            cases acquired : acquire allocator config with
            | error error => simp [live, acquired] at armed
            | ok machine =>
                rcases eq_of_acquire acquired with ⟨accepted, rfl⟩
                exact ⟨accepted, rfl⟩
  · rcases vm with ⟨config, machine?⟩
    rintro ⟨accepted, live⟩
    simp only at accepted live
    subst live
    apply Fresh.create
    exact bind_eq_ok_iff.mpr ⟨_, acquire_unlimited accepted, rfl⟩

theorem installs_iff :
    Installs code vm next ↔
      ∃ machine, vm.machine? = some machine ∧
        next = { vm with machine? := some (machine.load code) } := by
  constructor
  · rintro ⟨allocator, installed, rfl⟩
    exact vm_of_load_ok installed
  · rintro ⟨machine, live, rfl⟩
    have granted : Allocator.unlimited.reserve .bytecode code.length = .ok () := by
      simp [Allocator.reserve, Allocator.unlimited]
    refine ⟨.unlimited, ?_, ?_⟩
    · simp [load, live, granted]
    · simp [load, live, granted]

theorem starts_iff :
    Starts config code vm ↔
      config.fault? = none ∧ vm = ⟨config, some ((Machine.ofConfig config).load code)⟩ := by
  constructor
  · rintro ⟨first, fresh, rfl, installs⟩
    rcases fresh_iff.mp fresh with ⟨accepted, live⟩
    rcases installs_iff.mp installs with ⟨machine, present, place⟩
    rw [live] at present
    rcases Option.some.inj present with rfl
    exact ⟨accepted, place⟩
  · rintro ⟨accepted, rfl⟩
    have fresh : Fresh ⟨config, some (.ofConfig config)⟩ := fresh_iff.mpr ⟨accepted, rfl⟩
    refine ⟨_, fresh, rfl, ?_⟩
    exact installs_iff.mpr ⟨_, rfl, rfl⟩

end StackMachine.Vm
