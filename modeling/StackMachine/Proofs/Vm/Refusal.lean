import StackMachine.Proofs.Vm.Fresh

/-!
# Refused calls

A call that acquires buffers is refused for the first of its obstacles: the state of the instance
comes before the sizes, and the sizes before the buffers, which are asked for in a fixed order.
Each call has an allocator of its own, so every pattern of refused buffers is covered.

A refused call leaves the instance as it was, and a history tells the same without its refused
calls.  An instance that is armed again cannot be told from one that is created with these sizes.
-/

namespace StackMachine

/-- A reason to refuse a call. -/
structure Obstacle where
  applies : Bool
  error : Error

/-- The error for the first obstacle that applies. -/
def Obstacle.first? (obstacles : List Obstacle) : Option Error :=
  (obstacles.find? (·.applies)).map (·.error)

/-- A buffer with at least one byte is refused. -/
def Allocator.refuses (allocator : Allocator) (buffer : Buffer) (bytes : Nat) : Bool :=
  bytes ≠ 0 && !allocator.grants buffer bytes

/-- What stands in the way of an instance of some sizes, the obstacle that counts most first. -/
def Config.obstacles (config : Config) (allocator : Allocator) : List Obstacle :=
  [⟨config.stackSize = 0, .invalidConfig "stack size must be at least one word"⟩,
    ⟨config.maxCallDepth = 0, .invalidConfig "max call depth must be at least one"⟩,
    ⟨allocator.refuses .memory config.memorySize.toNat,
      .allocationFailure "memory" config.memorySize.toNat⟩,
    ⟨allocator.refuses .operandStack (8 * config.stackSize.toNat),
      .allocationFailure "operand stack" (8 * config.stackSize.toNat)⟩,
    ⟨allocator.refuses .callStack (8 * config.maxCallDepth.toNat),
      .allocationFailure "call stack" (8 * config.maxCallDepth.toNat)⟩]

def Event.isRefused : Event → Bool
  | rearm _ (.error _) | load _ (.error _) => true
  | _ => false

theorem Obstacle.first?_cons (obstacle : Obstacle) (obstacles : List Obstacle) :
    first? (obstacle :: obstacles) =
      if obstacle.applies then some obstacle.error else first? obstacles := by
  by_cases applies : obstacle.applies <;> simp [first?, applies]

theorem Allocator.reserve_eq (allocator : Allocator) (buffer : Buffer) (bytes : Nat) :
    allocator.reserve buffer bytes =
      if allocator.refuses buffer bytes then .error (.allocationFailure buffer.label bytes)
      else .ok () := by
  by_cases none : bytes = 0 <;> by_cases granted : allocator.grants buffer bytes <;>
    simp [reserve, refuses, none, granted]

theorem Config.validate_eq (config : Config) :
    config.validate =
      if config.stackSize = 0 then .error (.invalidConfig "stack size must be at least one word")
      else if config.maxCallDepth = 0 then
        .error (.invalidConfig "max call depth must be at least one")
      else .ok () := by
  unfold validate fault?
  split_ifs <;> rfl

namespace Vm

variable {allocator : Allocator} {config : Config} {code : Bytes} {vm next : Vm}

theorem acquire_eq (allocator : Allocator) (config : Config) :
    acquire allocator config =
      match Obstacle.first? (config.obstacles allocator) with
      | some error => .error error
      | none => .ok (.ofConfig config) := by
  simp only [acquire, Config.validate_eq, Allocator.reserve_eq, Config.obstacles,
    Obstacle.first?_cons, decide_eq_true_eq, Word.size]
  split_ifs <;> rfl

theorem create_eq (allocator : Allocator) (config : Config) :
    create allocator config =
      match Obstacle.first? (config.obstacles allocator) with
      | some error => .error error
      | none => .ok ⟨config, some (.ofConfig config)⟩ := by
  rw [create, acquire_eq]
  cases Obstacle.first? (config.obstacles allocator) <;> rfl

theorem rearm_eq (allocator : Allocator) (config : Config) (vm : Vm) :
    vm.rearm allocator config =
      match Obstacle.first?
        (⟨vm.isInitialized, .alreadyInitialized⟩ :: config.obstacles allocator) with
      | some error => ⟨.error error, vm⟩
      | none => ⟨.ok (), ⟨config, some (.ofConfig config)⟩⟩ := by
  cases live : vm.machine? with
  | some machine => simp [rearm, live, Obstacle.first?_cons, isInitialized]
  | none =>
      rw [Obstacle.first?_cons, if_neg (by simp [isInitialized, live])]
      simp only [rearm, live, acquire_eq]
      cases Obstacle.first? (config.obstacles allocator) <;> rfl

theorem load_eq (allocator : Allocator) (code : Bytes) (vm : Vm) :
    vm.load allocator code =
      match Obstacle.first? [⟨!vm.isInitialized, .notInitialized⟩,
        ⟨allocator.refuses .bytecode code.length, .allocationFailure "bytecode" code.length⟩] with
      | some error => ⟨.error error, vm⟩
      | none => ⟨.ok (), { vm with machine? := vm.machine?.map (·.load code) }⟩ := by
  cases live : vm.machine? with
  | none => simp [load, live, Obstacle.first?_cons, isInitialized]
  | some machine =>
      rw [Obstacle.first?_cons, if_neg (by simp [isInitialized, live]), Obstacle.first?_cons]
      simp only [load, live, Allocator.reserve_eq]
      split_ifs <;> rfl

theorem create_eq_ok_iff (destroyed : vm.isInitialized = false) :
    create allocator config = .ok next ↔ vm.rearm allocator config = ⟨.ok (), next⟩ := by
  rw [create_eq, rearm_eq, Obstacle.first?_cons, if_neg (by simp [destroyed])]
  cases Obstacle.first? (config.obstacles allocator) <;> simp

theorem Does.eq_of_isRefused {event : Event} (does : vm.Does event next)
    (refused : event.isRefused = true) : next = vm := by
  cases does with
  | rearm allocator config _ =>
      cases result : (vm.rearm allocator config).result with
      | error error => exact vm_of_rearm_error result
      | ok _ => simp [result, Event.isRefused] at refused
  | load allocator code _ =>
      cases result : (vm.load allocator code).result with
      | error error => exact vm_of_load_error result
      | ok _ => simp [result, Event.isRefused] at refused
  | _ => contradiction

theorem History.filter_isRefused {first last : Vm} {events : List Event}
    (history : first.History events last) :
    first.History (events.filter fun event => !event.isRefused) last := by
  induction history with
  | nil => exact .nil
  | @snoc last next events event history does ih =>
      rw [List.filter_append]
      cases refused : event.isRefused with
      | true =>
          rw [does.eq_of_isRefused refused]
          simpa [refused] using ih
      | false => simpa [refused] using ih.snoc does

/-- Calls of the lifecycle are refused in a fixed order of reasons, and a refused call has no
effect.

A live instance cannot be armed, whatever the sizes.  Otherwise the first obstacle of the sizes and
their buffers counts, and for a program its instance comes before its buffer.  Without an obstacle
the call succeeds; a destroyed instance is then as one of these sizes would be created, whatever
happened to it before.  No history depends on the refused calls in it. -/
theorem refusal_has_no_effect (allocator : Allocator) (config : Config) (code : Bytes) (vm : Vm) :
    (create allocator config =
      match Obstacle.first? (config.obstacles allocator) with
      | some error => .error error
      | none => .ok ⟨config, some (.ofConfig config)⟩) ∧
    (vm.rearm allocator config =
      match Obstacle.first?
        (⟨vm.isInitialized, .alreadyInitialized⟩ :: config.obstacles allocator) with
      | some error => ⟨.error error, vm⟩
      | none => ⟨.ok (), ⟨config, some (.ofConfig config)⟩⟩) ∧
    (vm.load allocator code =
      match Obstacle.first? [⟨!vm.isInitialized, .notInitialized⟩,
        ⟨allocator.refuses .bytecode code.length, .allocationFailure "bytecode" code.length⟩] with
      | some error => ⟨.error error, vm⟩
      | none => ⟨.ok (), { vm with machine? := vm.machine?.map (·.load code) }⟩) ∧
    (∀ error, (vm.rearm allocator config).result = .error error →
      (vm.rearm allocator config).vm = vm) ∧
    (∀ error, (vm.load allocator code).result = .error error →
      (vm.load allocator code).vm = vm) ∧
    (vm.isInitialized = false → ∀ next, create allocator config = .ok next ↔
      vm.rearm allocator config = ⟨.ok (), next⟩) ∧
    ∀ events last, vm.History events last →
      vm.History (events.filter fun event => !event.isRefused) last := by
  refine ⟨create_eq allocator config, vm.rearm_eq allocator config, vm.load_eq allocator code,
    ?_, ?_, ?_, ?_⟩
  · intro error refused
    exact vm_of_rearm_error refused
  · intro error refused
    exact vm_of_load_error refused
  · intro destroyed next
    exact create_eq_ok_iff destroyed
  · intro events last history
    exact history.filter_isRefused

/-- Of two buffers that an allocator refuses the first counts, and the old sizes stay.  The instance
can still be armed with the sizes that were refused. -/
theorem refused_before_armed :
    (Vm.mk .standard none).rearm (.limited 15) ⟨8, 2, 3⟩ =
        ⟨.error (.allocationFailure "operand stack" 16), ⟨.standard, none⟩⟩ ∧
      (Vm.mk .standard none).rearm .unlimited ⟨8, 2, 3⟩ =
        ⟨.ok (), ⟨⟨8, 2, 3⟩, some (.ofConfig ⟨8, 2, 3⟩)⟩⟩ := by
  rcases refusal_has_no_effect (.limited 15) ⟨8, 2, 3⟩ [] ⟨.standard, none⟩ with ⟨_, refused, _⟩
  rcases refusal_has_no_effect .unlimited ⟨8, 2, 3⟩ [] ⟨.standard, none⟩ with
    ⟨created, _, _, _, _, same, _⟩
  exact ⟨refused, (same rfl _).mp created⟩

end Vm

end StackMachine
