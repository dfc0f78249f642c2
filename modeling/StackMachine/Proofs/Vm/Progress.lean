import StackMachine.Proofs.Machine.Refinement

/-!
# Steps that get somewhere

A step completes the instruction at the current offset, or it changes nothing and prints nothing:
because there is no program, because no instruction is left, or because one fails.  What a step has
completed is therefore all that can be told about it, apart from how it failed.
-/

namespace StackMachine

theorem Machine.step_idles_or_completes {machine : Machine} {code : Bytes}
    (loaded : machine.code? = some code) :
    (machine.step = ⟨.ok .endOfProgram, none, machine⟩ ∧ code.length ≤ machine.ip) ∨
      (∃ error, machine.step = ⟨.error error, none, machine⟩) ∨
      ∃ entry, Listing.decodeAt code machine.ip = .ok entry ∧
        entry.fault? machine code.length = none := by
  apply step_cases (motive := fun transition =>
    (transition = ⟨.ok .endOfProgram, none, machine⟩ ∧ code.length ≤ machine.ip) ∨
      (∃ error, transition = ⟨.error error, none, machine⟩) ∨
      ∃ entry, Listing.decodeAt code machine.ip = .ok entry ∧
        entry.fault? machine code.length = none) loaded
  · intro past
    exact Or.inl ⟨rfl, past⟩
  · intro error _ _
    exact Or.inr (Or.inl ⟨error, rfl⟩)
  · intro entry cause _ _
    exact Or.inr (Or.inl ⟨.trap machine.ip cause, rfl⟩)
  · intro entry decoded completes
    exact Or.inr (Or.inr ⟨entry, decoded, completes⟩)

namespace Vm

/-- The instruction that the next step completes. -/
def completed? (vm : Vm) : Option Entry := if vm.step.result.isOk then vm.current? else none

variable {vm : Vm} {machine : Machine} {code : Bytes} {entry : Entry}

theorem current?_eq_some_iff :
    vm.current? = some entry ↔
      ∃ machine code, vm.machine? = some machine ∧ machine.code? = some code ∧
        Listing.decodeAt code machine.ip = .ok entry := by
  cases live : vm.machine? with
  | none => simp [current?, live]
  | some machine =>
      cases loaded : machine.code? with
      | none => simp [current?, live, loaded]
      | some code =>
          cases decoded : Listing.decodeAt code machine.ip <;>
            simp [current?, live, loaded, decoded, Except.toOption]

theorem peek_of_depth (live : vm.machine? = some machine) (present : 0 < machine.stack.depth) :
    vm.peek = .ok (machine.word 0) := by
  have top : machine.stack.peek = .ok (machine.word 0) := by
    cases words : machine.stack.words with
    | nil => simp [OperandStack.depth, words] at present
    | cons word rest => simp [OperandStack.peek, OperandStack.pop, Machine.word, words, Except.map]
  simp [peek, live, top, Except.mapError]

theorem getLast?_stack (live : vm.machine? = some machine) (present : 0 < machine.stack.depth) :
    vm.stack.getLast? = some (machine.word 0) := by
  cases words : machine.stack.words with
  | nil => simp [OperandStack.depth, words] at present
  | cons top rest => simp [stack, live, OperandStack.bottomFirst, Machine.word, words]

theorem step_of_completes (live : vm.machine? = some machine) (loaded : machine.code? = some code)
    (decoded : Listing.decodeAt code machine.ip = .ok entry)
    (completes : entry.fault? machine code.length = none) :
    vm.step = ⟨.ok (entry.statusAfter machine code.length), entry.printed? machine,
      { vm with machine? := some (entry.machineAfter machine) }⟩ := by
  simp only [step_live live, Machine.step_of_decodeAt_ok loaded decoded, Entry.transition,
    completes]

/-- What a step completes is told by the instruction at the current offset, if the step succeeds. -/
theorem completed?_of_ok {status : Status} (succeeds : vm.step.result = .ok status) :
    vm.completed? = vm.current? := by
  rw [completed?, succeeds]
  rfl

theorem completed?_eq_some_iff :
    vm.completed? = some entry ↔
      ∃ machine code, vm.machine? = some machine ∧ machine.code? = some code ∧
        Listing.decodeAt code machine.ip = .ok entry ∧
        entry.fault? machine code.length = none := by
  constructor
  · intro completed
    unfold completed? at completed
    split at completed
    · rename_i succeeds
      rcases current?_eq_some_iff.mp completed with ⟨machine, code, live, loaded, decoded⟩
      refine ⟨machine, code, live, loaded, decoded, ?_⟩
      rw [step_live live, Machine.step_of_decodeAt_ok loaded decoded, Entry.transition] at succeeds
      cases fault : entry.fault? machine code.length with
      | none => rfl
      | some cause => simp [fault, Except.isOk, Except.toBool] at succeeds
    · contradiction
  · rintro ⟨machine, code, live, loaded, decoded, completes⟩
    rw [completed?_of_ok (congrArg Transition.result
      (step_of_completes live loaded decoded completes))]
    exact current?_eq_some_iff.mpr ⟨machine, code, live, loaded, decoded⟩

theorem step_of_completed?_none (idle : vm.completed? = none) :
    (vm.step = ⟨.ok .endOfProgram, none, vm⟩ ∧ vm.codeSize ≤ vm.ip) ∨
      ∃ error, vm.step = ⟨.error error, none, vm⟩ := by
  cases live : vm.machine? with
  | none => exact Or.inr ⟨_, step_destroyed live⟩
  | some machine =>
      have same : { vm with machine? := some machine } = vm := by rw [← live]
      rw [step_live live]
      cases loaded : machine.code? with
      | none =>
          right
          refine ⟨.notInitialized, ?_⟩
          rw [Machine.step_of_code?_none loaded, same]
      | some code =>
          rcases Machine.step_idles_or_completes loaded with
            ⟨stepped, past⟩ | ⟨error, stepped⟩ | ⟨entry, decoded, completes⟩
          · left
            refine ⟨by rw [stepped, same], ?_⟩
            simpa [codeSize, ip, live, Machine.code, loaded] using past
          · right
            refine ⟨error, ?_⟩
            rw [stepped, same]
          · have completed := completed?_eq_some_iff.mpr
              ⟨machine, code, live, loaded, decoded, completes⟩
            cases idle.symm.trans completed

theorem state_step_of_completed?_none (idle : vm.completed? = none) : vm.step.state = vm := by
  rcases step_of_completed?_none idle with ⟨stepped, _⟩ | ⟨error, stepped⟩
  · rw [stepped]
  · rw [stepped]

theorem printed?_step_of_completed?_none (idle : vm.completed? = none) :
    vm.step.printed? = none := by
  rcases step_of_completed?_none idle with ⟨stepped, _⟩ | ⟨error, stepped⟩
  · rw [stepped]
  · rw [stepped]

theorem offset_of_completed? (completed : vm.completed? = some entry) : entry.offset = vm.ip := by
  rcases completed?_eq_some_iff.mp completed with ⟨machine, code, live, _, decoded, _⟩
  rw [Listing.offset_of_decodeAt decoded]
  simp [ip, live]

end Vm

end StackMachine
