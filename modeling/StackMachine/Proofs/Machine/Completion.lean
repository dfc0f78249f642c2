import StackMachine.Proofs.Machine.Semantics

/-!
# What a completed instruction changes

An entry that meets none of its faults passed every check, and from the checks follow the bounds of
what it leaves: the depth of both stacks, the size of the memory, and the places from which the next
instruction can be taken.
-/

namespace StackMachine

/-- By how many words an instruction lengthens the operand stack. -/
def Opcode.growth (opcode : Opcode) : Int := opcode.outputs - opcode.inputs

theorem Check.fault?_eq_none_iff {checks : List Check} :
    fault? checks = none ↔ ∀ check ∈ checks, check.fails = false := by
  simp [fault?]

theorem Check.exists_of_fault? {checks : List Check} {cause : Trap}
    (faults : fault? checks = some cause) :
    ∃ check ∈ checks, check.fails = true ∧ check.cause = cause := by
  rcases Option.map_eq_some_iff.mp faults with ⟨check, found, same⟩
  have fails := List.find?_some found
  exact ⟨check, List.mem_of_find?_eq_some found, fails, same⟩

namespace Entry

variable {entry : Entry} {machine : Machine} {codeSize : Nat}

theorem passes (completes : entry.fault? machine codeSize = none) (check : Check)
    (member : check ∈ entry.checks machine codeSize) : check.fails = false :=
  Check.fault?_eq_none_iff.mp completes check member

theorem inputs_le_depth (completes : entry.fault? machine codeSize = none) :
    entry.opcode.inputs ≤ machine.stack.depth := by
  have enough := passes completes (.underflow machine entry.opcode.inputs) (by simp [checks])
  simpa [Check.underflow] using enough

theorem depth_lt_capacity (completes : entry.fault? machine codeSize = none)
    (grows : entry.opcode.inputs < entry.opcode.outputs) :
    machine.stack.depth < machine.stack.capacity := by
  rcases entry with ⟨offset, opcode, operand?⟩
  have room : Check.overflow machine ∈ checks ⟨offset, opcode, operand?⟩ machine codeSize := by
    cases opcode with
    | push => simp [checks]
    | load => simp [checks]
    | _ => contradiction
  simpa [Check.overflow] using passes completes _ room

theorem fits_of_store (completes : entry.fault? machine codeSize = none)
    (stores : entry.opcode = .store) :
    entry.operand.toNat + Word.size ≤ machine.memory.size := by
  have inside := passes completes (.outside machine entry.operand) (by simp [checks, stores])
  simpa [Check.outside, Word.size] using inside

theorem fits_of_load (completes : entry.fault? machine codeSize = none)
    (loads : entry.opcode = .load) :
    entry.operand.toNat + Word.size ≤ machine.memory.size := by
  have inside := passes completes (.outside machine entry.operand) (by simp [checks, loads])
  simpa [Check.outside, Word.size] using inside

theorem length_pushed (entry : Entry) (machine : Machine) :
    (entry.pushed machine).length = entry.opcode.outputs := by
  rcases entry with ⟨offset, opcode, operand?⟩
  cases opcode <;> rfl

theorem length_wordsAfter (completes : entry.fault? machine codeSize = none) :
    (entry.wordsAfter machine).length + entry.opcode.inputs =
      machine.stack.depth + entry.opcode.outputs := by
  have enough := inputs_le_depth completes
  rw [OperandStack.depth] at enough ⊢
  rw [wordsAfter, List.length_append, length_pushed, List.length_drop]
  omega

theorem length_wordsAfter_le (completes : entry.fault? machine codeSize = none)
    (bounded : machine.stack.depth ≤ machine.stack.capacity) :
    (entry.wordsAfter machine).length ≤ machine.stack.capacity := by
  have balance := length_wordsAfter completes
  by_cases grows : entry.opcode.inputs < entry.opcode.outputs
  · have room := depth_lt_capacity completes grows
    have single : entry.opcode.outputs ≤ 1 := by cases entry.opcode <;> decide
    omega
  · omega

theorem size_memoryAfter (completes : entry.fault? machine codeSize = none) :
    (entry.memoryAfter machine).size = machine.memory.size := by
  rcases entry with ⟨offset, opcode, operand?⟩
  cases opcode with
  | store => exact Memory.size_splice (machine.word 0) (fits_of_store completes rfl)
  | _ => rfl

theorem frames_of_ret (completes : entry.fault? machine codeSize = none)
    (returns : entry.opcode = .ret) :
    ∃ address, machine.calls.frames = address :: entry.framesAfter machine := by
  have pending := passes completes (.callUnderflow machine) (by simp [checks, returns])
  cases frames : machine.calls.frames with
  | nil => simp [Check.callUnderflow, CallStack.depth, frames] at pending
  | cons address rest => exact ⟨address, by simp [framesAfter, returns, frames]⟩

/-- A completed instruction leaves the pending calls alone, or is a CALL that adds its successor, or
a RET that takes one away. -/
theorem framesAfter_cases (completes : entry.fault? machine codeSize = none) :
    entry.framesAfter machine = machine.calls.frames ∨
      (entry.opcode = .call ∧ entry.framesAfter machine = entry.next :: machine.calls.frames ∧
        entry.operand.toNat < codeSize ∧ machine.calls.depth < machine.calls.maxDepth) ∨
      entry.opcode = .ret ∧
        ∃ address, machine.calls.frames = address :: entry.framesAfter machine := by
  cases opcode : entry.opcode with
  | call =>
      right
      left
      have target := passes completes (.beyond codeSize entry.operand) (by simp [checks, opcode])
      have room := passes completes (.callOverflow machine) (by simp [checks, opcode])
      refine ⟨rfl, by simp [framesAfter, opcode], ?_, ?_⟩
      · simpa [Check.beyond] using target
      · simpa [Check.callOverflow] using room
  | ret =>
      exact Or.inr (Or.inr ⟨rfl, frames_of_ret completes opcode⟩)
  | _ => exact Or.inl (by simp [framesAfter, opcode])

/-- A completed instruction goes on at its successor, at its target, or where a call returns. -/
theorem ipAfter_cases (completes : entry.fault? machine codeSize = none) :
    entry.ipAfter machine = entry.next ∨
      (entry.opcode.operandKind? = some .target ∧
        entry.ipAfter machine = entry.operand.toNat ∧ entry.operand.toNat < codeSize) ∨
      entry.opcode = .ret ∧ entry.ipAfter machine ∈ machine.calls.frames := by
  cases opcode : entry.opcode with
  | call | jump =>
      right
      left
      have target := passes completes (.beyond codeSize entry.operand) (by simp [checks, opcode])
      exact ⟨rfl, by simp [ipAfter, opcode], by simpa [Check.beyond] using target⟩
  | jumpIf =>
      by_cases untaken : machine.word 0 = 0
      · exact Or.inl (by simp [ipAfter, opcode, untaken])
      · right
        left
        have target := passes completes (.whenTaken machine (.beyond codeSize entry.operand))
          (by simp [checks, opcode])
        refine ⟨rfl, by simp [ipAfter, opcode, untaken], ?_⟩
        simpa [Check.whenTaken, Check.beyond, untaken] using target
  | ret =>
      right
      right
      rcases frames_of_ret completes opcode with ⟨address, frames⟩
      exact ⟨rfl, by simp [ipAfter, opcode, frames]⟩
  | _ => exact Or.inl (by simp [ipAfter, opcode])

theorem ipAfter_of_sequential (sequential : entry.opcode.isControlFlow = false) :
    entry.ipAfter machine = entry.next := by
  cases opcode : entry.opcode with
  | call | ret | jump | jumpIf | halt => simp [opcode, Opcode.isControlFlow] at sequential
  | _ => simp [ipAfter, opcode]

theorem framesAfter_of_sequential (sequential : entry.opcode.isControlFlow = false) :
    entry.framesAfter machine = machine.calls.frames := by
  cases opcode : entry.opcode with
  | call | ret => simp [opcode, Opcode.isControlFlow] at sequential
  | _ => simp [framesAfter, opcode]

theorem statusAfter_of_sequential (sequential : entry.opcode.isControlFlow = false) :
    entry.statusAfter machine codeSize =
      if codeSize ≤ entry.next then .endOfProgram else .running := by
  have goesOn : entry.opcode ≠ .halt := by
    intro halts
    simp [halts, Opcode.isControlFlow] at sequential
  rw [statusAfter, if_neg goesOn, ipAfter_of_sequential sequential]

end Entry

end StackMachine
