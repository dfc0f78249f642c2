import StackMachine.Proofs.Assembly.Inversion
import StackMachine.Proofs.Machine.StraightLine
import StackMachine.Proofs.Vm.Slicing

/-!
# Straight-line programs run as written

A program without instructions for control flow is assembled, loaded into a fresh instance and
executed.  Its instructions then make of the data what they make one after another by themselves: up
to the end of the program, or up to the first that faults, where the instance stops.

The proof follows the instructions with an instance that stands behind some of them.  Bytes,
counter, data and printed values come from these instructions alone, so one step leads from each
such instance to the next.
-/

namespace StackMachine

open Instruction

namespace Data

/-- An instance of a program that stands behind the instructions `before`, with these data. -/
def vm (config : Config) (code : Bytes) (before : List Instruction) (data : Data) : Vm :=
  ⟨config, some (data.machine config code (extent before) (UInt64.ofNat before.length))⟩

end Data

namespace Vm

/-- Some execution of an instance ends in `result` behind the instructions `before`, with these
data. -/
def EndsBehind (vm : Vm) (before : List Instruction) (data : Data) (result : Except Error Unit) :
    Prop :=
  ∃ fuel final, vm.execute fuel = some ⟨result, data.printed.toArray, final⟩ ∧
    final.ip = extent before ∧ final.executed.toNat = before.length ∧
    final.stack = data.words.reverse ∧ final.memory = data.memory

variable {config : Config} {code : Bytes} {before behind : List Instruction}
  {instruction : Instruction} {data next : Data} {cause : Trap}

theorem decodeAt_extent (before behind : List Instruction) (instruction : Instruction) :
    Listing.decodeAt ((before ++ instruction :: behind).flatMap encode) (extent before) =
      .ok (instruction.entryAt (extent before)) := by
  apply Listing.decodeAt_eq_ok_iff.mpr
  refine ⟨rfl, instruction.isComplete_entryAt _, ?_⟩
  rw [List.flatMap_append, List.flatMap_cons, ← length_flatMap_encode, List.drop_left,
    encode_entryAt]
  exact List.prefix_append _ _

theorem eq_vm_of_starts {vm : Vm} (starts : Starts config code vm) :
    vm = (Data.blank config).vm config code [] :=
  (starts_iff.mp starts).2

section Step

variable (straight : instruction.opcode.isControlFlow = false)
  (written : code = (before ++ instruction :: behind).flatMap encode)

include straight written

theorem step_of_effect_error
    (faults : data.effect config.stackSize.toNat instruction = .error cause) :
    (data.vm config code before).step =
      ⟨.error (.trap (extent before) cause), none, data.vm config code before⟩ := by
  have decoded := decodeAt_extent before behind instruction
  rw [← written] at decoded
  rw [Data.vm, step_mk, Data.step_of_effect_error straight decoded faults]

theorem step_of_effect_ok
    (completes : data.effect config.stackSize.toNat instruction = .ok next) :
    (data.vm config code before).step.state = next.vm config code (before ++ [instruction]) ∧
      next.printed = data.printed ++ (data.vm config code before).step.printed?.toList ∧
      (data.vm config code before).step.result =
        .ok (if behind = [] then .endOfProgram else .running) := by
  have decoded := decodeAt_extent before behind instruction
  rw [← written] at decoded
  rcases Data.step_of_effect_ok (UInt64.ofNat before.length) straight decoded completes with
    ⟨printed?, printed, stepped⟩
  rw [Data.vm, step_mk, stepped]
  have size : code.length = extent before + (instruction.opcode.length + extent behind) := by
    rw [written, length_flatMap_encode, extent_append, extent_cons]
  refine ⟨?_, printed, ?_⟩
  · simp [Data.vm, extent, UInt64.ofNat_add]
  · cases behind with
    | nil =>
        have last : code.length ≤ extent before + instruction.opcode.length := by
          rw [size]
          rfl
        rw [if_pos rfl, if_pos last]
    | cons successor rest =>
        have positive := successor.opcode.length_pos
        rw [extent_cons] at size
        have further : ¬ code.length ≤ extent before + instruction.opcode.length := by omega
        rw [if_neg further, if_neg (List.cons_ne_nil successor rest)]

end Step

section Run

/-- A run of straight-line code stands behind the instructions that complete one after another. -/
theorem after_of_fold (straight : ∀ instruction ∈ before, instruction.opcode.isControlFlow = false)
    (written : code = (before ++ behind).flatMap encode)
    (folds : (Data.blank config).fold config before = .ok data) :
    let start := (Data.blank config).vm config code []
    start.after before.length = data.vm config code before ∧
      start.printed before.length = data.printed ∧
      (behind ≠ [] → start.Runs before.length) := by
  intro start
  -- Instructions are taken off at the end: the hypothesis for those before still has one behind
  -- them, so the program is running when it gets there.
  induction before using List.reverseRecOn generalizing behind data with
  | nil =>
      rcases Except.ok.inj folds with rfl
      exact ⟨rfl, rfl, fun _ => trivial⟩
  | append_singleton front instruction ih =>
      rcases Data.fold_concat_eq_ok_iff.mp folds with ⟨earlier, folded, completes⟩
      have rewritten : code = (front ++ instruction :: behind).flatMap encode := by
        simpa using written
      rcases List.forall_mem_append.mp straight with ⟨calm, others⟩
      have last := List.forall_mem_singleton.mp others
      rcases ih calm rewritten folded with ⟨place, printed, runs⟩
      rcases step_of_effect_ok last rewritten completes with ⟨state, shows, result⟩
      rw [List.length_append, List.length_singleton]
      refine ⟨?_, ?_, ?_⟩
      · rw [after_succ, place, state]
      · rw [printed_succ, place, printed, shows]
      · intro more
        apply (Transition.runs_add step).mpr
        refine ⟨runs (by simp), ?_, trivial⟩
        change (start.after front.length).step.result = .ok .running
        rw [place, result, if_neg more]

/-- An instance that gets past some instructions has completed each of them. -/
theorem fold_of_runs (straight : ∀ instruction ∈ before, instruction.opcode.isControlFlow = false)
    (written : code = (before ++ behind).flatMap encode)
    (runs : ((Data.blank config).vm config code []).Runs before.length) :
    ∃ data, (Data.blank config).fold config before = .ok data := by
  rcases Data.fold_ok_or_faults config (Data.blank config) before with
    folds | ⟨front, instruction, rest, data, cause, rfl, folds, faults⟩
  · exact folds
  -- The step at the instruction that faults would be one of those that complete.
  · have rewritten : code = (front ++ instruction :: (rest ++ behind)).flatMap encode := by
      simpa using written
    rcases List.forall_mem_append.mp straight with ⟨calm, others⟩
    have last := (List.forall_mem_cons.mp others).1
    have running := (Transition.runs_iff step).mp runs front.length (by simp)
    rcases after_of_fold calm rewritten folds with ⟨place, _, _⟩
    change (((Data.blank config).vm config code []).after front.length).step.result = _ at running
    rw [place, step_of_effect_error last rewritten faults] at running
    contradiction

end Run

section Execution

variable {instructions : List Instruction}

theorem endsBehind_of_execute {vm : Vm} {fuel : Nat} {result : Except Error Unit}
    (bounded : extent before < 2 ^ 63)
    (ends : vm.execute fuel = some ⟨result, data.printed.toArray, data.vm config code before⟩) :
    vm.EndsBehind before data result := by
  have few := length_le_extent before
  refine ⟨fuel, _, ends, rfl, ?_, rfl, rfl⟩
  change (UInt64.ofNat before.length).toNat = before.length
  rw [UInt64.toNat_ofNat', Nat.mod_eq_of_lt (by omega)]

theorem endsBehind_of_fold
    (straight : ∀ instruction ∈ instructions, instruction.opcode.isControlFlow = false)
    (written : code = instructions.flatMap encode) (bounded : extent instructions < 2 ^ 63)
    (folds : (Data.blank config).fold config instructions = .ok data) :
    ((Data.blank config).vm config code []).EndsBehind instructions data (.ok ()) := by
  cases instructions using List.reverseRecOn with
  | nil =>
      rcases Except.ok.inj folds with rfl
      have ended : (Data.vm config code [] (Data.blank config)).ip = code.length := by
        rw [written]
        rfl
      exact endsBehind_of_execute bounded ((rests_of_ip_eq rfl rfl ended).execute_eq 0)
  | append_singleton front instruction =>
      rcases Data.fold_concat_eq_ok_iff.mp folds with ⟨earlier, folded, completes⟩
      rcases List.forall_mem_append.mp straight with ⟨calm, others⟩
      have last := List.forall_mem_singleton.mp others
      have whole : code = ((front ++ [instruction]) ++ []).flatMap encode := by
        rw [List.append_nil, written]
      rcases after_of_fold calm written folded with ⟨before, _, runs⟩
      rcases after_of_fold straight whole folds with ⟨place, printed, _⟩
      rcases step_of_effect_ok last written completes with ⟨_, _, result⟩
      rw [List.length_append, List.length_singleton] at place printed
      have ended : ((Data.blank config).vm config code []).execute (front.length + 1) =
          some ⟨.ok (), data.printed.toArray, data.vm config code (front ++ [instruction])⟩ := by
        apply (execute_eq_some_iff rfl).mpr
        refine ⟨front.length, by omega, runs (by simp), ?_, ?_⟩
        · rw [before, result]
          simp
        · simp only [Transition.stop, before, result, printed, place]
          rfl
      exact endsBehind_of_execute bounded ended

theorem endsBehind_of_fault
    (straight : ∀ found ∈ before ++ instruction :: behind, found.opcode.isControlFlow = false)
    (written : code = (before ++ instruction :: behind).flatMap encode)
    (bounded : extent (before ++ instruction :: behind) < 2 ^ 63)
    (folds : (Data.blank config).fold config before = .ok data)
    (faults : data.effect config.stackSize.toNat instruction = .error cause) :
    ((Data.blank config).vm config code []).EndsBehind before data
      (.error (.trap (extent before) cause)) := by
  rcases List.forall_mem_append.mp straight with ⟨calm, others⟩
  have last := (List.forall_mem_cons.mp others).1
  rcases after_of_fold calm written folds with ⟨place, printed, runs⟩
  have stepped := step_of_effect_error last written faults
  rw [extent_append] at bounded
  have ended : ((Data.blank config).vm config code []).execute (before.length + 1) =
      some ⟨.error (.trap (extent before) cause), data.printed.toArray,
        data.vm config code before⟩ := by
    apply (execute_eq_some_iff rfl).mpr
    refine ⟨before.length, by omega, runs (by simp), ?_, ?_⟩
    · rw [place, stepped]
      simp
    · simp only [Transition.stop, after_succ, printed_succ, place, printed, stepped,
        Option.toList_none, List.append_nil]
      rfl
  exact endsBehind_of_execute (by omega) ended

theorem EndsBehind.eq_of_execute {vm final : Vm} {fuel : Nat} {result found : Except Error Unit}
    {printed : Array UInt64} (ends : vm.EndsBehind before data result)
    (finished : vm.execute fuel = some ⟨found, printed, final⟩) : found = result := by
  rcases ends with ⟨more, _, finishes, _⟩
  have first := execute_of_le (Nat.le_max_left fuel more) finished
  rw [execute_of_le (Nat.le_max_right fuel more) finishes] at first
  exact congrArg Execution.result (Option.some.inj first).symm

end Execution

section PushPop

variable {instructions : List Instruction}

theorem execute_eq_stackOverflow_iff (moves : ∀ instruction ∈ instructions, instruction.IsPushOrPop)
    (written : code = instructions.flatMap encode) (bounded : extent instructions < 2 ^ 63)
    (ip capacity : Nat) :
    (∃ fuel printed final, ((Data.blank config).vm config code []).execute fuel =
        some ⟨.error (.trap ip (.stackOverflow capacity)), printed, final⟩) ↔
      capacity = config.stackSize.toNat ∧ ∃ before operand? behind,
        instructions = before ++ ⟨.push, operand?⟩ :: behind ∧ ip = extent before ∧
          height before = capacity ∧ Fits capacity before := by
  have straight := fun found member => (moves found member).isControlFlow_eq
  constructor
  -- All executions of an instance end alike, so the end of this one is known.
  · rintro ⟨fuel, printed, final, failed⟩
    rcases Data.fold_ok_or_faults config (Data.blank config) instructions with
      ⟨data, folds⟩ | ⟨before, instruction, behind, data, cause, rfl, folds, faults⟩
    · have same := (endsBehind_of_fold straight written bounded folds).eq_of_execute failed
      contradiction
    · have same := (endsBehind_of_fault straight written bounded folds faults).eq_of_execute failed
      rcases List.forall_mem_append.mp moves with ⟨calm, others⟩
      have last := (List.forall_mem_cons.mp others).1
      have depth := Data.length_words_of_pushPop calm folds
      have fits := (Data.exists_fold_iff calm).mp ⟨data, folds⟩
      have bound := (fits before List.prefix_rfl).2
      simp only [Except.error.injEq, Error.trap.injEq] at same
      rcases same with ⟨rfl, rfl⟩
      rcases (Data.effect_eq_stackOverflow_iff last).mp faults with ⟨pushes, rfl, full⟩
      rcases instruction with ⟨opcode, operand?⟩
      rcases pushes with rfl
      exact ⟨rfl, before, operand?, behind, rfl, rfl, by omega, fits⟩
  · rintro ⟨rfl, before, operand?, behind, rfl, rfl, level, fits⟩
    rcases List.forall_mem_append.mp moves with ⟨calm, others⟩
    have last := (List.forall_mem_cons.mp others).1
    rcases (Data.exists_fold_iff calm).mpr fits with ⟨data, folds⟩
    have depth := Data.length_words_of_pushPop calm folds
    have full : config.stackSize.toNat ≤ data.words.length := by omega
    have faults := (Data.effect_eq_stackOverflow_iff last).mpr ⟨rfl, rfl, full⟩
    rcases endsBehind_of_fault straight written bounded folds faults with
      ⟨fuel, final, ended, _⟩
    exact ⟨fuel, _, final, ended⟩

/-- Between a PUSH and the POP that takes its word away, the words below it stay. -/
theorem stack_of_balanced {inner : List Instruction} {operand? other? : Option UInt64}
    (moves : ∀ found ∈ before ++ ⟨.push, operand?⟩ :: inner, found.IsPushOrPop)
    (balanced : Balanced inner)
    (written : code =
      (before ++ ⟨.push, operand?⟩ :: (inner ++ ⟨.pop, other?⟩ :: behind)).flatMap encode)
    (runs : ((Data.blank config).vm config code []).Runs (before.length + 1 + inner.length)) :
    let start := (Data.blank config).vm config code []
    (start.after (before.length + 1 + inner.length)).stack =
        (start.after before.length).stack ++ [operand?.getD 0] ∧
      (start.after (before.length + 1 + inner.length + 1)).stack =
        (start.after before.length).stack := by
  intro start
  have straight := fun found member => (moves found member).isControlFlow_eq
  have count : (before ++ ⟨.push, operand?⟩ :: inner).length =
      before.length + 1 + inner.length := by
    simp
    omega
  have toPop : code =
      ((before ++ ⟨.push, operand?⟩ :: inner) ++ ⟨.pop, other?⟩ :: behind).flatMap encode := by
    simpa using written
  rw [← count] at runs ⊢
  rcases fold_of_runs straight toPop runs with ⟨full, foldsFull⟩
  rcases Data.fold_append_eq_ok_iff.mp foldsFull with ⟨data, folds, rest⟩
  rcases Data.fold_cons_eq_ok_iff.mp rest with ⟨pushed, completes, foldsInner⟩
  have added : pushed.words = operand?.getD 0 :: data.words := by
    rw [Data.effect_push] at completes
    split at completes
    · contradiction
    · rw [← Except.ok.inj completes]
  have kept : full.words = operand?.getD 0 :: data.words := by
    have calm := (List.forall_mem_cons.mp (List.forall_mem_append.mp moves).2).2
    rcases Data.exists_words_eq calm balanced.2 foldsInner with ⟨more, words, length⟩
    have none : more = [] := by
      rw [balanced.1] at length
      exact List.eq_nil_of_length_eq_zero (by omega)
    rw [words, none, List.nil_append, added]
  have pops : full.effect config.stackSize.toNat ⟨.pop, other?⟩ =
      .ok { full with words := data.words } := by
    rw [Data.effect_pop, kept]
  have earlier := (List.forall_mem_append.mp straight).1
  rcases after_of_fold earlier written folds with ⟨bottom, _, _⟩
  rcases after_of_fold straight toPop foldsFull with ⟨place, _, _⟩
  rcases step_of_effect_ok rfl toPop pops with ⟨state, _, _⟩
  rw [after_succ, bottom, place, state]
  constructor
  · change full.words.reverse = data.words.reverse ++ [operand?.getD 0]
    rw [kept, List.reverse_cons]
  · rfl

end PushPop

/-- Straight-line programs run as they are written.

They are assembled to as many bytes as their instructions take up.  If the instructions complete one
after another by themselves, starting with an empty operand stack and a memory of zeros, so does the
execution of a fresh instance, and leaves the same data at the end of the program.  Otherwise it
stops with the fault of the first instruction that does not complete, right before it.

With PUSH and POP alone the word that was added last is taken away first, and the operand stack
overflows exactly at the first PUSH for which it has no room. -/
theorem straight_line_runs_as_written {instructions : List Instruction}
    (accepted : config.fault? = none)
    (straight : ∀ instruction ∈ instructions, instruction.opcode.isControlFlow = false)
    (bounded : extent instructions < 2 ^ 63) :
    ∃ code, Assembly.assemble (instructions.map directive) = .ok code ∧
      code.length = extent instructions ∧ (∃ vm, Starts config code vm) ∧
      ∀ vm, Starts config code vm →
        (∀ data, (Data.blank config).fold config instructions = .ok data →
          vm.EndsBehind instructions data (.ok ())) ∧
        (∀ before instruction behind data cause,
          instructions = before ++ instruction :: behind →
          (Data.blank config).fold config before = .ok data →
          data.effect config.stackSize.toNat instruction = .error cause →
          vm.EndsBehind before data (.error (.trap (extent before) cause))) ∧
        ((∃ data, (Data.blank config).fold config instructions = .ok data) ∨
          ∃ before instruction behind data cause,
            instructions = before ++ instruction :: behind ∧
            (Data.blank config).fold config before = .ok data ∧
            data.effect config.stackSize.toNat instruction = .error cause) ∧
        ((∀ instruction ∈ instructions, instruction.IsPushOrPop) →
          (∀ before operand? inner other? behind,
            instructions = before ++ ⟨.push, operand?⟩ :: (inner ++ ⟨.pop, other?⟩ :: behind) →
            Balanced inner → vm.Runs (before.length + 1 + inner.length) →
            (vm.after (before.length + 1 + inner.length)).stack =
                (vm.after before.length).stack ++ [operand?.getD 0] ∧
              (vm.after (before.length + 1 + inner.length + 1)).stack =
                (vm.after before.length).stack) ∧
          ∀ ip capacity, (∃ fuel printed final, vm.execute fuel =
              some ⟨.error (.trap ip (.stackOverflow capacity)), printed, final⟩) ↔
            capacity = config.stackSize.toNat ∧ ∃ before operand? behind,
              instructions = before ++ ⟨.push, operand?⟩ :: behind ∧ ip = extent before ∧
                height before = capacity ∧ Fits capacity before) := by
  refine ⟨_, Assembly.assemble_map_directive instructions, length_flatMap_encode instructions,
    ⟨_, starts_iff.mpr ⟨accepted, rfl⟩⟩, ?_⟩
  intro vm starts
  rcases eq_vm_of_starts starts with rfl
  refine ⟨?complete, ?fault, Data.fold_ok_or_faults config _ instructions, ?moves⟩
  case complete =>
    intro data folds
    exact endsBehind_of_fold straight rfl bounded folds
  case fault =>
    rintro before instruction behind data cause rfl folds faults
    exact endsBehind_of_fault straight rfl bounded folds faults
  case moves =>
    intro moves
    constructor
    · rintro before operand? inner other? behind rfl balanced runs
      refine stack_of_balanced ?_ balanced rfl runs
      intro found member
      apply moves
      simp at member ⊢
      tauto
    · intro ip capacity
      exact execute_eq_stackOverflow_iff moves rfl bounded ip capacity

/-- A seven comes and goes before the operand stack runs out of room for the nine. -/
def crowding : List Instruction :=
  [⟨.push, some 5⟩, ⟨.push, some 7⟩, ⟨.pop, none⟩, ⟨.push, some 8⟩, ⟨.push, some 9⟩]

/-- A word goes to an odd address, its upper six bytes come back from two addresses further on, and
the last word that is read would not end inside the memory. -/
def shifting : List Instruction :=
  [⟨.push, some 0x0807060504030201⟩, ⟨.store, some 1⟩, ⟨.load, some 3⟩, ⟨.print, none⟩,
    ⟨.load, some 9⟩]

/-- The nine is the first word beyond the two that fit, and a word is read from wherever its bytes
are. -/
theorem crowding_runs_as_written :
    (∃ code vm, Assembly.assemble (crowding.map directive) = .ok code ∧
      Starts ⟨0, 2, 1⟩ code vm ∧
      vm.EndsBehind (crowding.take 4) ⟨[8, 5], ⟨#[]⟩, []⟩
        (.error (.trap 28 (.stackOverflow 2))) ∧
      (vm.after 3).stack = (vm.after 1).stack) ∧
    ∃ code vm, Assembly.assemble (shifting.map directive) = .ok code ∧
      Starts ⟨16, 2, 1⟩ code vm ∧
      vm.EndsBehind (shifting.take 4)
        ⟨[0x080706050403], ⟨#[0, 1, 2, 3, 4, 5, 6, 7, 8, 0, 0, 0, 0, 0, 0, 0]⟩, [0x080706050403]⟩
        (.error (.trap 28 (.memoryOutOfRange 9 16))) := by
  constructor
  · have accepted : Config.fault? ⟨0, 2, 1⟩ = none := rfl
    have straight : ∀ instruction ∈ crowding, instruction.opcode.isControlFlow = false := by
      decide
    have bounded : extent crowding < 2 ^ 63 := by decide
    rcases straight_line_runs_as_written accepted straight bounded with
      ⟨code, assembled, _, ⟨vm, starts⟩, runs⟩
    rcases runs vm starts with ⟨_, faults, _, moves⟩
    have ended := faults (crowding.take 4) ⟨.push, some 9⟩ [] ⟨[8, 5], ⟨#[]⟩, []⟩
      (.stackOverflow 2) rfl rfl rfl
    have pushOrPop : ∀ instruction ∈ crowding, instruction.IsPushOrPop := by
      simp [crowding, IsPushOrPop]
    have balanced : Balanced [] := ⟨rfl, by simp [height]⟩
    have running : vm.Runs 2 := by
      rw [Assembly.assemble_map_directive] at assembled
      rcases Except.ok.inj assembled with rfl
      rcases eq_vm_of_starts starts with rfl
      exact ⟨rfl, rfl, trivial⟩
    have returns := (moves pushOrPop).1 [⟨.push, some 5⟩] (some 7) [] none _ rfl balanced running
    exact ⟨code, vm, assembled, starts, ended, returns.2⟩
  · have accepted : Config.fault? ⟨16, 2, 1⟩ = none := rfl
    have straight : ∀ instruction ∈ shifting, instruction.opcode.isControlFlow = false := by
      decide
    have bounded : extent shifting < 2 ^ 63 := by decide
    rcases straight_line_runs_as_written accepted straight bounded with
      ⟨code, assembled, _, ⟨vm, starts⟩, runs⟩
    rcases runs vm starts with ⟨_, faults, _, _⟩
    have ended := faults (shifting.take 4) ⟨.load, some 9⟩ []
      ⟨[0x080706050403], ⟨#[0, 1, 2, 3, 4, 5, 6, 7, 8, 0, 0, 0, 0, 0, 0, 0]⟩, [0x080706050403]⟩
      (.memoryOutOfRange 9 16) rfl rfl rfl
    exact ⟨code, vm, assembled, starts, ended⟩

end Vm

end StackMachine
