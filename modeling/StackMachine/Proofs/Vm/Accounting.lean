import Mathlib.Algebra.BigOperators.Group.List.Basic
import Mathlib.Algebra.Ring.Int.Defs
import StackMachine.Proofs.Vm.Progress

/-!
# The instruction table keeps the books

The table says how many words an instruction takes and leaves, how long it is, and whether it may
continue elsewhere than at its successor.  A run bears this out: from the instructions that it
completed the table tells how the depth of the operand stack and the number of pending calls have
changed, how many instructions were counted and how many values printed, and where the program
would stand if no instruction had taken it elsewhere.

A step that completes no instruction changes nothing, so it has no part in these sums.  One that
completes an instruction changes each of them by what the table has for that instruction.
-/

namespace StackMachine

namespace Opcode

/-- By how many calls an instruction deepens the call stack. -/
def nesting : Opcode → Int
  | call => 1
  | ret => -1
  | _ => 0

end Opcode

namespace Entry

variable {entry : Entry} {machine : Machine} {codeSize : Nat}

theorem length_framesAfter (completes : entry.fault? machine codeSize = none) :
    ((entry.framesAfter machine).length : Int) =
      machine.calls.frames.length + entry.opcode.nesting := by
  cases opcode : entry.opcode with
  | call => simp [framesAfter, opcode, Opcode.nesting]
  | ret =>
      rcases frames_of_ret completes opcode with ⟨address, frames⟩
      rw [frames]
      simp [Opcode.nesting]
  | _ => simp [framesAfter, opcode, Opcode.nesting]

end Entry

namespace Vm

/-- The instructions that the next `count` steps complete, in order. -/
def completedWithin (vm : Vm) (count : Nat) : List Entry :=
  (List.range count).filterMap fun index => (vm.after index).completed?

/-- How far beyond its successor an instruction for control flow takes the program in the next
step. -/
def detour (vm : Vm) : Int :=
  match vm.completed? with
  | some entry => if entry.opcode.isControlFlow then vm.step.state.ip - entry.next else 0
  | none => 0

/-- The top of the operand stack, if the next step completes a PRINT. -/
def shown? (vm : Vm) : Option UInt64 :=
  match vm.completed? with
  | some entry => if entry.opcode = .print then vm.stack.getLast? else none
  | none => none

variable {vm : Vm} {entry : Entry}

section Step

theorem completes_or_ends {status : Status} (succeeds : vm.step.result = .ok status) :
    (∃ entry, vm.current? = some entry ∧ vm.completed? = some entry) ∨
      vm.completed? = none ∧ status = .endOfProgram ∧ vm.codeSize ≤ vm.ip ∧
        vm.step.state = vm := by
  cases completed : vm.completed? with
  | some entry =>
      left
      exact ⟨entry, (completed?_of_ok succeeds).symm.trans completed, rfl⟩
  | none =>
      right
      rcases step_of_completed?_none completed with ⟨stepped, past⟩ | ⟨error, stepped⟩
      · rw [stepped] at succeeds ⊢
        exact ⟨rfl, (Except.ok.inj succeeds).symm, past, rfl⟩
      · rw [stepped] at succeeds
        contradiction

theorem stackDepth_step (completed : vm.completed? = some entry) :
    (vm.step.state.stackDepth : Int) = vm.stackDepth + entry.opcode.growth := by
  rcases completed?_eq_some_iff.mp completed with
    ⟨machine, code, live, loaded, decoded, completes⟩
  have balance := Entry.length_wordsAfter completes
  simp only [stackDepth, step_of_completes live loaded decoded completes, live, Option.map_some,
    Option.getD_some, Entry.machineAfter, OperandStack.depth, Opcode.growth] at balance ⊢
  omega

theorem callDepth_step (completed : vm.completed? = some entry) :
    (vm.step.state.callDepth : Int) = vm.callDepth + entry.opcode.nesting := by
  rcases completed?_eq_some_iff.mp completed with
    ⟨machine, code, live, loaded, decoded, completes⟩
  have frames := Entry.length_framesAfter completes
  simpa [callDepth, step_of_completes live loaded decoded completes, live, Entry.machineAfter,
    CallStack.depth] using frames

theorem executed_step (completed : vm.completed? = some entry) :
    vm.step.state.executed = vm.executed + 1 := by
  rcases completed?_eq_some_iff.mp completed with
    ⟨machine, code, live, loaded, decoded, completes⟩
  simp [executed, step_of_completes live loaded decoded completes, live, Entry.machineAfter]

theorem ip_step (completed : vm.completed? = some entry)
    (sequential : entry.opcode.isControlFlow = false) : vm.step.state.ip = entry.next := by
  rcases completed?_eq_some_iff.mp completed with
    ⟨machine, code, live, loaded, decoded, completes⟩
  simp [ip, step_of_completes live loaded decoded completes, Entry.machineAfter,
    Entry.ipAfter_of_sequential sequential]

theorem printed?_step (vm : Vm) : vm.step.printed? = vm.shown? := by
  cases completed : vm.completed? with
  | none => rw [printed?_step_of_completed?_none completed, shown?, completed]
  | some entry =>
      rcases completed?_eq_some_iff.mp completed with
        ⟨machine, code, live, loaded, decoded, completes⟩
      simp only [step_of_completes live loaded decoded completes, shown?, completed]
      by_cases prints : entry.opcode = .print
      · have enough := Entry.inputs_le_depth completes
        rw [prints] at enough
        rw [if_pos prints, getLast?_stack live enough, Entry.printed?, prints]
      · rw [if_neg prints, Entry.printed?]
        split
        · contradiction
        · rfl

theorem length_shown? (vm : Vm) :
    vm.shown?.toList.length = vm.completed?.toList.countP (·.opcode = .print) := by
  cases completed : vm.completed? with
  | none => simp [shown?, completed]
  | some entry =>
      rcases completed?_eq_some_iff.mp completed with ⟨machine, code, live, _, _, completes⟩
      by_cases prints : entry.opcode = .print
      · have enough := Entry.inputs_le_depth completes
        rw [prints] at enough
        simp [shown?, completed, prints, getLast?_stack live enough]
      · simp [shown?, completed, prints]

end Step

section Run

theorem completedWithin_succ (vm : Vm) (count : Nat) :
    vm.completedWithin (count + 1) =
      vm.completedWithin count ++ (vm.after count).completed?.toList := by
  cases completed : (vm.after count).completed? <;>
    simp [completedWithin, List.range_succ, completed]

/-- What each completed instruction keeps true of the instructions so far and the instance after
them is true of a whole run. -/
theorem completedWithin_induction {motive : List Entry → Vm → Prop} (start : motive [] vm)
    (completes : ∀ entries later entry, motive entries later → later.completed? = some entry →
      motive (entries ++ [entry]) later.step.state) (count : Nat) :
    motive (vm.completedWithin count) (vm.after count) := by
  induction count with
  | zero => exact start
  | succ count ih =>
      rw [completedWithin_succ, after_succ]
      cases completed : (vm.after count).completed? with
      | none =>
          rw [state_step_of_completed?_none completed, Option.toList_none, List.append_nil]
          exact ih
      | some entry => exact completes _ _ entry ih completed

theorem stackDepth_after (vm : Vm) (count : Nat) :
    ((vm.after count).stackDepth : Int) =
      vm.stackDepth + ((vm.completedWithin count).map (·.opcode.growth)).sum := by
  apply completedWithin_induction (motive := fun entries later =>
    (later.stackDepth : Int) = vm.stackDepth + (entries.map (·.opcode.growth)).sum)
  · simp
  · intro entries later entry known completed
    rw [stackDepth_step completed, known]
    simp [Int.add_assoc]

theorem sum_nesting (entries : List Entry) :
    (entries.map (·.opcode.nesting)).sum =
      entries.countP (·.opcode = .call) - entries.countP (·.opcode = .ret) := by
  induction entries with
  | nil => rfl
  | cons entry rest ih =>
      rw [List.map_cons, List.sum_cons, ih]
      cases opcode : entry.opcode <;> simp [opcode, Opcode.nesting] <;> omega

theorem callDepth_after (vm : Vm) (count : Nat) :
    ((vm.after count).callDepth : Int) =
      vm.callDepth + ((vm.completedWithin count).map (·.opcode.nesting)).sum := by
  apply completedWithin_induction (motive := fun entries later =>
    (later.callDepth : Int) = vm.callDepth + (entries.map (·.opcode.nesting)).sum)
  · simp
  · intro entries later entry known completed
    rw [callDepth_step completed, known]
    simp [Int.add_assoc]

theorem executed_after (vm : Vm) (count : Nat) :
    (vm.after count).executed = vm.executed + UInt64.ofNat (vm.completedWithin count).length := by
  apply completedWithin_induction (motive := fun entries later =>
    later.executed = vm.executed + UInt64.ofNat entries.length)
  · simp
  · intro entries later entry known completed
    rw [executed_step completed, known]
    simp [UInt64.ofNat_add, UInt64.add_assoc]

theorem printed_eq (vm : Vm) (count : Nat) :
    vm.printed count = (List.range count).filterMap fun index => (vm.after index).shown? := by
  induction count with
  | zero => rfl
  | succ count ih =>
      rw [printed_succ, ih, printed?_step]
      cases shown : (vm.after count).shown? <;> simp [List.range_succ, shown]

theorem length_printed (vm : Vm) (count : Nat) :
    (vm.printed count).length = (vm.completedWithin count).countP (·.opcode = .print) := by
  induction count with
  | zero => rfl
  | succ count ih =>
      rw [printed_succ, completedWithin_succ, List.length_append, List.countP_append, ih,
        printed?_step, length_shown?]

theorem ip_step_eq (vm : Vm) :
    (vm.step.state.ip : Int) =
      vm.ip + (vm.completed?.toList.map fun entry => (entry.opcode.length : Int)).sum +
        vm.detour := by
  cases completed : vm.completed? with
  | none => simp [state_step_of_completed?_none completed, detour, completed]
  | some entry =>
      have place := offset_of_completed? completed
      by_cases controls : entry.opcode.isControlFlow = true
      · simp [detour, completed, controls, Entry.next, place]
      · have goes := ip_step completed (by simpa using controls)
        simp [detour, completed, controls, goes, Entry.next, place]

theorem ip_after (vm : Vm) (count : Nat) :
    ((vm.after count).ip : Int) =
      vm.ip + ((vm.completedWithin count).map fun entry => (entry.opcode.length : Int)).sum +
        ((List.range count).map fun index => (vm.after index).detour).sum := by
  induction count with
  | zero => simp [completedWithin, Transition.after]
  | succ count ih =>
      rw [after_succ, ip_step_eq, ih, completedWithin_succ]
      simp [List.range_succ]
      omega

end Run

/-- The table accounts for every run, whatever it is loaded with and wherever it starts.

The instructions that were completed tell by their words how the operand stack has grown, by their
CALLs and RETs how many calls are pending, and by their number how far the counter has come, unless
it wraps.  Each PRINT prints the word that is on top by then.  The program stands behind all of
these instructions, but for the detours of those that may control its flow.

A step that does not fail either completes the instruction at its offset, and is then accounted for,
or finds the end of the bytecode and changes nothing. -/
theorem table_accounts_for_run (vm : Vm) (count : Nat) :
    (vm.after count).stackDepth =
      vm.stackDepth + ((vm.completedWithin count).map (·.opcode.growth)).sum ∧
    ((vm.after count).callDepth : Int) =
      vm.callDepth + (vm.completedWithin count).countP (·.opcode = .call) -
        (vm.completedWithin count).countP (·.opcode = .ret) ∧
    (vm.executed.toNat + (vm.completedWithin count).length < 2 ^ 64 →
      (vm.after count).executed.toNat = vm.executed.toNat + (vm.completedWithin count).length) ∧
    (vm.printed count).length = (vm.completedWithin count).countP (·.opcode = .print) ∧
    (vm.printed count = (List.range count).filterMap fun index => (vm.after index).shown?) ∧
    (∀ index < count, ∀ entry, (vm.after index).completed? = some entry →
      entry.offset = (vm.after index).ip ∧
        (entry.opcode.isControlFlow = false → (vm.after (index + 1)).ip = entry.next)) ∧
    (vm.after count).ip =
      vm.ip + ((vm.completedWithin count).map fun entry => (entry.opcode.length : Int)).sum +
        ((List.range count).map fun index => (vm.after index).detour).sum ∧
    ∀ index < count, ∀ status, (vm.after index).step.result = .ok status →
      (∃ entry, (vm.after index).current? = some entry ∧
        (vm.after index).completed? = some entry) ∨
      (vm.after index).completed? = none ∧ status = .endOfProgram ∧
        (vm.after index).codeSize ≤ (vm.after index).ip ∧
        vm.after (index + 1) = vm.after index := by
  refine ⟨vm.stackDepth_after count, ?calls, ?counter, vm.length_printed count,
    vm.printed_eq count, ?places, vm.ip_after count, ?steps⟩
  case calls =>
    rw [callDepth_after, sum_nesting]
    omega
  case counter =>
    intro bounded
    rw [executed_after, UInt64.toNat_add, UInt64.toNat_ofNat']
    omega
  case places =>
    intro index _ entry completed
    refine ⟨offset_of_completed? completed, ?_⟩
    intro sequential
    rw [after_succ]
    exact ip_step completed sequential
  case steps =>
    intro index _ status succeeds
    rw [after_succ]
    exact completes_or_ends succeeds

/-- An instance whose program prints a word, calls a routine that only returns, and ends. -/
def visiting : Vm where
  config := ⟨8, 1, 1⟩
  machine? := some ((Machine.ofConfig ⟨8, 1, 1⟩).load
    (Opcode.push.encode (some 7) ++ Opcode.print.encode none ++ Opcode.call.encode (some 20) ++
      Opcode.halt.encode none ++ Opcode.ret.encode none))

/-- The call goes one byte beyond its successor, and the return two bytes back. -/
theorem accounts_visiting :
    visiting.completedWithin 5 = [⟨0, .push, some 7⟩, ⟨9, .print, none⟩, ⟨10, .call, some 20⟩,
        ⟨20, .ret, none⟩, ⟨19, .halt, none⟩] ∧
      (visiting.after 5).executed.toNat = 5 ∧ (visiting.after 5).callDepth = 0 ∧
      visiting.printed 5 = [7] ∧
      (visiting.after 5).ip = 0 + (9 + 1 + 9 + 1 + 1) + (1 - 2 : Int) := by
  rcases table_accounts_for_run visiting 5 with ⟨_, calls, counter, _, values, _, place, _⟩
  have entries : visiting.completedWithin 5 = [⟨0, .push, some 7⟩, ⟨9, .print, none⟩,
      ⟨10, .call, some 20⟩, ⟨20, .ret, none⟩, ⟨19, .halt, none⟩] := rfl
  exact ⟨entries, counter (by decide), Int.ofNat_inj.mp calls, values, place⟩

end Vm

end StackMachine
