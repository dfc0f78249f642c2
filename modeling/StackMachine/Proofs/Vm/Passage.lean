import StackMachine.Proofs.Machine.StraightLine
import StackMachine.Proofs.Vm.Accounting
import StackMachine.Proofs.Vm.Coherence

/-!
# Passages

A passage is a stretch of a run in which every step completes an instruction.  Passages that meet
make up a longer one, so what a program does can be told piece by piece: a piece of straight-line
code makes of the data what its instructions make of them, and a conditional jump joins two pieces.

The instructions of a passage say all that there is to know about its steps: where each of them
starts, that none fails, and how many there are.
-/

namespace StackMachine

namespace Listing

/-- The encodings of some instructions are at `offset`. -/
def Stands (code : Bytes) (offset : Nat) (instructions : List Instruction) : Prop :=
  instructions.flatMap Instruction.encode <+: code.drop offset

namespace Stands

variable {code : Bytes} {offset : Nat} {instruction : Instruction}
  {before behind rest : List Instruction}

theorem left (stands : Stands code offset (before ++ behind)) : Stands code offset before := by
  rw [Stands, List.flatMap_append] at stands
  apply List.IsPrefix.trans _ stands
  exact List.prefix_append _ _

theorem right (stands : Stands code offset (before ++ behind)) :
    Stands code (offset + Instruction.extent before) behind := by
  rw [Stands, List.flatMap_append] at stands
  rcases stands with ⟨rest, whole⟩
  refine ⟨rest, ?_⟩
  rw [← List.drop_drop, ← whole, ← Instruction.length_flatMap_encode, List.append_assoc,
    List.drop_left]

theorem decodeAt (stands : Stands code offset (instruction :: rest)) :
    decodeAt code offset = .ok (instruction.entryAt offset) := by
  apply decodeAt_eq_ok_iff.mpr
  refine ⟨rfl, instruction.isComplete_entryAt _, ?_⟩
  rw [Instruction.encode_entryAt]
  apply List.IsPrefix.trans _ stands
  rw [List.flatMap_cons]
  exact List.prefix_append _ _

theorem tail (stands : Stands code offset (instruction :: rest)) :
    Stands code (offset + instruction.opcode.length) rest := by
  have split : Stands code offset ([instruction] ++ rest) := stands
  exact split.right

end Stands

theorem layout_append (offset : Nat) (before behind : List Instruction) :
    layout offset (before ++ behind) =
      layout offset before ++ layout (offset + Instruction.extent before) behind := by
  induction before generalizing offset with
  | nil => rfl
  | cons instruction rest ih =>
      rw [List.cons_append, layout, layout, ih, Instruction.extent_cons, Nat.add_assoc]
      rfl

theorem length_layout (offset : Nat) (instructions : List Instruction) :
    (layout offset instructions).length = instructions.length := by
  induction instructions generalizing offset with
  | nil => rfl
  | cons instruction rest ih => exact congrArg (· + 1) (ih _)

/-- An entry of a layout shows one of the instructions, and starts before the end of them all. -/
theorem exists_of_mem_layout {offset : Nat} {instructions : List Instruction} {entry : Entry}
    (member : entry ∈ layout offset instructions) :
    ∃ instruction ∈ instructions, entry.opcode = instruction.opcode ∧
      entry.offset < offset + Instruction.extent instructions := by
  induction instructions generalizing offset with
  | nil => contradiction
  | cons instruction rest ih =>
      rw [Instruction.extent_cons]
      rcases List.mem_cons.mp member with rfl | later
      · have positive := instruction.opcode.length_pos
        refine ⟨instruction, List.mem_cons_self, rfl, ?_⟩
        change offset < _
        omega
      · rcases ih later with ⟨found, among, same, before⟩
        exact ⟨found, List.mem_cons_of_mem _ among, same, by omega⟩

end Listing

namespace Vm

/-- The next steps complete these entries, in order, and lead to `last`. -/
inductive Passage : Vm → List Entry → Vm → Prop where
  | nil {vm : Vm} : Passage vm [] vm
  | cons {vm last : Vm} {entry : Entry} {entries : List Entry}
      (completed : vm.completed? = some entry) (later : Passage vm.step.state entries last) :
      Passage vm (entry :: entries) last

namespace Passage

variable {vm middle last : Vm} {entry : Entry} {entries before behind : List Entry}

theorem single (completed : vm.completed? = some entry) : Passage vm [entry] vm.step.state :=
  .cons completed .nil

theorem append (front : Passage vm before middle) (back : Passage middle behind last) :
    Passage vm (before ++ behind) last := by
  induction front with
  | nil => exact back
  | cons completed _ ih => exact .cons completed (ih back)

theorem after_eq (passage : Passage vm entries last) : vm.after entries.length = last := by
  induction passage with
  | nil => rfl
  | cons _ _ ih => exact ih

theorem completed?_after (passage : Passage vm entries last) {index : Nat}
    (inside : index < entries.length) : (vm.after index).completed? = entries[index]? := by
  induction passage generalizing index with
  | nil => contradiction
  | cons completed _ ih =>
      cases index with
      | zero => exact completed
      | succ index => exact ih (Nat.lt_of_succ_lt_succ inside)

theorem completedWithin_eq (passage : Passage vm entries last) :
    vm.completedWithin entries.length = entries := by
  induction passage with
  | nil => rfl
  | @cons vm last entry entries completed _ ih =>
      have first : (vm.after 0).completed? = some entry := completed
      have later : (fun index => (vm.after index).completed?) ∘ Nat.succ =
          fun index => (vm.step.state.after index).completed? := rfl
      simp only [completedWithin, List.length_cons, List.range_succ_eq_map, List.filterMap_cons,
        first, List.filterMap_map, later]
      exact congrArg (entry :: ·) ih

/-- The entries of a passage tell where its steps start. -/
theorem ip_after (passage : Passage vm entries last) {index : Nat}
    (present : entries[index]? = some entry) : (vm.after index).ip = entry.offset := by
  have inside := (List.getElem?_eq_some_iff.mp present).1
  have completed := (passage.completed?_after inside).trans present
  exact (offset_of_completed? completed).symm

theorem executed_eq (passage : Passage vm entries last) :
    last.executed = vm.executed + UInt64.ofNat entries.length := by
  rw [← passage.after_eq, executed_after, passage.completedWithin_eq]

theorem coherent (passage : Passage vm entries last) (coherent : vm.Coherent) : last.Coherent := by
  rw [← passage.after_eq]
  exact Vm.Coherent.after coherent _

theorem isOk_after (passage : Passage vm entries last) {index : Nat}
    (inside : index < entries.length) : (vm.after index).step.result.isOk = true := by
  have completed := passage.completed?_after inside
  rw [List.getElem?_eq_getElem inside, Vm.completed?] at completed
  by_contra fails
  rw [if_neg fails] at completed
  contradiction

/-- Only the last step of a passage without END before it can end the program. -/
theorem runs_of_dropLast (passage : Passage vm entries last)
    (goesOn : ∀ entry ∈ entries.dropLast, entry.opcode ≠ .halt) :
    vm.Runs (entries.length - 1) := by
  apply (Transition.runs_iff step).mpr
  intro index bound
  have inside : index < entries.length := by omega
  have completed := passage.completed?_after inside
  have next := passage.completed?_after (Nat.add_lt_of_lt_sub bound)
  rw [List.getElem?_eq_getElem inside] at completed
  rw [List.getElem?_eq_getElem (Nat.add_lt_of_lt_sub bound)] at next
  rcases completed?_eq_some_iff.mp completed with ⟨machine, code, live, loaded, decoded, completes⟩
  have stepped := step_of_completes live loaded decoded completes
  rcases completed?_eq_some_iff.mp next with ⟨later, _, laterLive, laterLoaded, laterDecoded, _⟩
  change (vm.after index).step.result = _
  rw [after_succ, stepped] at laterLive
  rcases Option.some.inj laterLive with rfl
  rcases Option.some.inj (loaded.symm.trans laterLoaded) with rfl
  have further : entries[index].ipAfter machine < code.length :=
    Listing.lt_length_of_decodeAt laterDecoded
  have ends : entries[index].opcode ≠ .halt := by
    apply goesOn
    apply List.mem_iff_getElem.mpr
    exact ⟨index, by rwa [List.length_dropLast], List.getElem_dropLast _⟩
  rw [stepped]
  simp only [Entry.statusAfter, if_neg ends, if_neg (Nat.not_le.mpr further)]

theorem runs (passage : Passage vm entries last)
    (goesOn : ∀ entry ∈ entries, entry.opcode ≠ .halt) : vm.Runs (entries.length - 1) := by
  apply passage.runs_of_dropLast
  intro entry member
  exact goesOn entry (List.dropLast_subset _ member)

end Passage

/-- An execution stops behind an END after exactly `count` completed instructions, with these words
on the operand stack, the last one on top. -/
structure HaltsAfter (vm : Vm) (count : Nat) (words : List UInt64) : Prop where
  completes : (vm.completedWithin count).length = count
  execute_eq : ∀ fuel, vm.execute fuel =
    if fuel < count then none else some ⟨.ok (), (vm.printed count).toArray, vm.after count⟩
  counts : (vm.after count).executed = vm.executed + UInt64.ofNat count
  stack_eq : (vm.after count).stack = words

section Halting

variable {vm last : Vm} {entry : Entry} {entries : List Entry} {count other : Nat}
  {words more : List UInt64}

theorem execute_eq_of_stops {machine : Machine} {result : Except Error Status}
    (live : vm.machine? = some machine) (runs : vm.Runs count)
    (stops : (vm.after count).step.result = result) (ends : result ≠ .ok .running) (fuel : Nat) :
    vm.execute fuel = if fuel ≤ count then none else some ⟨result.map fun _ => (),
      (vm.printed (count + 1)).toArray, vm.after (count + 1)⟩ := by
  subst stops
  split
  · rename_i little
    rcases outcome : vm.execute fuel with _ | execution
    · rfl
    · rcases (execute_eq_some_iff live).mp outcome with ⟨earlier, bound, _, stopped, _⟩
      exact absurd ((Transition.runs_iff step).mp runs earlier (by omega)) stopped
  · rename_i enough
    exact (execute_eq_some_iff live).mpr ⟨count, by omega, runs, ends, rfl⟩

/-- Only one number of instructions leads to the end. -/
theorem HaltsAfter.count_eq (halts : vm.HaltsAfter count words)
    (same : vm.HaltsAfter other more) : count = other := by
  have enough := halts.execute_eq count
  have least := same.execute_eq other
  rw [if_neg (Nat.lt_irrefl _)] at enough least
  rw [same.execute_eq] at enough
  rw [halts.execute_eq] at least
  split at enough
  · contradiction
  · split at least
    · contradiction
    · omega

theorem HaltsAfter.stack_of_execute (halts : vm.HaltsAfter count words) {fuel : Nat}
    {execution : Execution Vm} (ended : vm.execute fuel = some execution) :
    execution.state.stack = words := by
  rw [halts.execute_eq] at ended
  split at ended
  · contradiction
  · rw [← Option.some.inj ended]
    exact halts.stack_eq

/-- The execution of a passage that leads to an END stops behind it. -/
theorem Passage.haltsAfter (passage : Passage vm entries last) {machine : Machine}
    (live : vm.machine? = some machine) (goesOn : ∀ entry ∈ entries, entry.opcode ≠ .halt)
    (completed : last.completed? = some entry) (halted : last.step.result = .ok .halted) :
    vm.HaltsAfter (entries.length + 1) last.step.state.stack := by
  have whole : Passage vm (entries ++ [entry]) last.step.state := passage.append (.single completed)
  have length : (entries ++ [entry]).length = entries.length + 1 := List.length_append
  have reached := whole.after_eq
  have runs : vm.Runs entries.length := by
    have running := whole.runs_of_dropLast (by rwa [List.dropLast_concat])
    rwa [length] at running
  rw [length] at reached
  rw [← passage.after_eq] at halted
  refine ⟨?_, ?_, ?_, ?_⟩
  · rw [← length, whole.completedWithin_eq]
  · intro fuel
    simp only [Nat.lt_succ_iff]
    exact execute_eq_of_stops live runs halted (by simp) fuel
  · rw [reached, whole.executed_eq, length]
  · rw [reached]

end Halting

end Vm

namespace Data

open Listing Vm

/-- An instance without pending calls at `offset`, with these data. -/
def vmAt (config : Config) (code : Bytes) (offset : Nat) (executed : UInt64) (data : Data) : Vm :=
  ⟨config, some (data.machine config code offset executed)⟩

variable {config : Config} {code : Bytes} {offset : Nat} {executed : UInt64} {data next : Data}
  {instruction : Instruction} {instructions : List Instruction}

/-- An instance without pending calls that has a program has the data of its buffers. -/
theorem eq_vmAt {vm : Vm} {machine : Machine} (coherent : vm.Coherent)
    (live : vm.machine? = some machine) (loaded : machine.code? = some code)
    (alone : vm.callDepth = 0) :
    vm = (Data.mk machine.stack.words machine.memory []).vmAt vm.config code vm.ip vm.executed := by
  rcases vm with ⟨config, machine?⟩
  rcases live with rfl
  have sizes : machine.Coherent config := coherent _ rfl
  have stack : machine.stack = ⟨machine.stack.words, config.stackSize.toNat⟩ := by
    rw [← sizes.stack_capacity]
  have frames : machine.calls.frames = [] := List.eq_nil_of_length_eq_zero alone
  have calls : machine.calls = .empty config.maxCallDepth.toNat := by
    rw [← sizes.calls_maxDepth, CallStack.empty, ← frames]
  have whole : machine = { machine with
      stack := ⟨machine.stack.words, config.stackSize.toNat⟩
      calls := .empty config.maxCallDepth.toNat
      code? := some code } := by
    rw [← stack, ← calls, ← loaded]
  exact congrArg (fun machine => Vm.mk config (some machine)) whole

theorem current?_vmAt (decoded : decodeAt code offset = .ok (instruction.entryAt offset)) :
    (data.vmAt config code offset executed).current? = some (instruction.entryAt offset) :=
  current?_eq_some_iff.mpr ⟨_, code, rfl, rfl, decoded⟩

theorem passage_of_effect (executed : UInt64)
    (straight : instruction.opcode.isControlFlow = false)
    (decoded : decodeAt code offset = .ok (instruction.entryAt offset))
    (completes : data.effect config.stackSize.toNat instruction = .ok next) :
    Passage (data.vmAt config code offset executed) [instruction.entryAt offset]
      (next.vmAt config code (offset + instruction.opcode.length) (executed + 1)) := by
  rcases step_of_effect_ok executed straight decoded completes with ⟨printed?, _, stepped⟩
  have state : (data.vmAt config code offset executed).step.state =
      next.vmAt config code (offset + instruction.opcode.length) (executed + 1) := by
    rw [vmAt, step_mk, stepped]
    rfl
  have succeeds : (data.vmAt config code offset executed).step.result.isOk = true := by
    rw [vmAt, step_mk, stepped]
    rfl
  rw [← state]
  apply Passage.single
  rw [completed?, if_pos succeeds]
  exact current?_vmAt decoded

/-- Straight-line code leads to the data that its instructions make one after another. -/
theorem passage_of_fold (executed : UInt64)
    (straight : ∀ instruction ∈ instructions, instruction.opcode.isControlFlow = false)
    (stands : Stands code offset instructions)
    (folds : data.fold config instructions = .ok next) :
    Passage (data.vmAt config code offset executed) (layout offset instructions)
      (next.vmAt config code (offset + Instruction.extent instructions)
        (executed + UInt64.ofNat instructions.length)) := by
  induction instructions generalizing data offset executed with
  | nil =>
      rcases Except.ok.inj folds with rfl
      simpa [Instruction.extent, layout] using Passage.nil
  | cons instruction rest ih =>
      rcases fold_cons_eq_ok_iff.mp folds with ⟨middle, completes, later⟩
      rcases List.forall_mem_cons.mp straight with ⟨first, others⟩
      have front := passage_of_effect executed first stands.decodeAt completes
      have back := ih (executed + 1) others stands.tail later
      have counted : executed + 1 + UInt64.ofNat rest.length =
          executed + UInt64.ofNat (rest.length + 1) := by
        rw [UInt64.ofNat_add, UInt64.add_assoc, UInt64.add_comm 1]
        rfl
      rw [counted, Nat.add_assoc, ← Instruction.extent_cons] at back
      exact front.append back

/-- Where an instance gets through straight-line code, its instructions fold over the data. -/
theorem fold_of_passage {last : Vm}
    (straight : ∀ instruction ∈ instructions, instruction.opcode.isControlFlow = false)
    (stands : Stands code offset instructions)
    (passage : Passage (data.vmAt config code offset executed) (layout offset instructions) last) :
    ∃ next, data.fold config instructions = .ok next := by
  induction instructions generalizing data offset executed with
  | nil => exact ⟨data, rfl⟩
  | cons instruction rest ih =>
      rcases List.forall_mem_cons.mp straight with ⟨first, others⟩
      cases passage with
      | cons completed later =>
          cases outcome : data.effect config.stackSize.toNat instruction with
          | error cause =>
              have stuck : (data.vmAt config code offset executed).completed? = none := by
                rw [vmAt, completed?, step_mk,
                  step_of_effect_error first stands.decodeAt outcome]
                rfl
              rw [stuck] at completed
              contradiction
          | ok middle =>
              have front := passage_of_effect executed first stands.decodeAt outcome
              have state := front.after_eq
              change (data.vmAt config code offset executed).step.state = _ at state
              rw [state] at later
              rcases ih others stands.tail later with ⟨next, folds⟩
              exact ⟨next, fold_of_effect outcome folds⟩

theorem passage_of_jumpIf (config : Config) (executed : UInt64) {condition target : UInt64}
    {words : List UInt64}
    (decoded : decodeAt code offset = .ok (Instruction.entryAt ⟨.jumpIf, some target⟩ offset))
    (inside : target.toNat < code.length) (present : data.words = condition :: words) :
    Passage (data.vmAt config code offset executed)
      [Instruction.entryAt ⟨.jumpIf, some target⟩ offset]
      ({ data with words }.vmAt config code
        (if condition = 0 then offset + 9 else target.toNat) (executed + 1)) := by
  rcases data with ⟨_, memory, printed⟩
  subst present
  have completes : (Instruction.entryAt ⟨.jumpIf, some target⟩ offset).fault?
      (machine config code offset executed ⟨condition :: words, memory, printed⟩) code.length =
        none := by
    apply Check.fault?_eq_none_iff.mpr
    intro check member
    rcases List.mem_cons.mp member with rfl | aims
    · rfl
    · rcases List.mem_singleton.mp aims with rfl
      have lands : (Check.beyond code.length target).fails = false :=
        decide_eq_false (Nat.not_le.mpr inside)
      exact Bool.and_eq_false_iff.mpr (Or.inr lands)
  have jumps : (Instruction.entryAt ⟨.jumpIf, some target⟩ offset).machineAfter
      (machine config code offset executed ⟨condition :: words, memory, printed⟩) =
      machine config code (if condition = 0 then offset + 9 else target.toNat) (executed + 1)
        ⟨words, memory, printed⟩ :=
    rfl
  have state : (vmAt config code offset executed ⟨condition :: words, memory, printed⟩).step.state =
      vmAt config code (if condition = 0 then offset + 9 else target.toNat) (executed + 1)
        ⟨words, memory, printed⟩ := by
    rw [vmAt, step_mk, Machine.step_of_decodeAt_ok rfl decoded, Entry.transition, completes, jumps]
    rfl
  rw [← state]
  apply Passage.single
  exact completed?_eq_some_iff.mpr ⟨_, code, rfl, rfl, decoded, completes⟩

/-- The execution of a passage that leads to an END stops behind it and keeps the data. -/
theorem haltsAfter_of_passage {vm : Vm} {machine : Machine} {entries : List Entry}
    (passage : Passage vm entries (data.vmAt config code offset executed))
    (live : vm.machine? = some machine) (goesOn : ∀ entry ∈ entries, entry.opcode ≠ .halt)
    (decoded : decodeAt code offset = .ok (Instruction.entryAt ⟨.halt, none⟩ offset)) :
    vm.HaltsAfter (entries.length + 1) data.words.reverse := by
  have stepped : (data.vmAt config code offset executed).step =
      ⟨.ok .halted, none, data.vmAt config code (offset + 1) (executed + 1)⟩ := by
    rw [vmAt, step_mk, Machine.step_of_decodeAt_ok rfl decoded]
    rfl
  have halted : (data.vmAt config code offset executed).step.result = .ok .halted := by
    rw [stepped]
  have ends := passage.haltsAfter live goesOn
    ((completed?_of_ok halted).trans (current?_vmAt decoded)) halted
  rw [stepped] at ends
  exact ends

end Data

end StackMachine
