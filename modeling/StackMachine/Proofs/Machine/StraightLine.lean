import Mathlib.Algebra.BigOperators.Group.List.Basic
import Mathlib.Algebra.Ring.Int.Defs
import Mathlib.Data.List.Induction
import StackMachine.Proofs.Listing.Layout
import StackMachine.Proofs.Machine.Refinement

/-!
# Straight-line code

Without instructions for control flow a program goes through its instructions in order, and all that
the next one needs of the machine is its data.  This file tells for each such instruction what it
makes of the data, as a manual would, and shows that a step does the same.

The position and the counter have no part in the data: they only say how far the program has come.
-/

namespace StackMachine

namespace Instruction

/-- How many bytes some instructions take up. -/
def extent (instructions : List Instruction) : Nat :=
  (instructions.map (·.opcode.length)).sum

/-- By how many words some instructions lengthen the operand stack. -/
def height (instructions : List Instruction) : Int :=
  (instructions.map (·.opcode.growth)).sum

/-- No instruction leads to a depth that an operand stack for `capacity` words, empty at first, does
not have. -/
def Fits (capacity : Nat) (instructions : List Instruction) : Prop :=
  ∀ front, front <+: instructions → 0 ≤ height front ∧ height front ≤ capacity

/-- The instructions take away all that they add, and nothing else. -/
def Balanced (instructions : List Instruction) : Prop :=
  height instructions = 0 ∧ ∀ front, front <+: instructions → 0 ≤ height front

def IsPushOrPop (instruction : Instruction) : Prop :=
  instruction.opcode = .push ∨ instruction.opcode = .pop

variable (instructions : List Instruction) (instruction : Instruction)

theorem extent_append (before behind : List Instruction) :
    extent (before ++ behind) = extent before + extent behind := by
  simp [extent]

theorem extent_cons : extent (instruction :: instructions) =
    instruction.opcode.length + extent instructions := by
  simp [extent]

theorem height_concat :
    height (instructions ++ [instruction]) = height instructions + instruction.opcode.growth := by
  simp [height]

theorem length_flatMap_encode :
    (instructions.flatMap encode).length = extent instructions := by
  simp [extent, List.length_flatMap, length_encode]

theorem length_le_extent : instructions.length ≤ extent instructions := by
  induction instructions with
  | nil => simp
  | cons instruction rest ih =>
      have positive := instruction.opcode.length_pos
      rw [extent_cons, List.length_cons]
      omega

variable {instruction}

theorem IsPushOrPop.isControlFlow_eq (moves : instruction.IsPushOrPop) :
    instruction.opcode.isControlFlow = false := by
  rcases moves with pushes | pops
  · rw [pushes]
    rfl
  · rw [pops]
    rfl

end Instruction

/-- What straight-line code works on. -/
structure Data where
  /-- The words of the operand stack, top first. -/
  words : List UInt64
  memory : Memory
  /-- The values printed so far, in order. -/
  printed : List UInt64

namespace Check

variable {α : Type}

/-- Gives a value unless one of several checks fails. -/
def guardAll (checks : List Check) (value : α) : Except Trap α :=
  match fault? checks with
  | some cause => .error cause
  | none => .ok value

theorem guardAll_nil (value : α) : guardAll [] value = .ok value := rfl

theorem guardAll_cons (check : Check) (checks : List Check) (value : α) :
    guardAll (check :: checks) value =
      if check.fails then .error check.cause else guardAll checks value := by
  by_cases fails : check.fails <;> simp [guardAll, fault?, fails]

end Check

namespace Data

/-- No word, a memory of zeros of the configured size, and nothing printed. -/
def blank (config : Config) : Data := ⟨[], ⟨Array.replicate config.memorySize.toNat 0⟩, []⟩

/-- What an instruction makes of the data when the operand stack holds up to `capacity` words, or
the trap it ends in.  Instructions for control flow are not part of this table. -/
def effect (capacity : Nat) (data : Data) (instruction : Instruction) : Except Trap Data :=
  let operand := instruction.operand?.getD 0
  if data.words.length < instruction.opcode.inputs then
    .error (.stackUnderflow instruction.opcode.inputs data.words.length)
  else match instruction.opcode, data.words with
    | .push, words =>
        if capacity ≤ words.length then .error (.stackOverflow capacity)
        else .ok { data with words := operand :: words }
    | .pop, _ :: rest => .ok { data with words := rest }
    | .store, word :: rest =>
        if data.memory.size < operand.toNat + 8 then
          .error (.memoryOutOfRange operand data.memory.size)
        else .ok { data with words := rest, memory := data.memory.splice operand.toNat word }
    | .load, words =>
        -- A bad address counts before a full stack.
        if data.memory.size < operand.toNat + 8 then
          .error (.memoryOutOfRange operand data.memory.size)
        else if capacity ≤ words.length then .error (.stackOverflow capacity)
        else .ok { data with
          words := Word.ofBytes ((data.memory.bytes.toList.drop operand.toNat).take 8) :: words }
    | .print, word :: _ => .ok { data with printed := data.printed ++ [word] }
    | opcode, second :: first :: rest =>
        match opcode.binary? with
        | some operation =>
            if opcode = .div ∧ second = 0 then .error .divideByZero
            else .ok { data with
              words := Word.ofInt (operation first.toNat second.toNat) :: rest }
        | none => .ok data
    | _, _ => .ok data

def machine (config : Config) (code : Bytes) (ip : Nat) (executed : UInt64) (data : Data) :
    Machine where
  memory := data.memory
  stack := ⟨data.words, config.stackSize.toNat⟩
  calls := .empty config.maxCallDepth.toNat
  code? := some code
  ip := ip
  executed := executed

/-- The data that an entry leaves which completes. -/
def after (entry : Entry) (machine : Machine) (data : Data) : Data where
  words := entry.wordsAfter machine
  memory := entry.memoryAfter machine
  printed := data.printed ++ (entry.printed? machine).toList

variable {config : Config} {code : Bytes} {ip : Nat} {executed : UInt64} {data : Data}
  {instruction : Instruction}

theorem effect_eq (straight : instruction.opcode.isControlFlow = false) (ip codeSize : Nat)
    (code : Bytes) (executed : UInt64) :
    data.effect config.stackSize.toNat instruction =
      match (instruction.entryAt ip).fault? (data.machine config code ip executed) codeSize with
      | some cause => .error cause
      | none =>
          .ok (data.after (instruction.entryAt ip) (data.machine config code ip executed)) := by
  have enough := Check.underflow_fails_iff (data.machine config code ip executed)
    instruction.opcode.inputs
  change data.effect config.stackSize.toNat instruction =
    Check.guardAll (.underflow _ instruction.opcode.inputs ::
      ((instruction.entryAt ip).checks (data.machine config code ip executed) codeSize).tail)
      (data.after (instruction.entryAt ip) (data.machine config code ip executed))
  rw [Check.guardAll_cons]
  by_cases few : data.words.length < instruction.opcode.inputs
  · rw [if_pos (enough.mpr few)]
    simp only [effect, if_pos few]
    rfl
  rw [if_neg (mt enough.mp few)]
  simp only [effect, if_neg few]
  rcases instruction with ⟨opcode, operand?⟩
  rcases data with ⟨words, memory, printed⟩
  cases opcode with
  | call | ret | jump | jumpIf | halt => contradiction
  -- The checks are read as propositions before the machine is taken apart: afterwards their
  -- decisions would be about terms that no longer occur in them.
  | push | load =>
      simp only [Entry.checks, Instruction.entryAt, List.tail_cons, Check.guardAll_cons,
        Check.guardAll_nil, Check.overflow_fails_iff, Check.outside_fails_iff]
      simp [Check.overflow, Check.outside, machine, after, OperandStack.depth, Entry.operand,
        Entry.wordsAfter, Entry.pushed, Entry.memoryAfter, Entry.printed?,
        Opcode.operandKind?, Opcode.inputs, Opcode.row]
  | pop | store | print =>
      rcases words with _ | ⟨top, rest⟩
      · exact absurd Nat.one_pos few
      · simp only [Entry.checks, Instruction.entryAt, List.tail_cons, Check.guardAll_cons,
          Check.guardAll_nil, Check.outside_fails_iff]
        simp [Check.outside, machine, after, Machine.word, Entry.operand, Entry.wordsAfter,
          Entry.pushed, Entry.memoryAfter, Entry.printed?, Opcode.operandKind?, Opcode.binary?,
          Opcode.inputs, Opcode.row]
  | add | sub | mul | div | equal | greater | less =>
      rcases words with _ | ⟨second, _ | ⟨first, rest⟩⟩
      · exact absurd Nat.two_pos few
      · exact absurd Nat.one_lt_two few
      · simp only [Entry.checks, Instruction.entryAt, List.tail_cons, Check.guardAll_cons,
          Check.guardAll_nil, Check.zeroDivisor_fails_iff]
        simp [Check.zeroDivisor, machine, after, Machine.word, Entry.wordsAfter, Entry.pushed,
          Entry.memoryAfter, Entry.printed?, Opcode.binary?, Opcode.inputs, Opcode.row]

section Step

variable {next : Data} {cause : Trap}

theorem machineAfter_entryAt (straight : instruction.opcode.isControlFlow = false) :
    (instruction.entryAt ip).machineAfter (data.machine config code ip executed) =
      (data.after (instruction.entryAt ip) (data.machine config code ip executed)).machine config
        code (ip + instruction.opcode.length) (executed + 1) := by
  have sequential : (instruction.entryAt ip).opcode.isControlFlow = false := straight
  simp only [Entry.machineAfter, Entry.ipAfter_of_sequential sequential,
    Entry.framesAfter_of_sequential sequential]
  rfl

theorem fault?_of_effect_error (straight : instruction.opcode.isControlFlow = false)
    (ip codeSize : Nat) (code : Bytes) (executed : UInt64)
    (faults : data.effect config.stackSize.toNat instruction = .error cause) :
    (instruction.entryAt ip).fault? (data.machine config code ip executed) codeSize =
      some cause := by
  rw [effect_eq straight ip codeSize code executed] at faults
  cases fault : (instruction.entryAt ip).fault? (data.machine config code ip executed) codeSize with
  | none => simp [fault] at faults
  | some found => simpa [fault] using faults

theorem completes_of_effect_ok (straight : instruction.opcode.isControlFlow = false)
    (ip codeSize : Nat) (code : Bytes) (executed : UInt64)
    (completes : data.effect config.stackSize.toNat instruction = .ok next) :
    (instruction.entryAt ip).fault? (data.machine config code ip executed) codeSize = none ∧
      next = data.after (instruction.entryAt ip) (data.machine config code ip executed) := by
  rw [effect_eq straight ip codeSize code executed] at completes
  cases fault : (instruction.entryAt ip).fault? (data.machine config code ip executed) codeSize with
  | none =>
      simp only [fault, Except.ok.injEq] at completes
      exact ⟨rfl, completes.symm⟩
  | some found => simp [fault] at completes

theorem step_of_effect_error (straight : instruction.opcode.isControlFlow = false)
    (decoded : Listing.decodeAt code ip = .ok (instruction.entryAt ip))
    (faults : data.effect config.stackSize.toNat instruction = .error cause) :
    (data.machine config code ip executed).step =
      ⟨.error (.trap ip cause), none, data.machine config code ip executed⟩ := by
  have fault := fault?_of_effect_error straight ip code.length code executed faults
  rw [Machine.step_of_decodeAt_ok rfl decoded]
  simp only [Entry.transition, fault]
  rfl

theorem step_of_effect_ok (executed : UInt64)
    (straight : instruction.opcode.isControlFlow = false)
    (decoded : Listing.decodeAt code ip = .ok (instruction.entryAt ip))
    (completes : data.effect config.stackSize.toNat instruction = .ok next) :
    ∃ printed?, next.printed = data.printed ++ printed?.toList ∧
      (data.machine config code ip executed).step =
        ⟨.ok (if code.length ≤ ip + instruction.opcode.length then .endOfProgram else .running),
          printed?, next.machine config code (ip + instruction.opcode.length) (executed + 1)⟩ := by
  have sequential : (instruction.entryAt ip).opcode.isControlFlow = false := straight
  rcases completes_of_effect_ok straight ip code.length code executed completes with ⟨fault, rfl⟩
  refine ⟨_, rfl, ?_⟩
  rw [Machine.step_of_decodeAt_ok rfl decoded]
  simp only [Entry.transition, fault, machineAfter_entryAt straight,
    Entry.statusAfter_of_sequential sequential]
  rfl

end Step

section Fold

open Instruction

variable {before behind instructions : List Instruction} {next : Data}

/-- What instructions make of the data one after another, or the trap of the first that faults. -/
def fold (config : Config) (data : Data) (instructions : List Instruction) : Except Trap Data :=
  instructions.foldlM (effect config.stackSize.toNat) data

theorem fold_nil : data.fold config [] = .ok data := rfl

theorem fold_append_eq_ok_iff :
    data.fold config (before ++ behind) = .ok next ↔
      ∃ middle, data.fold config before = .ok middle ∧ middle.fold config behind = .ok next := by
  rw [fold, List.foldlM_append, ← fold]
  cases data.fold config before with
  | error cause => simp [bind, Except.bind]
  | ok middle => simp [bind, Except.bind, fold]

theorem fold_cons_eq_ok_iff :
    data.fold config (instruction :: behind) = .ok next ↔
      ∃ middle, data.effect config.stackSize.toNat instruction = .ok middle ∧
        middle.fold config behind = .ok next := by
  rw [fold, List.foldlM_cons]
  cases data.effect config.stackSize.toNat instruction with
  | error cause => simp [bind, Except.bind]
  | ok middle => simp [bind, Except.bind, fold]

theorem fold_of_effect {middle : Data}
    (completes : data.effect config.stackSize.toNat instruction = .ok middle)
    (later : middle.fold config behind = .ok next) :
    data.fold config (instruction :: behind) = .ok next :=
  fold_cons_eq_ok_iff.mpr ⟨middle, completes, later⟩

theorem fold_concat_eq_ok_iff :
    data.fold config (before ++ [instruction]) = .ok next ↔
      ∃ middle, data.fold config before = .ok middle ∧
        middle.effect config.stackSize.toNat instruction = .ok next := by
  simp only [fold_append_eq_ok_iff, fold_cons_eq_ok_iff, fold_nil, Except.ok.injEq,
    exists_eq_right]

theorem fold_ok_or_faults (config : Config) (data : Data) (instructions : List Instruction) :
    (∃ next, data.fold config instructions = .ok next) ∨
      ∃ before instruction behind middle cause, instructions = before ++ instruction :: behind ∧
        data.fold config before = .ok middle ∧
        middle.effect config.stackSize.toNat instruction = .error cause := by
  induction instructions using List.reverseRecOn with
  | nil => exact Or.inl ⟨_, rfl⟩
  | append_singleton front instruction ih =>
      rcases ih with ⟨middle, folds⟩ | ⟨before, found, behind, middle, cause, rfl, folds, faults⟩
      · cases outcome : middle.effect config.stackSize.toNat instruction with
        | ok next => exact Or.inl ⟨next, fold_concat_eq_ok_iff.mpr ⟨middle, folds, outcome⟩⟩
        | error cause => exact Or.inr ⟨front, instruction, [], middle, cause, rfl, folds, outcome⟩
      · right
        refine ⟨before, found, behind ++ [instruction], middle, cause, ?_, folds, faults⟩
        simp

theorem length_words_of_effect (straight : instruction.opcode.isControlFlow = false)
    (completes : data.effect config.stackSize.toNat instruction = .ok next) :
    (next.words.length : Int) = data.words.length + instruction.opcode.growth := by
  rcases completes_of_effect_ok straight 0 0 [] 0 completes with ⟨fault, rfl⟩
  have balance := Entry.length_wordsAfter fault
  simp only [after, Opcode.growth, Instruction.entryAt, machine, OperandStack.depth] at balance ⊢
  omega

theorem length_words_of_fold
    (straight : ∀ instruction ∈ instructions, instruction.opcode.isControlFlow = false)
    (folds : data.fold config instructions = .ok next) :
    (next.words.length : Int) = data.words.length + height instructions := by
  induction instructions using List.reverseRecOn generalizing next with
  | nil =>
      rcases Except.ok.inj folds with rfl
      simp [height]
  | append_singleton front instruction ih =>
      rcases fold_concat_eq_ok_iff.mp folds with ⟨middle, folded, completes⟩
      rcases List.forall_mem_append.mp straight with ⟨calm, others⟩
      have last := List.forall_mem_singleton.mp others
      rw [length_words_of_effect last completes, height_concat, ih calm folded]
      omega

end Fold

section Effects

variable {capacity : Nat} {operand word : UInt64} {words : List UInt64}

theorem effect_push_of_lt (operand : UInt64) (room : data.words.length < capacity) :
    data.effect capacity ⟨.push, some operand⟩ =
      .ok { data with words := operand :: data.words } :=
  if_neg (Nat.not_le.mpr room)

theorem effect_load (fits : operand.toNat + 8 ≤ data.memory.size)
    (room : data.words.length < capacity) :
    data.effect capacity ⟨.load, some operand⟩ =
      .ok { data with words := data.memory.wordAt operand.toNat :: data.words } := by
  have inside : ¬ data.memory.size < operand.toNat + 8 := Nat.not_lt.mpr fits
  have free : ¬ capacity ≤ data.words.length := Nat.not_le.mpr room
  simp only [effect, Option.getD_some, if_neg inside, if_neg free, Memory.wordAt_eq]
  rfl

theorem effect_store (fits : operand.toNat + 8 ≤ data.memory.size)
    (present : data.words = word :: words) :
    data.effect capacity ⟨.store, some operand⟩ =
      .ok { data with words, memory := data.memory.splice operand.toNat word } := by
  have inside : ¬ data.memory.size < operand.toNat + 8 := Nat.not_lt.mpr fits
  simp only [effect, Option.getD_some, present, if_neg inside]
  rfl

theorem effect_binary {opcode : Opcode} {operation : Int → Int → Int} {first second : UInt64}
    (binary : opcode.binary? = some operation) (total : opcode ≠ .div)
    (present : data.words = second :: first :: words) :
    data.effect capacity ⟨opcode, none⟩ =
      .ok { data with words := Word.ofInt (operation first.toNat second.toNat) :: words } := by
  have calm : ¬ (opcode = .div ∧ second = 0) := fun divides => total divides.1
  cases opcode with
  | div => contradiction
  | add | sub | mul | equal | greater | less =>
      simp only [effect, present, binary, if_neg calm]
      rfl
  | _ => contradiction

end Effects

section PushPop

open Instruction

variable {instructions : List Instruction} {next : Data} {capacity : Nat}

theorem effect_push (data : Data) (capacity : Nat) (operand? : Option UInt64) :
    data.effect capacity ⟨.push, operand?⟩ =
      if capacity ≤ data.words.length then .error (.stackOverflow capacity)
      else .ok { data with words := operand?.getD 0 :: data.words } :=
  rfl

theorem effect_pop (data : Data) (capacity : Nat) (operand? : Option UInt64) :
    data.effect capacity ⟨.pop, operand?⟩ =
      match data.words with
      | [] => .error (.stackUnderflow 1 0)
      | _ :: rest => .ok { data with words := rest } := by
  rcases data with ⟨_ | ⟨top, rest⟩, memory, printed⟩
  · rfl
  · rfl

theorem exists_effect_iff (moves : instruction.IsPushOrPop)
    (fits : data.words.length ≤ capacity) :
    (∃ next, data.effect capacity instruction = .ok next) ↔
      0 ≤ data.words.length + instruction.opcode.growth ∧
        data.words.length + instruction.opcode.growth ≤ capacity := by
  rcases instruction with ⟨opcode, operand?⟩
  rcases moves with rfl | rfl
  · have grows : Opcode.push.growth = 1 := rfl
    rw [effect_push, grows]
    by_cases full : capacity ≤ data.words.length
    · rw [if_pos full]
      simp
      omega
    · rw [if_neg full]
      simp
      omega
  · have shrinks : Opcode.pop.growth = -1 := rfl
    rw [effect_pop, shrinks]
    cases words : data.words with
    | nil => simp
    | cons top rest =>
        rw [words, List.length_cons] at fits
        simp
        omega

theorem effect_eq_stackOverflow_iff {bound : Nat} (moves : instruction.IsPushOrPop) :
    data.effect capacity instruction = .error (.stackOverflow bound) ↔
      instruction.opcode = .push ∧ bound = capacity ∧ capacity ≤ data.words.length := by
  rcases instruction with ⟨opcode, operand?⟩
  rcases moves with rfl | rfl
  · rw [effect_push]
    by_cases full : capacity ≤ data.words.length
    · simp [full, eq_comm]
    · simp [full]
  · rw [effect_pop]
    cases data.words <;> simp

theorem length_words_of_pushPop (moves : ∀ instruction ∈ instructions, instruction.IsPushOrPop)
    (folds : (blank config).fold config instructions = .ok data) :
    (data.words.length : Int) = height instructions := by
  have straight := fun found member => (moves found member).isControlFlow_eq
  simpa [blank] using length_words_of_fold straight folds

/-- PUSHes and POPs complete exactly when none of them leads out of the operand stack. -/
theorem exists_fold_iff (moves : ∀ instruction ∈ instructions, instruction.IsPushOrPop) :
    (∃ next, (blank config).fold config instructions = .ok next) ↔
      Fits config.stackSize.toNat instructions := by
  induction instructions using List.reverseRecOn with
  | nil =>
      constructor
      · intro _ front start
        rw [List.prefix_nil.mp start]
        simp [height]
      · intro _
        exact ⟨_, rfl⟩
  | append_singleton before instruction ih =>
      rcases List.forall_mem_append.mp moves with ⟨calm, others⟩
      have last := List.forall_mem_singleton.mp others
      -- The height of the instructions before the last is the depth that it starts from, so the
      -- hypothesis for them bounds this depth.
      have within : ∀ middle, (blank config).fold config before = .ok middle →
          ((∃ next, middle.effect config.stackSize.toNat instruction = .ok next) ↔
            0 ≤ height (before ++ [instruction]) ∧
              height (before ++ [instruction]) ≤ config.stackSize.toNat) := by
        intro middle folds
        have depth := length_words_of_pushPop calm folds
        have bound := ((ih calm).mp ⟨middle, folds⟩ before List.prefix_rfl).2
        rw [exists_effect_iff last (by omega), height_concat, depth]
      simp only [fold_concat_eq_ok_iff]
      constructor
      · rintro ⟨next, middle, folds, completes⟩ front start
        rcases List.prefix_concat_iff.mp start with rfl | earlier
        · exact (within middle folds).mp ⟨next, completes⟩
        · exact (ih calm).mp ⟨middle, folds⟩ front earlier
      · intro bounds
        have earlier := fun front start =>
          bounds front (List.prefix_concat_iff.mpr (Or.inr start))
        rcases (ih calm).mpr earlier with ⟨middle, folds⟩
        rcases (within middle folds).mpr (bounds _ List.prefix_rfl) with ⟨next, completes⟩
        exact ⟨next, middle, folds, completes⟩

/-- PUSHes and POPs that never take more words away than they have added leave the words below. -/
theorem exists_words_eq (moves : ∀ instruction ∈ instructions, instruction.IsPushOrPop)
    (above : ∀ front, front <+: instructions → 0 ≤ height front)
    (folds : data.fold config instructions = .ok next) :
    ∃ added, next.words = added ++ data.words ∧ (added.length : Int) = height instructions := by
  induction instructions using List.reverseRecOn generalizing next with
  | nil =>
      rcases Except.ok.inj folds with rfl
      exact ⟨[], rfl, rfl⟩
  | append_singleton before instruction ih =>
      rcases fold_concat_eq_ok_iff.mp folds with ⟨middle, folded, completes⟩
      rcases List.forall_mem_append.mp moves with ⟨calm, others⟩
      have last := List.forall_mem_singleton.mp others
      have earlier := fun front start =>
        above front (List.prefix_concat_iff.mpr (Or.inr start))
      rcases ih calm earlier folded with ⟨added, words, length⟩
      have remains := above _ List.prefix_rfl
      rw [height_concat] at remains ⊢
      rcases instruction with ⟨opcode, operand?⟩
      rcases last with rfl | rfl
      · have grows : Opcode.push.growth = 1 := rfl
        rw [effect_push] at completes
        split at completes
        · contradiction
        · rcases Except.ok.inj completes with rfl
          refine ⟨operand?.getD 0 :: added, by rw [words, List.cons_append], ?_⟩
          rw [List.length_cons, grows]
          omega
      · have shrinks : (Instruction.mk .pop operand?).opcode.growth = -1 := rfl
        rw [effect_pop, words] at completes
        cases added with
        | nil =>
            -- Without an added word the POP would lead below the start.
            simp only [List.length_nil] at length
            omega
        | cons top rest =>
            rcases Except.ok.inj completes with rfl
            refine ⟨rest, rfl, ?_⟩
            rw [List.length_cons] at length
            omega

end PushPop

end Data

end StackMachine
