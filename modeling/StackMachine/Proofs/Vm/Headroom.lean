import StackMachine.Proofs.Vm.Fresh
import StackMachine.Proofs.Vm.Lockstep

/-!
# Room that a program does not use

A program that never runs out of memory, stack words or call frames cannot tell how much of them is
left.  A machine with more room is the smaller machine with its memory padded by zeros and its two
limits raised, and the only checks that look at the difference are those that find the smaller
machine too small.

The padding stays zero, because an instruction that completes on the smaller machine addresses
nothing behind its memory.
-/

namespace StackMachine

/-- Whether a trap says that the machine is too small for the program. -/
def Trap.isLackOfRoom : Trap → Bool
  | stackOverflow _ | callStackOverflow _ | memoryOutOfRange _ _ => true
  | _ => false

def Error.isLackOfRoom : Error → Bool
  | trap _ cause => cause.isLackOfRoom
  | _ => false

/-- The room of one machine beyond that of another. -/
structure Room where
  bytes : Nat
  words : Nat
  frames : Nat

namespace Config

/-- Each size is at least the other's. -/
structure FitsIn (config larger : Config) : Prop where
  memorySize_le : config.memorySize ≤ larger.memorySize
  stackSize_le : config.stackSize ≤ larger.stackSize
  maxCallDepth_le : config.maxCallDepth ≤ larger.maxCallDepth

def roomWithin (config larger : Config) : Room where
  bytes := larger.memorySize.toNat - config.memorySize.toNat
  words := larger.stackSize.toNat - config.stackSize.toNat
  frames := larger.maxCallDepth.toNat - config.maxCallDepth.toNat

end Config

namespace Memory

variable {memory : Memory} {address : Nat}

/-- The memory with zero bytes behind it. -/
def pad (memory : Memory) (extra : Nat) : Memory := ⟨memory.bytes ++ Array.replicate extra 0⟩

theorem toList_pad (memory : Memory) (extra : Nat) :
    (memory.pad extra).bytes.toList = memory.bytes.toList ++ List.replicate extra 0 := by
  simp [pad]

theorem size_pad (memory : Memory) (extra : Nat) :
    (memory.pad extra).size = memory.size + extra := by
  simp [pad, size]

theorem pad_zeroed (size extra : Nat) : (zeroed size).pad extra = zeroed (size + extra) := by
  simp [pad, zeroed]

theorem window_pad (extra : Nat) (fits : address + Word.size ≤ memory.size) :
    ((memory.pad extra).bytes.toList.drop address).take Word.size =
      (memory.bytes.toList.drop address).take Word.size := by
  have length : memory.bytes.toList.length = memory.size := Array.length_toList
  rw [toList_pad, List.drop_append_of_le_length (by omega), List.take_append_of_le_length]
  rw [List.length_drop]
  omega

theorem splice_pad (extra : Nat) (word : UInt64) (fits : address + Word.size ≤ memory.size) :
    (memory.pad extra).splice address word = (memory.splice address word).pad extra := by
  have length : memory.bytes.toList.length = memory.size := Array.length_toList
  simp only [splice, toList_pad]
  rw [List.take_append_of_le_length (by omega), List.drop_append_of_le_length (by omega)]
  simp [pad]

end Memory

/-- The machine with more room. -/
def Machine.widen (room : Room) (machine : Machine) : Machine :=
  { machine with
    memory := machine.memory.pad room.bytes
    stack := { machine.stack with capacity := machine.stack.capacity + room.words }
    calls := { machine.calls with maxDepth := machine.calls.maxDepth + room.frames } }

namespace Check

variable (room : Room) (machine : Machine)

theorem eases_overflow_widen :
    Eases Trap.isLackOfRoom (overflow machine) (overflow (machine.widen room)) := by
  constructor
  · intro _ unexcused
    contradiction
  · intro passes
    simp only [overflow, decide_eq_false_iff_not] at passes ⊢
    simp only [Machine.widen, OperandStack.depth] at passes ⊢
    omega

theorem eases_outside_widen (address : UInt64) :
    Eases Trap.isLackOfRoom (outside machine address) (outside (machine.widen room) address) := by
  constructor
  · intro _ unexcused
    contradiction
  · intro passes
    simp only [outside, decide_eq_false_iff_not] at passes ⊢
    simp only [Machine.widen, Memory.size_pad] at passes ⊢
    omega

theorem eases_callOverflow_widen :
    Eases Trap.isLackOfRoom (callOverflow machine) (callOverflow (machine.widen room)) := by
  constructor
  · intro _ unexcused
    contradiction
  · intro passes
    simp only [callOverflow, decide_eq_false_iff_not] at passes ⊢
    simp only [Machine.widen, CallStack.depth] at passes ⊢
    omega

end Check

namespace Entry

variable (room : Room) {entry : Entry} {machine : Machine} {codeSize : Nat}

theorem eases_checks_widen (entry : Entry) (machine : Machine) (codeSize : Nat) :
    List.Forall₂ (Check.Eases Trap.isLackOfRoom) (entry.checks machine codeSize)
      (entry.checks (machine.widen room) codeSize) := by
  rcases entry with ⟨offset, opcode, operand?⟩
  refine List.Forall₂.cons (Check.eases_of_eq rfl) ?_
  cases opcode with
  | push => exact .cons (Check.eases_overflow_widen room machine) .nil
  | store => exact .cons (Check.eases_outside_widen room machine _) .nil
  | load =>
      apply List.Forall₂.cons
      · apply Check.eases_outside_widen
      · exact .cons (Check.eases_overflow_widen room machine) .nil
  | call =>
      apply List.Forall₂.cons
      · exact Check.eases_of_eq rfl
      · exact .cons (Check.eases_callOverflow_widen room machine) .nil
  | _ => exact Check.eases_refl _

theorem fault?_widen
    (roomy : ∀ cause, entry.fault? machine codeSize = some cause → cause.isLackOfRoom = false) :
    entry.fault? (machine.widen room) codeSize = entry.fault? machine codeSize :=
  Check.fault?_of_eases (eases_checks_widen room entry machine codeSize) roomy

theorem pushed_widen (completes : entry.fault? machine codeSize = none) :
    entry.pushed (machine.widen room) = entry.pushed machine := by
  rcases entry with ⟨offset, opcode, operand?⟩
  cases opcode with
  | load =>
      have window := Memory.window_pad room.bytes (fits_of_load completes rfl)
      exact congrArg (fun bytes => [Word.ofBytes bytes]) window
  | _ => rfl

theorem memoryAfter_widen (completes : entry.fault? machine codeSize = none) :
    entry.memoryAfter (machine.widen room) = (entry.memoryAfter machine).pad room.bytes := by
  rcases entry with ⟨offset, opcode, operand?⟩
  cases opcode with
  | store => exact Memory.splice_pad room.bytes _ (fits_of_store completes rfl)
  | _ => rfl

theorem machineAfter_widen (completes : entry.fault? machine codeSize = none) :
    entry.machineAfter (machine.widen room) = (entry.machineAfter machine).widen room := by
  have words : entry.wordsAfter (machine.widen room) = entry.wordsAfter machine := by
    rw [wordsAfter, pushed_widen room completes]
    rfl
  simp only [machineAfter, words, memoryAfter_widen room completes]
  rfl

end Entry

namespace Machine

variable {room : Room} {machine : Machine} {code : Bytes}

theorem keepsPlace_widen (room : Room) : KeepsPlace (widen room) :=
  ⟨fun _ => rfl, fun _ => rfl, fun _ => rfl, fun _ => rfl⟩

/-- A step that does not lack room is the same step with more of it. -/
theorem step_widen (loaded : machine.code? = some code)
    (roomy : ∀ error, machine.step.result = .error error → error.isLackOfRoom = false) :
    (machine.widen room).step =
      ⟨machine.step.result, machine.step.printed?, machine.step.state.widen room⟩ := by
  apply step_embed (keepsPlace_widen room) loaded
  · intro entry decoded
    apply Entry.fault?_widen
    intro cause fault
    have fails : machine.step.result = .error (.trap entry.offset cause) := by
      rw [step_of_decodeAt_ok loaded decoded, Entry.transition, fault]
    exact roomy _ fails
  · intro entry _ completes
    exact ⟨rfl, Entry.machineAfter_widen room completes⟩

theorem load_ofConfig_widen {config larger : Config} (fits : config.FitsIn larger) (code : Bytes) :
    (ofConfig larger).load code =
      ((ofConfig config).load code).widen (config.roomWithin larger) := by
  have memory := UInt32.le_iff_toNat_le.mp fits.memorySize_le
  have stack := UInt32.le_iff_toNat_le.mp fits.stackSize_le
  have calls := UInt32.le_iff_toNat_le.mp fits.maxCallDepth_le
  simp only [ofConfig, load, widen, Config.roomWithin, Memory.pad_zeroed, OperandStack.empty,
    CallStack.clear, CallStack.empty, Nat.add_sub_cancel' memory, Nat.add_sub_cancel' stack,
    Nat.add_sub_cancel' calls]

end Machine

namespace Vm

/-- A program that does not run out of room cannot tell how much room there is: fresh instances of
two sizes give the same results and print the same values step by step, and they stay in the same
state, but for the zeros behind the smaller memory. -/
theorem independent_of_room {config larger : Config} {code : Bytes} {small large : Vm} {count : Nat}
    (fits : config.FitsIn larger) (starts : Starts config code small)
    (startsLarge : Starts larger code large)
    (roomy : ∀ index < count, ∀ error, (small.after index).step.result = .error error →
      error.isLackOfRoom = false) :
    (∀ index < count, (large.after index).step.result = (small.after index).step.result ∧
      (large.after index).step.printed? = (small.after index).step.printed?) ∧
    ∀ index ≤ count, SamePlace (small.after index) (large.after index) ∧
      (large.after index).stack = (small.after index).stack ∧
      (large.after index).memory.bytes.toList = (small.after index).memory.bytes.toList ++
        List.replicate (larger.memorySize.toNat - config.memorySize.toNat) 0 := by
  rcases starts_iff.mp starts with ⟨_, begins⟩
  rcases starts_iff.mp startsLarge with ⟨_, beginsLarge⟩
  rw [Machine.load_ofConfig_widen fits] at beginsLarge
  have live : small.machine? = some ((Machine.ofConfig config).load code) := by rw [begins]
  have liveLarge : large.machine? = some (((Machine.ofConfig config).load code).widen
      (config.roomWithin larger)) := by rw [beginsLarge]
  have commutes : ∀ index < count, ∀ later, (small.after index).machine? = some later →
      later.code? = some code →
      (later.widen (config.roomWithin larger)).step = ⟨later.step.result, later.step.printed?,
        later.step.state.widen (config.roomWithin larger)⟩ := by
    intro index bound later reached loaded
    apply Machine.step_widen loaded
    intro error fails
    apply roomy index bound
    rw [step_live reached]
    exact fails
  rcases lockstep (Machine.keepsPlace_widen _) live rfl liveLarge commutes with
    ⟨steps, states⟩
  refine ⟨steps, ?_⟩
  intro index bound
  rcases states index bound with ⟨place, later, reached, reachedLarge⟩
  refine ⟨place, ?_, ?_⟩
  · simp [stack, reached, reachedLarge, Machine.widen, OperandStack.bottomFirst]
  · simp [memory, reached, reachedLarge, Machine.widen, Memory.toList_pad, Config.roomWithin]

/-- An instance that stores a word and then takes another one from the empty stack. -/
def storing (config : Config) : Vm where
  config
  machine? := some ((Machine.ofConfig config).load
    (Opcode.push.encode (some 5) ++ Opcode.store.encode (some 0) ++ Opcode.pop.encode none))

/-- Twice the room changes neither the trap nor the memory in front. -/
theorem independent_storing :
    ((storing ⟨16, 2, 2⟩).after 2).step.result = .error (.trap 18 (.stackUnderflow 1 0)) ∧
      ((storing ⟨16, 2, 2⟩).after 3).memory.bytes.toList =
        [5, 0, 0, 0, 0, 0, 0, 0] ++ List.replicate 8 0 := by
  have fits : Config.FitsIn ⟨8, 1, 1⟩ ⟨16, 2, 2⟩ := ⟨by decide, by decide, by decide⟩
  have underflows : ((storing ⟨8, 1, 1⟩).after 2).step.result =
      .error (.trap 18 (.stackUnderflow 1 0)) := rfl
  have runs : (storing ⟨8, 1, 1⟩).Runs 2 := ⟨rfl, rfl, trivial⟩
  have roomy : ∀ index < 3, ∀ error,
      ((storing ⟨8, 1, 1⟩).after index).step.result = .error error →
        error.isLackOfRoom = false := by
    intro index bound error reported
    rcases error_of_runs runs underflows (by omega) reported with rfl
    rfl
  rcases independent_of_room fits (starts_iff.mpr ⟨rfl, rfl⟩) (starts_iff.mpr ⟨rfl, rfl⟩) roomy with
    ⟨steps, states⟩
  exact ⟨(steps 2 (by decide)).1.trans underflows, (states 3 (by decide)).2.2⟩

end Vm

end StackMachine
