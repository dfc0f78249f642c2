import Mathlib.Data.List.GetD
import StackMachine.Proofs.Vm.Coherence
import StackMachine.Proofs.Vm.Lockstep

/-!
# Words left by an earlier program

Loading a program keeps the operand stack, so a program may start on top of words that it did not
push.  As long as it does not reach for them and they leave it enough room, it runs as it would on
an empty stack, and they stay where they are.

Of all checks only those on the stack itself see the words beneath.  A program that takes what it
pushed passes the underflow check with and without them.  Overflow needs more care: the stack may be
full with the words beneath and not without them, and then a PUSH or a LOAD has to be one that
faults for another reason.
-/

namespace StackMachine

/-- The machine with words beneath those of its operand stack. -/
def Machine.onTop (base : List UInt64) (machine : Machine) : Machine :=
  { machine with stack := { machine.stack with words := machine.stack.words ++ base } }

variable {base : List UInt64} {machine : Machine} {codeSize : Nat}

theorem Machine.depth_onTop (base : List UInt64) (machine : Machine) :
    (machine.onTop base).stack.depth = machine.stack.depth + base.length :=
  List.length_append

theorem Machine.word_onTop {depth : Nat} (present : depth < machine.stack.depth) :
    (machine.onTop base).word depth = machine.word depth :=
  List.getD_append _ _ _ _ present

theorem Check.overflow_onTop
    (within : machine.stack.depth + base.length ≤ machine.stack.capacity)
    (room : (overflow machine).fails = false →
      machine.stack.depth + base.length < machine.stack.capacity) :
    overflow (machine.onTop base) = overflow machine := by
  have full : machine.stack.capacity ≤ (machine.onTop base).stack.depth ↔
      machine.stack.capacity ≤ machine.stack.depth := by
    simp only [overflow, decide_eq_false_iff_not] at room
    rw [Machine.depth_onTop]
    omega
  exact congrArg (fun fails => Check.mk fails _) (decide_eq_decide.mpr full)

namespace Entry

variable {entry : Entry}

theorem fault?_of_lacking (lacks : machine.stack.depth < entry.opcode.inputs) :
    entry.fault? machine codeSize =
      some (.stackUnderflow entry.opcode.inputs machine.stack.depth) := by
  simp [fault?, checks, Check.fault?_cons, Check.underflow, lacks]

theorem fault?_eq_tail (enough : entry.opcode.inputs ≤ machine.stack.depth) :
    entry.fault? machine codeSize = Check.fault? (entry.checks machine codeSize).tail := by
  have passes : (Check.underflow machine entry.opcode.inputs).fails = false := by
    simpa [Check.underflow] using enough
  simp [fault?, checks, Check.fault?_cons, passes]

theorem fault?_onTop (enough : entry.opcode.inputs ≤ machine.stack.depth)
    (within : machine.stack.depth + base.length ≤ machine.stack.capacity)
    (room : entry.fault? machine codeSize = none → entry.opcode.inputs < entry.opcode.outputs →
      machine.stack.depth + base.length < machine.stack.capacity) :
    entry.fault? (machine.onTop base) codeSize = entry.fault? machine codeSize := by
  have enoughOnTop : entry.opcode.inputs ≤ (machine.onTop base).stack.depth := by
    rw [Machine.depth_onTop]
    omega
  rw [fault?_eq_tail enough] at room ⊢
  rw [fault?_eq_tail enoughOnTop]
  rcases entry with ⟨offset, opcode, operand?⟩
  cases opcode with
  | push =>
      have same : Check.overflow (machine.onTop base) = Check.overflow machine := by
        apply Check.overflow_onTop within
        intro passes
        exact room (by simp [checks, Check.fault?, passes]) Nat.one_pos
      simp only [checks, List.tail_cons, same]
  | load =>
      -- Behind a bad address nobody looks at the stack, and there need not be room.
      by_cases outside : (Check.outside machine (operand?.getD 0)).fails = true
      · have same : (Check.outside (machine.onTop base) (operand?.getD 0)).fails = true := outside
        simp only [checks, List.tail_cons, Check.fault?_cons, operand, outside, same]
        rfl
      · have same : Check.overflow (machine.onTop base) = Check.overflow machine := by
          apply Check.overflow_onTop within
          intro passes
          exact room (by simp [checks, Check.fault?, operand, outside, passes]) Nat.one_pos
        simp only [checks, List.tail_cons, same]
        rfl
  | div =>
      have divisor : (machine.onTop base).word 0 = machine.word 0 :=
        Machine.word_onTop (Nat.lt_of_lt_of_le Nat.two_pos enough)
      simp only [checks, List.tail_cons, Check.zeroDivisor, divisor]
  | jumpIf =>
      have condition : (machine.onTop base).word 0 = machine.word 0 :=
        Machine.word_onTop (Nat.lt_of_lt_of_le Nat.one_pos enough)
      simp only [checks, List.tail_cons, Check.whenTaken, condition]
  | _ => rfl

theorem pushed_onTop (enough : entry.opcode.inputs ≤ machine.stack.depth) :
    entry.pushed (machine.onTop base) = entry.pushed machine := by
  have reads : ∀ depth < entry.opcode.inputs,
      (machine.onTop base).word depth = machine.word depth := by
    intro depth taken
    exact Machine.word_onTop (Nat.lt_of_lt_of_le taken enough)
  rcases entry with ⟨offset, opcode, operand?⟩
  cases opcode with
  | print => simp only [pushed, reads 0 Nat.one_pos]
  | add | sub | mul | div | equal | greater | less =>
      simp only [pushed, Opcode.binary?, reads 0 Nat.two_pos, reads 1 Nat.one_lt_two]
  | _ => rfl

theorem wordsAfter_onTop (enough : entry.opcode.inputs ≤ machine.stack.depth) :
    entry.wordsAfter (machine.onTop base) = entry.wordsAfter machine ++ base := by
  have kept : (machine.onTop base).stack.words.drop entry.opcode.inputs =
      machine.stack.words.drop entry.opcode.inputs ++ base :=
    List.drop_append_of_le_length enough
  simp only [wordsAfter, pushed_onTop enough, kept, List.append_assoc]

theorem printed?_onTop (enough : entry.opcode.inputs ≤ machine.stack.depth) :
    entry.printed? (machine.onTop base) = entry.printed? machine := by
  rcases entry with ⟨offset, opcode, operand?⟩
  cases opcode with
  | print => exact congrArg some (Machine.word_onTop enough)
  | _ => rfl

theorem machineAfter_onTop (enough : entry.opcode.inputs ≤ machine.stack.depth) :
    entry.machineAfter (machine.onTop base) = (entry.machineAfter machine).onTop base := by
  have memory : entry.memoryAfter (machine.onTop base) = entry.memoryAfter machine := by
    rcases entry with ⟨offset, opcode, operand?⟩
    cases opcode with
    | store => exact congrArg (machine.memory.splice _) (Machine.word_onTop enough)
    | _ => rfl
  have place : entry.ipAfter (machine.onTop base) = entry.ipAfter machine := by
    rcases entry with ⟨offset, opcode, operand?⟩
    cases opcode with
    | jumpIf =>
        have condition : (machine.onTop base).word 0 = machine.word 0 := Machine.word_onTop enough
        simp only [ipAfter, condition]
    | _ => rfl
  simp only [machineAfter, memory, place, wordsAfter_onTop enough]
  rfl

end Entry

namespace Machine

variable {code : Bytes}

theorem keepsPlace_onTop (base : List UInt64) : KeepsPlace (onTop base) :=
  ⟨fun _ => rfl, fun _ => rfl, fun _ => rfl, fun _ => rfl⟩

/-- A step that finds its own words, and that leaves room for the words beneath, is the same step on
top of them. -/
theorem step_onTop (loaded : machine.code? = some code)
    (sound : ∀ error, machine.step.result = .error error → error.kind ≠ .stackUnderflow)
    (within : machine.stack.depth + base.length ≤ machine.stack.capacity)
    (withinAfter : machine.step.state.stack.depth + base.length ≤ machine.stack.capacity) :
    (machine.onTop base).step =
      ⟨machine.step.result, machine.step.printed?, machine.step.state.onTop base⟩ := by
  have enough : ∀ entry, Listing.decodeAt code machine.ip = .ok entry →
      entry.opcode.inputs ≤ machine.stack.depth := by
    intro entry decoded
    by_contra lacks
    have underflows : machine.step.result = .error (.trap entry.offset
        (.stackUnderflow entry.opcode.inputs machine.stack.depth)) := by
      simp only [step_of_decodeAt_ok loaded decoded, Entry.transition,
        Entry.fault?_of_lacking (Nat.lt_of_not_le lacks)]
    exact sound _ underflows rfl
  apply step_embed (keepsPlace_onTop base) loaded
  · intro entry decoded
    apply Entry.fault?_onTop (enough entry decoded) within
    intro completes grows
    have stepped : machine.step.state = entry.machineAfter machine := by
      simp only [step_of_decodeAt_ok loaded decoded, Entry.transition, completes]
    have balance := Entry.length_wordsAfter completes
    rw [stepped] at withinAfter
    simp only [OperandStack.depth, Entry.machineAfter] at withinAfter balance ⊢
    omega
  · intro entry decoded _
    exact ⟨Entry.printed?_onTop (enough entry decoded),
      Entry.machineAfter_onTop (enough entry decoded)⟩

/-- A load keeps the words that are there, and nothing else tells it from one on an empty stack. -/
theorem load_onTop {config : Config} {other : Machine} (coherent : machine.Coherent config)
    (coherentOther : other.Coherent config) (empty : machine.stack.words = [])
    (sameMemory : other.memory = machine.memory) :
    other.load code = (machine.load code).onTop other.stack.words := by
  have capacity : other.stack.capacity = machine.stack.capacity := by
    rw [coherentOther.stack_capacity, coherent.stack_capacity]
  have maxDepth : other.calls.maxDepth = machine.calls.maxDepth := by
    rw [coherentOther.calls_maxDepth, coherent.calls_maxDepth]
  simp only [load, onTop, CallStack.clear, sameMemory, maxDepth, empty, List.nil_append, ← capacity]

end Machine

namespace Vm

/-- A program that is loaded into a used instance depends on its memory only.  Next to an instance
of the same sizes and the same memory whose operand stack is empty, it gives the same results,
prints the same values and stays in the same state, and the words that were left lie beneath its
own.  This holds until it takes one of them, and as long as they leave it enough room.

Both instances may be any that a host can bring about, since all of those are coherent. -/
theorem reload_isolates {alone used launched relaunched : Vm} {code : Bytes} {count : Nat}
    (coherent : alone.Coherent) (coherentUsed : used.Coherent)
    (sizes : alone.config = used.config) (sameMemory : alone.memory = used.memory)
    (empty : alone.stack = []) (installs : Installs code alone launched)
    (reinstalls : Installs code used relaunched)
    (sound : ∀ index < count, ∀ error, (launched.after index).step.result = .error error →
      error.kind ≠ .stackUnderflow)
    (room : ∀ index ≤ count,
      (launched.after index).stackDepth + used.stackDepth ≤ used.stackCapacity) :
    (∀ index < count, (relaunched.after index).step.result = (launched.after index).step.result ∧
      (relaunched.after index).step.printed? = (launched.after index).step.printed?) ∧
    ∀ index ≤ count, SamePlace (launched.after index) (relaunched.after index) ∧
      (relaunched.after index).memory = (launched.after index).memory ∧
      (relaunched.after index).stack = used.stack ++ (launched.after index).stack := by
  rcases installs_iff.mp installs with ⟨machine, live, place⟩
  rcases installs_iff.mp reinstalls with ⟨other, liveUsed, placeUsed⟩
  have liveLaunched : launched.machine? = some (machine.load code) := by rw [place]
  have liveRelaunched : relaunched.machine? =
      some ((machine.load code).onTop other.stack.words) := by
    have known := coherent machine live
    rw [sizes] at known
    have bottom : machine.stack.words = [] := by
      simpa [stack, live, OperandStack.bottomFirst] using empty
    have kept : other.memory = machine.memory := by
      simpa [memory, live, liveUsed] using sameMemory.symm
    rw [placeUsed, Machine.load_onTop known (coherentUsed other liveUsed) bottom kept]
  have commutes : ∀ index < count, ∀ later, (launched.after index).machine? = some later →
      later.code? = some code →
      (later.onTop other.stack.words).step = ⟨later.step.result, later.step.printed?,
        later.step.state.onTop other.stack.words⟩ := by
    intro index bound later reached loaded
    have limit : later.stack.capacity = other.stack.capacity := by
      have known := (coherent.installs installs).after index later reached
      have config : (launched.after index).config = used.config := by
        rw [after_live liveLaunched, place, ← sizes]
      rw [known.stack_capacity, config, (coherentUsed other liveUsed).stack_capacity]
    have within := room index (by omega)
    have withinAfter := room (index + 1) (by omega)
    rw [after_succ, step_live reached] at withinAfter
    simp only [stackDepth, stackCapacity, reached, liveUsed, Option.map_some, Option.getD_some,
      ← limit] at within withinAfter
    apply Machine.step_onTop loaded
    · intro error fails
      apply sound index bound
      rw [step_live reached]
      exact fails
    · exact within
    · exact withinAfter
  rcases lockstep (Machine.keepsPlace_onTop _) liveLaunched rfl liveRelaunched commutes with
    ⟨steps, states⟩
  refine ⟨steps, ?_⟩
  intro index bound
  rcases states index bound with ⟨same, later, reached, reachedOnTop⟩
  refine ⟨same, ?_, ?_⟩
  · simp [memory, reached, reachedOnTop, Machine.onTop]
  · simp [stack, liveUsed, reached, reachedOnTop, Machine.onTop, OperandStack.bottomFirst]

/-- An instance whose program divides five by zero, loaded into an earlier one. -/
def relaunch (vm : Vm) : Vm :=
  (vm.load .unlimited (Opcode.push.encode (some 5) ++ Opcode.push.encode (some 0) ++
    Opcode.div.encode none)).vm

def blank : Vm := ⟨⟨8, 3, 1⟩, some (.ofConfig ⟨8, 3, 1⟩)⟩

/-- An instance that was left in a call and with a word on its operand stack. -/
def abandoned : Vm :=
  (blank.load .unlimited (Opcode.push.encode (some 7) ++ Opcode.call.encode (some 0))).vm.after 2

/-- The word that was left stays, and the call is forgotten. -/
theorem reload_abandoned :
    abandoned.frames = [18] ∧ ((relaunch abandoned).after 2).frames = [] ∧
      ((relaunch abandoned).after 2).stack = [7, 5, 0] ∧
      ((relaunch abandoned).after 2).step.result = .error (.trap 18 .divideByZero) := by
  have coherent : blank.Coherent := by
    intro machine live
    rcases Option.some.inj live with rfl
    exact Machine.coherent_ofConfig rfl
  have coherentAbandoned : abandoned.Coherent :=
    (coherent.installs ⟨.unlimited, rfl, rfl⟩).after 2
  have trapped : ((relaunch blank).after 2).step.result = .error (.trap 18 .divideByZero) := rfl
  have runs : (relaunch blank).Runs 2 := ⟨rfl, rfl, trivial⟩
  have sound : ∀ index < 3, ∀ error, ((relaunch blank).after index).step.result = .error error →
      error.kind ≠ .stackUnderflow := by
    intro index bound error reported
    rcases error_of_runs runs trapped (by omega) reported with rfl
    decide
  have room : ∀ index ≤ 3, ((relaunch blank).after index).stackDepth + abandoned.stackDepth ≤
      abandoned.stackCapacity := by
    decide
  rcases reload_isolates coherent coherentAbandoned rfl rfl rfl ⟨.unlimited, rfl, rfl⟩
    ⟨.unlimited, rfl, rfl⟩ sound room with ⟨steps, states⟩
  rcases states 2 (by decide) with ⟨place, _, stack⟩
  exact ⟨rfl, place.frames_eq, stack, (steps 2 (by decide)).1.trans trapped⟩

end Vm

end StackMachine
