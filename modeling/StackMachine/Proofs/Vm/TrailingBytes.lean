import StackMachine.Proofs.Listing.Composition
import StackMachine.Proofs.Vm.Fresh
import StackMachine.Proofs.Vm.Lockstep

/-!
# Bytes behind a program

A program that stops at an END never looks at what stands behind its bytecode.  More bytes change
three things: an operand that was cut off may be whole, a target that was outside may be inside, and
the end of the bytecode is farther away.  A step that completes, and does not end the program by
reaching its last byte, needs none of these changes.  So it is the same step in front of any bytes,
whether it goes where the listing has an instruction or into the middle of one.
-/

namespace StackMachine

/-- The machine with more bytes behind its program. -/
def Machine.extend (behind : Bytes) (machine : Machine) : Machine :=
  { machine with code? := machine.code?.map (· ++ behind) }

namespace Check

variable {machine : Machine} {codeSize larger : Nat}

theorem eases_beyond (longer : codeSize ≤ larger) (target : UInt64) :
    Eases (fun _ => true) (beyond codeSize target) (beyond larger target) := by
  constructor
  · intro _ unexcused
    contradiction
  · intro inside
    simp only [beyond, decide_eq_false_iff_not] at inside ⊢
    omega

theorem eases_whenTaken {check other : Check} (eases : Eases (fun _ => true) check other) :
    Eases (fun _ => true) (whenTaken machine check) (whenTaken machine other) := by
  constructor
  · intro _ unexcused
    contradiction
  · intro passes
    simp only [whenTaken, Bool.and_eq_false_iff] at passes ⊢
    exact passes.imp_right eases.passes

end Check

namespace Entry

variable {entry : Entry} {machine : Machine} {behind : Bytes} {codeSize larger : Nat}

theorem eases_checks_extend (longer : codeSize ≤ larger) :
    List.Forall₂ (Check.Eases fun _ => true) (entry.checks machine codeSize)
      (entry.checks (machine.extend behind) larger) := by
  rcases entry with ⟨offset, opcode, operand?⟩
  refine List.Forall₂.cons (Check.eases_of_eq rfl) ?_
  cases opcode with
  | call =>
      apply List.Forall₂.cons
      · exact Check.eases_beyond longer _
      · exact .cons (Check.eases_of_eq rfl) .nil
  | jump => exact .cons (Check.eases_beyond longer _) .nil
  | jumpIf => exact .cons (Check.eases_whenTaken (Check.eases_beyond longer _)) .nil
  | _ => exact Check.eases_refl _

/-- An entry that completes does so in front of more bytes. -/
theorem completes_extend (longer : codeSize ≤ larger)
    (completes : entry.fault? machine codeSize = none) :
    entry.fault? (machine.extend behind) larger = none := by
  have same : entry.fault? (machine.extend behind) larger = entry.fault? machine codeSize := by
    apply Check.fault?_of_eases (eases_checks_extend longer)
    intro cause faults
    cases completes.symm.trans faults
  exact same.trans completes

theorem statusAfter_extend (longer : codeSize ≤ larger)
    (short : entry.statusAfter machine codeSize ≠ .endOfProgram) :
    entry.statusAfter (machine.extend behind) larger = entry.statusAfter machine codeSize := by
  have goes : entry.ipAfter (machine.extend behind) = entry.ipAfter machine := rfl
  simp only [statusAfter, goes] at short ⊢
  by_cases halts : entry.opcode = .halt
  · simp only [halts, if_true]
  · simp only [halts, if_false] at short ⊢
    have inside : ¬ codeSize ≤ entry.ipAfter machine := by
      intro reached
      exact short (if_pos reached)
    rw [if_neg inside, if_neg (by omega)]

end Entry

namespace Machine

variable {machine : Machine} {code : Bytes} {status : Status}

/-- A step that completes short of the end is the same step in front of more bytes. -/
theorem step_extend (behind : Bytes) (loaded : machine.code? = some code)
    (completes : machine.step.result = .ok status) (short : status ≠ .endOfProgram) :
    (machine.extend behind).step =
      ⟨machine.step.result, machine.step.printed?, machine.step.state.extend behind⟩ := by
  revert completes
  apply step_cases (motive := fun transition => transition.result = .ok status →
    (machine.extend behind).step =
      ⟨transition.result, transition.printed?, transition.state.extend behind⟩) loaded
  · intro _ ended
    exact absurd (Except.ok.inj ended).symm short
  · intro _ _ _ failed
    contradiction
  · intro _ _ _ _ failed
    contradiction
  · intro entry decoded passes reached
    have longer : code.length ≤ (code ++ behind).length := by simp
    have loadedLonger : (machine.extend behind).code? = some (code ++ behind) := by
      simp [extend, loaded]
    rcases Except.ok.inj reached with rfl
    rw [step_of_decodeAt_ok loadedLonger (Listing.decodeAt_append decoded behind),
      Entry.transition]
    simp only [Entry.completes_extend longer passes, Entry.statusAfter_extend longer short]
    rfl

end Machine

namespace Vm

/-- The instance with more bytes behind its program. -/
def extend (behind : Bytes) (vm : Vm) : Vm :=
  { vm with machine? := vm.machine?.map (·.extend behind) }

variable {vm : Vm} {config : Config} {code behind : Bytes} {count : Nat}

theorem samePlace_extend (behind : Bytes) (vm : Vm) : SamePlace vm (vm.extend behind) := by
  rcases vm with ⟨config, _ | machine⟩
  · exact ⟨rfl, rfl, rfl⟩
  · exact ⟨rfl, rfl, rfl⟩

theorem stack_extend (behind : Bytes) (vm : Vm) : (vm.extend behind).stack = vm.stack := by
  rcases vm with ⟨config, _ | machine⟩
  · rfl
  · rfl

theorem memory_extend (behind : Bytes) (vm : Vm) : (vm.extend behind).memory = vm.memory := by
  rcases vm with ⟨config, _ | machine⟩
  · rfl
  · rfl

/-- As long as steps complete short of the end, an instance keeps up with the one in front of more
bytes. -/
theorem after_extend {machine : Machine} (behind : Bytes)
    (live : vm.machine? = some machine) (loaded : machine.code? = some code)
    (short : ∀ index < count, ∃ status, (vm.after index).step.result = .ok status ∧
      status ≠ .endOfProgram) :
    (∀ index < count, ((vm.extend behind).after index).step.result =
        (vm.after index).step.result ∧
      ((vm.extend behind).after index).step.printed? = (vm.after index).step.printed?) ∧
    ∀ index ≤ count, (vm.extend behind).after index = (vm.after index).extend behind := by
  have commutes : ∀ index < count, ((vm.after index).extend behind).step =
      ⟨(vm.after index).step.result, (vm.after index).step.printed?,
        (vm.after index).step.state.extend behind⟩ := by
    intro index bound
    rcases short index bound with ⟨status, completes, goesOn⟩
    rcases loaded_after live loaded index with ⟨later, reached, loadedLater⟩
    have reachedLonger : ((vm.after index).extend behind).machine? =
        some (later.extend behind) := by
      simp [extend, reached]
    rw [step_live reached] at completes ⊢
    rw [step_live reachedLonger, Machine.step_extend behind loadedLater completes goesOn]
    rfl
  have follows : ∀ index ≤ count,
      (vm.extend behind).after index = (vm.after index).extend behind := by
    intro index bound
    exact Transition.after_embed_of_le commutes bound
  refine ⟨?_, follows⟩
  intro index bound
  rw [follows index (by omega), commutes index bound]
  exact ⟨rfl, rfl⟩

theorem starts_extend (starts : Starts config code vm) :
    Starts config (code ++ behind) (vm.extend behind) := by
  rcases starts_iff.mp starts with ⟨accepted, rfl⟩
  exact starts_iff.mpr ⟨accepted, rfl⟩

/-- Bytes behind a program that stops at an END have no effect.  Of two fresh instances of the same
sizes, one with the program and one with more bytes behind it, both report the same at every step up
to the END, print the same values and stay in the same state. -/
theorem bytes_behind_halt_are_inert {longer : Vm} (starts : Starts config code vm)
    (startsLonger : Starts config (code ++ behind) longer) (runs : vm.Runs count)
    (halts : (vm.after count).step.result = .ok .halted) :
    (∀ index ≤ count, (longer.after index).step.result = (vm.after index).step.result ∧
      (longer.after index).step.printed? = (vm.after index).step.printed?) ∧
    ∀ index ≤ count + 1, SamePlace (vm.after index) (longer.after index) ∧
      (longer.after index).stack = (vm.after index).stack ∧
      (longer.after index).memory = (vm.after index).memory := by
  rcases starts_iff.mp starts with ⟨_, begins⟩
  have live : vm.machine? = some ((Machine.ofConfig config).load code) := by rw [begins]
  have same : longer = vm.extend behind := by
    rw [(starts_iff.mp startsLonger).2, (starts_iff.mp (starts_extend starts)).2]
  have short : ∀ index < count + 1, ∃ status, (vm.after index).step.result = .ok status ∧
      status ≠ .endOfProgram := by
    intro index bound
    rcases Nat.lt_succ_iff_lt_or_eq.mp bound with earlier | rfl
    · exact ⟨.running, (Transition.runs_iff step).mp runs index earlier, by decide⟩
    · exact ⟨.halted, halts, by decide⟩
  subst same
  rcases after_extend behind live rfl short with ⟨steps, states⟩
  refine ⟨fun index bound => steps index (by omega), ?_⟩
  intro index bound
  rw [states index bound]
  exact ⟨samePlace_extend behind _, stack_extend behind _, memory_extend behind _⟩

/-- A program that jumps into the operand of its first instruction, where an END stands. -/
def jumpingInside : Bytes := Opcode.push.encode (some 0x11) ++ Opcode.jump.encode (some 1)

/-- Behind it stands an instruction that does not decode, and no step notices. -/
theorem inert_jumpingInside :
    ∃ longer, Starts .standard (jumpingInside ++ [0xFF, 0x0C]) longer ∧
      (longer.after 2).step.result = .ok .halted ∧ (longer.after 3).ip = 2 ∧
      (longer.after 3).executed = 3 ∧ (longer.after 3).stack = [0x11] := by
  have starts (code : Bytes) :
      Starts .standard code ⟨.standard, some ((Machine.ofConfig .standard).load code)⟩ :=
    starts_iff.mpr ⟨rfl, rfl⟩
  have runs : (Vm.mk .standard (some ((Machine.ofConfig .standard).load jumpingInside))).Runs 2 :=
    ⟨rfl, rfl, trivial⟩
  rcases bytes_behind_halt_are_inert (starts jumpingInside)
    (starts (jumpingInside ++ [0xFF, 0x0C])) runs rfl with ⟨steps, states⟩
  rcases states 3 (by decide) with ⟨place, stack, _⟩
  exact ⟨_, starts _, (steps 2 (by decide)).1, place.ip_eq, place.executed_eq, stack⟩

end Vm

end StackMachine
