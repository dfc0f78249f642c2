import StackMachine.Proofs.Listing.Coverage
import StackMachine.Proofs.Machine.Refinement
import StackMachine.Proofs.Vm.History

/-!
# Control flow of well-formed bytecode

The machine takes any offset for the start of an instruction.  Of bytecode whose targets are offsets
of its listing it only ever runs the instructions of that listing: an instruction goes on at its
successor, at its target or behind the CALL that is pending, and all of these are boundaries.

So no step can meet a byte string that does not decode or a target outside the bytecode, whatever
the operand stack and the memory hold.
-/

namespace StackMachine

/-- Whether a trap is the fault of the bytecode alone: an opcode or an operand that is not there, or
a target outside. -/
def Trap.isCodeFault : Trap → Bool
  | unknownOpcode _ | truncated _ _ | jumpOutOfRange _ _ => true
  | _ => false

def Error.isCodeFault : Error → Bool
  | trap _ cause => cause.isCodeFault
  | _ => false

theorem Entry.of_isCodeFault {entry : Entry} {machine : Machine} {codeSize : Nat} {cause : Trap}
    (faults : entry.fault? machine codeSize = some cause) (blamed : cause.isCodeFault = true) :
    entry.opcode.operandKind? = some .target ∧ codeSize ≤ entry.operand.toNat ∧
      cause = .jumpOutOfRange entry.operand codeSize := by
  rcases Check.exists_of_fault? faults with ⟨check, member, fails, rfl⟩
  rcases entry with ⟨offset, opcode, operand?⟩
  cases opcode with
  | call =>
      simp only [checks, List.mem_cons, List.not_mem_nil, or_false] at member
      rcases member with rfl | rfl | rfl
      · contradiction
      · exact ⟨rfl, by simpa [Check.beyond] using fails, rfl⟩
      · contradiction
  | jump =>
      simp only [checks, List.mem_cons, List.not_mem_nil, or_false] at member
      rcases member with rfl | rfl
      · contradiction
      · exact ⟨rfl, by simpa [Check.beyond] using fails, rfl⟩
  | jumpIf =>
      simp only [checks, List.mem_cons, List.not_mem_nil, or_false] at member
      rcases member with rfl | rfl
      · contradiction
      · simp only [Check.whenTaken, Check.beyond, Bool.and_eq_true, decide_eq_true_eq] at fails
        exact ⟨rfl, fails.2, rfl⟩
  | _ =>
      simp only [checks, List.mem_cons, List.not_mem_nil, or_false] at member
      rcases member with rfl | rfl | rfl <;> contradiction

open Listing

namespace Machine

/-- The machine holds `code` and stands at a boundary of the listing, as does every pending call. -/
structure Aligned (listing : Listing) (code : Bytes) (machine : Machine) : Prop where
  loaded : machine.code? = some code
  ip : IsBoundary listing code machine.ip
  frames : ∀ address ∈ machine.calls.frames, IsBoundary listing code address

namespace Aligned

variable {listing : Listing} {code : Bytes} {machine : Machine} {entry : Entry}

theorem start (covers : Covers code 0 listing) (machine : Machine) :
    (machine.load code).Aligned listing code where
  loaded := rfl
  ip := covers.isBoundary_start
  frames := fun _ pending => absurd pending List.not_mem_nil

theorem load (wellFormed : listing.WellFormed code) (machine : Machine) :
    (machine.load code).Aligned listing code :=
  start wellFormed.covers machine

theorem machineAfter (aligned : machine.Aligned listing code) (closed : listing.Closed code)
    (decoded : decodeAt code machine.ip = .ok entry)
    (completes : entry.fault? machine code.length = none) :
    (entry.machineAfter machine).Aligned listing code := by
  have member := closed.covers.mem_of_decodeAt aligned.ip decoded
  have follows := closed.covers.isBoundary_next member
  refine ⟨aligned.loaded, ?_, ?_⟩
  · rcases Entry.ipAfter_cases completes with falls | ⟨jumps, target, _⟩ | ⟨_, pending⟩
    · simpa only [Entry.machineAfter, falls] using follows
    · simpa only [Entry.machineAfter, target] using closed.isBoundary_operand member jumps
    · exact aligned.frames _ pending
  · have before := aligned.frames
    rcases Entry.framesAfter_cases completes with
      same | ⟨_, pushed, _, _⟩ | ⟨_, address, popped⟩
    · simpa only [Entry.machineAfter, same] using before
    · simp only [Entry.machineAfter, pushed]
      exact List.forall_mem_cons.mpr ⟨follows, before⟩
    · rw [popped] at before
      exact (List.forall_mem_cons.mp before).2

/-- A step keeps to the boundaries, and the one fault of the bytecode that it can find is a jump to
the end, which is a boundary but not inside. -/
theorem advance (aligned : machine.Aligned listing code) (closed : listing.Closed code) :
    machine.step.state.Aligned listing code ∧
      ∀ error, machine.step.result = .error error → error.isCodeFault = true →
        ∃ entry ∈ listing, ∃ target ∈ entry.target?, target.toNat = code.length ∧
          error = .trap entry.offset (.jumpOutOfRange target code.length) := by
  apply step_cases (motive := fun transition => transition.state.Aligned listing code ∧
    ∀ error, transition.result = .error error → error.isCodeFault = true →
      ∃ entry ∈ listing, ∃ target ∈ entry.target?, target.toNat = code.length ∧
        error = .trap entry.offset (.jumpOutOfRange target code.length)) aligned.loaded
  · intro _
    exact ⟨aligned, fun error fails => by contradiction⟩
  · intro error inside undecodable
    rcases closed.covers.exists_decodeAt aligned.ip inside with ⟨entry, decoded⟩
    rw [decoded] at undecodable
    contradiction
  · intro entry cause decoded faults
    refine ⟨aligned, ?_⟩
    intro error fails blamed
    rw [← Except.error.inj fails, Error.isCodeFault] at blamed
    rcases Entry.of_isCodeFault faults blamed with ⟨jumps, beyond, rfl⟩
    have member := closed.covers.mem_of_decodeAt aligned.ip decoded
    have within := closed.covers.le_length_of_isBoundary (closed.isBoundary_operand member jumps)
    refine ⟨entry, member, entry.operand, closed.target?_of_mem member jumps, by omega, ?_⟩
    rw [← Except.error.inj fails, offset_of_decodeAt decoded]
  · intro entry decoded completes
    exact ⟨aligned.machineAfter closed decoded completes, fun error fails => by contradiction⟩

/-- A step keeps to the boundaries and finds no fault of the bytecode. -/
theorem step (aligned : machine.Aligned listing code) (wellFormed : listing.WellFormed code) :
    machine.step.state.Aligned listing code ∧
      ∀ error, machine.step.result = .error error → error.isCodeFault = false := by
  rcases aligned.advance wellFormed.closed with ⟨keeps, reports⟩
  refine ⟨keeps, ?_⟩
  intro error fails
  rw [Bool.eq_false_iff]
  intro blamed
  rcases reports error fails blamed with ⟨entry, member, target, given, ended, _⟩
  have inside := wellFormed.target_lt member given
  omega

end Aligned

end Machine

namespace Vm

theorem aligned_after_load {vm : Vm} {machine : Machine} {allocator : Allocator} {code : Bytes}
    {listing : Listing} (closed : listing.Closed code)
    (live : (vm.load allocator code).vm.machine? = some (machine.load code)) (count : Nat) :
    ∃ later, ((vm.load allocator code).vm.after count).machine? = some later ∧
      later.Aligned listing code := by
  rw [after_live live]
  refine ⟨_, rfl, ?_⟩
  exact Transition.after_induction (fun _ aligned => (aligned.advance closed).1)
    (Machine.Aligned.start closed.covers machine) count

/-- While bytecode with boundaries for targets stays loaded, its only fault is a jump to its end. -/
theorem codeFault_of_closed {vm now : Vm} {allocator : Allocator} {code : Bytes}
    {listing : Listing} {events : List Event} (closed : listing.Closed code)
    (installed : (vm.load allocator code).result = .ok ())
    (history : (vm.load allocator code).vm.History events now)
    (quiet : ∀ event ∈ events, event.renews = false) {event : Event} (member : event ∈ events)
    {error : Error} (reports : event.stepError? = some error) (blamed : error.isCodeFault = true) :
    ∃ entry ∈ listing, ∃ target ∈ entry.target?, target.toNat = code.length ∧
      error = .trap entry.offset (.jumpOutOfRange target code.length) := by
  rcases vm_of_load_ok installed with ⟨machine, _, place⟩
  rcases history.exists_step_error quiet member reports with ⟨count, fails⟩
  have live : (vm.load allocator code).vm.machine? = some (machine.load code) := by rw [place]
  rcases aligned_after_load closed live count with ⟨later, present, aligned⟩
  rw [step_live present] at fails
  exact (aligned.advance closed).2 error fails blamed

/-- Well-formed bytecode keeps to its listing from its load on, over any history of the instance in
which it stays loaded: the machine and its pending calls stand at boundaries, and no step or
execution reports a fault of the bytecode. -/
theorem control_flow_integrity {vm now : Vm} {allocator : Allocator} {code : Bytes}
    {listing : Listing} {events : List Event} (wellFormed : listing.WellFormed code)
    (installed : (vm.load allocator code).result = .ok ())
    (history : (vm.load allocator code).vm.History events now)
    (quiet : ∀ event ∈ events, event.renews = false) :
    (∃ machine, now.machine? = some machine ∧ machine.Aligned listing code) ∧
      ∀ event ∈ events, ∀ error, event.stepError? = some error → error.isCodeFault = false := by
  rcases vm_of_load_ok installed with ⟨machine, _, place⟩
  have live : (vm.load allocator code).vm.machine? = some (machine.load code) := by rw [place]
  have aligned : ∀ count, ∃ later,
      ((vm.load allocator code).vm.after count).machine? = some later ∧
        later.Aligned listing code := by
    intro count
    rw [after_live live]
    refine ⟨_, rfl, ?_⟩
    exact Transition.after_induction (fun _ aligned => (aligned.step wellFormed).1)
      (Machine.Aligned.load wellFormed machine) count
  constructor
  · rcases history.exists_after quiet with ⟨count, rfl⟩
    exact aligned count
  · intro event member error reports
    rcases history.exists_step_error quiet member reports with ⟨count, fails⟩
    rcases aligned count with ⟨later, present, keeps⟩
    rw [step_live present] at fails
    exact (keeps.step wellFormed).2 error fails

/-- The listing of a program that calls its last instruction, which returns to the one before. -/
def callAndReturn : Listing := [⟨0, .call, some 10⟩, ⟨9, .halt, none⟩, ⟨10, .ret, none⟩]

theorem wellFormed_callAndReturn :
    callAndReturn.WellFormed (callAndReturn.flatMap Entry.encode) where
  lists := disassemble_eq_ok_iff.mpr (.cons rfl (.cons rfl (.cons rfl .nil)))
  targets := by simp [callAndReturn, Entry.target?, Opcode.operandKind?, Opcode.row]

/-- An instance that is about to run `callAndReturn`. -/
def calling : Vm :=
  ((Vm.mk ⟨8, 1, 1⟩ (some (.ofConfig ⟨8, 1, 1⟩))).load .unlimited
    (callAndReturn.flatMap Entry.encode)).vm

/-- In the call, the machine stands at the last entry and returns to the one before. -/
theorem aligned_calling :
    ∃ machine, calling.step.state.machine? = some machine ∧ machine.ip = 10 ∧
      machine.calls.frames = [9] ∧
      machine.Aligned callAndReturn (callAndReturn.flatMap Entry.encode) := by
  have history : calling.History [.step (.ok .running) none] calling.step.state :=
    History.nil.snoc (.step calling)
  rcases (control_flow_integrity wellFormed_callAndReturn rfl history (by decide)).1 with
    ⟨machine, present, aligned⟩
  cases present
  exact ⟨_, rfl, rfl, rfl, aligned⟩

end Vm

end StackMachine
