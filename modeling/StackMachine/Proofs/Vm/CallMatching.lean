import StackMachine.Proofs.Machine.Refinement

/-!
# Calls and their returns

A completed CALL puts its return address on top of the pending calls.  From then on every step
either leaves that address and everything below it in place, or is the RET that takes the address
away and goes on there.  So as soon as no more calls are pending than before the CALL, its own RET
has just run, whatever happened in between.

The return address may be the end of the bytecode, and the RET then ends the program.
-/

namespace StackMachine

namespace Machine

variable {machine : Machine} {code : Bytes} {address : Nat} {outer : List Nat}

theorem frames_step_of_call {entry : Entry} {status : Status} (loaded : machine.code? = some code)
    (decoded : Listing.decodeAt code machine.ip = .ok entry) (calls : entry.opcode = .call)
    (succeeds : machine.step.result = .ok status) :
    machine.step.state.calls.frames = (machine.ip + 9) :: machine.calls.frames := by
  have successor : entry.next = machine.ip + 9 := by
    rw [Entry.next, Listing.offset_of_decodeAt decoded, calls]
    rfl
  rw [step_of_decodeAt_ok loaded decoded, Entry.transition] at succeeds ⊢
  cases fault : entry.fault? machine code.length with
  | some cause => simp [fault] at succeeds
  | none => simp [Entry.machineAfter, Entry.framesAfter, calls, successor]

/-- A step keeps a pending call, with all calls outside it, or returns from it. -/
theorem step_of_pending (loaded : machine.code? = some code)
    (pending : address :: outer <:+ machine.calls.frames) :
    address :: outer <:+ machine.step.state.calls.frames ∨
      (∃ entry, Listing.decodeAt code machine.ip = .ok entry ∧ entry.opcode = .ret) ∧
        machine.step.result =
          .ok (if code.length ≤ address then .endOfProgram else .running) ∧
        machine.step.state.ip = address ∧ machine.step.state.calls.frames = outer := by
  apply step_cases (motive := fun transition =>
    address :: outer <:+ transition.state.calls.frames ∨
      (∃ entry, Listing.decodeAt code machine.ip = .ok entry ∧ entry.opcode = .ret) ∧
        transition.result = .ok (if code.length ≤ address then .endOfProgram else .running) ∧
        transition.state.ip = address ∧ transition.state.calls.frames = outer) loaded
  · intro _
    exact Or.inl pending
  · intro _ _ _
    exact Or.inl pending
  · intro _ _ _ _
    exact Or.inl pending
  · intro entry decoded completes
    rcases Entry.framesAfter_cases completes with
      same | ⟨_, pushed, _, _⟩ | ⟨returns, found, popped⟩
    · left
      simpa only [Entry.machineAfter, same] using pending
    · left
      simp only [Entry.machineAfter, pushed]
      exact pending.trans (List.suffix_cons _ _)
    · rw [popped] at pending
      rcases List.suffix_cons_iff.mp pending with whole | deeper
      · right
        rcases List.cons.inj whole with ⟨rfl, rest⟩
        have goes : entry.ipAfter machine = address := by
          simp [Entry.ipAfter, returns, popped]
        refine ⟨⟨entry, decoded, returns⟩, ?_, goes, rest.symm⟩
        simp [Entry.statusAfter, returns, goes]
      · exact Or.inl deeper

end Machine

namespace Vm

/-- The return addresses of the pending calls, innermost first. -/
def frames (vm : Vm) : List Nat := (vm.machine?.map (·.calls.frames)).getD []

section Pending

variable {vm : Vm} {machine : Machine} {code : Bytes} {address : Nat} {outer : List Nat}

theorem callDepth_eq_length (vm : Vm) : vm.callDepth = vm.frames.length := by
  cases live : vm.machine? <;> simp [callDepth, frames, live, CallStack.depth]

theorem frames_live (live : vm.machine? = some machine) : vm.frames = machine.calls.frames := by
  simp [frames, live]

theorem step_of_pending (live : vm.machine? = some machine) (loaded : machine.code? = some code)
    (pending : address :: outer <:+ vm.frames) :
    address :: outer <:+ vm.step.state.frames ∨
      (∃ entry, vm.current? = some entry ∧ entry.opcode = .ret) ∧
        vm.step.result = .ok (if code.length ≤ address then .endOfProgram else .running) ∧
        vm.step.state.ip = address ∧ vm.step.state.frames = outer := by
  rw [frames_live live] at pending
  rw [step_live live]
  rcases Machine.step_of_pending loaded pending with stays | ⟨⟨entry, decoded, returns⟩, ended⟩
  · exact Or.inl stays
  · right
    refine ⟨⟨entry, ?_, returns⟩, ended⟩
    simp [current?, live, loaded, decoded, Except.toOption]

/-- A call stays pending until the number of pending calls is that of the calls outside it. -/
theorem pending_after (live : vm.machine? = some machine) (loaded : machine.code? = some code)
    (pending : address :: outer <:+ vm.frames) {count : Nat}
    (deeper : ∀ index ≤ count, (vm.after index).callDepth ≠ outer.length) :
    address :: outer <:+ (vm.after count).frames := by
  induction count with
  | zero => exact pending
  | succ count ih =>
      have before := ih fun index bound => deeper index (by omega)
      rcases loaded_after live loaded count with ⟨later, laterLive, laterLoaded⟩
      rcases step_of_pending laterLive laterLoaded before with stays | ⟨_, _, _, ended⟩
      · rw [after_succ]
        exact stays
      · have level := deeper (count + 1) (Nat.le_refl _)
        rw [after_succ, callDepth_eq_length, ended] at level
        contradiction

/-- The first state with no more pending calls than outside a call is the one behind its RET. -/
theorem returns_after (live : vm.machine? = some machine) (loaded : machine.code? = some code)
    (pending : address :: outer <:+ vm.frames) {count : Nat}
    (deeper : ∀ index ≤ count, (vm.after index).callDepth ≠ outer.length)
    (returned : (vm.after (count + 1)).callDepth = outer.length) :
    (∃ entry, (vm.after count).current? = some entry ∧ entry.opcode = .ret) ∧
      (vm.after count).step.result =
        .ok (if code.length ≤ address then .endOfProgram else .running) ∧
      (vm.after (count + 1)).ip = address ∧ (vm.after (count + 1)).frames = outer := by
  have before := pending_after live loaded pending deeper
  rcases loaded_after live loaded count with ⟨later, laterLive, laterLoaded⟩
  rw [after_succ] at returned ⊢
  rcases step_of_pending laterLive laterLoaded before with stays | returns
  · -- The address is still there, so more calls are pending than outside.
    have more := stays.length_le
    rw [callDepth_eq_length] at returned
    rw [List.length_cons] at more
    omega
  · exact returns

end Pending

/-- A call that succeeds is matched by its return: as long as more calls are pending than before,
the return address and the calls outside are in place, and the first time that no more are, a RET
has just gone back behind the CALL and left the pending calls as they were before it. -/
theorem call_return_matching {vm : Vm} {machine : Machine} {code : Bytes} {entry : Entry}
    {status : Status} (live : vm.machine? = some machine) (loaded : machine.code? = some code)
    (decoded : Listing.decodeAt code machine.ip = .ok entry) (calls : entry.opcode = .call)
    (succeeds : vm.step.result = .ok status) :
    (∀ count, (∀ index ≤ count, vm.callDepth < (vm.after (index + 1)).callDepth) →
      (machine.ip + 9) :: vm.frames <:+ (vm.after (count + 1)).frames) ∧
    ∀ count, (∀ index < count, (vm.after (index + 1)).callDepth ≠ vm.callDepth) →
      (vm.after (count + 1)).callDepth = vm.callDepth →
      (∃ last, (vm.after count).current? = some last ∧ last.opcode = .ret) ∧
        (vm.after count).step.result =
          .ok (if machine.ip + 9 = code.length then .endOfProgram else .running) ∧
        (vm.after (count + 1)).ip = machine.ip + 9 ∧
        (vm.after (count + 1)).frames = vm.frames := by
  have nextLive : vm.step.state.machine? = some machine.step.state := by rw [step_live live]
  have nextLoaded : machine.step.state.code? = some code := by rw [Machine.code?_step, loaded]
  have called : vm.step.state.frames = (machine.ip + 9) :: vm.frames := by
    rw [step_live live] at succeeds
    rw [frames_live nextLive, frames_live live]
    exact Machine.frames_step_of_call loaded decoded calls succeeds
  have pending : (machine.ip + 9) :: vm.frames <:+ vm.step.state.frames := by
    simp [called]
  simp only [callDepth_eq_length vm]
  constructor
  · intro count deeper
    apply pending_after nextLive nextLoaded pending
    intro index bound
    exact (Nat.ne_of_lt (deeper index bound)).symm
  · intro count deeper returned
    rcases count with _ | count
    · -- Right behind the CALL one more call is pending than before it.
      rw [after_succ, callDepth_eq_length] at returned
      simp [Transition.after, called] at returned
    · have fits : machine.ip + 9 ≤ code.length := by
        have ended := Listing.next_le_of_decodeAt decoded
        rw [Entry.next, Listing.offset_of_decodeAt decoded, calls] at ended
        exact ended
      rcases returns_after nextLive nextLoaded pending (fun index bound => deeper index (by omega))
        returned with ⟨last, result, place, left⟩
      refine ⟨last, result.trans ?_, place, left⟩
      simp only [Nat.le_antisymm_iff, fits, true_and]

/-- An instance before the last instruction of its program, a call of code that calls as well. -/
def nesting : Vm :=
  (((Vm.mk ⟨8, 1, 2⟩ (some (.ofConfig ⟨8, 1, 2⟩))).load .unlimited
    (Opcode.jump.encode (some 20) ++ Opcode.call.encode (some 19) ++ Opcode.ret.encode none ++
      Opcode.ret.encode none ++ Opcode.call.encode (some 9))).vm).after 1

/-- The inner call comes and goes in between, and the outer one returns to the end. -/
theorem matching_nesting :
    29 :: nesting.frames <:+ (nesting.after 3).frames ∧
      (nesting.after 3).step.result = .ok .endOfProgram ∧ (nesting.after 4).ip = 29 ∧
      (nesting.after 4).frames = nesting.frames := by
  have decoded : Listing.decodeAt (nesting.machine?.get rfl).code
      (nesting.machine?.get rfl).ip = .ok ⟨20, .call, some 9⟩ := rfl
  have succeeds : nesting.step.result = .ok .running := rfl
  rcases call_return_matching rfl rfl decoded rfl succeeds with ⟨within, first⟩
  rcases first 3 (by decide) (by decide) with ⟨_, result, place, left⟩
  exact ⟨within 2 (by decide), result, place, left⟩

end Vm

end StackMachine
