import StackMachine.Proofs.Machine.Refinement
import StackMachine.Proofs.Vm.Fresh

/-!
# Coherence of instances

The buffers of a live instance have the sizes it was given, both stacks stay within theirs, and the
position in the program as well as every pending call agree with the program that is loaded now.  A
call returns to the end of a CALL instruction, which may be the end of the bytecode.

Coherence holds from the creation of an instance on: every instruction keeps it, and so does every
call of the host, whatever the allocator refuses.
-/

namespace StackMachine

/-- A CALL whose target lies inside the bytecode ends at this offset. -/
structure IsReturnAddress (code : Bytes) (address : Nat) : Prop where
  nine_le : 9 ≤ address
  le_length : address ≤ code.length
  call_at : code[address - 9]? = some Opcode.call.byte
  target_lt : LittleEndian.decode ((code.drop (address - 8)).take 8) < code.length

theorem isReturnAddress_next {code : Bytes} {offset : Nat} {entry : Entry}
    (decoded : Listing.decodeAt code offset = .ok entry) (calls : entry.opcode = .call)
    (target : entry.operand.toNat < code.length) : IsReturnAddress code entry.next := by
  rcases Listing.decodeAt_eq_ok_iff.mp decoded with ⟨place, _, rest, stands⟩
  have successor : entry.next = offset + 9 := by
    rw [Entry.next, place, calls]
    rfl
  have front : code.drop offset = Opcode.call.byte :: (Word.bytes entry.operand ++ rest) := by
    have operates : entry.opcode.operandKind? = some .target := by rw [calls]; rfl
    rw [← stands, Entry.encode_of_operandKind operates, calls, List.cons_append]
  have operand : (code.drop (entry.next - 8)).take 8 = Word.bytes entry.operand := by
    rw [show entry.next - 8 = offset + 1 by omega, ← List.drop_drop, front, List.drop_one,
      List.tail_cons]
    exact List.take_left' (Word.length_bytes entry.operand)
  refine ⟨by omega, Listing.next_le_of_decodeAt decoded, ?_, ?_⟩
  · rw [successor, Nat.add_sub_cancel, ← Nat.add_zero offset, ← List.getElem?_drop, front]
    rfl
  · rw [operand, Word.decode_bytes]
    exact target

namespace Machine

/-- What holds of every live machine whose buffers have the sizes of `config`. -/
structure Coherent (config : Config) (machine : Machine) : Prop where
  memory_size : machine.memory.size = config.memorySize.toNat
  stack_capacity : machine.stack.capacity = config.stackSize.toNat
  one_le_stackSize : 1 ≤ config.stackSize.toNat
  depth_le : machine.stack.depth ≤ machine.stack.capacity
  calls_maxDepth : machine.calls.maxDepth = config.maxCallDepth.toNat
  one_le_maxCallDepth : 1 ≤ config.maxCallDepth.toNat
  calls_depth_le : machine.calls.depth ≤ config.maxCallDepth.toNat
  ip_le : machine.ip ≤ machine.code.length
  returns : ∀ address ∈ machine.calls.frames, IsReturnAddress machine.code address
  unloaded : machine.code? = none →
    machine.ip = 0 ∧ machine.calls.frames = [] ∧ machine.executed = 0

theorem coherent_ofConfig {config : Config} (accepted : config.fault? = none) :
    (ofConfig config).Coherent config := by
  have sizes : config.stackSize ≠ 0 ∧ config.maxCallDepth ≠ 0 := by
    unfold Config.fault? at accepted
    split at accepted
    · contradiction
    · split at accepted
      · contradiction
      · exact ⟨by assumption, by assumption⟩
  rcases sizes with ⟨words, frames⟩
  rw [← UInt32.toNat_inj.ne] at words frames
  refine
    { memory_size := Array.size_replicate
      stack_capacity := rfl
      one_le_stackSize := Nat.one_le_iff_ne_zero.mpr words
      depth_le := Nat.zero_le _
      calls_maxDepth := rfl
      one_le_maxCallDepth := Nat.one_le_iff_ne_zero.mpr frames
      calls_depth_le := Nat.zero_le _
      ip_le := Nat.zero_le _
      returns := ?_
      unloaded := fun _ => ⟨rfl, rfl, rfl⟩ }
  intro address pending
  contradiction

namespace Coherent

variable {config : Config} {machine : Machine}

theorem load (coherent : machine.Coherent config) (code : Bytes) :
    (machine.load code).Coherent config where
  memory_size := coherent.memory_size
  stack_capacity := coherent.stack_capacity
  one_le_stackSize := coherent.one_le_stackSize
  depth_le := coherent.depth_le
  calls_maxDepth := coherent.calls_maxDepth
  one_le_maxCallDepth := coherent.one_le_maxCallDepth
  calls_depth_le := Nat.zero_le _
  ip_le := Nat.zero_le _
  returns := fun _ pending => absurd pending List.not_mem_nil
  unloaded := fun missing => absurd missing (Option.some_ne_none code)

variable {code : Bytes} {entry : Entry}

theorem ipAfter_le (coherent : machine.Coherent config) (loaded : machine.code? = some code)
    (decoded : Listing.decodeAt code machine.ip = .ok entry)
    (completes : entry.fault? machine code.length = none) :
    entry.ipAfter machine ≤ code.length := by
  rcases Entry.ipAfter_cases completes with falls | ⟨_, jumps, target⟩ | ⟨_, pending⟩
  · rw [falls]
    exact Listing.next_le_of_decodeAt decoded
  · omega
  · have returned := (coherent.returns _ pending).le_length
    simpa [Machine.code, loaded] using returned

theorem returns_framesAfter (coherent : machine.Coherent config)
    (loaded : machine.code? = some code)
    (decoded : Listing.decodeAt code machine.ip = .ok entry)
    (completes : entry.fault? machine code.length = none) :
    ∀ address ∈ entry.framesAfter machine, IsReturnAddress code address := by
  have pending : ∀ address ∈ machine.calls.frames, IsReturnAddress code address := by
    simpa [Machine.code, loaded] using coherent.returns
  rcases Entry.framesAfter_cases completes with
    same | ⟨calls, pushed, target, _⟩ | ⟨_, address, popped⟩
  · rwa [same]
  · rw [pushed]
    exact List.forall_mem_cons.mpr ⟨isReturnAddress_next decoded calls target, pending⟩
  · rw [popped] at pending
    exact (List.forall_mem_cons.mp pending).2

theorem length_framesAfter_le (coherent : machine.Coherent config)
    (completes : entry.fault? machine code.length = none) :
    (entry.framesAfter machine).length ≤ config.maxCallDepth.toNat := by
  have within := coherent.calls_depth_le
  have limit := coherent.calls_maxDepth
  rw [CallStack.depth] at within
  rcases Entry.framesAfter_cases completes with
    same | ⟨_, pushed, _, room⟩ | ⟨_, address, popped⟩
  · rwa [same]
  · rw [CallStack.depth] at room
    rw [pushed, List.length_cons]
    omega
  · rw [popped, List.length_cons] at within
    omega

theorem machineAfter (coherent : machine.Coherent config) (loaded : machine.code? = some code)
    (decoded : Listing.decodeAt code machine.ip = .ok entry)
    (completes : entry.fault? machine code.length = none) :
    (entry.machineAfter machine).Coherent config := by
  have same : (entry.machineAfter machine).code = code := by
    simp [Machine.code, Entry.machineAfter, loaded]
  exact
    { memory_size := (Entry.size_memoryAfter completes).trans coherent.memory_size
      stack_capacity := coherent.stack_capacity
      one_le_stackSize := coherent.one_le_stackSize
      depth_le := Entry.length_wordsAfter_le completes coherent.depth_le
      calls_maxDepth := coherent.calls_maxDepth
      one_le_maxCallDepth := coherent.one_le_maxCallDepth
      calls_depth_le := coherent.length_framesAfter_le completes
      ip_le := by
        rw [same]
        exact coherent.ipAfter_le loaded decoded completes
      returns := by
        rw [same]
        exact coherent.returns_framesAfter loaded decoded completes
      unloaded := fun missing => by simp [Entry.machineAfter, loaded] at missing }

theorem step (coherent : machine.Coherent config) : machine.step.state.Coherent config := by
  cases loaded : machine.code? with
  | none =>
      rw [step_of_code?_none loaded]
      exact coherent
  | some code =>
      apply step_state_cases (motive := Coherent config) loaded
      · exact coherent
      · intro entry decoded completes
        exact coherent.machineAfter loaded decoded completes

end Coherent

end Machine

namespace Vm

/-- A live instance has a coherent machine. -/
def Coherent (vm : Vm) : Prop :=
  ∀ machine, vm.machine? = some machine → machine.Coherent vm.config

theorem coherent_of_acquire {allocator : Allocator} {config : Config} {machine : Machine}
    (acquired : acquire allocator config = .ok machine) : machine.Coherent config := by
  rcases eq_of_acquire acquired with ⟨accepted, rfl⟩
  exact Machine.coherent_ofConfig accepted

namespace Coherent

variable {vm next last : Vm}

theorem step (coherent : vm.Coherent) : vm.step.state.Coherent := by
  cases live : vm.machine? with
  | none =>
      rw [step_destroyed live]
      exact coherent
  | some machine =>
      rw [step_live live]
      intro later present
      rw [← Option.some.inj present]
      exact (coherent machine live).step

theorem after (coherent : vm.Coherent) (count : Nat) : (vm.after count).Coherent :=
  Transition.after_induction (fun _ coherent => coherent.step) coherent count

theorem does {event : Event} (coherent : vm.Coherent) (does : vm.Does event next) :
    next.Coherent := by
  cases does with
  | rearm allocator config _ =>
      unfold rearm
      split
      · exact coherent
      · split
        · exact coherent
        · rename_i machine acquired
          intro fresh present
          rw [← Option.some.inj present]
          exact coherent_of_acquire acquired
  | destroy _ =>
      intro machine present
      contradiction
  | load allocator code _ =>
      unfold load
      split
      · exact coherent
      · rename_i machine live
        split
        · exact coherent
        · intro loaded present
          rw [← Option.some.inj present]
          exact (coherent machine live).load code
  | step _ => exact coherent.step
  | execute finished =>
      rcases state_of_execute finished with ⟨count, place⟩
      rw [place]
      exact coherent.after count

theorem installs {code : Bytes} (coherent : vm.Coherent) (installs : Installs code vm next) :
    next.Coherent := by
  rcases installs with ⟨allocator, _, rfl⟩
  exact coherent.does (.load allocator code vm)

theorem history {events : List Event} (coherent : vm.Coherent)
    (history : vm.History events last) : last.Coherent := by
  induction history with
  | nil => exact coherent
  | snoc history does ih => exact ih.does does

end Coherent

/-- Every live instance that a host can bring about is coherent. -/
theorem coherent_of_reachable {vm : Vm} {machine : Machine} (reachable : vm.Reachable)
    (live : vm.machine? = some machine) : machine.Coherent vm.config := by
  rcases reachable with ⟨allocator, config, start, events, created, history⟩
  have fresh : start.Coherent := by
    rcases bind_eq_ok_iff.mp created with ⟨made, acquired, rest⟩
    intro first present
    rw [← Except.ok.inj rest] at present ⊢
    rw [← Option.some.inj present]
    exact coherent_of_acquire acquired
  exact fresh.history history machine live

/-- An instance in the first call of a program that does nothing but call itself. -/
def recursing : Vm :=
  ((Vm.mk ⟨8, 1, 1⟩ (some (.ofConfig ⟨8, 1, 1⟩))).load .unlimited
    (Opcode.call.encode (some 0))).vm.step.state

theorem reachable_recursing : recursing.Reachable :=
  ⟨.unlimited, ⟨8, 1, 1⟩, _, _, rfl, (History.nil.snoc (.load _ _ _)).snoc (.step _)⟩

/-- The pending call returns to the end of the bytecode. -/
theorem coherent_recursing :
    ∃ machine, recursing.machine? = some machine ∧ machine.calls.frames = [machine.code.length] ∧
      machine.Coherent recursing.config :=
  ⟨_, rfl, by decide, coherent_of_reachable reachable_recursing rfl⟩

end Vm

end StackMachine
