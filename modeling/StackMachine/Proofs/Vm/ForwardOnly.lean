import Mathlib.Data.List.Sort
import StackMachine.Proofs.Listing.Composition
import StackMachine.Proofs.Vm.Accounting
import StackMachine.Proofs.Vm.Slicing
import StackMachine.Proofs.Vm.TrapAtomicity

/-!
# Programs that only go forward

Without CALL, and with jumps that lead to later instructions only, a program cannot come back to an
instruction.  A load has cleared the call stack and nothing adds to it, so a RET traps instead of
going back.  What such a program completes are instructions of its listing, each at most once and
in the order of the listing, and this bounds the length of the run.
-/

namespace StackMachine

namespace Entry

/-- An entry stands in front of another. -/
def Before (first second : Entry) : Prop := first.offset < second.offset

instance : Std.Irrefl Before where
  irrefl entry := Nat.lt_irrefl entry.offset

instance : Std.Antisymm Before where
  antisymm _ _ before after := absurd after (Nat.lt_asymm before)

instance : IsTrans Entry Before where
  trans _ _ _ front back := Nat.lt_trans front back

end Entry

namespace Listing

/-- A bytecode has this listing, in which nothing is called and each jump leads to a later entry or
out of the bytecode. -/
structure ForwardOnly (listing : Listing) (code : Bytes) : Prop where
  lists : disassemble code = .ok listing
  callFree : ∀ entry ∈ listing, entry.opcode ≠ .call
  forward : ∀ entry ∈ listing, ∀ target ∈ entry.target?, entry.offset < target.toNat
  lands : ∀ entry ∈ listing, ∀ target ∈ entry.target?,
    (∃ destination ∈ listing, destination.offset = target.toNat) ∨ code.length ≤ target.toNat

variable {code : Bytes} {offset : Nat} {listing : Listing}

theorem Covers.pairwise_before (covers : Covers code offset listing) :
    listing.Pairwise Entry.Before := by
  apply List.isChain_iff_pairwise.mp
  apply covers.isChain.imp
  intro first second joined
  have positive := first.opcode.length_pos
  rw [Entry.next] at joined
  unfold Entry.Before
  omega

end Listing

open Listing

namespace Machine

/-- The machine holds `code`, stands at a boundary of the listing and has no pending call. -/
structure Onward (listing : Listing) (code : Bytes) (machine : Machine) : Prop where
  loaded : machine.code? = some code
  ip : IsBoundary listing code machine.ip
  alone : machine.calls.frames = []

namespace Onward

variable {listing : Listing} {code : Bytes} {machine : Machine} {entry : Entry}

theorem load (forward : listing.ForwardOnly code) (machine : Machine) :
    (machine.load code).Onward listing code where
  loaded := rfl
  ip := (disassemble_eq_ok_iff.mp forward.lists).isBoundary_start
  alone := rfl

/-- A completed instruction leads to a later boundary. -/
theorem machineAfter (onward : machine.Onward listing code) (forward : listing.ForwardOnly code)
    (decoded : decodeAt code machine.ip = .ok entry)
    (completes : entry.fault? machine code.length = none) :
    entry ∈ listing ∧ (entry.machineAfter machine).Onward listing code ∧
      entry.offset < (entry.machineAfter machine).ip := by
  have covers := disassemble_eq_ok_iff.mp forward.lists
  have member := covers.mem_of_decodeAt onward.ip decoded
  have silent := forward.callFree entry member
  have follows := covers.isBoundary_next member
  have positive := entry.opcode.length_pos
  have next : entry.offset < entry.next := by
    rw [Entry.next]
    omega
  have frames : (entry.machineAfter machine).calls.frames = [] := by
    rcases Entry.framesAfter_cases completes with same | ⟨calls, _⟩ | ⟨_, address, popped⟩
    · exact same.trans onward.alone
    · exact absurd calls silent
    · rw [onward.alone] at popped
      contradiction
  rcases Entry.ipAfter_cases completes with falls | ⟨jumps, target, inside⟩ | ⟨_, pending⟩
  · refine ⟨member, ⟨onward.loaded, ?_, frames⟩, ?_⟩
    · simpa only [Entry.machineAfter, falls] using follows
    · simpa only [Entry.machineAfter, falls] using next
  · rcases decodeAt_eq_ok_iff.mp decoded with ⟨_, complete, _⟩
    have named : entry.operand ∈ entry.target? := Entry.target?_eq_operand complete jumps
    have later := forward.forward entry member entry.operand named
    have boundary : IsBoundary listing code entry.operand.toNat := by
      rcases forward.lands entry member entry.operand named with destination | outside
      · exact Or.inr destination
      · omega
    refine ⟨member, ⟨onward.loaded, ?_, frames⟩, ?_⟩
    · simpa only [Entry.machineAfter, target] using boundary
    · simpa only [Entry.machineAfter, target] using later
  · rw [onward.alone] at pending
    contradiction

end Onward

end Machine

namespace Vm

/-- The instance holds a machine that goes onward. -/
def Onward (listing : Listing) (code : Bytes) (vm : Vm) : Prop :=
  ∃ machine, vm.machine? = some machine ∧ machine.Onward listing code

variable {vm start : Vm} {code : Bytes} {listing : Listing} {entry : Entry} {count : Nat}

theorem Onward.of_installs (forward : listing.ForwardOnly code)
    (installs : Installs code vm start) : start.Onward listing code := by
  rcases installs_iff.mp installs with ⟨machine, _, rfl⟩
  exact ⟨machine.load code, rfl, Machine.Onward.load forward machine⟩

theorem Onward.step (onward : vm.Onward listing code) (forward : listing.ForwardOnly code)
    (completed : vm.completed? = some entry) :
    entry ∈ listing ∧ vm.step.state.Onward listing code ∧ entry.offset < vm.step.state.ip := by
  rcases completed?_eq_some_iff.mp completed with ⟨machine, found, live, loaded, decoded, completes⟩
  rcases onward with ⟨same, present, goes⟩
  rcases Option.some.inj (live.symm.trans present) with rfl
  rcases Option.some.inj (loaded.symm.trans goes.loaded) with rfl
  rcases goes.machineAfter forward decoded completes with ⟨member, later, further⟩
  rw [step_of_completes live loaded decoded completes]
  exact ⟨member, ⟨_, rfl, later⟩, further⟩

/-- The instructions that a run completes stand one before another, all of them behind the place
that it has reached. -/
theorem Onward.completedWithin (onward : vm.Onward listing code)
    (forward : listing.ForwardOnly code) (count : Nat) :
    (vm.after count).Onward listing code ∧
      (vm.completedWithin count).Pairwise Entry.Before ∧
      ∀ entry ∈ vm.completedWithin count, entry ∈ listing ∧ entry.offset < (vm.after count).ip := by
  apply completedWithin_induction (motive := fun entries later =>
    later.Onward listing code ∧ entries.Pairwise Entry.Before ∧
      ∀ entry ∈ entries, entry ∈ listing ∧ entry.offset < later.ip)
  · refine ⟨onward, .nil, ?_⟩
    intro entry member
    contradiction
  · rintro entries later entry ⟨goes, ordered, known⟩ completed
    have place := offset_of_completed? completed
    rcases goes.step forward completed with ⟨member, further, ahead⟩
    refine ⟨further, ?_, ?_⟩
    · apply List.pairwise_append.mpr
      refine ⟨ordered, List.pairwise_singleton _ _, ?_⟩
      intro earlier among last single
      rcases List.mem_singleton.mp single with rfl
      have behind := (known earlier among).2
      unfold Entry.Before
      omega
    · intro found among
      rcases List.mem_append.mp among with earlier | last
      · have behind := (known found earlier).2
        exact ⟨(known found earlier).1, by omega⟩
      · rcases List.mem_singleton.mp last with rfl
        exact ⟨member, ahead⟩

theorem Onward.sublist (onward : vm.Onward listing code) (forward : listing.ForwardOnly code)
    (count : Nat) : (vm.completedWithin count).Sublist listing := by
  rcases onward.completedWithin forward count with ⟨_, ordered, known⟩
  have covers := disassemble_eq_ok_iff.mp forward.lists
  have among : (vm.completedWithin count).Subperm listing := by
    apply List.subperm_of_subset ordered.nodup
    intro entry member
    exact (known entry member).1
  exact List.sublist_of_subperm_of_pairwise among ordered covers.pairwise_before

/-- A step that leaves the program running has completed an instruction. -/
theorem length_completedWithin (runs : vm.Runs count) :
    (vm.completedWithin count).length = count := by
  induction count with
  | zero => rfl
  | succ count ih =>
      rcases (Transition.runs_add step).mp runs with ⟨earlier, last, _⟩
      rw [completedWithin_succ, List.length_append, ih earlier]
      rcases completes_or_ends last with ⟨entry, _, completed⟩ | ⟨_, ended, _⟩
      · rw [completed]
        rfl
      · contradiction

theorem exists_stop_of_onward (onward : vm.Onward listing code)
    (forward : listing.ForwardOnly code) :
    ∃ count ≤ listing.length, vm.Runs count ∧ (vm.after count).step.result ≠ .ok .running := by
  have ends : ¬ vm.Runs (listing.length + 1) := by
    intro runs
    have bound := (onward.sublist forward (listing.length + 1)).length_le
    rw [length_completedWithin runs] at bound
    omega
  rcases Transition.exists_stop_lt ends with ⟨count, bound, runs, stops⟩
  exact ⟨count, Nat.le_of_lt_succ bound, runs, stops⟩

/-- An execution of a loaded instance succeeds or ends in a trap at the place that it has reached. -/
theorem ok_or_trap_of_execute {machine : Machine} {fuel : Nat} {execution : Execution Vm}
    (live : vm.machine? = some machine) (loaded : machine.code? = some code)
    (finished : vm.execute fuel = some execution) :
    execution.result = .ok () ∨
      ∃ cause, execution.result = .error (.trap execution.state.ip cause) := by
  rcases execution with ⟨result, printed, final⟩
  cases result with
  | ok _ => exact Or.inl rfl
  | error error =>
      rcases runs_of_execute_error live loaded finished with ⟨_, _, _, _, traps⟩
      have place := traps.ip?_eq
      cases error with
      | trap ip cause =>
          rcases Option.some.inj place with rfl
          exact Or.inr ⟨cause, rfl⟩
      | _ => contradiction

/-- A program that only goes forward ends, whatever the operand stack and the memory hold when it is
loaded: it succeeds or traps, and until then it has completed some of the instructions of its
listing, in their order and none of them twice. -/
theorem forward_only_terminates (forward : listing.ForwardOnly code)
    (installs : Installs code vm start) :
    ∃ execution count, (∀ fuel, listing.length < fuel → start.execute fuel = some execution) ∧
      (execution.result = .ok () ∨
        ∃ cause, execution.result = .error (.trap execution.state.ip cause)) ∧
      execution.state = start.after count ∧
      (start.completedWithin count).Sublist listing ∧
      (start.completedWithin count).length ≤ listing.length ∧
      execution.state.executed = UInt64.ofNat (start.completedWithin count).length := by
  have onward := Onward.of_installs forward installs
  have ordered := onward.sublist forward
  rcases exists_stop_of_onward onward forward with ⟨count, bound, runs, stops⟩
  rcases onward with ⟨machine, live, goes⟩
  have ended : ∀ fuel, listing.length < fuel →
      start.execute fuel = some (Transition.stop step count start) := by
    intro fuel enough
    exact (execute_eq_some_iff live).mpr ⟨count, by omega, runs, stops, rfl⟩
  have fresh : start.executed = 0 := by
    rcases installs_iff.mp installs with ⟨machine, _, rfl⟩
    rfl
  have counted := start.executed_after (count + 1)
  rw [fresh, UInt64.zero_add] at counted
  refine ⟨_, count + 1, ended, ?_, rfl, ordered (count + 1), (ordered (count + 1)).length_le,
    counted⟩
  exact ok_or_trap_of_execute live goes.loaded (ended (listing.length + 1) (Nat.lt_succ_self _))

/-- The listing of a program that skips its END and then jumps out of the bytecode. -/
def skippingListing : Listing :=
  [⟨0, .push, some 1⟩, ⟨9, .jumpIf, some 19⟩, ⟨18, .halt, none⟩, ⟨19, .jump, some 100⟩]

theorem forwardOnly_skipping :
    skippingListing.ForwardOnly (skippingListing.flatMap Entry.encode) := by
  have listed : disassemble (skippingListing.flatMap Entry.encode) = .ok skippingListing :=
    disassemble_eq_ok_iff.mpr (.cons rfl (.cons rfl (.cons rfl (.cons rfl .nil))))
  have places : ∀ entry ∈ skippingListing, ∀ target ∈ entry.target?,
      (entry = ⟨9, .jumpIf, some 19⟩ ∧ target = 19) ∨
        (entry = ⟨19, .jump, some 100⟩ ∧ target = 100) := by
    intro entry member target aims
    simp only [skippingListing, List.mem_cons, List.not_mem_nil, or_false] at member
    rcases member with rfl | rfl | rfl | rfl
    · contradiction
    · exact Or.inl ⟨rfl, (Option.some.inj aims).symm⟩
    · contradiction
    · exact Or.inr ⟨rfl, (Option.some.inj aims).symm⟩
  refine ⟨listed, by decide, ?forward, ?lands⟩
  case forward =>
    intro entry member target aims
    rcases places entry member target aims with ⟨rfl, rfl⟩ | ⟨rfl, rfl⟩
    · decide
    · decide
  case lands =>
    intro entry member target aims
    rcases places entry member target aims with ⟨rfl, rfl⟩ | ⟨rfl, rfl⟩
    · exact Or.inl ⟨⟨19, .jump, some 100⟩, by decide, rfl⟩
    · exact Or.inr (by decide)

/-- An instance with words on its operand stack and a pending call that has just loaded the
program. -/
def skipping : Vm where
  config := ⟨8, 2, 1⟩
  machine? := some ({ Machine.ofConfig ⟨8, 2, 1⟩ with
    stack := ⟨[7], 2⟩
    calls := ⟨[9], 1⟩ }.load (skippingListing.flatMap Entry.encode))

/-- The run completes two of the four instructions and ends in a trap of the last one. -/
theorem execute_skipping :
    ∃ execution count, skipping.execute 5 = some execution ∧
      execution.result = .error (.trap 19 (.jumpOutOfRange 100 28)) ∧
      (skipping.completedWithin count).Sublist skippingListing ∧
      execution.state.executed = UInt64.ofNat (skipping.completedWithin count).length ∧
      execution.state.executed = 2 := by
  have installs : Installs (skippingListing.flatMap Entry.encode)
      ⟨⟨8, 2, 1⟩, some { Machine.ofConfig ⟨8, 2, 1⟩ with
        stack := ⟨[7], 2⟩
        calls := ⟨[9], 1⟩ }⟩ skipping := installs_iff.mpr ⟨_, rfl, rfl⟩
  have computed : skipping.execute 5 =
      some ⟨.error (.trap 19 (.jumpOutOfRange 100 28)), #[], skipping.after 2⟩ := rfl
  rcases forward_only_terminates forwardOnly_skipping installs with
    ⟨execution, count, ended, _, _, ordered, _, counted⟩
  have same := (ended 5 (by decide)).symm.trans computed
  rcases Option.some.inj same with rfl
  exact ⟨_, count, computed, rfl, ordered, counted, rfl⟩

end Vm

end StackMachine
