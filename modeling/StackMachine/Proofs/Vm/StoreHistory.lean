import Mathlib.Data.List.GetD
import StackMachine.Proofs.Vm.Fresh
import StackMachine.Proofs.Vm.Progress

/-!
# Memory remembers the latest store

Only a STORE that completes changes the memory.  So the memory of an instance is determined by the
STOREs that completed since it was created or armed again, whatever programs they belong to: each
byte comes from the latest of them that covers it, and is zero when none does.

The log of an instance grows with each step.  An execution logs what its steps log, and loading a
program logs nothing.
-/

namespace StackMachine

/-- A completed STORE. -/
structure Store where
  address : UInt64
  word : UInt64
  deriving DecidableEq, Repr

namespace Store

/-- Whether the byte at `index` is one of the eight that a store writes.  The end of the range is a
natural number, which does not wrap. -/
def covers (store : Store) (index : Nat) : Bool :=
  store.address.toNat ≤ index && index < store.address.toNat + Word.size

/-- The byte that the latest of some stores leaves at `index`.  The latest store is the first of the
list. -/
def byteAt (stores : List Store) (index : Nat) : UInt8 :=
  match stores.find? (·.covers index) with
  | some store => (Word.bytes store.word).getD (index - store.address.toNat) 0
  | none => 0

def wordAt (stores : List Store) (address : Nat) : UInt64 :=
  Word.ofBytes ((List.range Word.size).map fun offset => byteAt stores (address + offset))

theorem byteAt_cons (store : Store) (stores : List Store) (index : Nat) :
    byteAt (store :: stores) index =
      if store.covers index then (Word.bytes store.word).getD (index - store.address.toNat) 0
      else byteAt stores index := by
  by_cases covered : store.covers index <;> simp [byteAt, covered]

end Store

namespace Memory

/-- The memory that some stores, the latest first, make of a memory of zeros. -/
def ofStores (size : Nat) (stores : List Store) : Memory :=
  ⟨((List.range size).map (Store.byteAt stores)).toArray⟩

variable {size : Nat} {stores : List Store}

theorem size_ofStores (size : Nat) (stores : List Store) : (ofStores size stores).size = size := by
  simp [ofStores, Memory.size]

theorem ofStores_nil (size : Nat) : ofStores size [] = zeroed size := by
  have silent : Store.byteAt [] = fun _ => 0 := rfl
  simp only [ofStores, zeroed, silent, List.map_const', List.length_range, List.toArray_replicate]

theorem getElem?_ofStores {index : Nat} (inside : index < size) :
    (ofStores size stores).bytes.toList[index]? = some (Store.byteAt stores index) := by
  simp [ofStores, inside]

/-- Another store replaces the eight bytes it covers and no other. -/
theorem ofStores_cons {store : Store} (fits : store.address.toNat + Word.size ≤ size) :
    ofStores size (store :: stores) =
      (ofStores size stores).splice store.address.toNat store.word := by
  have inside : store.address.toNat + Word.size ≤ (ofStores size stores).size := by
    rwa [size_ofStores]
  have same : ∀ index : Nat, (ofStores size (store :: stores)).bytes.toList[index]? =
      ((ofStores size stores).splice store.address.toNat store.word).bytes.toList[index]? := by
    intro index
    rw [getElem?_splice store.word inside]
    by_cases covered : store.address.toNat ≤ index ∧ index < store.address.toNat + Word.size
    · have written : index - store.address.toNat < (Word.bytes store.word).length := by
        rw [Word.length_bytes]
        omega
      rw [if_pos covered, getElem?_ofStores (by omega), Store.byteAt_cons,
        if_pos (by simpa [Store.covers] using covered), List.getElem?_eq_getElem written,
        List.getD_eq_getElem _ _ written]
    · rw [if_neg covered]
      by_cases bound : index < size
      · rw [getElem?_ofStores bound, getElem?_ofStores bound, Store.byteAt_cons,
          if_neg (by simpa [Store.covers] using covered)]
      · simp [ofStores, bound]
  have bytes := Array.toList_inj.mp (List.ext_getElem? same)
  exact congrArg Memory.mk bytes

theorem window_ofStores {address : Nat} (fits : address + Word.size ≤ size) :
    ((ofStores size stores).bytes.toList.drop address).take Word.size =
      (List.range Word.size).map fun offset => Store.byteAt stores (address + offset) := by
  apply List.ext_getElem?
  intro offset
  by_cases inside : offset < Word.size
  · rw [List.getElem?_take_of_lt inside, List.getElem?_drop, getElem?_ofStores (by omega)]
    simp [inside]
  · simp [inside]

end Memory

namespace Vm

/-- The STORE that the next step completes. -/
def store? (vm : Vm) : Option Store :=
  match vm.current?, vm.peek with
  | some entry, .ok word =>
      if entry.opcode = .store ∧ vm.step.result.isOk then some ⟨entry.operand, word⟩ else none
  | _, _ => none

/-- The STOREs that the next `count` steps complete, the latest first. -/
def storesWithin : (count : Nat) → Vm → List Store
  | 0, _ => []
  | count + 1, vm => storesWithin count vm.step.state ++ vm.store?.toList

/-- The STOREs that an execution completes, the latest first. -/
def executeStores : (fuel : Nat) → Vm → List Store
  | 0, _ => []
  | fuel + 1, vm =>
      match vm.step.result with
      | .ok .running => executeStores fuel vm.step.state ++ vm.store?.toList
      | _ => vm.store?.toList

/-- What a host does with an instance before it gives it up, together with the STOREs that completed
on the way, the latest first. -/
inductive Life (first : Vm) : List Store → Vm → Prop where
  | start : Life first [] first
  | load {stores : List Store} {vm : Vm} (life : Life first stores vm) (allocator : Allocator)
      (code : Bytes) : Life first stores (vm.load allocator code).vm
  | step {stores : List Store} {vm : Vm} (life : Life first stores vm) :
      Life first (vm.store?.toList ++ stores) vm.step.state
  | execute {stores : List Store} {vm : Vm} {fuel : Nat} {execution : Execution Vm}
      (life : Life first stores vm) (finished : vm.execute fuel = some execution) :
      Life first (vm.executeStores fuel ++ stores) execution.state

variable {vm first : Vm} {machine : Machine} {code : Bytes} {entry : Entry}

theorem store?_of_fails (fails : vm.step.result.isOk = false) : vm.store? = none := by
  unfold store?
  split <;> simp [fails]

theorem store?_of_completed?_none (idle : vm.completed? = none) : vm.store? = none := by
  unfold completed? at idle
  split at idle
  · simp only [store?, idle]
  · rename_i fails
    exact store?_of_fails (by simpa using fails)

theorem store?_of_ne_store (current : vm.current? = some entry) (other : entry.opcode ≠ .store) :
    vm.store? = none := by
  rw [store?, current]
  cases vm.peek <;> simp [other]

theorem store?_of_completes (live : vm.machine? = some machine)
    (loaded : machine.code? = some code)
    (decoded : Listing.decodeAt code machine.ip = .ok entry)
    (completes : entry.fault? machine code.length = none) :
    vm.store? =
      if entry.opcode = .store then some ⟨entry.operand, machine.word 0⟩ else none := by
  have current := current?_eq_some_iff.mpr ⟨machine, code, live, loaded, decoded⟩
  have result : vm.step.result.isOk = true := by
    simp [step_of_completes live loaded decoded completes, Except.isOk, Except.toBool]
  by_cases stores : entry.opcode = .store
  · have enough : 0 < machine.stack.depth := by
      have taken := Entry.inputs_le_depth completes
      rwa [stores] at taken
    simp [store?, current, peek_of_depth live enough, stores, result]
  · rw [if_neg stores]
    exact store?_of_ne_store current stores

theorem memory_live (live : vm.machine? = some machine) : vm.memory = machine.memory := by
  simp [memory, live]

theorem memory_step_of_completes (live : vm.machine? = some machine)
    (loaded : machine.code? = some code)
    (decoded : Listing.decodeAt code machine.ip = .ok entry)
    (completes : entry.fault? machine code.length = none) :
    vm.step.state.memory = entry.memoryAfter machine := by
  simp [step_of_completes live loaded decoded completes, memory, Entry.machineAfter]

/-- A step writes what it logs and nothing else. -/
theorem memory_step (vm : Vm) :
    (vm.store? = none ∧ vm.step.state.memory = vm.memory) ∨
      ∃ store, vm.store? = some store ∧ store.address.toNat + Word.size ≤ vm.memory.size ∧
        vm.step.state.memory = vm.memory.splice store.address.toNat store.word := by
  cases completed : vm.completed? with
  | none =>
      left
      refine ⟨store?_of_completed?_none completed, ?_⟩
      rw [state_step_of_completed?_none completed]
  | some entry =>
      rcases completed?_eq_some_iff.mp completed with
        ⟨machine, code, live, loaded, decoded, completes⟩
      rw [store?_of_completes live loaded decoded completes, memory_live live,
        memory_step_of_completes live loaded decoded completes]
      by_cases stores : entry.opcode = .store
      · right
        refine ⟨_, if_pos stores, Entry.fits_of_store completes stores, ?_⟩
        simp only [Entry.memoryAfter, stores]
      · left
        refine ⟨if_neg stores, ?_⟩
        unfold Entry.memoryAfter
        split <;> trivial

theorem memory_step_of_silent (silent : vm.store? = none) :
    vm.step.state.memory = vm.memory := by
  rcases vm.memory_step with ⟨_, same⟩ | ⟨store, logged, _⟩
  · exact same
  · cases silent.symm.trans logged

variable {size : Nat} {stores : List Store}

theorem memory_step_ofStores (known : vm.memory = .ofStores size stores) :
    vm.step.state.memory = .ofStores size (vm.store?.toList ++ stores) := by
  rcases vm.memory_step with ⟨silent, same⟩ | ⟨store, logged, fits, written⟩
  · simp [silent, same, known]
  · rw [known, Memory.size_ofStores] at fits
    rw [logged, written, known, ← Memory.ofStores_cons fits]
    rfl

theorem memory_after_ofStores (known : vm.memory = .ofStores size stores) (count : Nat) :
    (vm.after count).memory = .ofStores size (vm.storesWithin count ++ stores) := by
  induction count generalizing vm stores with
  | zero => exact known
  | succ count ih =>
      rw [storesWithin, List.append_assoc]
      exact ih (memory_step_ofStores known)

theorem executeStores_of_runs {fuel count : Nat} (bound : count < fuel) (runs : vm.Runs count)
    (stops : (vm.after count).step.result ≠ .ok .running) :
    vm.executeStores fuel = vm.storesWithin (count + 1) := by
  induction count generalizing fuel vm with
  | zero =>
      rcases fuel with _ | fuel
      · omega
      · rw [executeStores]
        split
        · rename_i running
          exact absurd running stops
        · rfl
  | succ count ih =>
      rcases fuel with _ | fuel
      · omega
      · rcases runs with ⟨running, runs⟩
        rw [executeStores, running]
        simp only
        rw [ih (by omega) runs stops]
        rfl

/-- An execution logs what its steps log. -/
theorem after_of_execute {fuel : Nat} {execution : Execution Vm}
    (finished : vm.execute fuel = some execution) :
    ∃ count, execution.state = vm.after count ∧
      vm.executeStores fuel = vm.storesWithin count := by
  cases live : vm.machine? with
  | none =>
      rw [execute_destroyed live] at finished
      rcases Option.some.inj finished with rfl
      refine ⟨0, rfl, ?_⟩
      cases fuel with
      | zero => rfl
      | succ fuel => simp [executeStores, step_destroyed live, store?, current?, live, storesWithin]
  | some machine =>
      rcases (execute_eq_some_iff live).mp finished with ⟨count, bound, runs, stops, rfl⟩
      exact ⟨count + 1, rfl, executeStores_of_runs bound runs stops⟩

theorem memory_load (vm : Vm) (allocator : Allocator) (code : Bytes) :
    (vm.load allocator code).vm.memory = vm.memory := by
  cases installed : (vm.load allocator code).result with
  | error error => rw [vm_of_load_error installed]
  | ok _ =>
      rcases vm_of_load_ok installed with ⟨machine, live, place⟩
      rw [place, memory_live live]
      rfl

theorem stack_step_of_load {status : Status} (known : vm.memory = .ofStores size stores)
    (current : vm.current? = some entry) (loads : entry.opcode = .load)
    (succeeds : vm.step.result = .ok status) :
    vm.step.state.stack = vm.stack ++ [Store.wordAt stores entry.operand.toNat] := by
  rcases completed?_eq_some_iff.mp ((completed?_of_ok succeeds).trans current) with
    ⟨machine, code, live, loaded, decoded, completes⟩
  have fits := Entry.fits_of_load completes loads
  rw [memory_live live] at known
  rw [known, Memory.size_ofStores] at fits
  have pushed : entry.pushed machine = [Store.wordAt stores entry.operand.toNat] := by
    simp only [Entry.pushed, loads, known]
    exact congrArg (fun bytes => [Word.ofBytes bytes]) (Memory.window_ofStores fits)
  have words : entry.wordsAfter machine =
      Store.wordAt stores entry.operand.toNat :: machine.stack.words := by
    rw [Entry.wordsAfter, pushed, loads]
    rfl
  simp [stack, live, step_of_completes live loaded decoded completes, Entry.machineAfter,
    OperandStack.bottomFirst, words]

theorem store?_of_store {status : Status} (current : vm.current? = some entry)
    (stores : entry.opcode = .store) (succeeds : vm.step.result = .ok status) :
    ∃ word, vm.stack.getLast? = some word ∧ vm.store? = some ⟨entry.operand, word⟩ := by
  rcases completed?_eq_some_iff.mp ((completed?_of_ok succeeds).trans current) with
    ⟨machine, code, live, loaded, decoded, completes⟩
  have logged := store?_of_completes live loaded decoded completes
  rw [if_pos stores] at logged
  have enough := Entry.inputs_le_depth completes
  rw [stores] at enough
  exact ⟨machine.word 0, getLast?_stack live enough, logged⟩

namespace Life

theorem after (life : Life first stores vm) (count : Nat) :
    Life first (vm.storesWithin count ++ stores) (vm.after count) := by
  induction count generalizing vm stores with
  | zero => exact life
  | succ count ih =>
      rw [storesWithin, List.append_assoc]
      exact ih life.step

theorem memory_eq (fresh : first.Fresh) (life : Life first stores vm) :
    vm.memory = .ofStores first.config.memorySize.toNat stores := by
  induction life with
  | start =>
      rw [memory_live (fresh_iff.mp fresh).2, Memory.ofStores_nil]
      rfl
  | load life allocator code ih => rw [memory_load, ih]
  | step life ih => exact memory_step_ofStores ih
  | execute life finished ih =>
      rcases after_of_execute finished with ⟨count, place, logged⟩
      rw [place, logged]
      exact memory_after_ofStores ih count

end Life

/-- Memory is a last-writer store over the whole life of an instance.

At every point each byte is that of the latest completed STORE that covers it, and zero if there is
none; a LOAD that completes pushes the word that these bytes form.  The log has each STORE that
completes, with its address and the word it takes, and nothing else: a step that fails, another
instruction and the load of a program leave log and memory alone.  An execution is no more than its
steps, so the same holds at every point within it. -/
theorem last_writer {first vm : Vm} {stores : List Store} (fresh : first.Fresh)
    (life : Life first stores vm) :
    vm.memory.bytes.toList =
      (List.range first.config.memorySize.toNat).map (Store.byteAt stores) ∧
    (∀ entry status, vm.current? = some entry → entry.opcode = .load →
      vm.step.result = .ok status →
      vm.step.state.stack = vm.stack ++ [Store.wordAt stores entry.operand.toNat]) ∧
    (∀ entry status, vm.current? = some entry → entry.opcode = .store →
      vm.step.result = .ok status →
      ∃ word, vm.stack.getLast? = some word ∧ vm.store? = some ⟨entry.operand, word⟩) ∧
    (∀ error, vm.step.result = .error error →
      vm.store? = none ∧ vm.step.state.memory = vm.memory) ∧
    (∀ entry, vm.current? = some entry → entry.opcode ≠ .store →
      vm.store? = none ∧ vm.step.state.memory = vm.memory) ∧
    (∀ allocator code, (vm.load allocator code).vm.memory = vm.memory) ∧
    (∀ count, Life first (vm.storesWithin count ++ stores) (vm.after count)) ∧
    ∀ fuel execution, vm.execute fuel = some execution →
      ∃ count, execution.state = vm.after count ∧
        vm.executeStores fuel = vm.storesWithin count := by
  have known := life.memory_eq fresh
  refine ⟨?bytes, ?loads, ?stores, ?fails, ?others, ?installs, ?within, ?executes⟩
  case bytes =>
    rw [known]
    rfl
  case loads =>
    intro entry status current loads succeeds
    exact stack_step_of_load known current loads succeeds
  case stores =>
    intro entry status current stores succeeds
    exact store?_of_store current stores succeeds
  case fails =>
    intro error fails
    have silent : vm.store? = none :=
      store?_of_fails (by simp [fails, Except.isOk, Except.toBool])
    exact ⟨silent, memory_step_of_silent silent⟩
  case others =>
    intro entry current other
    have silent := store?_of_ne_store current other
    exact ⟨silent, memory_step_of_silent silent⟩
  case installs =>
    intro allocator code
    exact vm.memory_load allocator code
  case within =>
    intro count
    exact life.after count
  case executes =>
    intro fuel execution finished
    exact after_of_execute finished

/-- An instance before its first program. -/
def unwritten : Vm := ⟨⟨12, 1, 1⟩, some (.ofConfig ⟨12, 1, 1⟩)⟩

/-- A program that fills the first word of the memory. -/
def filling : Bytes :=
  Opcode.push.encode (some 0xFFFFFFFFFFFFFFFF) ++ Opcode.store.encode (some 0)

/-- A program that stores across the end of the first word and loads across both. -/
def overlapping : Bytes :=
  Opcode.push.encode (some 1) ++ Opcode.store.encode (some 3) ++ Opcode.load.encode (some 1)

/-- The instance at the LOAD of the second program. -/
def overlapped : Vm :=
  ((((unwritten.load .unlimited filling).vm.after 2).load .unlimited overlapping).vm).after 2

/-- The two words mix bytewise, in memory and in what is loaded. -/
theorem last_writer_overlapped :
    overlapped.memory.bytes.toList = [255, 255, 255, 1, 0, 0, 0, 0, 0, 0, 0, 0] ∧
      overlapped.step.state.stack = [0x1FFFF] := by
  have fresh : unwritten.Fresh := fresh_iff.mpr ⟨rfl, rfl⟩
  have untouched : Life unwritten [] unwritten := .start
  have life : Life unwritten [⟨3, 1⟩, ⟨0, 0xFFFFFFFFFFFFFFFF⟩] overlapped :=
    (((untouched.load .unlimited filling).after 2).load .unlimited overlapping).after 2
  rcases last_writer fresh life with ⟨bytes, loads, _⟩
  exact ⟨bytes, loads ⟨18, .load, some 1⟩ .endOfProgram rfl rfl rfl⟩

end Vm

end StackMachine
