import Mathlib.Tactic.SplitIfs
import StackMachine.Machine.Step
import StackMachine.Proofs.Machine.Completion
import StackMachine.Proofs.Machine.Stepping

/-!
# Steps follow the meaning of instructions

A step changes the machine one action at a time, and an action that fails leaves what the actions
before it did.  This file shows that a step nevertheless does what the decoded instruction means: it
finds the errors of the decoder, then the first fault of the instruction, and otherwise makes the
machine that the meaning describes.

The bridge is the form that every action takes: it settles a list of checks, and leaves its work
alone if one of them fails.  Binding one such action to the next joins the two lists as long as the
first changes nothing that the second looks at, so an instruction settles the checks of its entry
before the first change.
-/

namespace StackMachine

namespace Word

theorem toNat_ofInt (value : Int) : ((ofInt value).toNat : Int) = value % 2 ^ 64 := by
  simp only [ofInt, UInt64.toNat_ofNat']
  omega

theorem ofInt_natCast (value : Nat) : ofInt value = UInt64.ofNat value := by
  apply UInt64.toNat_inj.mp
  have reduced := toNat_ofInt value
  simp only [UInt64.toNat_ofNat']
  omega

theorem ofInt_add (first second : UInt64) :
    ofInt (first.toNat + second.toNat) = first + second := by
  rw [← Int.natCast_add, ofInt_natCast, UInt64.ofNat_add, UInt64.ofNat_toNat, UInt64.ofNat_toNat]

theorem ofInt_sub (first second : UInt64) :
    ofInt (first.toNat - second.toNat) = first - second := by
  apply UInt64.toNat_inj.mp
  have reduced := toNat_ofInt (first.toNat - second.toNat)
  have firstBound := first.toNat_lt
  have secondBound := second.toNat_lt
  rw [UInt64.toNat_sub]
  omega

theorem ofInt_mul (first second : UInt64) :
    ofInt (first.toNat * second.toNat) = first * second := by
  rw [← Int.natCast_mul, ofInt_natCast, UInt64.ofNat_mul, UInt64.ofNat_toNat, UInt64.ofNat_toNat]

theorem ofInt_div (first second : UInt64) :
    ofInt (first.toNat / second.toNat) = first / second := by
  have bound : first.toNat / second.toNat < 2 ^ 64 :=
    Nat.lt_of_le_of_lt (Nat.div_le_self first.toNat second.toNat) first.toNat_lt
  apply UInt64.toNat_inj.mp
  rw [← Int.natCast_ediv, ofInt_natCast, UInt64.toNat_ofNat', Nat.mod_eq_of_lt bound,
    UInt64.toNat_div]

theorem ofInt_ite (holds : Prop) [Decidable holds] :
    ofInt (if holds then 1 else 0) = truth (decide holds) := by
  by_cases holds <;> simp [*] <;> rfl

theorem ofInt_equal (first second : UInt64) :
    ofInt (if (first.toNat : Int) = second.toNat then 1 else 0) = truth (first == second) := by
  rw [ofInt_ite]
  congr 1
  rw [Bool.eq_iff_iff, decide_eq_true_eq, beq_iff_eq, Int.natCast_inj, UInt64.toNat_inj]

theorem ofInt_less (first second : UInt64) :
    ofInt (if (first.toNat : Int) < second.toNat then 1 else 0) = truth (first < second) := by
  rw [ofInt_ite]
  congr 1
  rw [Bool.eq_iff_iff, decide_eq_true_eq, decide_eq_true_eq, Int.ofNat_lt,
    UInt64.lt_iff_toNat_lt]

end Word

namespace Check

variable {α : Type}

/-- What an action comes to that first goes through its checks, and leaves its work alone if one of
them fails. -/
def settle (checks : List Check) (work : Work) (result : EStateM.Result Trap Work α) :
    EStateM.Result Trap Work α :=
  match fault? checks with
  | some cause => .error cause work
  | none => result

theorem settle_single (check : Check) (work : Work) (result : EStateM.Result Trap Work α) :
    settle [check] work result = if check.fails then .error check.cause work else result := by
  by_cases fails : check.fails <;> simp [settle, fault?, fails]

theorem settle_cons (check : Check) (checks : List Check) (work : Work)
    (result : EStateM.Result Trap Work α) :
    settle (check :: checks) work result = settle [check] work (settle checks work result) := by
  by_cases fails : check.fails <;> simp [settle, fault?, fails]

end Check

namespace Action

variable {α β : Type} {work : Work}

theorem bind_settle {action : Action α} {checks : List Check} {value : α} {after : Work}
    (runs : action work = Check.settle checks work (.ok value after)) (next : α → Action β) :
    (action >>= next) work = Check.settle checks work (next value after) := by
  change EStateM.bind action next work = _
  rw [EStateM.bind, runs, Check.settle, Check.settle]
  cases Check.fault? checks <;> rfl

theorem require_eq (needed : Nat) (work : Work) :
    require needed work =
      Check.settle [.underflow work.machine needed] work (.ok () work) := by
  simp only [Check.settle_single, Check.underflow_fails_iff, require, inspect]
  split_ifs <;> rfl

variable (machine : Machine) (printed? : Option UInt64)

theorem push_eq (word : UInt64) :
    push word ⟨machine, printed?⟩ =
      Check.settle [.overflow machine] ⟨machine, printed?⟩
        (.ok () ⟨{ machine with
          stack := { machine.stack with words := word :: machine.stack.words } }, printed?⟩) := by
  simp only [Check.settle_single, Check.overflow_fails_iff, push, onStack, OperandStack.push,
    ← Nat.not_lt, ite_not]
  split_ifs <;> rfl

theorem locate_eq (address : UInt64) :
    machine.memory.locate address =
      if (Check.outside machine address).fails then .error (Check.outside machine address).cause
      else .ok address.toNat := by
  simp only [Memory.locate, Check.outside_fails_iff, ← Nat.not_le, ite_not]
  rfl

theorem readWord_eq (address : UInt64) (work : Work) :
    readWord address work =
      Check.settle [.outside work.machine address] work
        (.ok (Word.ofBytes ((work.machine.memory.bytes.toList.drop address.toNat).take 8))
          work) := by
  simp only [Check.settle_single, readWord, inspect, locate_eq, Memory.wordAt_eq]
  split_ifs <;> rfl

theorem writeWord_eq (address word : UInt64) :
    writeWord address word ⟨machine, printed?⟩ =
      Check.settle [.outside machine address] ⟨machine, printed?⟩
        (.ok () ⟨{ machine with
          memory := machine.memory.splice address.toNat word }, printed?⟩) := by
  simp only [Check.settle_single, writeWord, locate_eq]
  split_ifs with outside
  · rfl
  · have fits := Nat.not_lt.mp (mt (Check.outside_fails_iff machine address).mpr outside)
    rw [← Memory.putWord_eq_splice word fits]

theorem resolve_eq (target : UInt64) (work : Work) :
    resolve target work =
      Check.settle [.beyond work.machine.code.length target] work (.ok target.toNat work) := by
  simp only [Check.settle_single, Check.beyond_fails_iff, resolve, inspect, jumpTarget,
    ← Nat.not_lt, ite_not]
  split_ifs <;> rfl

theorem pushCall_eq :
    pushCall ⟨machine, printed?⟩ =
      Check.settle [.callOverflow machine] ⟨machine, printed?⟩
        (.ok () ⟨{ machine with
          calls := { machine.calls with frames := machine.ip :: machine.calls.frames } },
          printed?⟩) := by
  simp only [Check.settle_single, Check.callOverflow_fails_iff, pushCall, onCalls,
    CallStack.push, ← Nat.not_lt, ite_not]
  split_ifs <;> rfl

theorem combine_divide_eq {second first : UInt64} {rest : List UInt64}
    (words : machine.stack.words = second :: first :: rest) :
    combine divide ⟨machine, printed?⟩ =
      Check.settle [.zeroDivisor machine] ⟨machine, printed?⟩
        (.ok () ⟨{ machine with
          stack := { machine.stack with words := first / second :: rest } }, printed?⟩) := by
  have divisor : machine.word 0 = second := by simp [Machine.word, words]
  simp only [Check.settle_single, Check.zeroDivisor_fails_iff, divisor, combine, onStack,
    OperandStack.combine, words, divide]
  split_ifs <;> rfl

end Action

namespace Entry

variable (entry : Entry) (machine : Machine)

/-- The work with which an entry begins when its operand is read. -/
def ready : Work := ⟨{ machine with ip := entry.next }, none⟩

/-- The work that an entry leaves which completes.  It is counted only then. -/
def done : Work :=
  ⟨{ entry.machineAfter machine with executed := machine.executed }, entry.printed? machine⟩

def flow : Flow := if entry.opcode = .halt then .halt else .proceed

open StackMachine.Action

variable {machine : Machine} {code : Bytes}

/-- What an entry does when the words it takes are there: it settles its own checks. -/
theorem execute_eq (loaded : machine.code? = some code)
    (enough : entry.opcode.inputs ≤ machine.stack.depth) :
    execute entry.operand entry.opcode (entry.ready machine) =
      Check.settle (entry.checks machine code.length).tail (entry.ready machine)
        (.ok entry.flow (entry.done machine)) := by
  rcases entry with ⟨offset, opcode, operand?⟩
  rcases machine with ⟨memory, ⟨words, capacity⟩, ⟨frames, maxDepth⟩, code?, ip, executed⟩
  rcases loaded with rfl
  cases opcode with
  | push => exact bind_settle (push_eq _ _ _) _
  | pop =>
      rcases words with _ | ⟨top, rest⟩
      · contradiction
      · rfl
  | add | sub | mul | equal | greater | less =>
      rcases words with _ | ⟨second, _ | ⟨first, rest⟩⟩
      · contradiction
      · contradiction
      · simp only [done, machineAfter, wordsAfter, pushed, Opcode.binary?, Machine.word,
          List.getD_cons_zero, List.getD_cons_succ, Word.ofInt_add, Word.ofInt_sub, Word.ofInt_mul,
          Word.ofInt_equal, Word.ofInt_less]
        rfl
  | div =>
      rcases words with _ | ⟨second, _ | ⟨first, rest⟩⟩
      · contradiction
      · contradiction
      · simp only [done, machineAfter, wordsAfter, pushed, Opcode.binary?, Machine.word,
          List.getD_cons_zero, List.getD_cons_succ, Word.ofInt_div]
        exact bind_settle (combine_divide_eq _ _ rfl) _
  | store =>
      rcases words with _ | ⟨top, rest⟩
      · contradiction
      · exact bind_settle (writeWord_eq _ _ _ _) _
  | load =>
      -- The address is settled first, and reading changes nothing that the push looks at.
      refine (bind_settle (readWord_eq _ _) _).trans ?_
      rw [bind_settle (push_eq _ _ _), ← Check.settle_cons]
      rfl
  | print =>
      rcases words with _ | ⟨top, rest⟩
      · contradiction
      · rfl
  | call =>
      refine (bind_settle (resolve_eq _ _) _).trans ?_
      rw [ready, bind_settle (pushCall_eq _ _), ← Check.settle_cons]
      rfl
  | ret =>
      rcases frames with _ | ⟨address, rest⟩
      · rfl
      · rfl
  | jump => exact bind_settle (resolve_eq _ _) _
  | jumpIf =>
      rcases words with _ | ⟨top, rest⟩
      · contradiction
      by_cases untaken : top = 0
      · subst untaken
        rfl
      · have counts : decide (top ≠ 0) = true := decide_eq_true untaken
        simp only [checks, List.tail_cons, Check.whenTaken, Machine.word, List.getD_cons_zero,
          counts, Bool.true_and, done, machineAfter, ipAfter, if_neg untaken]
        change (if top ≠ 0 then _ else _ : Action Flow) _ = _
        rw [if_pos untaken]
        exact bind_settle (resolve_eq _ _) _
  | halt => rfl

/-- An entry whose operand is read goes through all its checks before it changes anything. -/
theorem require_execute_eq (loaded : machine.code? = some code) :
    (do require entry.opcode.inputs; execute entry.operand entry.opcode : Action Flow)
        (entry.ready machine) =
      Check.settle (entry.checks machine code.length) (entry.ready machine)
        (.ok entry.flow (entry.done machine)) := by
  have apart : Check.settle (entry.checks machine code.length) (entry.ready machine)
      (.ok entry.flow (entry.done machine)) =
      Check.settle [.underflow machine entry.opcode.inputs] (entry.ready machine)
        (Check.settle (entry.checks machine code.length).tail (entry.ready machine)
          (.ok entry.flow (entry.done machine))) := Check.settle_cons _ _ _ _
  refine (bind_settle (require_eq _ _) _).trans (Eq.trans ?_ apart.symm)
  by_cases enough : entry.opcode.inputs ≤ machine.stack.depth
  · rw [entry.execute_eq loaded enough]
    rfl
  · have fails := (Check.underflow_fails_iff machine _).mpr (Nat.not_le.mp enough)
    simp only [Check.settle_single, if_pos fails]
    exact if_pos fails

end Entry

namespace Machine

open StackMachine.Action

variable {machine : Machine} {code rest : Bytes} {byte : UInt8}

/-- The work with which an instruction begins when its opcode is read. -/
def opened (machine : Machine) : Work := ⟨{ machine with ip := machine.ip + 1 }, none⟩

theorem drop_of_opened (loaded : machine.code? = some code)
    (here : code.drop machine.ip = byte :: rest) :
    machine.opened.machine.code.drop machine.opened.machine.ip = rest := by
  have same : machine.opened.machine.code = code := congrArg (·.getD []) loaded
  have next : machine.opened.machine.ip = machine.ip + 1 := rfl
  rw [same, next, ← List.drop_drop, here, List.drop_one, List.tail_cons]

theorem readOperand_opened (loaded : machine.code? = some code)
    (here : code.drop machine.ip = byte :: rest) :
    readOperand machine.opened =
      match Word.front? rest with
      | some operand => .ok operand ⟨{ machine with ip := machine.ip + 1 + Word.size }, none⟩
      | none => .error (.truncated Word.size rest.length) machine.opened := by
  rw [← drop_of_opened loaded here]
  rfl

/-- What follows on an opcode: either it starts an entry, whose checks come before all changes, or
the fault of the decoder. -/
theorem perform_opened (loaded : machine.code? = some code)
    (here : code.drop machine.ip = byte :: rest) :
    (∃ cause, Entry.decode machine.ip (byte :: rest) = .error (.trap machine.ip cause) ∧
      perform byte machine.opened = .error cause machine.opened) ∨
    ∃ entry, Entry.decode machine.ip (byte :: rest) = .ok entry ∧
      perform byte machine.opened =
        Check.settle (entry.checks machine code.length) (entry.ready machine)
          (.ok entry.flow (entry.done machine)) := by
  -- The decoder and the instruction ask the same of the opcode, one case after the other.
  simp only [Entry.decode, perform]
  cases Opcode.ofByte? byte with
  | none => exact Or.inl ⟨_, rfl, rfl⟩
  | some opcode =>
      cases kind : opcode.operandKind? with
      | none =>
          have length : opcode.length = 1 := by simp [Opcode.length, kind]
          right
          refine ⟨⟨machine.ip, opcode, none⟩, by simp only [kind], ?_⟩
          rw [← Entry.require_execute_eq _ loaded, Entry.ready, Entry.next, length]
          simp only [kind, Option.isSome_none]
          rfl
      | some _ =>
          have length : opcode.length = 1 + Word.size := by simp [Opcode.length, kind]
          have read := readOperand_opened loaded here
          simp only [kind, Option.isSome_some, if_true]
          cases front : Word.front? rest with
          | none =>
              left
              refine ⟨_, rfl, ?_⟩
              change EStateM.bind _ _ _ = _
              rw [EStateM.bind, read, front]
          | some operand =>
              right
              refine ⟨_, rfl, ?_⟩
              rw [← Entry.require_execute_eq _ loaded, Entry.ready, Entry.next, length,
                ← Nat.add_assoc]
              change EStateM.bind _ _ _ = _
              rw [EStateM.bind, read, front]
              rfl

theorem step_eq_finish (loaded : machine.code? = some code)
    (here : code.drop machine.ip = byte :: rest) :
    machine.step = finish machine.ip (perform byte machine.opened) := by
  have present : code[machine.ip]? = some byte := by
    rw [← List.head?_drop, here, List.head?_cons]
  simp only [step, loaded, present, opened]
  rfl

theorem step_of_code?_none (unloaded : machine.code? = none) :
    machine.step = ⟨.error .notInitialized, none, machine⟩ := by
  simp [step, unloaded]

theorem step_of_length_le (loaded : machine.code? = some code)
    (past : code.length ≤ machine.ip) :
    machine.step = ⟨.ok .endOfProgram, none, machine⟩ := by
  simp [step, loaded, List.getElem?_eq_none past]

theorem step_of_decodeAt_error {error : Error} (loaded : machine.code? = some code)
    (inside : machine.ip < code.length)
    (undecodable : Listing.decodeAt code machine.ip = .error error) :
    machine.step = ⟨.error error, none, machine⟩ := by
  have here := List.drop_eq_getElem_cons inside
  rw [Listing.decodeAt, here] at undecodable
  rcases perform_opened loaded here with ⟨cause, read, performed⟩ | ⟨entry, read, _⟩
  · rw [step_eq_finish loaded here, performed,
      Except.error.inj (undecodable.symm.trans read)]
    rfl
  · rw [read] at undecodable
    contradiction

theorem status_flow (entry : Entry) (loaded : machine.code? = some code) :
    (entry.machineAfter machine).status entry.flow = entry.statusAfter machine code.length := by
  have same : (entry.machineAfter machine).code = code := congrArg (·.getD []) loaded
  by_cases halts : entry.opcode = .halt
  · simp [status, Entry.flow, Entry.statusAfter, halts]
  · simp only [status, Entry.flow, Entry.statusAfter, if_neg halts]
    rw [same]
    rfl

theorem step_of_decodeAt_ok {entry : Entry} (loaded : machine.code? = some code)
    (decoded : Listing.decodeAt code machine.ip = .ok entry) :
    machine.step = entry.transition machine code.length := by
  have here := List.drop_eq_getElem_cons (Listing.lt_length_of_decodeAt decoded)
  have place := Listing.offset_of_decodeAt decoded
  rw [Listing.decodeAt, here] at decoded
  rcases perform_opened loaded here with ⟨_, read, _⟩ | ⟨found, read, performed⟩
  · rw [read] at decoded
    contradiction
  · rcases Except.ok.inj (read.symm.trans decoded) with rfl
    rw [step_eq_finish loaded here, performed, Check.settle, Entry.transition, place,
      Entry.fault?]
    cases Check.fault? (found.checks machine code.length) with
    | some cause => rfl
    | none =>
        have finished : finish machine.ip (.ok found.flow (found.done machine)) =
            ⟨.ok ((found.machineAfter machine).status found.flow), found.printed? machine,
              found.machineAfter machine⟩ := rfl
        rw [finished, status_flow found loaded]

/-- The four ways in which a step of a loaded machine can go. -/
@[elab_as_elim]
theorem step_cases {motive : Transition Machine → Prop} (loaded : machine.code? = some code)
    (ended : code.length ≤ machine.ip → motive ⟨.ok .endOfProgram, none, machine⟩)
    (undecodable : ∀ error, machine.ip < code.length →
      Listing.decodeAt code machine.ip = .error error → motive ⟨.error error, none, machine⟩)
    (faulty : ∀ entry cause, Listing.decodeAt code machine.ip = .ok entry →
      entry.fault? machine code.length = some cause →
      motive ⟨.error (.trap machine.ip cause), none, machine⟩)
    (completes : ∀ entry, Listing.decodeAt code machine.ip = .ok entry →
      entry.fault? machine code.length = none →
      motive ⟨.ok (entry.statusAfter machine code.length), entry.printed? machine,
        entry.machineAfter machine⟩) :
    motive machine.step := by
  by_cases inside : machine.ip < code.length
  · cases decoded : Listing.decodeAt code machine.ip with
    | error error =>
        rw [step_of_decodeAt_error loaded inside decoded]
        exact undecodable error inside decoded
    | ok entry =>
        rw [step_of_decodeAt_ok loaded decoded, Entry.transition,
          Listing.offset_of_decodeAt decoded]
        cases fault : entry.fault? machine code.length with
        | some cause => exact faulty entry cause decoded fault
        | none => exact completes entry decoded fault
  · rw [step_of_length_le loaded (Nat.not_lt.mp inside)]
    exact ended (Nat.not_lt.mp inside)

/-- A step leaves the machine as it was unless it completes an instruction. -/
@[elab_as_elim]
theorem step_state_cases {motive : Machine → Prop} (loaded : machine.code? = some code)
    (stays : motive machine)
    (completes : ∀ entry, Listing.decodeAt code machine.ip = .ok entry →
      entry.fault? machine code.length = none → motive (entry.machineAfter machine)) :
    motive machine.step.state := by
  apply step_cases (motive := fun transition => motive transition.state) loaded
  · intro _
    exact stays
  · intro _ _ _
    exact stays
  · intro _ _ _ _
    exact stays
  · exact completes

theorem code?_step (machine : Machine) : machine.step.state.code? = machine.code? := by
  cases loaded : machine.code? with
  | none => rw [step_of_code?_none loaded, loaded]
  | some code =>
      apply step_state_cases (motive := fun next => next.code? = some code) loaded
      · exact loaded
      · intro _ _ _
        exact loaded

theorem code?_after (machine : Machine) (count : Nat) :
    (Transition.after step count machine).code? = machine.code? := by
  apply Transition.after_induction (motive := fun later : Machine => later.code? = machine.code?)
  · intro later same
    rw [code?_step, same]
  · rfl

end Machine

theorem Vm.loaded_after {vm : Vm} {machine : Machine} {code : Bytes}
    (live : vm.machine? = some machine) (loaded : machine.code? = some code) (count : Nat) :
    ∃ later, (vm.after count).machine? = some later ∧ later.code? = some code := by
  rw [after_live live]
  exact ⟨_, rfl, (Machine.code?_after machine count).trans loaded⟩

/-- A step of a live instance does what the instruction at the current offset means: it reports the
error of the decoder, or the first fault of the instruction, or makes the machine after it. -/
theorem Vm.step_eq_meaning {vm : Vm} {machine : Machine} {code : Bytes}
    (live : vm.machine? = some machine) (loaded : machine.code? = some code)
    (inside : machine.ip < code.length) :
    vm.step =
      match Listing.decodeAt code machine.ip with
      | .error error => ⟨.error error, none, vm⟩
      | .ok entry =>
          match entry.fault? machine code.length with
          | some cause => ⟨.error (.trap machine.ip cause), none, vm⟩
          | none =>
              ⟨.ok (entry.statusAfter machine code.length), entry.printed? machine,
                { vm with machine? := some (entry.machineAfter machine) }⟩ := by
  rcases vm with ⟨config, machine?⟩
  subst live
  cases decoded : Listing.decodeAt code machine.ip with
  | error error => simp only [Vm.step, Machine.step_of_decodeAt_error loaded inside decoded]
  | ok entry =>
      have place := Listing.offset_of_decodeAt decoded
      simp only [Vm.step, Machine.step_of_decodeAt_ok loaded decoded, Entry.transition, place]
      cases entry.fault? machine code.length with
      | some cause => rfl
      | none => rfl

/-- A machine at a LOAD that reads past the memory while the operand stack is full. -/
def Machine.crowded : Machine where
  memory := .zeroed 8
  stack := ⟨[7], 1⟩
  calls := .empty 1
  code? := some (Opcode.load.encode (some 1))
  ip := 0
  executed := 0

/-- Of two faults the bad address counts. -/
theorem Vm.step_crowded :
    Machine.crowded.ip < (Opcode.load.encode (some 1)).length ∧
      (Vm.mk .standard (some .crowded)).step =
        ⟨.error (.trap 0 (.memoryOutOfRange 1 8)), none, ⟨.standard, some .crowded⟩⟩ := by
  have inside : Machine.crowded.ip < (Opcode.load.encode (some 1)).length := by decide
  exact ⟨inside, Vm.step_eq_meaning rfl rfl inside⟩

end StackMachine
