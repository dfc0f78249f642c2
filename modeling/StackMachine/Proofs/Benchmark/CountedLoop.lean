import StackMachine.Benchmark.Programs
import StackMachine.Proofs.Assembly.Patching
import StackMachine.Proofs.Vm.Passage

/-!
# Counted loops

A counted loop sets its counter, runs its body, takes one from the counter and goes back as long as
any is left.  A body that can be repeated keeps the operand stack and the counter, so each round
begins like the one before but for the counter, and the first one to find nothing left is the last.

The proof follows the code: a passage for what sets up the loop, one for the body, one for what
counts down, then the passage of a round by joining them and that of many rounds by induction.
-/

namespace StackMachine.Benchmark

open Assembly Listing Vm

/-- The instructions that set up a loop. -/
def prologue (iterations : UInt64) : List Instruction :=
  [⟨.push, some iterations⟩, ⟨.store, some counter⟩]

/-- The instructions that take one from the counter and show what is left. -/
def decrement : List Instruction :=
  [⟨.load, some counter⟩, ⟨.push, some 1⟩, ⟨.sub, none⟩, ⟨.store, some counter⟩,
    ⟨.load, some counter⟩]

/-- What stands behind the body of a loop that goes back to `place`. -/
def countdown (place : Nat) : List Instruction :=
  decrement ++ [⟨.jumpIf, some (UInt64.ofNat place)⟩]

/-- The instructions of a round of a loop at `place`. -/
def round (place : Nat) (body : List Instruction) : List Instruction := body ++ countdown place

/-- The instructions of a loop at `place` as a run meets them that has made `count` rounds. -/
def unrolled (place : Nat) (iterations : UInt64) (body : List Instruction) (count : Nat) :
    Listing :=
  layout place (prologue iterations) ++
    (List.replicate count (layout (place + 18) (round (place + 18) body))).flatten

/-- Directives that write the encodings of some instructions, whatever the places of labels. -/
def Writes (directives : List Directive) (instructions : List Instruction) : Prop :=
  ∀ place?, directives.flatMap (Directive.encode place?) = instructions.flatMap Instruction.encode

/-- Wherever the instructions stand, an instance with `room` free words on its operand stack and
`size` bytes of memory completes them and then has the same operand stack and the same counter. -/
def Repeatable (room size : Nat) (instructions : List Instruction) : Prop :=
  ∀ (vm : Vm) (machine : Machine) (code : Bytes), vm.Coherent → vm.machine? = some machine →
    machine.code? = some code → Stands code vm.ip instructions → vm.callDepth = 0 →
    vm.stackDepth + room ≤ vm.stackCapacity → vm.memory.size = size →
    ∃ last, Passage vm (layout vm.ip instructions) last ∧ last.stack = vm.stack ∧
      last.memory.bytes.toList.take 8 = vm.memory.bytes.toList.take 8

section Unrolled

variable {place count : Nat} {iterations : UInt64} {body : List Instruction} {entry : Entry}

theorem unrolled_succ (place : Nat) (iterations : UInt64) (body : List Instruction) (count : Nat) :
    unrolled place iterations body (count + 1) =
      unrolled place iterations body count ++ layout (place + 18) (round (place + 18) body) := by
  rw [unrolled, unrolled, List.replicate_succ', List.flatten_append, List.flatten_singleton,
    List.append_assoc]

theorem length_unrolled (place : Nat) (iterations : UInt64) (body : List Instruction)
    (count : Nat) : (unrolled place iterations body count).length =
      2 + count * (body.length + 6) := by
  induction count with
  | zero => simp [unrolled, length_layout, prologue]
  | succ count ih =>
      have whole : (round (place + 18) body).length = body.length + 6 := List.length_append
      rw [unrolled_succ, List.length_append, ih, length_layout, whole, Nat.succ_mul, Nat.add_assoc]

/-- What a run meets in a loop is an instruction of the loop. -/
theorem exists_of_mem_unrolled (member : entry ∈ unrolled place iterations body count) :
    ∃ instruction ∈ prologue iterations ++ round (place + 18) body,
      entry.opcode = instruction.opcode ∧
      entry.offset < place +
        Instruction.extent (prologue iterations ++ round (place + 18) body) := by
  have opening : Instruction.extent (prologue iterations) = 18 := rfl
  rw [Instruction.extent_append, opening]
  rcases List.mem_append.mp member with first | later
  · rcases exists_of_mem_layout first with ⟨found, among, same, before⟩
    rw [opening] at before
    exact ⟨found, List.mem_append_left _ among, same, by omega⟩
  · rcases List.mem_flatten.mp later with ⟨_, rounds, inside⟩
    rcases List.eq_of_mem_replicate rounds with rfl
    rcases exists_of_mem_layout inside with ⟨found, among, same, before⟩
    exact ⟨found, List.mem_append_right _ among, same, by omega⟩

theorem opcode_ne_halt_of_mem_unrolled
    (straight : ∀ instruction ∈ body, instruction.opcode.isControlFlow = false)
    (member : entry ∈ unrolled place iterations body count) : entry.opcode ≠ .halt := by
  rcases exists_of_mem_unrolled member with ⟨found, among, same, _⟩
  rw [same]
  intro ends
  simp only [prologue, round, countdown, decrement, List.mem_append, List.mem_cons,
    List.not_mem_nil, or_false] at among
  rcases among with (rfl | rfl) | inside | (rfl | rfl | rfl | rfl | rfl) | rfl
  case inr.inl =>
    have never := straight found inside
    rw [ends] at never
    contradiction
  all_goals contradiction

end Unrolled

section Program

variable {iterations : UInt64} {body front rest : List Directive} {instructions : List Instruction}
  {place? : String → Option Nat} {place : Nat} {code : Bytes}

theorem flatMap_encode_countedLoop (writes : Writes body instructions)
    (placed : place? "__loop" = some place) :
    (countedLoop iterations body).flatMap (Directive.encode place?) =
      (prologue iterations ++ round place instructions).flatMap Instruction.encode := by
  have opening : [push iterations, store counter, .label "__loop"].flatMap
      (Directive.encode place?) = (prologue iterations).flatMap Instruction.encode := rfl
  have closing : [load counter, push 1, bare .sub, store counter, load counter,
      .branch .jumpIf "__loop"].flatMap (Directive.encode place?) =
      (countdown place).flatMap Instruction.encode := by
    simp only [List.flatMap_cons, List.flatMap_nil, Directive.encode, placed]
    rfl
  rw [countedLoop, List.flatMap_append, List.flatMap_append, writes place?, opening, closing]
  simp only [round, List.flatMap_append, List.append_assoc]

theorem offset_countedLoop (writes : Writes body instructions) (draft : Draft) (place : Nat) :
    (draft.appendAll (countedLoop iterations body)).offset =
      draft.offset + Instruction.extent (prologue iterations ++ round place instructions) := by
  rw [draft.offset_appendAll fun _ => some place, flatMap_encode_countedLoop writes rfl,
    Instruction.length_flatMap_encode]

/-- A loop goes back to right behind what sets it up. -/
theorem place_of_assemble
    (assembled : assemble (front ++ (countedLoop iterations body ++ rest)) = .ok code) :
    (Draft.empty.appendAll (front ++ (countedLoop iterations body ++ rest))).place? "__loop" =
      some ((Draft.empty.appendAll front).offset + 18) := by
  apply Draft.place?_of_mem_sites (nodup_labels_of_assemble assembled)
  apply Draft.mem_sites_iff.mpr
  refine ⟨front ++ [push iterations, store counter], body ++ ([load counter, push 1, bare .sub,
    store counter, load counter, .branch .jumpIf "__loop"] ++ rest), ?_, ?_⟩
  · simp [countedLoop]
  · rw [Draft.appendAll_append]
    exact (Draft.offset_appendAll (fun _ => none) _ [push iterations, store counter]).symm

/-- Where a program has a loop, its code has the instructions of the loop. -/
theorem stands_of_assemble (front : List Directive) (writes : Writes body instructions)
    (assembled : assemble (front ++ (countedLoop iterations body ++ rest)) = .ok code) :
    Stands code (Draft.empty.appendAll front).offset
      (prologue iterations ++
        round ((Draft.empty.appendAll front).offset + 18) instructions) := by
  have placed := place_of_assemble assembled
  have written := (eq_flatMap_of_assemble assembled).2
  rw [List.flatMap_append, List.flatMap_append, flatMap_encode_countedLoop writes placed] at written
  have size := Draft.empty.offset_appendAll
    (Draft.empty.appendAll (front ++ (countedLoop iterations body ++ rest))).place? front
  rw [Stands, written, List.drop_left' (size.trans (Nat.zero_add _)).symm]
  apply List.prefix_append

end Program

section Round

variable {config : Config} {code : Bytes} {data : Data} {instructions : List Instruction}
  {executed : UInt64} {room size place : Nat}

theorem wordAt_zero_eq_of_take {memory other : Memory}
    (same : memory.bytes.toList.take 8 = other.bytes.toList.take 8) :
    memory.wordAt 0 = other.wordAt 0 := by
  rw [Memory.wordAt_eq, Memory.wordAt_eq, List.drop_zero, List.drop_zero]
  exact congrArg Word.ofBytes same

theorem fold_prologue (iterations : UInt64) (room : data.words.length < config.stackSize.toNat)
    (counts : 8 ≤ data.memory.size) :
    data.fold config (prologue iterations) =
      .ok { data with memory := data.memory.splice 0 iterations } := by
  refine Data.fold_of_effect (Data.effect_push_of_lt iterations room) ?_
  exact Data.fold_of_effect (Data.effect_store counts rfl) rfl

theorem fold_decrement (room : data.words.length + 2 ≤ config.stackSize.toNat)
    (counts : 8 ≤ data.memory.size) :
    data.fold config decrement =
      .ok { data with
        words := (data.memory.wordAt 0 - 1) :: data.words
        memory := data.memory.splice 0 (data.memory.wordAt 0 - 1) } := by
  have free : data.words.length < config.stackSize.toNat := by omega
  have kept : (data.memory.splice 0 (data.memory.wordAt 0 - 1)).size = data.memory.size :=
    Memory.size_splice _ counts
  have shown := Memory.wordAt_splice (data.memory.wordAt 0 - 1) (Nat.zero_le data.memory.size)
  refine Data.fold_of_effect (Data.effect_load counts free) ?_
  refine Data.fold_of_effect (Data.effect_push_of_lt 1 (Nat.lt_of_succ_le room)) ?_
  refine Data.fold_of_effect (Data.effect_binary rfl (by decide) rfl) ?_
  rw [Word.ofInt_sub]
  refine Data.fold_of_effect (Data.effect_store counts rfl) ?_
  refine Data.fold_of_effect (Data.effect_load (kept.symm ▸ counts) free) ?_
  exact congrArg (fun word => Except.ok { data with
    words := word :: data.words
    memory := data.memory.splice 0 (data.memory.wordAt 0 - 1) }) shown

theorem toNat_pred {word : UInt64} (positive : 1 ≤ word.toNat) :
    (word - 1).toNat = word.toNat - 1 :=
  UInt64.toNat_sub_of_le _ _ (UInt64.le_iff_toNat_le.mpr positive)

theorem passage_prologue (config : Config) (iterations executed : UInt64)
    (stands : Stands code place (prologue iterations))
    (room : data.words.length < config.stackSize.toNat) (counts : 8 ≤ data.memory.size) :
    Passage (data.vmAt config code place executed) (layout place (prologue iterations))
      ({ data with memory := data.memory.splice 0 iterations }.vmAt config code (place + 18)
        (executed + 2)) := by
  have straight : ∀ instruction ∈ prologue iterations,
      instruction.opcode.isControlFlow = false :=
    List.forall_mem_cons.mpr ⟨rfl, List.forall_mem_singleton.mpr rfl⟩
  exact Data.passage_of_fold executed straight stands (fold_prologue iterations room counts)

/-- The body of a loop does what it does in every other place. -/
theorem exists_passage_body (repeatable : Repeatable room size instructions)
    (straight : ∀ instruction ∈ instructions, instruction.opcode.isControlFlow = false)
    (stands : Stands code place instructions)
    (coherent : (data.vmAt config code place executed).Coherent)
    (capacity : data.words.length + room ≤ config.stackSize.toNat)
    (sized : config.memorySize.toNat = size) :
    ∃ next : Data, next.words = data.words ∧
      next.memory.wordAt 0 = data.memory.wordAt 0 ∧
      Passage (data.vmAt config code place executed) (layout place instructions)
        (next.vmAt config code (place + Instruction.extent instructions)
          (executed + UInt64.ofNat instructions.length)) := by
  have whole : (data.vmAt config code place executed).memory.size = size :=
    (coherent _ rfl).memory_size.trans sized
  rcases repeatable _ _ code coherent rfl rfl stands rfl capacity whole with
    ⟨last, passage, stack, kept⟩
  -- What the body is known to keep is said of an instance.  Folding over the data gives the same
  -- passage, so it ends in that instance.
  rcases Data.fold_of_passage straight stands passage with ⟨next, folds⟩
  have same := Data.passage_of_fold executed straight stands folds
  rcases passage.after_eq.symm.trans same.after_eq with rfl
  exact ⟨next, List.reverse_inj.mp stack, wordAt_zero_eq_of_take kept, same⟩

/-- Behind its body a loop takes one from the counter, and goes back as long as any is left. -/
theorem passage_countdown {offset : Nat} (executed : UInt64)
    (stands : Stands code offset (countdown place)) (before : place ≤ offset)
    (fits : place < 2 ^ 64) (capacity : data.words.length + 2 ≤ config.stackSize.toNat)
    (counts : 8 ≤ data.memory.size) :
    Passage (data.vmAt config code offset executed) (layout offset (countdown place))
      ({ data with memory := data.memory.splice 0 (data.memory.wordAt 0 - 1) }.vmAt config code
        (if data.memory.wordAt 0 - 1 = 0 then offset + Instruction.extent (countdown place)
        else place)
        (executed + 6)) := by
  have counting := Data.passage_of_fold executed (by decide) stands.left
    (fold_decrement capacity counts)
  have jumping := stands.right.decodeAt
  have target : (UInt64.ofNat place).toNat = place := by
    rw [UInt64.toNat_ofNat']
    exact Nat.mod_eq_of_lt fits
  have inside : (UInt64.ofNat place).toNat < code.length := by
    have within := lt_length_of_decodeAt jumping
    omega
  have present : (Data.mk ((data.memory.wordAt 0 - 1) :: data.words)
      (data.memory.splice 0 (data.memory.wordAt 0 - 1)) data.printed).words =
        (data.memory.wordAt 0 - 1) :: data.words := rfl
  have back := Data.passage_of_jumpIf config (executed + 5) jumping inside present
  rw [target] at back
  have joined := counting.append back
  rw [countdown, layout_append]
  have counted : executed + 5 + 1 = executed + 6 := by
    rw [UInt64.add_assoc]
    rfl
  rw [counted] at joined
  exact joined

section Loop

variable (repeatable : Repeatable room size instructions)
  (straight : ∀ instruction ∈ instructions, instruction.opcode.isControlFlow = false)
  (stands : Stands code place (round place instructions)) (fits : place < 2 ^ 64)
  (coherent : (data.vmAt config code place executed).Coherent)
  (capacity : data.words.length + max 2 room ≤ config.stackSize.toNat)
  (sized : config.memorySize.toNat = size) (counts : 8 ≤ size)

include repeatable straight stands fits coherent capacity sized counts

/-- A round of a loop takes one from the counter, and leads back to its start or behind its end. -/
theorem exists_passage_round :
    ∃ next : Data, next.words = data.words ∧
      next.memory.wordAt 0 = data.memory.wordAt 0 - 1 ∧
      Passage (data.vmAt config code place executed)
        (layout place (round place instructions))
        (next.vmAt config code
          (if data.memory.wordAt 0 - 1 = 0 then
            place + Instruction.extent (round place instructions) else place)
          (executed + UInt64.ofNat (instructions.length + 6))) := by
  rcases exists_passage_body repeatable straight stands.left coherent (by omega) sized with
    ⟨middle, words, same, front⟩
  have sizes : middle.memory.size = size :=
    ((front.coherent coherent) _ rfl).memory_size.trans sized
  have space : middle.words.length + 2 ≤ config.stackSize.toNat := by
    rw [words]
    omega
  have back := passage_countdown (executed + UInt64.ofNat instructions.length) stands.right
    (Nat.le_add_right _ _) fits space (sizes.symm ▸ counts)
  have left := Memory.wordAt_splice (middle.memory.wordAt 0 - 1)
    (Nat.zero_le middle.memory.size)
  rw [same] at back left
  have joined := front.append back
  rw [← layout_append, Nat.add_assoc, ← Instruction.extent_append, UInt64.add_assoc] at joined
  rw [UInt64.ofNat_add]
  exact ⟨{ middle with memory := middle.memory.splice 0 (data.memory.wordAt 0 - 1) }, words, left,
    joined⟩

/-- As long as the counter does not run out, rounds lead back to the start of the loop. -/
theorem exists_passage_rounds {count : Nat}
    (bound : count < (data.memory.wordAt 0).toNat) :
    ∃ next : Data, next.words = data.words ∧
      (next.memory.wordAt 0).toNat = (data.memory.wordAt 0).toNat - count ∧
      Passage (data.vmAt config code place executed)
        (List.replicate count (layout place (round place instructions))).flatten
        (next.vmAt config code place
          (executed + UInt64.ofNat (count * (instructions.length + 6)))) := by
  induction count with
  | zero =>
      have none : executed + UInt64.ofNat (0 * (instructions.length + 6)) = executed := by simp
      rw [none]
      exact ⟨data, rfl, rfl, .nil⟩
  | succ count ih =>
      rcases ih (Nat.lt_of_succ_lt bound) with ⟨middle, words, left, front⟩
      rcases exists_passage_round repeatable straight stands fits (front.coherent coherent)
        (words.symm ▸ capacity) sized counts with ⟨next, same, taken, back⟩
      -- The bound leaves something in the counter after this round, so the jump is taken.
      have more : (middle.memory.wordAt 0 - 1).toNat = (middle.memory.wordAt 0).toNat - 1 :=
        toNat_pred (by omega)
      have some : middle.memory.wordAt 0 - 1 ≠ 0 := by
        intro zero
        rw [zero] at more
        have nothing : (0 : UInt64).toNat = 0 := rfl
        omega
      rw [if_neg some] at back
      have joined := front.append back
      rw [UInt64.add_assoc, ← UInt64.ofNat_add, ← Nat.succ_mul] at joined
      rw [List.replicate_succ', List.flatten_append, List.flatten_singleton]
      refine ⟨next, same.trans words, ?_, joined⟩
      rw [taken, more, left]
      omega

end Loop

section CountedLoop

variable {iterations : UInt64} (repeatable : Repeatable room size instructions)
  (straight : ∀ instruction ∈ instructions, instruction.opcode.isControlFlow = false)
  (stands : Stands code place (prologue iterations ++ round (place + 18) instructions))
  (fits : place + 18 < 2 ^ 64) (coherent : (data.vmAt config code place executed).Coherent)
  (capacity : data.words.length + max 2 room ≤ config.stackSize.toNat)
  (sized : config.memorySize.toNat = size) (counts : 8 ≤ size)

include repeatable straight stands fits coherent capacity sized counts

/-- Each round of a loop but the first begins where the one before it has led back to. -/
theorem exists_passage_unrolled {count : Nat} (bound : count < iterations.toNat) :
    ∃ next : Data, next.words = data.words ∧
      (next.memory.wordAt 0).toNat = iterations.toNat - count ∧
      Passage (data.vmAt config code place executed) (unrolled place iterations instructions count)
        (next.vmAt config code (place + 18)
          (executed + 2 + UInt64.ofNat (count * (instructions.length + 6)))) := by
  have memory : data.memory.size = size := (coherent _ rfl).memory_size.trans sized
  have standsRound : Stands code (place + 18) (round (place + 18) instructions) := stands.right
  have front := passage_prologue config iterations executed stands.left (by omega)
    (memory.symm ▸ counts)
  have counter := Memory.wordAt_splice iterations (Nat.zero_le data.memory.size)
  rw [← counter] at bound
  rcases exists_passage_rounds repeatable straight standsRound fits (front.coherent coherent)
    capacity sized counts bound with ⟨next, words, left, back⟩
  rw [counter] at left
  exact ⟨next, words, left, front.append back⟩

/-- The last round of a loop leads behind it. -/
theorem exists_passage_countedLoop (positive : 1 ≤ iterations.toNat) :
    ∃ next : Data, next.words = data.words ∧ next.memory.wordAt 0 = 0 ∧
      Passage (data.vmAt config code place executed)
        (unrolled place iterations instructions iterations.toNat)
        (next.vmAt config code
          (place + Instruction.extent (prologue iterations ++ round (place + 18) instructions))
          (executed + 2 + UInt64.ofNat (iterations.toNat * (instructions.length + 6)))) := by
  have standsRound : Stands code (place + 18) (round (place + 18) instructions) := stands.right
  rcases Nat.exists_eq_add_of_le' positive with ⟨count, total⟩
  rcases exists_passage_unrolled repeatable straight stands fits coherent capacity sized counts
    (Nat.lt_of_lt_of_eq (Nat.lt_succ_self count) total.symm) with ⟨middle, words, left, front⟩
  rcases exists_passage_round repeatable straight standsRound fits (front.coherent coherent)
    (words.symm ▸ capacity) sized counts with ⟨next, same, taken, back⟩
  have last : middle.memory.wordAt 0 - 1 = 0 := by
    apply UInt64.toNat_inj.mp
    rw [toNat_pred (by omega), left, total]
    simp
  rw [if_pos last] at back
  have joined := front.append back
  rw [UInt64.add_assoc, ← UInt64.ofNat_add, ← Nat.succ_mul, ← unrolled_succ] at joined
  rw [total, Instruction.extent_append, ← Nat.add_assoc]
  exact ⟨next, same.trans words, taken.trans last, joined⟩

end CountedLoop

end Round

section Start

variable {vm start : Vm} {code : Bytes}

/-- An instance with an empty operand stack that has just loaded a program has all but its memory
from its sizes. -/
theorem eq_vmAt_of_installs (coherent : vm.Coherent) (empty : vm.stack = [])
    (installs : Installs code vm start) :
    start = (Data.mk [] vm.memory []).vmAt vm.config code 0 0 ∧ start.Coherent ∧
      vm.stackCapacity = vm.config.stackSize.toNat := by
  have starts := coherent.installs installs
  rcases installs_iff.mp installs with ⟨machine, live, rfl⟩
  have sizes := coherent _ live
  have bare : machine.stack.words = [] := by
    rw [stack, live] at empty
    exact List.reverse_eq_nil_iff.mp empty
  have whole := Data.eq_vmAt starts rfl rfl rfl
  have kept : (machine.load code).stack.words = [] := bare
  have same : (machine.load code).memory = vm.memory := by
    rw [memory, live]
    rfl
  rw [kept, same] at whole
  refine ⟨whole, starts, ?_⟩
  rw [stackCapacity, live]
  exact sizes.stack_capacity

end Start

section Repeating

variable {instructions : List Instruction} {room size : Nat}

theorem repeatable_of_fold
    (straight : ∀ instruction ∈ instructions, instruction.opcode.isControlFlow = false)
    (folds : ∀ (config : Config) (data : Data),
      data.words.length + room ≤ config.stackSize.toNat → data.memory.size = size →
      ∃ next, data.fold config instructions = .ok next ∧ next.words = data.words ∧
        next.memory.bytes.toList.take 8 = data.memory.bytes.toList.take 8) :
    Repeatable room size instructions := by
  intro vm machine code coherent live loaded stands alone capacity sized
  have whole := Data.eq_vmAt coherent live loaded alone
  have space : machine.stack.words.length + room ≤ vm.config.stackSize.toNat := by
    rw [whole] at capacity
    exact capacity
  have filled : machine.memory.size = size := by
    rw [whole] at sized
    exact sized
  rcases folds vm.config ⟨machine.stack.words, machine.memory, []⟩ space filled with
    ⟨next, completes, words, kept⟩
  have passage := Data.passage_of_fold vm.executed straight stands completes
  rw [← whole] at passage
  refine ⟨_, passage, ?_, ?_⟩
  · rw [whole]
    exact congrArg List.reverse words
  · rw [whole]
    exact kept

end Repeating

/-- What each round of the memory traffic does. -/
def trafficking : List Instruction :=
  [⟨.push, some 42⟩, ⟨.store, some scratch⟩, ⟨.load, some scratch⟩, ⟨.pop, none⟩]

theorem fold_trafficking {config : Config} {data : Data}
    (room : data.words.length < config.stackSize.toNat) (fits : 16 ≤ data.memory.size) :
    data.fold config trafficking = .ok { data with memory := data.memory.splice 8 42 } := by
  have kept : (data.memory.splice 8 42).size = data.memory.size := Memory.size_splice _ fits
  refine Data.fold_of_effect (Data.effect_push_of_lt 42 room) ?_
  refine Data.fold_of_effect (Data.effect_store fits rfl) ?_
  refine Data.fold_of_effect (Data.effect_load (kept.symm ▸ fits) room) ?_
  rfl

theorem repeatable_trafficking : Repeatable 1 65536 trafficking := by
  apply repeatable_of_fold (by decide)
  intro config data room sized
  refine ⟨_, fold_trafficking room (by omega), rfl, ?_⟩
  exact Memory.take_splice 42 (by omega)

section Counting

variable {iterations : UInt64} {body rest : List Directive} {instructions : List Instruction}
  {room size : Nat} {code : Bytes} {vm start : Vm} (writes : Writes body instructions)
  (straight : ∀ instruction ∈ instructions, instruction.opcode.isControlFlow = false)
  (repeatable : Repeatable room size instructions) (positive : 1 ≤ iterations.toNat)
  (assembled : assemble (countedLoop iterations body ++ rest) = .ok code)
  (coherent : vm.Coherent) (empty : vm.stack = []) (capacity : max 2 room ≤ vm.stackCapacity)
  (sized : vm.memory.size = size) (counts : 8 ≤ size) (installs : Installs code vm start)

include writes straight repeatable positive assembled coherent empty capacity sized counts installs

/-- From a fresh load the rounds of a loop lead to the start of the next one, and the last round
leads behind the loop. -/
theorem exists_passage_of_installs :
    (∃ last, Passage start (unrolled 0 iterations instructions iterations.toNat) last ∧
      last.ip = (Draft.empty.appendAll (countedLoop iterations body)).offset ∧
      last.stack = [] ∧ last.memory.wordAt 0 = 0) ∧
    ∀ passed < iterations.toNat,
      ∃ last, Passage start (unrolled 0 iterations instructions passed) last ∧
        last.ip = 18 ∧ last.stack = [] ∧
        (last.memory.wordAt 0).toNat = iterations.toNat - passed := by
  rcases eq_vmAt_of_installs coherent empty installs with ⟨fresh, starts, words⟩
  have sizes : vm.memory.size = vm.config.memorySize.toNat := by
    rw [fresh] at starts
    exact (starts _ rfl).memory_size
  have stands : Stands code 0 (prologue iterations ++ round 18 instructions) :=
    stands_of_assemble [] writes assembled
  have space : ([] : List UInt64).length + max 2 room ≤ vm.config.stackSize.toNat := by
    rw [List.length_nil, Nat.zero_add, ← words]
    exact capacity
  rw [fresh] at starts ⊢
  constructor
  · rcases exists_passage_countedLoop repeatable straight stands (by decide) starts space
      (sizes.symm.trans sized) counts positive with ⟨next, same, counter, passage⟩
    refine ⟨_, passage, ?_, List.reverse_eq_nil_iff.mpr same, counter⟩
    exact (offset_countedLoop writes Draft.empty 18).symm
  · intro passed before
    rcases exists_passage_unrolled repeatable straight stands (by decide) starts space
      (sizes.symm.trans sized) counts before with ⟨next, same, left, passage⟩
    exact ⟨_, passage, rfl, List.reverse_eq_nil_iff.mpr same, left⟩

/-- A program that begins with a counted loop sets the counter and goes through its body as often as
it was told, with one less in the counter each time, and then stands behind the loop for the first
time.  None of these steps fails, and the operand stack is as empty as it was. -/
theorem counted_loop_counts
    (bounded : 2 + iterations.toNat * (instructions.length + 6) < 2 ^ 64) :
    let total := 2 + iterations.toNat * (instructions.length + 6)
    let ending := (Draft.empty.appendAll (countedLoop iterations body)).offset
    start.completedWithin total = layout 0 (prologue iterations) ++
      (List.replicate iterations.toNat (layout 18 (round 18 instructions))).flatten ∧
    (start.completedWithin total).length = total ∧
    start.Runs (total - 1) ∧ (start.after (total - 1)).step.result.isOk = true ∧
    (∀ index < total, (start.after index).ip < ending) ∧
    (start.after total).ip = ending ∧
    (start.after total).executed.toNat = total ∧
    (start.after total).stack = [] ∧
    (start.after total).memory.wordAt 0 = 0 ∧
    ∀ passed < iterations.toNat,
      let begins := start.after (2 + passed * (instructions.length + 6))
      begins.ip = 18 ∧ begins.stack = [] ∧
        (begins.memory.wordAt 0).toNat = iterations.toNat - passed := by
  intro total ending
  rcases exists_passage_of_installs writes straight repeatable positive assembled coherent empty
    capacity sized counts installs with ⟨⟨last, passage, ip, stack, counter⟩, rounds⟩
  have all : (unrolled 0 iterations instructions iterations.toNat).length = total :=
    length_unrolled 0 iterations instructions iterations.toNat
  have reached : start.after total = last := by
    rw [← all]
    exact passage.after_eq
  have completed : start.completedWithin total =
      unrolled 0 iterations instructions iterations.toNat := by
    rw [← all]
    exact passage.completedWithin_eq
  have runs := passage.runs fun _ => opcode_ne_halt_of_mem_unrolled straight
  rw [all] at runs
  have behind : ending = 0 + Instruction.extent (prologue iterations ++ round 18 instructions) :=
    offset_countedLoop writes Draft.empty 18
  rw [← reached] at ip stack counter
  refine ⟨completed, ?_, runs, ?_, ?_, ip, ?_, stack, counter, ?_⟩
  · rw [completed, all]
  · apply passage.isOk_after
    omega
  · intro index before
    rw [← all] at before
    rw [passage.ip_after (List.getElem?_eq_getElem before), behind]
    rcases exists_of_mem_unrolled (List.getElem_mem before) with ⟨_, _, _, within⟩
    exact within
  · have none : start.executed = 0 := by
      rcases installs_iff.mp installs with ⟨machine, _, rfl⟩
      rfl
    rw [reached, passage.executed_eq, all, none, UInt64.zero_add, UInt64.toNat_ofNat']
    exact Nat.mod_eq_of_lt bounded
  · intro passed before begins
    rcases rounds passed before with ⟨middle, front, found⟩
    have met := front.after_eq
    rw [length_unrolled] at met
    rw [← met] at found
    exact found

end Counting

/-- The memory traffic makes all of its 5000 rounds. -/
theorem counted_loop_counts_memoryTraffic :
    ∃ code vm, assemble memoryTraffic = .ok code ∧ Starts .standard code vm ∧
      (vm.completedWithin 50002).length = 50002 ∧ (vm.after 50002).ip = 92 ∧
      (vm.after 50002).stack = [] ∧ (vm.after 50002).memory.wordAt 0 = 0 := by
  have assembled : ∃ code, assemble memoryTraffic = .ok code := by
    refine ⟨_, rfl⟩
  rcases assembled with ⟨code, assembled⟩
  have fresh : Starts .standard code ⟨.standard, some ((Machine.ofConfig .standard).load code)⟩ :=
    starts_iff.mpr ⟨rfl, rfl⟩
  have writes : Writes [push 42, store scratch, load scratch, bare .pop] trafficking :=
    fun _ => rfl
  have coherent : (Vm.mk .standard (some (.ofConfig .standard))).Coherent := by
    rintro _ ⟨rfl⟩
    exact Machine.coherent_ofConfig rfl
  have sized : (Vm.mk .standard (some (.ofConfig .standard))).memory.size = 65536 :=
    (coherent _ rfl).memory_size
  rcases counted_loop_counts writes (by decide) repeatable_trafficking (by decide) assembled
    coherent rfl (by decide) sized (by decide) (installs_iff.mpr ⟨_, rfl, rfl⟩) (by decide) with
    ⟨_, length, _, _, _, ip, _, stack, counter, _⟩
  exact ⟨code, _, assembled, fresh, length, ip, stack, counter⟩

end StackMachine.Benchmark
