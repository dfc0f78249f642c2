import Mathlib.Data.Nat.Factorial.Basic
import Mathlib.Data.UInt
import StackMachine.Proofs.Benchmark.CountedLoop

/-!
# The factorial program

The program multiplies a word in memory by the counter of its loop before each count.  Between two
rounds that word is the product of the numbers counted so far, so behind the last round it is the
factorial, up to the size of a word.

The counter is tested behind the body.  A count of zero is therefore taken down once before the
first test, and the loop goes through all the words that there are.
-/

namespace StackMachine.Benchmark

open Assembly Listing Vm
open scoped Nat

def seeding : List Instruction := [⟨.push, some 1⟩, ⟨.store, some scratch⟩]

/-- What each round of the factorial does. -/
def multiplying : List Instruction :=
  [⟨.load, some scratch⟩, ⟨.load, some counter⟩, ⟨.mul, none⟩, ⟨.store, some scratch⟩]

/-- The instructions of the factorial program, with the place of its loop filled in. -/
def factorialInstructions (n : UInt64) : List Instruction :=
  seeding ++ ((prologue n ++ round 36 multiplying) ++ [⟨.load, some scratch⟩, ⟨.halt, none⟩])

/-- How many rounds a loop makes that was told `n`. -/
def rounds (n : UInt64) : Nat := (n - 1).toNat + 1

/-- The product of the first numbers that a loop counts down from `n`. -/
def product (n : UInt64) : (count : Nat) → UInt64
  | 0 => 1
  | count + 1 => product n count * (n - UInt64.ofNat count)

/-- The instructions before END as a run meets them. -/
def factorialUnrolled (n : UInt64) : Listing :=
  layout 0 seeding ++ unrolled 18 n multiplying (rounds n) ++
    [Instruction.entryAt ⟨.load, some scratch⟩ 110]

/-- The program is laid out as its instructions are. -/
theorem assemble_factorial (n : UInt64) :
    assemble (factorial n) = .ok ((factorialInstructions n).flatMap Instruction.encode) := by
  have whole : factorial n = [push 1, store scratch] ++
      (countedLoop n [load scratch, load counter, bare .mul, store scratch] ++
        [load scratch, bare .halt]) := List.append_assoc _ _ _
  have exists_code : ∃ code, assemble (factorial n) = .ok code := ⟨_, rfl⟩
  rcases exists_code with ⟨code, assembled⟩
  rw [whole] at assembled ⊢
  have writes : Writes [load scratch, load counter, bare .mul, store scratch] multiplying :=
    fun _ => rfl
  have written := (eq_flatMap_of_assemble assembled).2
  rw [List.flatMap_append, List.flatMap_append,
    flatMap_encode_countedLoop writes (place_of_assemble assembled)] at written
  rw [assembled, written, factorialInstructions, List.flatMap_append, List.flatMap_append]
  rfl

section Product

variable {n : UInt64} {count : Nat}

theorem rounds_eq_toNat (positive : 1 ≤ n.toNat) : rounds n = n.toNat := by
  rw [rounds, toNat_pred positive]
  omega

/-- Only the last round of a loop leaves nothing in its counter. -/
theorem sub_eq_zero_iff_rounds (begun : 1 ≤ count) (within : count ≤ rounds n) :
    n - UInt64.ofNat count = 0 ↔ count = rounds n := by
  have bound := n.toNat_lt
  have nothing : (0 : UInt64).toNat = 0 := rfl
  have one : (1 : UInt64).toNat = 1 := rfl
  rw [rounds, UInt64.toNat_sub] at *
  rw [← UInt64.toNat_inj, UInt64.toNat_sub, UInt64.toNat_ofNat']
  omega

theorem product_eq_descFactorial (within : count ≤ n.toNat) :
    product n count = UInt64.ofNat (n.toNat.descFactorial count) := by
  induction count with
  | zero => rfl
  | succ count ih =>
      have before := Nat.le_of_succ_le within
      rw [product, ih before, Nat.descFactorial_succ, UInt64.ofNat_mul, UInt64.ofNat_sub before,
        UInt64.ofNat_toNat, UInt64.mul_comm]

theorem product_rounds (positive : 1 ≤ n.toNat) :
    product n (rounds n) = UInt64.ofNat n.toNat ! := by
  rw [rounds_eq_toNat positive, product_eq_descFactorial (Nat.le_refl _), Nat.descFactorial_self]

theorem product_zero_succ (count : Nat) : product 0 (count + 1) = 0 := by
  induction count with
  | zero => rfl
  | succ count ih => rw [product, ih, UInt64.zero_mul]

end Product

/-- The data between two rounds. -/
structure Counting (n : UInt64) (count : Nat) (data : Data) : Prop where
  words_eq : data.words = []
  fits : 16 ≤ data.memory.size
  counter_eq : data.memory.wordAt 0 = n - UInt64.ofNat count
  scratch_eq : data.memory.wordAt 8 = product n count

section Rounds

variable {config : Config} {code : Bytes} {data : Data} {n : UInt64} {count : Nat}
  (executed : UInt64) (room : 2 ≤ config.stackSize.toNat)

include room

theorem fold_seeding (empty : data.words = []) (fits : 16 ≤ data.memory.size) :
    data.fold config seeding = .ok { data with memory := data.memory.splice 8 1 } := by
  have free : data.words.length < config.stackSize.toNat := by
    rw [empty, List.length_nil]
    omega
  refine Data.fold_of_effect (Data.effect_push_of_lt 1 free) ?_
  exact Data.fold_of_effect (Data.effect_store fits rfl) rfl

theorem fold_multiplying (empty : data.words = []) (fits : 16 ≤ data.memory.size) :
    data.fold config multiplying = .ok { data with
      memory := data.memory.splice 8 (data.memory.wordAt 8 * data.memory.wordAt 0) } := by
  have free : data.words.length < config.stackSize.toNat := by
    rw [empty, List.length_nil]
    omega
  have next : (data.memory.wordAt 8 :: data.words).length < config.stackSize.toNat := by
    rw [empty, List.length_singleton]
    omega
  have counts : 8 ≤ data.memory.size := Nat.le_trans (by decide) fits
  refine Data.fold_of_effect (Data.effect_load fits free) ?_
  refine Data.fold_of_effect (Data.effect_load counts next) ?_
  refine Data.fold_of_effect (Data.effect_binary rfl (by decide) rfl) ?_
  rw [Word.ofInt_mul]
  exact Data.fold_of_effect (Data.effect_store fits rfl) rfl

/-- A round multiplies by what is in the counter and takes one from it. -/
theorem Counting.exists_passage_round (counting : Counting n count data)
    (stands : Stands code 36 (round 36 multiplying)) :
    ∃ next : Data, Counting n (count + 1) next ∧
      Passage (data.vmAt config code 36 executed) (layout 36 (round 36 multiplying))
        (next.vmAt config code
          (if n - UInt64.ofNat (count + 1) = 0 then
            36 + Instruction.extent (round 36 multiplying) else 36)
          (executed + 10)) := by
  have fits := counting.fits
  have empty := counting.words_eq
  let multiplied : Data := { data with
    memory := data.memory.splice 8 (data.memory.wordAt 8 * data.memory.wordAt 0) }
  have front := Data.passage_of_fold executed (by decide) stands.left
    (fold_multiplying room empty fits)
  have size : multiplied.memory.size = data.memory.size := Memory.size_splice _ fits
  have space : multiplied.words.length + 2 ≤ config.stackSize.toNat := by
    change data.words.length + 2 ≤ _
    rw [empty, List.length_nil]
    omega
  have counts : 8 ≤ multiplied.memory.size := by omega
  have back := passage_countdown (executed + 4) stands.right (Nat.le_add_right _ _) (by decide)
    space counts
  -- The counter and the product are eight bytes each, so writing one keeps the other.
  have kept : multiplied.memory.wordAt 0 = n - UInt64.ofNat count := by
    rw [← counting.counter_eq]
    exact Memory.wordAt_splice_of_apart _ fits (Or.inl (Nat.le_refl 8))
  have made : multiplied.memory.wordAt 8 = product n (count + 1) := by
    rw [product, ← counting.scratch_eq, ← counting.counter_eq]
    exact Memory.wordAt_splice _ (by omega)
  have taken : n - UInt64.ofNat count - 1 = n - UInt64.ofNat (count + 1) := by
    rw [UInt64.ofNat_add, sub_sub]
    rfl
  rw [kept, taken] at back
  have joined := front.append back
  rw [← layout_append, Nat.add_assoc, ← Instruction.extent_append, UInt64.add_assoc] at joined
  refine ⟨{ multiplied with memory := multiplied.memory.splice 0 (n - UInt64.ofNat (count + 1)) },
    ⟨empty, ?_, ?_, ?_⟩, joined⟩
  · rw [Memory.size_splice _ counts, size]
    exact fits
  · exact Memory.wordAt_splice _ (Nat.zero_le _)
  · rw [← made]
    exact Memory.wordAt_splice_of_apart _ counts (Or.inr (Nat.le_refl 8))

theorem Counting.exists_passage_succ {start : Vm} (counting : Counting n count data)
    (stands : Stands code 36 (round 36 multiplying))
    (front : Passage start (List.replicate count (layout 36 (round 36 multiplying))).flatten
      (data.vmAt config code 36 (executed + UInt64.ofNat (count * 10)))) :
    ∃ next : Data, Counting n (count + 1) next ∧
      Passage start (List.replicate (count + 1) (layout 36 (round 36 multiplying))).flatten
        (next.vmAt config code
          (if n - UInt64.ofNat (count + 1) = 0 then
            36 + Instruction.extent (round 36 multiplying) else 36)
          (executed + UInt64.ofNat ((count + 1) * 10))) := by
  rcases counting.exists_passage_round _ room stands with ⟨next, later, back⟩
  have joined := front.append back
  have counted : UInt64.ofNat (count * 10) + 10 = UInt64.ofNat ((count + 1) * 10) := by
    rw [Nat.succ_mul, UInt64.ofNat_add]
    rfl
  rw [UInt64.add_assoc, counted] at joined
  rw [List.replicate_succ', List.flatten_append, List.flatten_singleton]
  exact ⟨next, later, joined⟩

/-- Every round but the last leads back to the start of the loop. -/
theorem Counting.exists_passage_rounds (counting : Counting n 0 data)
    (stands : Stands code 36 (round 36 multiplying)) (before : count < rounds n) :
    ∃ next : Data, Counting n count next ∧
      Passage (data.vmAt config code 36 executed)
        (List.replicate count (layout 36 (round 36 multiplying))).flatten
        (next.vmAt config code 36 (executed + UInt64.ofNat (count * 10))) := by
  induction count with
  | zero =>
      have none : executed + UInt64.ofNat (0 * 10) = executed := by simp
      rw [none]
      exact ⟨data, counting, .nil⟩
  | succ count ih =>
      rcases ih (Nat.lt_of_succ_lt before) with ⟨middle, between, front⟩
      have left : n - UInt64.ofNat (count + 1) ≠ 0 := by
        intro nothing
        have last := (sub_eq_zero_iff_rounds (Nat.le_add_left 1 count)
          (Nat.le_of_lt before)).mp nothing
        omega
      have joined := between.exists_passage_succ executed room stands front
      rw [if_neg left] at joined
      exact joined

/-- The last round leads behind the loop. -/
theorem Counting.exists_passage_loop (counting : Counting n 0 data)
    (stands : Stands code 36 (round 36 multiplying)) :
    ∃ next : Data, Counting n (rounds n) next ∧
      Passage (data.vmAt config code 36 executed)
        (List.replicate (rounds n) (layout 36 (round 36 multiplying))).flatten
        (next.vmAt config code 110 (executed + UInt64.ofNat (rounds n * 10))) := by
  have total : (n - 1).toNat + 1 = rounds n := rfl
  have begun : 1 ≤ rounds n := Nat.le_add_left 1 _
  have spent : n - UInt64.ofNat (rounds n) = 0 :=
    (sub_eq_zero_iff_rounds begun (Nat.le_refl _)).mpr rfl
  rcases counting.exists_passage_rounds executed room stands
    (Nat.lt_of_lt_of_eq (Nat.lt_succ_self _) total) with ⟨middle, between, front⟩
  have joined := between.exists_passage_succ executed room stands front
  rw [total, if_pos spent] at joined
  exact joined

/-- What stands before the loop sets up the product and the counter. -/
theorem exists_passage_opening (empty : data.words = []) (fits : 16 ≤ data.memory.size)
    (stands : Stands code 0 (seeding ++ prologue n)) :
    ∃ next : Data, Counting n 0 next ∧
      Passage (data.vmAt config code 0 executed) (layout 0 (seeding ++ prologue n))
        (next.vmAt config code 36 (executed + 2 + 2)) := by
  let seeded : Data := { data with memory := data.memory.splice 8 1 }
  let opened : Data := { seeded with memory := seeded.memory.splice 0 n }
  have size : seeded.memory.size = data.memory.size := Memory.size_splice _ fits
  have free : seeded.words.length < config.stackSize.toNat := by
    change data.words.length < _
    rw [empty, List.length_nil]
    omega
  have counts : 8 ≤ seeded.memory.size := by omega
  have front := Data.passage_of_fold executed (by decide) stands.left
    (fold_seeding room empty fits)
  have back := passage_prologue config n (executed + 2) stands.right free counts
  have joined := front.append back
  rw [← layout_append] at joined
  refine ⟨opened, ⟨empty, ?_, ?_, ?_⟩, joined⟩
  · change 16 ≤ (seeded.memory.splice 0 n).size
    rw [Memory.size_splice _ counts, size]
    exact fits
  · rw [Memory.wordAt_splice _ (Nat.zero_le _)]
    exact (UInt64.sub_zero n).symm
  · rw [Memory.wordAt_splice_of_apart _ counts (Or.inr (Nat.le_refl 8))]
    exact Memory.wordAt_splice _ (by omega)

/-- Behind the loop the product is put on the operand stack. -/
theorem Counting.passage_closing (counting : Counting n count data)
    (decoded : decodeAt code 110 = .ok (Instruction.entryAt ⟨.load, some scratch⟩ 110)) :
    Passage (data.vmAt config code 110 executed)
      [Instruction.entryAt ⟨.load, some scratch⟩ 110]
      ({ data with words := [product n count] }.vmAt config code 119 (executed + 1)) := by
  have free : data.words.length < config.stackSize.toNat := by
    rw [counting.words_eq, List.length_nil]
    omega
  have inside : scratch.toNat + 8 ≤ data.memory.size := counting.fits
  have loaded : data.effect config.stackSize.toNat ⟨.load, some scratch⟩ =
      .ok { data with words := [product n count] } := by
    rw [Data.effect_load inside free, counting.words_eq, ← counting.scratch_eq]
    rfl
  exact Data.passage_of_effect executed rfl decoded loaded

end Rounds

section Program

variable {n : UInt64} {vm : Vm} {code : Bytes} {entry : Entry}

theorem length_factorialUnrolled (n : UInt64) :
    (factorialUnrolled n).length = 10 * rounds n + 5 := by
  rw [factorialUnrolled, List.length_append, List.length_append, length_unrolled, length_layout]
  change 2 + (2 + rounds n * 10) + 1 = _
  omega

theorem opcode_ne_halt_of_mem_factorialUnrolled (member : entry ∈ factorialUnrolled n) :
    entry.opcode ≠ .halt := by
  have calm : ∀ entry ∈ layout 0 seeding, entry.opcode ≠ .halt := by decide
  rcases List.mem_append.mp member with inside | last
  · rcases List.mem_append.mp inside with first | repeated
    · exact calm entry first
    · exact opcode_ne_halt_of_mem_unrolled (by decide) repeated
  · rcases List.mem_singleton.mp last with rfl
    decide

/-- The program makes all the rounds of its loop and ends with the product of what it counted. -/
theorem haltsAfter_factorial (assembled : assemble (factorial n) = .ok code)
    (starts : Starts .standard code vm) :
    vm.HaltsAfter (10 * rounds n + 6) [product n (rounds n)] := by
  rcases starts_iff.mp starts with ⟨_, rfl⟩
  have stands : Stands code 0 ((seeding ++ prologue n) ++
      (round 36 multiplying ++ [⟨.load, some scratch⟩, ⟨.halt, none⟩])) := by
    rcases Except.ok.inj ((assemble_factorial n).symm.trans assembled) with rfl
    exact List.prefix_rfl
  have loads : decodeAt code 110 = .ok (Instruction.entryAt ⟨.load, some scratch⟩ 110) :=
    stands.right.right.decodeAt
  have ends : decodeAt code 119 = .ok (Instruction.entryAt ⟨.halt, none⟩ 119) :=
    stands.right.right.tail.decodeAt
  have room : 2 ≤ Config.standard.stackSize.toNat := by decide
  have fits : 16 ≤ (Data.blank .standard).memory.size := by
    rw [Data.blank, Memory.size, Array.size_replicate]
    decide
  rcases exists_passage_opening 0 room rfl fits stands.left with ⟨opened, counting, opening⟩
  rcases counting.exists_passage_loop (0 + 2 + 2) room stands.right.left with
    ⟨looped, counted, loop⟩
  have closing := counted.passage_closing (0 + 2 + 2 + UInt64.ofNat (rounds n * 10)) room loads
  have whole := (opening.append loop).append closing
  have unrolls : layout 0 (seeding ++ prologue n) ++
      (List.replicate (rounds n) (layout 36 (round 36 multiplying))).flatten ++
        [Instruction.entryAt ⟨.load, some scratch⟩ 110] = factorialUnrolled n := by
    rw [layout_append, List.append_assoc (layout 0 seeding)]
    rfl
  rw [unrolls] at whole
  rw [← Nat.add_assoc _ 5 1, ← length_factorialUnrolled]
  apply Data.haltsAfter_of_passage whole rfl _ ends
  intro entry
  exact opcode_ne_halt_of_mem_factorialUnrolled

/-- Told to count from zero the loop goes through all the words that there are. -/
theorem haltsAfter_factorial_zero (assembled : assemble (factorial 0) = .ok code)
    (starts : Starts .standard code vm) : vm.HaltsAfter (10 * 2 ^ 64 + 6) [0] := by
  have halts := haltsAfter_factorial assembled starts
  have all : rounds 0 = 2 ^ 64 := rfl
  rw [rounds, product_zero_succ, ← rounds, all] at halts
  exact halts

/-- The factorial program leaves the factorial of its number, up to the size of a word, and needs
ten instructions for each factor and six more.  Told to count from zero it needs as many as for all
the words, and leaves a zero. -/
theorem factorial_computes (n : UInt64) :
    ∃ code, assemble (factorial n) = .ok code ∧ (∃ vm, Starts .standard code vm) ∧
      ∀ vm, Starts .standard code vm →
        (n ≠ 0 → vm.HaltsAfter (10 * n.toNat + 6) [UInt64.ofNat n.toNat !]) ∧
        (n ≠ 0 → n.toNat < 2 ^ 60 →
          (vm.after (10 * n.toNat + 6)).executed.toNat = 10 * n.toNat + 6) ∧
        (n = 0 → vm.HaltsAfter (10 * 2 ^ 64 + 6) [0]) := by
  refine ⟨_, assemble_factorial n, ⟨_, starts_iff.mpr ⟨rfl, rfl⟩⟩, ?_⟩
  intro vm starts
  have counts : n ≠ 0 → vm.HaltsAfter (10 * n.toNat + 6) [UInt64.ofNat n.toNat !] := by
    intro counted
    have positive : 1 ≤ n.toNat := by
      apply Nat.one_le_iff_ne_zero.mpr
      intro zero
      exact counted (UInt64.toNat_inj.mp zero)
    have halts := haltsAfter_factorial (assemble_factorial n) starts
    rw [product_rounds positive, rounds_eq_toNat positive] at halts
    exact halts
  refine ⟨counts, ?_, ?_⟩
  · intro counted small
    have none : vm.executed = 0 := by
      rcases starts_iff.mp starts with ⟨_, rfl⟩
      rfl
    rw [(counts counted).counts, none, UInt64.zero_add, UInt64.toNat_ofNat']
    omega
  · rintro rfl
    exact haltsAfter_factorial_zero (assemble_factorial 0) starts

/-- From twenty-one on the factorial does not fit into a word. -/
theorem factorial_computes_wrapping :
    ∃ code vm, assemble (factorial 21) = .ok code ∧ Starts .standard code vm ∧
      vm.HaltsAfter 216 [14197454024290336768] ∧ (vm.after 216).executed = 216 := by
  rcases factorial_computes 21 with ⟨code, assembled, ⟨vm, starts⟩, computes⟩
  rcases computes vm starts with ⟨halts, counts, _⟩
  refine ⟨code, vm, assembled, starts, halts (by decide), ?_⟩
  exact UInt64.toNat_inj.mp (counts (by decide) (by decide))

/-- Nothing is multiplied in the factorial of zero, yet its program does not stop after the six
instructions outside the loop, and does not leave a one. -/
theorem factorial_zero_overruns :
    ∃ code vm, assemble (factorial 0) = .ok code ∧ Starts .standard code vm ∧
      ¬ vm.HaltsAfter (10 * 0 + 6) [UInt64.ofNat 0 !] ∧ vm.execute (10 * 0 + 6) = none ∧
      ∀ fuel execution, vm.execute fuel = some execution →
        execution.state.stack ≠ [UInt64.ofNat 0 !] := by
  have starts : Starts .standard ((factorialInstructions 0).flatMap Instruction.encode) _ :=
    starts_iff.mpr ⟨rfl, rfl⟩
  have halts := haltsAfter_factorial_zero (assemble_factorial 0) starts
  refine ⟨_, _, assemble_factorial 0, starts, ?_, ?_, ?_⟩
  · intro early
    have same := halts.count_eq early
    omega
  · rw [halts.execute_eq]
    exact if_pos (by omega)
  · intro fuel execution ended
    rw [halts.stack_of_execute ended]
    decide

end Program

end StackMachine.Benchmark
