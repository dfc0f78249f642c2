import Mathlib.Data.List.Basic
import StackMachine.Proofs.Listing.Layout
import StackMachine.Proofs.Numeral.Digits

/-!
# Rendered listings lose nothing

The text of a listing can be taken apart again.  A line ends at its break, its offset ends at the
colon, and its mnemonic ends at the blank in front of the operand or with the line.  The mnemonic
tells the kind of the operand and with it the numeral that the operand is written in.

A listing has no gaps, so the instructions that its text shows are the whole bytecode.
-/

namespace StackMachine

open Numeral

/-- Text in front of a mark that does not occur in it can be told from what follows. -/
theorem append_inj_of_mark {mark : Char} {front front' rest rest' : List Char}
    (free : mark ∉ front) (free' : mark ∉ front') (stops : rest.takeWhile (· ≠ mark) = [])
    (stops' : rest'.takeWhile (· ≠ mark) = []) (same : front ++ rest = front' ++ rest') :
    front = front' ∧ rest = rest' := by
  have before : ∀ text behind : List Char, mark ∉ text → behind.takeWhile (· ≠ mark) = [] →
      (text ++ behind).takeWhile (· ≠ mark) = text := by
    intro text behind absent ends
    rw [List.takeWhile_append_of_pos, ends, List.append_nil]
    intro char member
    apply decide_eq_true
    rintro rfl
    exact absent member
  have fronts : front = front' := by
    rw [← before front rest free stops, same, before front' rest' free' stops']
  subst fronts
  exact ⟨rfl, List.append_cancel_left same⟩

namespace Opcode

theorem ofMnemonic?_mnemonic (opcode : Opcode) : ofMnemonic? opcode.mnemonic = some opcode := by
  cases opcode <;> decide

theorem mnemonic_injective : Function.Injective mnemonic := by
  intro first second same
  apply Option.some.inj
  rw [← ofMnemonic?_mnemonic, same, ofMnemonic?_mnemonic]

theorem isUpper_of_mem_mnemonic {opcode : Opcode} {char : Char}
    (member : char ∈ opcode.mnemonic.toList) : char.isUpper = true := by
  have upper : opcode.mnemonic.toList.all Char.isUpper = true := by
    cases opcode <;> rfl
  exact List.all_eq_true.mp upper char member

theorem not_mem_mnemonic (opcode : Opcode) {char : Char} (other : char.isUpper = false) :
    char ∉ opcode.mnemonic.toList := by
  intro member
  rw [isUpper_of_mem_mnemonic member] at other
  contradiction

end Opcode

namespace Entry

/-- What the line of an entry shows of its operand. -/
def operandPart (entry : Entry) : String :=
  match entry.opcode.operandKind?, entry.operand? with
  | some kind, some operand => operandText kind operand
  | _, _ => ""

variable {first second : Entry}

theorem toList_text (entry : Entry) :
    entry.text.toList = (paddedHexadecimal 4 entry.offset).toList ++
      ':' :: ' ' :: (entry.opcode.mnemonic.toList ++ entry.operandPart.toList) := by
  have whole : entry.text = paddedHexadecimal 4 entry.offset ++ ": " ++ entry.opcode.mnemonic ++
      entry.operandPart := rfl
  rw [whole, String.toList_append, String.toList_append, String.toList_append, List.append_assoc,
    List.append_assoc]
  rfl

theorem operandText_injective (kind : OperandKind) :
    Function.Injective (operandText kind) := by
  intro first second same
  apply UInt64.toNat_inj.mp
  cases kind with
  | immediate => exact decimal_injective ((String.append_right_inj " ").mp same)
  | address => exact hexadecimal_injective ((String.append_right_inj " @0x").mp same)
  | target => exact paddedHexadecimal_injective 4 ((String.append_right_inj " ->0x").mp same)

theorem operandPart_eq_or (entry : Entry) :
    entry.operandPart = "" ∨ ∃ kind operand, entry.operandPart = operandText kind operand := by
  unfold operandPart
  split
  · exact Or.inr ⟨_, _, rfl⟩
  · exact Or.inl rfl

theorem exists_operandText (kind : OperandKind) (operand : UInt64) :
    ∃ rest, (operandText kind operand).toList = ' ' :: rest ∧ '\n' ∉ rest := by
  have absent : ∀ value < 16, Nat.digitChar value ≠ '\n' := by decide
  cases kind with
  | immediate =>
      refine ⟨(decimal operand.toNat).toList, String.toList_append, ?_⟩
      exact not_mem_decimal absent operand.toNat
  | address =>
      refine ⟨['@', '0', 'x'] ++ (hexadecimal operand.toNat).toList, String.toList_append, ?_⟩
      simpa using not_mem_hexadecimal absent operand.toNat
  | target =>
      refine ⟨['-', '>', '0', 'x'] ++ (paddedHexadecimal 4 operand.toNat).toList,
        String.toList_append, ?_⟩
      simpa using not_mem_paddedHexadecimal absent 4 operand.toNat

theorem not_mem_text (entry : Entry) : '\n' ∉ entry.text.toList := by
  have absent : ∀ value < 16, Nat.digitChar value ≠ '\n' := by decide
  rw [toList_text]
  simp only [List.mem_append, List.mem_cons, not_or]
  refine ⟨not_mem_paddedHexadecimal absent 4 entry.offset, by decide, by decide,
    entry.opcode.not_mem_mnemonic rfl, ?_⟩
  rcases entry.operandPart_eq_or with bare | ⟨kind, operand, shown⟩
  · rw [bare]
    simp
  · rcases exists_operandText kind operand with ⟨rest, split, free⟩
    rw [shown, split]
    simpa using free

theorem takeWhile_operandPart (entry : Entry) :
    entry.operandPart.toList.takeWhile (· ≠ ' ') = [] := by
  rcases entry.operandPart_eq_or with bare | ⟨kind, operand, shown⟩
  · rw [bare]
    rfl
  · rcases exists_operandText kind operand with ⟨rest, split, _⟩
    rw [shown, split]
    rfl

theorem operand?_eq_of_operandPart (completeFirst : first.IsComplete)
    (completeSecond : second.IsComplete) (opcodes : first.opcode = second.opcode)
    (parts : first.operandPart = second.operandPart) : first.operand? = second.operand? := by
  rcases first with ⟨offset, opcode, operand?⟩
  rcases second with ⟨offset', opcode', operand'?⟩
  rcases opcodes with rfl
  simp only [IsComplete] at completeFirst completeSecond
  cases kind : opcode.operandKind? with
  | none =>
      rw [kind, Option.isSome_none, Option.isSome_eq_false_iff, Option.isNone_iff_eq_none]
        at completeFirst completeSecond
      exact completeFirst.trans completeSecond.symm
  | some kind' =>
      rw [kind, Option.isSome_some, Option.isSome_iff_exists] at completeFirst completeSecond
      rcases completeFirst with ⟨operand, rfl⟩
      rcases completeSecond with ⟨operand', rfl⟩
      simp only [operandPart, kind] at parts
      exact congrArg some (operandText_injective kind' parts)

/-- The line of an entry tells the entry. -/
theorem eq_of_text_eq (completeFirst : first.IsComplete) (completeSecond : second.IsComplete)
    (same : first.text = second.text) : first = second := by
  have absent : ∀ value < 16, Nat.digitChar value ≠ ':' := by decide
  have chars := congrArg String.toList same
  rw [toList_text, toList_text] at chars
  rcases append_inj_of_mark (not_mem_paddedHexadecimal absent 4 first.offset)
    (not_mem_paddedHexadecimal absent 4 second.offset) rfl rfl chars with ⟨digits, behind⟩
  have words := (List.cons.inj (List.cons.inj behind).2).2
  rcases append_inj_of_mark (first.opcode.not_mem_mnemonic rfl)
    (second.opcode.not_mem_mnemonic rfl) first.takeWhile_operandPart
    second.takeWhile_operandPart words with ⟨names, parts⟩
  have offsets := paddedHexadecimal_injective 4 (String.toList_inj.mp digits)
  have opcodes := Opcode.mnemonic_injective (String.toList_inj.mp names)
  have operands := operand?_eq_of_operandPart completeFirst completeSecond opcodes
    (String.toList_inj.mp parts)
  rcases first with ⟨offset, opcode, operand?⟩
  rcases second with ⟨offset', opcode', operand'?⟩
  rw [Entry.mk.injEq]
  exact ⟨offsets, opcodes, operands⟩

end Entry

namespace Listing

theorem toList_render_cons (entry : Entry) (rest : Listing) :
    (render (entry :: rest)).toList = entry.text.toList ++ '\n' :: (render rest).toList := by
  rw [render, List.map_cons, String.join_cons, String.toList_append, String.toList_append,
    List.append_assoc]
  rfl

theorem eq_of_render_eq {first second : Listing} (completeFirst : ∀ entry ∈ first, entry.IsComplete)
    (completeSecond : ∀ entry ∈ second, entry.IsComplete) (same : first.render = second.render) :
    first = second := by
  induction first generalizing second with
  | nil =>
      cases second with
      | nil => rfl
      | cons entry rest =>
          have chars := congrArg String.toList same
          rw [toList_render_cons] at chars
          simp [render] at chars
  | cons entry rest ih =>
      cases second with
      | nil =>
          have chars := congrArg String.toList same
          rw [toList_render_cons] at chars
          simp [render] at chars
      | cons other others =>
          rcases List.forall_mem_cons.mp completeFirst with ⟨complete, later⟩
          rcases List.forall_mem_cons.mp completeSecond with ⟨complete', later'⟩
          have chars := congrArg String.toList same
          rw [toList_render_cons, toList_render_cons] at chars
          rcases append_inj_of_mark entry.not_mem_text other.not_mem_text rfl rfl chars with
            ⟨lines, breaks⟩
          have behind := (List.cons.inj breaks).2
          rcases Entry.eq_of_text_eq complete complete' (String.toList_inj.mp lines) with rfl
          rcases ih later later' (String.toList_inj.mp behind) with rfl
          rfl

theorem isComplete_of_disassemble {code : Bytes} {listing : Listing}
    (listed : disassemble code = .ok listing) {entry : Entry} (member : entry ∈ listing) :
    entry.IsComplete := by
  have decoded := (disassemble_eq_ok_iff.mp listed).decodeAt_of_mem member
  exact (decodeAt_eq_ok_iff.mp decoded).2.1

/-- The text of a listing determines the bytecode: two byte strings that disassemble have the same
text exactly when they are the same. -/
theorem rendering_loses_nothing {code other : Bytes} {first second : Listing}
    (listed : disassemble code = .ok first) (listedOther : disassemble other = .ok second) :
    first.render = second.render ↔ code = other := by
  constructor
  · intro same
    have listings := eq_of_render_eq (fun _ => isComplete_of_disassemble listed)
      (fun _ => isComplete_of_disassemble listedOther) same
    rw [← flatMap_encode_of_disassemble listed, listings]
    exact flatMap_encode_of_disassemble listedOther
  · rintro rfl
    rw [listed] at listedOther
    rw [Except.ok.inj listedOther]

/-- A jump, and the same jump under a condition. -/
def jumping : List Instruction := [⟨.jump, some 9⟩, ⟨.jumpIf, some 0⟩]

def jumpingBack : List Instruction := [⟨.jumpIf, some 9⟩, ⟨.jump, some 0⟩]

/-- One mnemonic begins with the other, and still the texts differ. -/
theorem render_jumping :
    disassemble (jumping.flatMap Instruction.encode) = .ok (layout 0 jumping) ∧
      disassemble (jumpingBack.flatMap Instruction.encode) = .ok (layout 0 jumpingBack) ∧
      (layout 0 jumping).render ≠ (layout 0 jumpingBack).render := by
  have listed := disassemble_flatMap_encode jumping
  have listedBack := disassemble_flatMap_encode jumpingBack
  refine ⟨listed, listedBack, ?_⟩
  intro same
  have codes := (rendering_loses_nothing listed listedBack).mp same
  have differ : jumping.flatMap Instruction.encode ≠ jumpingBack.flatMap Instruction.encode := by
    decide
  exact differ codes

end Listing

end StackMachine
