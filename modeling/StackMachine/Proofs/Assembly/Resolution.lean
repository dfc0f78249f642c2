import StackMachine.Assembly
import StackMachine.Proofs.Listing.Layout

/-!
# What a draft becomes

Directives are laid out before the places of all labels are known, and placeholders are written
over at the end.  The bytecode can be told in one go: a directive has an encoding once labels have
places, and a finished draft is the concatenation of the encodings of its directives.

Writing a placeholder over never reaches a neighbour, because a reference stands inside the encoding
of its own branch.  That is an induction over the directives, with the bytes in front of them
already final.
-/

namespace StackMachine.Assembly

namespace Directive

/-- The instruction that a directive writes when labels have these places. -/
def instruction? (place? : String → Option Nat) : Directive → Option Instruction
  | .instruction opcode operand? => some ⟨opcode, operand?⟩
  | .branch kind name => some ⟨kind.opcode, (place? name).map UInt64.ofNat⟩
  | .label _ | .raw _ => none

/-- The bytes that a directive writes when labels have these places. -/
def encode (place? : String → Option Nat) : Directive → Bytes
  | .label _ => []
  | .instruction opcode operand? => opcode.encode operand?
  | .raw bytes => bytes
  | .branch kind name => kind.opcode.encode ((place? name).map UInt64.ofNat)

/-- The placeholder of a directive made at `offset`. -/
def reference? (offset : Nat) : Directive → Option Reference
  | .branch _ name => some ⟨offset + 1, name⟩
  | _ => none

/-- The label that a directive refers to although it has no place. -/
def missing? (place? : String → Option Nat) : Directive → Option String
  | .branch _ name => if (place? name).isNone then some name else none
  | _ => none

variable {place? : String → Option Nat} {directive : Directive}

theorem length_encode_eq (place? other? : String → Option Nat) (directive : Directive) :
    (directive.encode place?).length = (directive.encode other?).length := by
  cases directive <;> simp [encode]

theorem encode_of_reference?_none {offset : Nat} (alone : directive.reference? offset = none)
    (place? other? : String → Option Nat) :
    directive.encode place? = directive.encode other? ∧ directive.missing? place? = none := by
  cases directive with
  | branch kind name => contradiction
  | _ => exact ⟨rfl, rfl⟩

theorem branch_of_reference? {offset : Nat} {reference : Reference}
    (waits : directive.reference? offset = some reference) :
    reference.position = offset + 1 ∧ ∃ kind, directive = .branch kind reference.label := by
  cases directive with
  | branch kind name =>
      rcases Option.some.inj waits with rfl
      exact ⟨rfl, kind, rfl⟩
  | _ => contradiction

theorem encode_of_instruction? {instruction : Instruction}
    (writes : directive.instruction? place? = some instruction) :
    directive.encode place? = instruction.encode := by
  cases directive with
  | instruction opcode operand? =>
      rcases Option.some.inj writes with rfl
      rfl
  | branch kind name =>
      rcases Option.some.inj writes with rfl
      rfl
  | _ => contradiction

theorem encode_of_instruction?_none (unraw : ∀ bytes, directive ≠ .raw bytes)
    (silent : directive.instruction? place? = none) : directive.encode place? = [] := by
  cases directive with
  | label name => rfl
  | raw bytes => exact absurd rfl (unraw bytes)
  | _ => contradiction

end Directive

theorem Branch.operandKind? (kind : Branch) : kind.opcode.operandKind? = some .target := by
  cases kind <;> rfl

namespace Draft

/-- The directives with the offsets at which they are made. -/
def sites (draft : Draft) : List Directive → List (Nat × Directive)
  | [] => []
  | directive :: rest => (draft.offset, directive) :: (draft.append directive).sites rest

/-- The placeholders of the directives. -/
def waiting (draft : Draft) (directives : List Directive) : List Reference :=
  (draft.sites directives).filterMap fun site => site.2.reference? site.1

variable {draft : Draft} {directives : List Directive}

theorem code_append (draft : Draft) (directive : Directive) :
    (draft.append directive).code = draft.code ++ directive.encode fun _ => none := by
  cases directive <;> simp [append, bind, Directive.encode]

theorem offset_append (place? : String → Option Nat) (draft : Draft) (directive : Directive) :
    (draft.append directive).offset = draft.offset + (directive.encode place?).length := by
  rw [offset, code_append, List.length_append, offset,
    Directive.length_encode_eq place? fun _ => none]

theorem appendAll_cons (draft : Draft) (directive : Directive) (rest : List Directive) :
    draft.appendAll (directive :: rest) = (draft.append directive).appendAll rest :=
  rfl

theorem appendAll_append (draft : Draft) (before after : List Directive) :
    draft.appendAll (before ++ after) = (draft.appendAll before).appendAll after :=
  List.foldl_append

theorem code_appendAll (draft : Draft) (directives : List Directive) :
    (draft.appendAll directives).code =
      draft.code ++ directives.flatMap (Directive.encode fun _ => none) := by
  induction directives generalizing draft with
  | nil => simp [appendAll]
  | cons directive rest ih =>
      rw [appendAll_cons, ih, code_append, List.append_assoc, List.flatMap_cons]

theorem offset_appendAll (place? : String → Option Nat) (draft : Draft)
    (directives : List Directive) :
    (draft.appendAll directives).offset =
      draft.offset + (directives.flatMap (Directive.encode place?)).length := by
  induction directives generalizing draft with
  | nil => simp [appendAll]
  | cons directive rest ih =>
      rw [appendAll_cons, ih, offset_append place?, List.flatMap_cons, List.length_append,
        Nat.add_assoc]

theorem references_append (draft : Draft) (directive : Directive) :
    (draft.append directive).references =
      draft.references ++ (directive.reference? draft.offset).toList := by
  cases directive <;> simp [append, bind, Directive.reference?]

theorem references_appendAll (draft : Draft) (directives : List Directive) :
    (draft.appendAll directives).references = draft.references ++ draft.waiting directives := by
  induction directives generalizing draft with
  | nil => simp [appendAll, waiting, sites]
  | cons directive rest ih =>
      rw [appendAll_cons, ih, references_append, List.append_assoc, waiting, waiting, sites]
      cases waits : directive.reference? draft.offset <;> simp [waits]

theorem duplicate?_appendAll (draft : Draft)
    (unlabeled : ∀ directive ∈ directives, ∀ name, directive ≠ .label name) :
    (draft.appendAll directives).duplicate? = draft.duplicate? := by
  induction directives generalizing draft with
  | nil => rfl
  | cons directive rest ih =>
      rcases List.forall_mem_cons.mp unlabeled with ⟨first, later⟩
      rw [appendAll_cons, ih _ later]
      cases directive with
      | label name => exact absurd rfl (first name)
      | _ => rfl

/-- Resolving a placeholder completes the branch that it stands in. -/
theorem resolve_branch {front : Bytes} {reference : Reference} {place : Nat} (rest : Bytes)
    (kind : Branch) (position : reference.position = front.length + 1)
    (placed : draft.place? reference.label = some place) :
    draft.resolve (front ++ (kind.opcode.encode none ++ rest)) reference =
      .ok (front ++ (kind.opcode.encode (some (UInt64.ofNat place)) ++ rest)) := by
  have operates := kind.operandKind?
  have before : (front ++ kind.opcode.byte :: (Word.bytes 0 ++ rest)).take (front.length + 1) =
      front ++ [kind.opcode.byte] := by
    rw [List.take_length_add_append]
    rfl
  have behind : (front ++ kind.opcode.byte :: (Word.bytes 0 ++ rest)).drop
      (front.length + 1 + Word.size) = rest := by
    rw [Nat.add_assoc, List.drop_length_add_append, Nat.add_comm 1, List.drop_succ_cons,
      List.drop_left' (Word.length_bytes 0)]
  simp only [resolve, placed, overwrite, position, Opcode.encode, operates, Option.isSome_some,
    if_true, Option.getD_none, Option.getD_some, List.cons_append, Word.length_bytes, before,
    behind]
  simp

/-- Resolving all placeholders of some directives encodes them, behind bytes that are final, unless
a label has no place; then the first such label is reported. -/
theorem foldlM_resolve_waiting (placed draft : Draft) (front : Bytes)
    (directives : List Directive) (same : draft.offset = front.length) :
    (draft.waiting directives).foldlM placed.resolve
        (front ++ directives.flatMap (Directive.encode fun _ => none)) =
      match directives.findSome? (Directive.missing? placed.place?) with
      | some label => .error (.undefinedLabel label)
      | none => .ok (front ++ directives.flatMap (Directive.encode placed.place?)) := by
  induction directives generalizing draft front with
  | nil => rfl
  | cons directive rest ih =>
      have step : (draft.append directive).offset =
          (front ++ directive.encode placed.place?).length := by
        rw [offset_append placed.place?, same, List.length_append]
      have later := ih _ _ step
      rw [waiting, sites, List.filterMap_cons, List.flatMap_cons, List.flatMap_cons,
        List.findSome?_cons]
      cases waits : directive.reference? draft.offset with
      | none =>
          rcases Directive.encode_of_reference?_none waits placed.place? (fun _ => none) with
            ⟨final, nothing⟩
          rw [List.append_assoc, List.append_assoc, final] at later
          rw [nothing, final]
          exact later
      | some reference =>
          rcases Directive.branch_of_reference? waits with ⟨position, kind, rfl⟩
          rw [same] at position
          simp only [List.foldlM_cons, Directive.encode, Option.map_none, Directive.missing?]
          cases target : placed.place? reference.label with
          | none => simp [resolve, target, Bind.bind, Except.bind]
          | some place =>
              simp only [Directive.encode, target, Option.map_some, List.append_assoc] at later
              rw [resolve_branch _ kind position target]
              exact later

end Draft

open Draft

/-- A label bound twice spoils a program, then a label without a place does; any other program is
the concatenation of the encodings of its directives. -/
theorem assemble_eq (directives : List Directive) :
    assemble directives =
      match (empty.appendAll directives).duplicate? with
      | some label => .error (.duplicateLabel label)
      | none =>
          match directives.findSome? (Directive.missing? (empty.appendAll directives).place?) with
          | some label => .error (.undefinedLabel label)
          | none =>
              .ok (directives.flatMap (Directive.encode (empty.appendAll directives).place?)) := by
  have resolved := foldlM_resolve_waiting (empty.appendAll directives) empty [] directives rfl
  rw [assemble, finish, references_appendAll, code_appendAll]
  exact congrArg _ (funext fun _ => resolved)

theorem eq_flatMap_of_assemble {directives : List Directive} {code : Bytes}
    (assembled : assemble directives = .ok code) :
    directives.findSome? (Directive.missing? (empty.appendAll directives).place?) = none ∧
      code = directives.flatMap (Directive.encode (empty.appendAll directives).place?) := by
  rw [assemble_eq] at assembled
  split at assembled
  · contradiction
  · split at assembled
    · contradiction
    · rename_i complete
      exact ⟨complete, (Except.ok.inj assembled).symm⟩

end StackMachine.Assembly
