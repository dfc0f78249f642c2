import StackMachine.Error
import StackMachine.Opcode

/-!
# Assembly

A program is written as a list of directives: instructions with their operands, raw bytes, labels,
and branches to labels.  Directives are laid out one after another in a `Draft`.  A branch is laid
out with a placeholder for its target, so its width does not depend on the label; `Draft.finish`
writes the place of each label over the placeholders of its references.

A label bound twice spoils the whole draft.  Otherwise the first reference, in the order of the
directives, to a label without a place does.
-/

namespace StackMachine.Assembly

/-- The instructions that may name their target by a label. -/
inductive Branch where
  | call | jump | jumpIf
  deriving DecidableEq, Repr

def Branch.opcode : Branch → Opcode
  | call => .call
  | jump => .jump
  | jumpIf => .jumpIf

/-- One step of writing a program. -/
inductive Directive where
  /-- Binds a label to the current offset. -/
  | label (name : String)
  /-- An instruction; see `Opcode.encode` for missing and superfluous operands. -/
  | instruction (opcode : Opcode) (operand? : Option UInt64)
  | raw (bytes : Bytes)
  /-- An instruction whose target is the place of a label. -/
  | branch (kind : Branch) (label : String)
  deriving DecidableEq, Repr

/-- A placeholder that waits for the place of a label. -/
structure Reference where
  /-- Where the eight bytes of the placeholder start. -/
  position : Nat
  label : String
  deriving DecidableEq, Repr

/-- The directives laid out so far. -/
structure Draft where
  code : Bytes
  /-- The labels bound so far and their places, the latest first. -/
  places : List (String × Nat)
  /-- The placeholders, in the order of the directives. -/
  references : List Reference
  /-- The first label that was bound again. -/
  duplicate? : Option String
  deriving DecidableEq, Repr

namespace Draft

def empty : Draft := ⟨[], [], [], none⟩

/-- Where the next byte will stand. -/
def offset (draft : Draft) : Nat := draft.code.length

def place? (draft : Draft) (label : String) : Option Nat := draft.places.lookup label

/-- Binds a label to the current offset and notes the first label that already had a place. -/
def bind (draft : Draft) (label : String) : Draft :=
  let again? := if (draft.place? label).isSome then some label else none
  { draft with
    places := (label, draft.offset) :: draft.places
    duplicate? := draft.duplicate? <|> again? }

def append (draft : Draft) : Directive → Draft
  | .label name => draft.bind name
  | .instruction opcode operand? => { draft with code := draft.code ++ opcode.encode operand? }
  | .raw bytes => { draft with code := draft.code ++ bytes }
  | .branch kind label =>
      { draft with
        code := draft.code ++ kind.opcode.encode none
        references := draft.references ++ [⟨draft.offset + 1, label⟩] }

def appendAll (draft : Draft) (directives : List Directive) : Draft :=
  directives.foldl append draft

/-- The offsets reached after each of the directives. -/
def offsets (draft : Draft) : List Directive → List Nat
  | [] => []
  | directive :: rest =>
      let extended := draft.append directive
      extended.offset :: extended.offsets rest

/-- Writes `bytes` over those at `position`. -/
def overwrite (code : Bytes) (position : Nat) (bytes : Bytes) : Bytes :=
  code.take position ++ bytes ++ code.drop (position + bytes.length)

/-- Writes the place of a reference's label over its placeholder. -/
def resolve (draft : Draft) (code : Bytes) (reference : Reference) : Except Error Bytes :=
  match draft.place? reference.label with
  | none => .error (.undefinedLabel reference.label)
  | some place => .ok (overwrite code reference.position (Word.bytes (UInt64.ofNat place)))

def finish (draft : Draft) : Except Error Bytes :=
  match draft.duplicate? with
  | some label => .error (.duplicateLabel label)
  -- Placeholders do not overlap, so the order only decides which missing label is reported.
  | none => draft.references.foldlM draft.resolve draft.code

end Draft

/-- The program that a list of directives writes. -/
def assemble (directives : List Directive) : Except Error Bytes :=
  (Draft.empty.appendAll directives).finish

end StackMachine.Assembly
