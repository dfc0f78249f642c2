import StackMachine.Container
import StackMachine.Proofs.Assembly.Labels
import StackMachine.Proofs.Vm.Fresh
import StackMachine.Proofs.Vm.TrapAtomicity

/-!
# Containers are exact

A byte string is the container of at most one program, and it is one only if it is what encoding
that program gives.  All the rest follows: a container can be read back, and since the length field
fixes where it ends, neither a part of it nor more than it is another container.

The two forms of a program file cannot be mistaken for each other, because the first byte of the
magic is no opcode.
-/

namespace StackMachine

open Container

variable {code file : Bytes}

namespace LittleEndian

theorem decode_encode_of_lt {width value : Nat} (bound : value < 256 ^ width) :
    decode (encode width value) = value := by
  simp [decode_encode, Nat.mod_eq_of_lt bound]

end LittleEndian

namespace Container

/-- Bytes before the bytecode. -/
def headerLength : Nat := magic.length + 1 + lengthWidth

/-- The length that a complete header declares. -/
def declared (file : Bytes) : Nat := LittleEndian.decode ((file.drop 5).take lengthWidth)

/-- Why a byte string is no container.  Of several reasons the first counts. -/
def fault? (file : Bytes) : Option Fault :=
  if file.length < headerLength then some .truncated
  else if file.take magic.length ≠ magic then some .badMagic
  else if file.getD 4 0 ≠ version then some (.unsupportedVersion (file.getD 4 0))
  else if (file.drop headerLength).length ≠ declared file then
    some (.lengthMismatch (declared file) (file.drop headerLength).length)
  else none

/-- The text with which a byte string that is no container is refused, check by check. -/
def refusal? (file : Bytes) : Option String :=
  if file.length < 9 then some "truncated"
  else if file.take 4 ≠ [0x4F, 0x42, 0x50, 0x4C] then some "bad magic"
  else if file.getD 4 0 ≠ 1 then
    some ("unsupported version " ++ toString (file.getD 4 0).toNat)
  else if (file.drop 9).length ≠ declared file then
    some ("declared " ++ toString (declared file) ++ " bytes of bytecode, found " ++
      toString (file.drop 9).length)
  else none

theorem refusal?_eq (file : Bytes) : refusal? file = (fault? file).map Fault.reason := by
  simp only [refusal?, fault?, apply_ite (Option.map Fault.reason), Option.map_some,
    Option.map_none]
  rfl

theorem fault?_of_complete (m₀ m₁ m₂ m₃ found l₀ l₁ l₂ l₃ : UInt8) (code : Bytes) :
    fault? (m₀ :: m₁ :: m₂ :: m₃ :: found :: l₀ :: l₁ :: l₂ :: l₃ :: code) =
      if [m₀, m₁, m₂, m₃] ≠ magic then some .badMagic
      else if found ≠ version then some (.unsupportedVersion found)
      else if code.length ≠ LittleEndian.decode [l₀, l₁, l₂, l₃] then
        some (.lengthMismatch (LittleEndian.decode [l₀, l₁, l₂, l₃]) code.length)
      else none := by
  apply if_neg
  simp [headerLength, magic, lengthWidth]

theorem decode_eq (file : Bytes) :
    decode file =
      match fault? file with
      | some fault => .error fault
      | none => .ok (file.drop headerLength) := by
  rcases file with _ | ⟨m₀, _ | ⟨m₁, _ | ⟨m₂, _ | ⟨m₃, _ | ⟨found, _ | ⟨l₀, _ | ⟨l₁, _ | ⟨l₂, _ |
    ⟨l₃, code⟩⟩⟩⟩⟩⟩⟩⟩⟩
  -- Nothing is looked at before the header is complete.
  iterate 9 rfl
  rw [fault?_of_complete]
  simp only [decode]
  split_ifs <;> rfl

theorem decode_eq_ok_iff :
    decode file = .ok code ↔ fault? file = none ∧ file.drop headerLength = code := by
  rw [decode_eq]
  cases fault : fault? file with
  | some found => simp
  | none => simp

theorem encode_eq_ok_iff :
    encode code = .ok file ↔
      code.length < 2 ^ 32 ∧
        magic ++ version :: LittleEndian.encode lengthWidth code.length ++ code = file := by
  unfold encode
  split
  · rename_i fits
    rw [Except.ok.injEq]
    exact (and_iff_right fits).symm
  · rename_i exceeds
    constructor
    · intro refused
      contradiction
    · intro fits
      exact absurd fits.1 exceeds

theorem decode_of_encode (encoded : encode code = .ok file) : decode file = .ok code := by
  rcases encode_eq_ok_iff.mp encoded with ⟨fits, rfl⟩
  have declares : code.length = LittleEndian.decode (LittleEndian.encode lengthWidth code.length) :=
    (LittleEndian.decode_encode_of_lt fits).symm
  apply decode_eq_ok_iff.mpr
  refine ⟨?_, rfl⟩
  apply (fault?_of_complete _ _ _ _ _ _ _ _ _ _).trans
  apply (if_neg (not_not_intro rfl)).trans
  apply (if_neg (not_not_intro rfl)).trans
  exact if_neg (not_not_intro declares)

theorem encode_of_decode (decoded : decode file = .ok code) : encode code = .ok file := by
  unfold decode at decoded
  split at decoded
  · rename_i m₀ m₁ m₂ m₃ found l₀ l₁ l₂ l₃ body
    simp only at decoded
    split_ifs at decoded with badMagic unsupported mismatch
    rcases Except.ok.inj decoded with rfl
    have declares := not_ne_iff.mp mismatch
    have fits : body.length < 2 ^ 32 := by
      simpa [← declares] using LittleEndian.decode_lt [l₀, l₁, l₂, l₃]
    have written : LittleEndian.encode lengthWidth body.length = [l₀, l₁, l₂, l₃] := by
      rw [declares]
      exact LittleEndian.encode_decode [l₀, l₁, l₂, l₃]
    apply encode_eq_ok_iff.mpr
    refine ⟨fits, ?_⟩
    rw [written, ← not_ne_iff.mp badMagic, ← not_ne_iff.mp unsupported]
    rfl
  · contradiction

theorem length_of_decode (decoded : decode file = .ok code) :
    file.length = headerLength + declared file := by
  have sound := (decode_eq_ok_iff.mp decoded).1
  unfold fault? at sound
  split_ifs at sound with incomplete badMagic unsupported mismatch
  have declares := not_ne_iff.mp mismatch
  rw [List.length_drop] at declares
  omega

/-- The length field tells where a container ends. -/
theorem eq_nil_of_decode_append {more other : Bytes} (decoded : decode file = .ok code)
    (extended : decode (file ++ more) = .ok other) : more = [] := by
  have length := length_of_decode decoded
  have lengthExtended := length_of_decode extended
  have complete : 5 + lengthWidth ≤ file.length := by
    have spelled : headerLength = 5 + lengthWidth := rfl
    omega
  have same : declared (file ++ more) = declared file := by
    have inside : lengthWidth ≤ (file.drop 5).length := by
      rw [List.length_drop]
      omega
    rw [declared, List.drop_append_of_le_length (by omega), List.take_append_of_le_length inside]
    rfl
  rw [same, List.length_append] at lengthExtended
  apply List.eq_nil_of_length_eq_zero
  omega

theorem isContainer_iff : isContainer file = true ↔ magic <+: file :=
  List.isPrefixOf_iff_prefix

theorem isContainer_of_encode (encoded : encode code = .ok file) : magic <+: file := by
  rcases encode_eq_ok_iff.mp encoded with ⟨_, rfl⟩
  simp

end Container

/-- The fault of a raw program that starts with the magic. -/
def ProgramFile.misread : Error := .trap 0 (.unknownOpcode 0x4F)

namespace ProgramFile

theorem decodeAt_of_isContainer (container : magic <+: file) :
    Listing.decodeAt file 0 = .error misread := by
  rcases container with ⟨rest, rfl⟩
  rfl

theorem disassemble_of_isContainer (container : magic <+: file) :
    Listing.disassemble file = .error misread := by
  rcases container with ⟨rest, rfl⟩
  rw [Listing.disassemble, magic, List.cons_append, Listing.disassembleFrom]
  rfl

theorem trapsWith_of_isContainer {vm next : Vm} (container : magic <+: file)
    (installs : Vm.Installs file vm next) : next.TrapsWith misread := by
  rcases Vm.installs_iff.mp installs with ⟨machine, _, rfl⟩
  have inside : 0 < file.length := by
    have longer := container.length_le
    simp only [magic, List.length_cons] at longer
    omega
  apply Vm.trapsWith_of_step_error rfl rfl
  rw [Vm.step_mk, Machine.step_of_decodeAt_error rfl inside (decodeAt_of_isContainer container)]

theorem read_of_isContainer (container : magic <+: file) :
    read file = (decode file).mapError Fault.toError := by
  rw [read, if_pos (isContainer_iff.mpr container)]

theorem read_of_not_isContainer (raw : ¬ magic <+: file) : read file = .ok file := by
  rw [read, if_neg (mt isContainer_iff.mp raw)]

theorem read_of_encode (encoded : encode code = .ok file) : read file = .ok code := by
  rw [read_of_isContainer (isContainer_of_encode encoded), decode_of_encode encoded]
  rfl

theorem isContainer_of_read_error {error : Error} (refused : read file = .error error) :
    magic <+: file := by
  by_contra raw
  rw [read_of_not_isContainer raw] at refused
  contradiction

theorem read_of_disassemble {listing : Listing} (listed : Listing.disassemble file = .ok listing) :
    read file = .ok file := by
  apply read_of_not_isContainer
  intro container
  rw [disassemble_of_isContainer container] at listed
  contradiction

/-- Containers are an exact codec of the bytecode whose length fits, and program files are read
without ambiguity.

Encoding and decoding are inverse to each other where they succeed, no container continues another,
and what is no container is refused for the first reason that applies.  Reading a program file fails
only behind the magic, which no bytecode that disassembles or runs starts with. -/
theorem codec_exact :
    (∀ code : Bytes, code.length < 2 ^ 32 →
      ∃ file, encode code = .ok file ∧ decode file = .ok code ∧ read file = .ok code) ∧
    (∀ file code, decode file = .ok code → code.length < 2 ^ 32 ∧ encode code = .ok file) ∧
    (∀ file more code other, decode file = .ok code → decode (file ++ more) = .ok other →
      more = []) ∧
    (∀ file, decode file =
      match fault? file with
      | some fault => .error fault
      | none => .ok (file.drop headerLength)) ∧
    (∀ file, (decode file).mapError Fault.toError =
      match refusal? file with
      | some text => .error (.undecodable text)
      | none => .ok (file.drop headerLength)) ∧
    (∀ file error, read file = .error error → magic <+: file) ∧
    (∀ file, magic <+: file → Listing.disassemble file = .error misread ∧
      ∀ vm next, Vm.Installs file vm next → next.TrapsWith misread) ∧
    (∀ file listing, Listing.disassemble file = .ok listing → read file = .ok file) ∧
    ∀ directives code, (∀ directive ∈ directives, ∀ bytes, directive ≠ .raw bytes) →
      Assembly.assemble directives = .ok code → read code = .ok code := by
  refine ⟨?encodes, ?canonical, ?ends, decode_eq, ?refuses, ?fails, ?misreads, ?listed, ?assembled⟩
  case encodes =>
    intro code fits
    have encoded := encode_eq_ok_iff.mpr ⟨fits, rfl⟩
    exact ⟨_, encoded, decode_of_encode encoded, read_of_encode encoded⟩
  case canonical =>
    intro file code decoded
    have encoded := encode_of_decode decoded
    exact ⟨(encode_eq_ok_iff.mp encoded).1, encoded⟩
  case ends =>
    intro file more code other decoded extended
    exact eq_nil_of_decode_append decoded extended
  case refuses =>
    intro file
    rw [decode_eq, refusal?_eq]
    cases fault? file <;> rfl
  case fails =>
    intro file error refused
    exact isContainer_of_read_error refused
  case misreads =>
    intro file container
    refine ⟨disassemble_of_isContainer container, ?_⟩
    intro vm next installs
    exact trapsWith_of_isContainer container installs
  case listed =>
    intro file listing listed
    exact read_of_disassemble listed
  case assembled =>
    intro directives code unraw assembled
    exact read_of_disassemble (Assembly.disassemble_of_assemble unraw assembled)

/-- The program that stops at once is read from its container and from itself.  A container that
declares one byte more than it has is refused, and the magic alone is no program. -/
theorem read_halting :
    (∃ file, encode [Opcode.halt.byte] = .ok file ∧ decode file = .ok [Opcode.halt.byte] ∧
      read file = .ok [Opcode.halt.byte]) ∧
      read [Opcode.halt.byte] = .ok [Opcode.halt.byte] ∧
      decode [0x4F, 0x42, 0x50, 0x4C, 1, 2, 0, 0, 0, 0x11] = .error (.lengthMismatch 2 1) ∧
      (decode [0x4F, 0x42, 0x50, 0x4C, 1, 2, 0, 0, 0, 0x11]).mapError Fault.toError =
        .error (.undecodable "declared 2 bytes of bytecode, found 1") ∧
      Listing.disassemble magic = .error misread := by
  rcases codec_exact with ⟨encodes, _, _, decodes, refuses, _, misreads, _, assembled⟩
  refine ⟨encodes _ (by decide), ?_, decodes _, refuses _, (misreads magic List.prefix_rfl).1⟩
  exact assembled [.instruction .halt none] _ (by simp) rfl

end ProgramFile

end StackMachine
