import StackMachine.Listing
import StackMachine.Word.Lemmas

/-!
# What the decoder accepts

An entry is decoded at an offset exactly when its encoding stands there.  The operand of an entry is
the number written by the eight bytes after the opcode, and an opcode without an operand has none.
-/

namespace StackMachine

theorem bind_eq_ok_iff {α β : Type} {first : Except Error α} {next : α → Except Error β}
    {value : β} :
    first >>= next = .ok value ↔ ∃ found, first = .ok found ∧ next found = .ok value := by
  cases first <;> simp [bind, Except.bind]

namespace Word

theorem front?_eq_some_iff {code : Bytes} {word : UInt64} :
    front? code = some word ↔ bytes word <+: code := by
  constructor
  · intro found
    simp only [front?] at found
    split at found
    · rename_i whole
      rcases Option.some.inj found with rfl
      rw [bytes_ofBytes whole]
      exact List.take_prefix size code
    · contradiction
  · rintro ⟨rest, rfl⟩
    exact front?_bytes_append word rest

theorem decode_bytes (word : UInt64) : LittleEndian.decode (bytes word) = word.toNat := by
  have bound : word.toNat < 256 ^ size := word.toNat_lt
  rw [bytes, LittleEndian.decode_encode, Nat.mod_eq_of_lt bound]

end Word

namespace Entry

/-- An operand is given exactly when the opcode has one. -/
def IsComplete (entry : Entry) : Prop :=
  entry.operand?.isSome = entry.opcode.operandKind?.isSome

/-- The operand of an entry; zero when there is none. -/
def operand (entry : Entry) : UInt64 := entry.operand?.getD 0

/-- The bytes of an entry. -/
def encode (entry : Entry) : Bytes := entry.opcode.encode entry.operand?

theorem encode_of_operandKind {entry : Entry} {kind : OperandKind}
    (operates : entry.opcode.operandKind? = some kind) :
    entry.encode = entry.opcode.byte :: Word.bytes entry.operand := by
  simp [encode, Opcode.encode, operates, operand]

theorem encode_of_no_operandKind {entry : Entry} (bare : entry.opcode.operandKind? = none) :
    entry.encode = [entry.opcode.byte] := by
  simp [encode, Opcode.encode, bare]

theorem decode_eq_ok_iff {code : Bytes} {offset : Nat} {entry : Entry} :
    decode offset code = .ok entry ↔
      entry.offset = offset ∧ entry.IsComplete ∧ entry.encode <+: code := by
  constructor
  · intro decoded
    unfold decode at decoded
    split at decoded
    · contradiction
    · rename_i byte rest
      split at decoded
      · contradiction
      · rename_i opcode found
        rcases Opcode.byte_of_ofByte? found with rfl
        split at decoded
        · rename_i bare
          rcases Except.ok.inj decoded with rfl
          refine ⟨rfl, by simp [IsComplete, bare], ?_⟩
          rw [encode_of_no_operandKind bare]
          exact ⟨rest, rfl⟩
        · rename_i kind operates
          split at decoded
          · contradiction
          · rename_i word front
            rcases Except.ok.inj decoded with rfl
            refine ⟨rfl, by simp [IsComplete, operates], ?_⟩
            rw [encode_of_operandKind operates]
            exact List.cons_prefix_cons.mpr ⟨rfl, Word.front?_eq_some_iff.mp front⟩
  · rcases entry with ⟨place, opcode, operand?⟩
    rintro ⟨rfl, complete, rest, rfl⟩
    simp only [IsComplete] at complete
    cases kind : opcode.operandKind? with
    | none =>
        have missing : operand? = none := by simpa [kind] using complete
        subst missing
        simp [encode, Opcode.encode, kind, decode, Opcode.ofByte?_byte]
    | some _ =>
        have given : ∃ word, operand? = some word := by
          simpa [kind, Option.isSome_iff_exists] using complete
        rcases given with ⟨word, rfl⟩
        simp [encode, Opcode.encode, kind, decode, Opcode.ofByte?_byte, Word.front?_bytes_append]

theorem ip?_of_decode_error {code : Bytes} {offset : Nat} {error : Error}
    (undecodable : decode offset code = .error error) : error.ip? = some offset := by
  unfold decode at undecodable
  split at undecodable
  · rw [← Except.error.inj undecodable, Error.ip?]
  · split at undecodable
    · rw [← Except.error.inj undecodable, Error.ip?]
    · split at undecodable
      · contradiction
      · split at undecodable
        · rw [← Except.error.inj undecodable, Error.ip?]
        · contradiction

theorem length_encode (entry : Entry) : entry.encode.length = entry.opcode.length :=
  Opcode.length_encode entry.opcode entry.operand?

end Entry

namespace Listing

theorem decodeAt_eq_ok_iff {code : Bytes} {offset : Nat} {entry : Entry} :
    decodeAt code offset = .ok entry ↔
      entry.offset = offset ∧ entry.IsComplete ∧ entry.encode <+: code.drop offset :=
  Entry.decode_eq_ok_iff

theorem offset_of_decodeAt {code : Bytes} {offset : Nat} {entry : Entry}
    (decoded : decodeAt code offset = .ok entry) : entry.offset = offset :=
  (decodeAt_eq_ok_iff.mp decoded).1

theorem next_le_of_decodeAt {code : Bytes} {offset : Nat} {entry : Entry}
    (decoded : decodeAt code offset = .ok entry) : entry.next ≤ code.length := by
  rcases decodeAt_eq_ok_iff.mp decoded with ⟨place, _, stands⟩
  have fits := stands.length_le
  have positive := entry.opcode.length_pos
  rw [Entry.length_encode, List.length_drop] at fits
  simp only [Entry.next, place]
  omega

theorem lt_length_of_decodeAt {code : Bytes} {offset : Nat} {entry : Entry}
    (decoded : decodeAt code offset = .ok entry) : offset < code.length := by
  have within := next_le_of_decodeAt decoded
  have positive := entry.opcode.length_pos
  rw [Entry.next, offset_of_decodeAt decoded] at within
  omega

end Listing

end StackMachine
