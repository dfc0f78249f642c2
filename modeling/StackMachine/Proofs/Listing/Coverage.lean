import StackMachine.Proofs.Listing.Decoding

/-!
# Listings cover their bytecode

The entries of a listing stand in the bytecode one right after another and leave no byte out.  So
each entry decodes where it says it stands, and the offset behind it is a boundary as well: the
offset of an entry, or the end of the bytecode.
-/

namespace StackMachine

/-- The place in the bytecode that an entry names as a target; none if it names none. -/
def Entry.target? (entry : Entry) : Option UInt64 :=
  if entry.opcode.operandKind? = some .target then entry.operand? else none

theorem Entry.target?_eq_operand {entry : Entry} (complete : entry.IsComplete)
    (jumps : entry.opcode.operandKind? = some .target) : entry.target? = some entry.operand := by
  rcases entry with ⟨offset, opcode, operand?⟩
  simp only at jumps
  cases operand? with
  | none => simp [IsComplete, jumps] at complete
  | some word => simp [target?, operand, jumps]

namespace Listing

/-- The entries of a listing stand one right after another in `code`, from `offset` to the end. -/
inductive Covers (code : Bytes) : Nat → Listing → Prop where
  | nil : Covers code code.length []
  | cons {offset : Nat} {entry : Entry} {listing : Listing}
      (decoded : decodeAt code offset = .ok entry) (covers : Covers code entry.next listing) :
      Covers code offset (entry :: listing)

/-- The offset of an entry of a listing, or the end of its bytecode. -/
def IsBoundary (listing : Listing) (code : Bytes) (offset : Nat) : Prop :=
  offset = code.length ∨ ∃ entry ∈ listing, entry.offset = offset

variable {code : Bytes} {offset : Nat} {listing : Listing} {entry : Entry}

theorem IsBoundary.cons (boundary : IsBoundary listing code offset) (first : Entry) :
    IsBoundary (first :: listing) code offset := by
  rcases boundary with ended | ⟨entry, member, place⟩
  · exact Or.inl ended
  · exact Or.inr ⟨entry, List.mem_cons_of_mem first member, place⟩

theorem disassembleFrom_nil : disassembleFrom offset [] = .ok [] := by
  rw [disassembleFrom]

theorem disassembleFrom_drop (inside : offset < code.length) :
    disassembleFrom offset (code.drop offset) = do
      let entry ← decodeAt code offset
      let entries ← disassembleFrom entry.next (code.drop entry.next)
      return entry :: entries := by
  cases decoded : decodeAt code offset with
  | error error =>
      rw [decodeAt, List.drop_eq_getElem_cons inside] at decoded
      rw [List.drop_eq_getElem_cons inside, disassembleFrom, decoded]
      rfl
  | ok entry =>
      have successor : (code.drop offset).drop entry.opcode.length = code.drop entry.next := by
        rw [List.drop_drop, Entry.next, offset_of_decodeAt decoded]
      rw [decodeAt, List.drop_eq_getElem_cons inside] at decoded
      rw [List.drop_eq_getElem_cons inside, disassembleFrom, decoded,
        ← List.drop_eq_getElem_cons inside]
      simp only [bind, Except.bind, successor]

theorem disassembleFrom_eq_ok_iff (bound : offset ≤ code.length) :
    disassembleFrom offset (code.drop offset) = .ok listing ↔ Covers code offset listing := by
  constructor
  · intro listed
    induction listing generalizing offset with
    | nil =>
        rcases Nat.lt_or_eq_of_le bound with inside | rfl
        · simp only [disassembleFrom_drop inside, bind_eq_ok_iff] at listed
          rcases listed with ⟨_, _, _, _, ended⟩
          cases ended
        · exact .nil
    | cons first rest ih =>
        rcases Nat.lt_or_eq_of_le bound with inside | rfl
        · simp only [disassembleFrom_drop inside, bind_eq_ok_iff] at listed
          rcases listed with ⟨entry, decoded, entries, later, same⟩
          cases Except.ok.inj same
          exact .cons decoded (ih (next_le_of_decodeAt decoded) later)
        · rw [List.drop_length, disassembleFrom_nil] at listed
          cases listed
  · intro covers
    induction covers with
    | nil => rw [List.drop_length, disassembleFrom_nil]
    | cons decoded covers ih =>
        rw [disassembleFrom_drop (lt_length_of_decodeAt decoded), decoded]
        simp only [bind, Except.bind, ih (next_le_of_decodeAt decoded)]
        rfl

/-- Disassembly gives the listing that covers the bytecode, whenever there is one. -/
theorem disassemble_eq_ok_iff : disassemble code = .ok listing ↔ Covers code 0 listing :=
  disassembleFrom_eq_ok_iff (Nat.zero_le code.length)

namespace Covers

theorem isBoundary_start (covers : Covers code offset listing) :
    IsBoundary listing code offset := by
  cases covers with
  | nil => exact Or.inl rfl
  | cons decoded _ => exact Or.inr ⟨_, List.mem_cons_self, offset_of_decodeAt decoded⟩

theorem decodeAt_of_mem (covers : Covers code offset listing) (member : entry ∈ listing) :
    decodeAt code entry.offset = .ok entry := by
  induction covers with
  | nil => contradiction
  | cons decoded _ ih =>
      rcases List.mem_cons.mp member with rfl | later
      · rwa [offset_of_decodeAt decoded]
      · exact ih later

theorem isBoundary_next (covers : Covers code offset listing) (member : entry ∈ listing) :
    IsBoundary listing code entry.next := by
  induction covers with
  | nil => contradiction
  | cons _ covers ih =>
      rcases List.mem_cons.mp member with rfl | later
      · exact covers.isBoundary_start.cons entry
      · exact (ih later).cons _

/-- At a boundary inside the bytecode stands an entry of the listing. -/
theorem mem_of_decodeAt (covers : Covers code offset listing) {place : Nat}
    (boundary : IsBoundary listing code place) (decoded : decodeAt code place = .ok entry) :
    entry ∈ listing := by
  have inside := lt_length_of_decodeAt decoded
  rcases boundary with rfl | ⟨found, member, rfl⟩
  · omega
  · rw [covers.decodeAt_of_mem member] at decoded
    rwa [← Except.ok.inj decoded]

theorem exists_decodeAt (covers : Covers code offset listing) {place : Nat}
    (boundary : IsBoundary listing code place) (inside : place < code.length) :
    ∃ entry, decodeAt code place = .ok entry := by
  rcases boundary with rfl | ⟨entry, member, rfl⟩
  · omega
  · exact ⟨entry, covers.decodeAt_of_mem member⟩

theorem le_length_of_isBoundary (covers : Covers code offset listing) {place : Nat}
    (boundary : IsBoundary listing code place) : place ≤ code.length := by
  rcases boundary with rfl | ⟨found, member, rfl⟩
  · exact Nat.le_refl _
  · exact Nat.le_of_lt (lt_length_of_decodeAt (covers.decodeAt_of_mem member))

end Covers

/-- A bytecode has this listing, and each target in it is a boundary. -/
structure Closed (listing : Listing) (code : Bytes) : Prop where
  lists : disassemble code = .ok listing
  targets : ∀ entry ∈ listing, ∀ target ∈ entry.target?, IsBoundary listing code target.toNat

namespace Closed

theorem covers (closed : listing.Closed code) : Covers code 0 listing :=
  disassemble_eq_ok_iff.mp closed.lists

theorem target?_of_mem (closed : listing.Closed code) (member : entry ∈ listing)
    (jumps : entry.opcode.operandKind? = some .target) : entry.target? = some entry.operand := by
  rcases decodeAt_eq_ok_iff.mp (closed.covers.decodeAt_of_mem member) with ⟨_, complete, _⟩
  exact Entry.target?_eq_operand complete jumps

theorem isBoundary_operand (closed : listing.Closed code) (member : entry ∈ listing)
    (jumps : entry.opcode.operandKind? = some .target) :
    IsBoundary listing code entry.operand.toNat :=
  closed.targets entry member entry.operand (closed.target?_of_mem member jumps)

end Closed

/-- A bytecode has this listing, and each target in it is the offset of an entry. -/
structure WellFormed (listing : Listing) (code : Bytes) : Prop where
  lists : disassemble code = .ok listing
  targets : ∀ entry ∈ listing, ∀ target ∈ entry.target?,
    ∃ destination ∈ listing, destination.offset = target.toNat

namespace WellFormed

theorem covers (wellFormed : listing.WellFormed code) : Covers code 0 listing :=
  disassemble_eq_ok_iff.mp wellFormed.lists

theorem closed (wellFormed : listing.WellFormed code) : listing.Closed code where
  lists := wellFormed.lists
  targets := fun entry member target given =>
    Or.inr (wellFormed.targets entry member target given)

theorem target_lt (wellFormed : listing.WellFormed code) (member : entry ∈ listing)
    {target : UInt64} (given : target ∈ entry.target?) : target.toNat < code.length := by
  rcases wellFormed.targets entry member target given with ⟨destination, among, place⟩
  rw [← place]
  exact lt_length_of_decodeAt (wellFormed.covers.decodeAt_of_mem among)

end WellFormed

end Listing

end StackMachine
