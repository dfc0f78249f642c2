import Mathlib.Data.List.Chain
import StackMachine.Proofs.Listing.Coverage

/-!
# Listings in pieces

What the decoder makes of an instruction depends on the bytes of this instruction only, and on where
it stands only through its offset.  So bytecode that has a listing can be put in front of any other
bytecode: the listing goes on with that of the bytes behind it, as much further on as the front is
long, and if these have none, neither has the whole, for the same reason.

An attempt that fails has therefore listed as much as can be listed: the bytes before the failure
have a listing, and no longer piece from the start has one.
-/

namespace StackMachine

/-- The entry as it is when its instruction stands `distance` bytes further on. -/
def Entry.shift (distance : Nat) (entry : Entry) : Entry :=
  { entry with offset := distance + entry.offset }

/-- The error as it is when its instruction stands `distance` bytes further on. -/
def Error.shift (distance : Nat) : Error → Error
  | .trap ip cause => .trap (distance + ip) cause
  | error => error

namespace Entry

variable {code : Bytes} {offset : Nat} {entry : Entry} {error : Error}

theorem next_shift (distance : Nat) (entry : Entry) :
    (entry.shift distance).next = distance + entry.next := by
  apply Nat.add_assoc

theorem decode_shift (distance offset : Nat) (code : Bytes) :
    decode (distance + offset) code =
      ((decode offset code).map (shift distance)).mapError (Error.shift distance) := by
  cases code with
  | nil => rfl
  | cons byte rest =>
      simp only [decode]
      cases Opcode.ofByte? byte with
      | none => rfl
      | some opcode =>
          simp only
          cases opcode.operandKind? with
          | none => rfl
          | some _ =>
              simp only
              cases Word.front? rest with
              | none => rfl
              | some operand => rfl

/-- A byte string that is not empty fails to decode because of its first byte, or because an operand
is cut off. -/
theorem error_of_decode {byte : UInt8} {rest : Bytes}
    (undecodable : decode offset (byte :: rest) = .error error) :
    error = .trap offset (.unknownOpcode byte) ∨
      error = .trap offset (.truncated Word.size rest.length) ∧ rest.length < Word.size := by
  simp only [decode] at undecodable
  split at undecodable
  · left
    exact (Except.error.inj undecodable).symm
  · split at undecodable
    · contradiction
    · split at undecodable
      · rename_i missing
        right
        refine ⟨(Except.error.inj undecodable).symm, ?_⟩
        by_contra enough
        have whole : (rest.take Word.size).length = Word.size := by
          apply List.length_take_of_le
          omega
        simp [Word.front?, whole] at missing
      · contradiction

end Entry

namespace Listing

/-- The listing as it is when the bytecode stands `distance` bytes further on. -/
def shift (distance : Nat) (listing : Listing) : Listing := listing.map (Entry.shift distance)

/-- The entries stand one right behind another, from the start of the bytecode to its end. -/
structure Tiles (listing : Listing) (code : Bytes) : Prop where
  starts : ∀ entry, listing.head? = some entry → entry.offset = 0
  adjoin : listing.IsChain fun entry successor => entry.next = successor.offset
  ends : ∀ entry, listing.getLast? = some entry → entry.next = code.length
  empty : listing = [] → code = []

/-- Decoding gets stuck at `place`: all before it is listed, and there stands no instruction. -/
structure Stuck (code : Bytes) (place : Nat) (listing : Listing) (error : Error) : Prop where
  inside : place < code.length
  lists : disassemble (code.take place) = .ok listing
  fails : decodeAt code place = .error error

variable {code front behind : Bytes} {offset place : Nat} {listing : Listing} {entry : Entry}
  {error : Error}

section Local

theorem decodeAt_append (decoded : decodeAt front offset = .ok entry) (behind : Bytes) :
    decodeAt (front ++ behind) offset = .ok entry := by
  have inside := lt_length_of_decodeAt decoded
  rcases decodeAt_eq_ok_iff.mp decoded with ⟨same, complete, stands⟩
  apply decodeAt_eq_ok_iff.mpr
  refine ⟨same, complete, ?_⟩
  rw [List.drop_append_of_le_length (Nat.le_of_lt inside)]
  exact stands.trans (List.prefix_append _ behind)

theorem decodeAt_take (decoded : decodeAt code offset = .ok entry) (within : entry.next ≤ place) :
    decodeAt (code.take place) offset = .ok entry := by
  rcases decodeAt_eq_ok_iff.mp decoded with ⟨same, complete, stands⟩
  apply decodeAt_eq_ok_iff.mpr
  refine ⟨same, complete, ?_⟩
  rw [List.drop_take]
  apply List.prefix_take_iff.mpr
  refine ⟨stands, ?_⟩
  rw [Entry.length_encode]
  simp only [Entry.next, same] at within
  omega

theorem disassembleFrom_shift (distance offset : Nat) (code : Bytes) :
    disassembleFrom (distance + offset) code =
      ((disassembleFrom offset code).map (shift distance)).mapError (Error.shift distance) := by
  fun_induction disassembleFrom offset code with
  | case1 offset =>
      rw [disassembleFrom]
      rfl
  | case2 offset byte rest ih =>
      rw [disassembleFrom, Entry.decode_shift]
      cases Entry.decode offset (byte :: rest) with
      | error error => rfl
      | ok entry =>
          have later := ih entry
          rw [← Entry.next_shift] at later
          simp only [Except.map, Except.mapError, bind, Except.bind, Entry.shift] at later ⊢
          rw [later]
          cases disassembleFrom entry.next ((byte :: rest).drop entry.opcode.length) with
          | error error => rfl
          | ok entries => rfl

end Local

section Front

theorem Covers.disassembleFrom_append (covers : Covers front offset listing) (behind : Bytes) :
    disassembleFrom offset ((front ++ behind).drop offset) =
      (disassembleFrom front.length behind).map (listing ++ ·) := by
  induction covers with
  | nil =>
      rw [List.drop_left]
      cases disassembleFrom front.length behind with
      | error error => rfl
      | ok entries => rfl
  | @cons offset entry listing decoded covers ih =>
      have inFront := decodeAt_append decoded behind
      rw [disassembleFrom_drop (lt_length_of_decodeAt inFront), inFront]
      simp only [bind, Except.bind, ih]
      cases disassembleFrom front.length behind with
      | error error => rfl
      | ok entries => rfl

/-- Behind bytecode that has a listing, all is listed as it is by itself, only further on. -/
theorem disassemble_append (listed : disassemble front = .ok listing) (behind : Bytes) :
    disassemble (front ++ behind) =
      ((disassemble behind).map fun rest => listing ++ rest.shift front.length).mapError
        (Error.shift front.length) := by
  have further := disassembleFrom_shift front.length 0 behind
  have appended := (disassemble_eq_ok_iff.mp listed).disassembleFrom_append behind
  rw [Nat.add_zero] at further
  rw [List.drop_zero, further] at appended
  rw [disassemble, appended, disassemble]
  cases disassembleFrom 0 behind with
  | error error => rfl
  | ok rest => rfl

end Front

section Cover

theorem covers_nil_iff : Covers code offset [] ↔ offset = code.length := by
  constructor
  · intro covers
    cases covers
    rfl
  · rintro rfl
    exact .nil

theorem covers_cons_iff :
    Covers code offset (entry :: listing) ↔
      decodeAt code offset = .ok entry ∧ Covers code entry.next listing := by
  constructor
  · intro covers
    cases covers with
    | cons decoded later => exact ⟨decoded, later⟩
  · rintro ⟨decoded, later⟩
    exact .cons decoded later

theorem Covers.le_length (covers : Covers code offset listing) : offset ≤ code.length := by
  apply covers.le_length_of_isBoundary
  exact covers.isBoundary_start

theorem Covers.isChain (covers : Covers code offset listing) :
    listing.IsChain fun entry successor => entry.next = successor.offset := by
  induction listing generalizing offset with
  | nil => exact .nil
  | cons entry rest ih =>
      rcases covers_cons_iff.mp covers with ⟨_, later⟩
      apply List.IsChain.cons (ih later)
      intro successor first
      cases rest with
      | nil => contradiction
      | cons found rest =>
          rcases Option.some.inj first with rfl
          exact (offset_of_decodeAt (covers_cons_iff.mp later).1).symm

theorem Covers.next_of_getLast? (covers : Covers code offset listing)
    (last : listing.getLast? = some entry) : entry.next = code.length := by
  induction listing generalizing offset with
  | nil => contradiction
  | cons first rest ih =>
      rcases covers_cons_iff.mp covers with ⟨_, later⟩
      cases rest with
      | nil =>
          rcases Option.some.inj last with rfl
          exact covers_nil_iff.mp later
      | cons second rest =>
          apply ih later
          rwa [List.getLast?_cons_cons] at last

theorem tiles_of_disassemble (listed : disassemble code = .ok listing) : listing.Tiles code := by
  have covers := disassemble_eq_ok_iff.mp listed
  refine ⟨?starts, covers.isChain, ?ends, ?empty⟩
  case starts =>
    intro entry first
    cases listing with
    | nil => contradiction
    | cons found rest =>
        rcases Option.some.inj first with rfl
        exact offset_of_decodeAt (covers_cons_iff.mp covers).1
  case ends =>
    intro entry last
    exact covers.next_of_getLast? last
  case empty =>
    rintro rfl
    apply List.eq_nil_of_length_eq_zero
    exact (covers_nil_iff.mp covers).symm

end Cover

section Failure

/-- An attempt that fails is stuck behind the entries that it has read. -/
theorem exists_of_disassembleFrom_error {offset : Nat} (bound : offset ≤ code.length)
    (fails : disassembleFrom offset (code.drop offset) = .error error) :
    ∃ place listing, place < code.length ∧ Covers (code.take place) offset listing ∧
      decodeAt code place = .error error := by
  rcases Nat.lt_or_eq_of_le bound with inside | rfl
  · rw [disassembleFrom_drop inside] at fails
    cases decoded : decodeAt code offset with
    | error found =>
        rw [decoded] at fails
        rcases Except.error.inj fails with rfl
        refine ⟨offset, [], inside, ?_, decoded⟩
        apply covers_nil_iff.mpr
        exact (List.length_take_of_le bound).symm
    | ok entry =>
        have further : offset < entry.next := by
          have positive := entry.opcode.length_pos
          simp only [Entry.next, offset_of_decodeAt decoded]
          omega
        have later : disassembleFrom entry.next (code.drop entry.next) = .error error := by
          rw [decoded] at fails
          simp only [bind, Except.bind] at fails
          cases rest : disassembleFrom entry.next (code.drop entry.next) with
          | error found => simpa [rest] using fails
          | ok entries => simp [rest, pure, Except.pure] at fails
        rcases exists_of_disassembleFrom_error (next_le_of_decodeAt decoded) later with
          ⟨place, listing, within, covers, stuck⟩
        refine ⟨place, entry :: listing, within, ?_, stuck⟩
        have reached := covers.le_length
        rw [List.length_take] at reached
        apply Covers.cons _ covers
        apply decodeAt_take decoded
        omega
  · rw [List.drop_length, disassembleFrom_nil] at fails
    contradiction
termination_by code.length - offset

theorem exists_stuck (fails : disassemble code = .error error) :
    ∃ place listing, Stuck code place listing error := by
  rcases exists_of_disassembleFrom_error (Nat.zero_le code.length) fails with
    ⟨place, listing, inside, covers, stuck⟩
  exact ⟨place, listing, inside, disassemble_eq_ok_iff.mpr covers, stuck⟩

namespace Stuck

/-- No piece that reaches beyond the place has a listing. -/
theorem length_le (stuck : Stuck code place listing error) {length : Nat}
    (bound : length ≤ code.length) {other : Listing}
    (listed : disassemble (code.take length) = .ok other) : length ≤ place := by
  by_contra beyond
  have split : code.take length = code.take place ++ (code.take length).drop place := by
    have whole := List.take_append_drop place (code.take length)
    rw [List.take_take, Nat.min_eq_left (by omega)] at whole
    exact whole.symm
  have size : (code.take length).length = length := List.length_take_of_le bound
  have front : (code.take place).length = place := List.length_take_of_le stuck.inside.le
  -- The first instruction behind the place would also be one of the whole.
  have covers := disassemble_eq_ok_iff.mp stuck.lists
  have appended := covers.disassembleFrom_append ((code.take length).drop place)
  rw [← split, List.drop_zero, ← disassemble, listed, front,
    disassembleFrom_drop (by omega)] at appended
  cases decoded : decodeAt (code.take length) place with
  | error found =>
      rw [decoded] at appended
      contradiction
  | ok entry =>
      have whole := decodeAt_append decoded (code.drop length)
      rw [List.take_append_drop, stuck.fails] at whole
      contradiction

theorem exists_byte (stuck : Stuck code place listing error) :
    ∃ byte, code[place]? = some byte ∧
      (error = .trap place (.unknownOpcode byte) ∨
        error = .trap place (.truncated Word.size (code.length - place - 1)) ∧
          code.length - place - 1 < Word.size) := by
  have fails := stuck.fails
  rw [decodeAt, List.drop_eq_getElem_cons stuck.inside] at fails
  have causes := Entry.error_of_decode fails
  rw [List.length_drop, Nat.sub_add_eq] at causes
  exact ⟨_, List.getElem?_eq_getElem stuck.inside, causes⟩

end Stuck

end Failure

/-- A listing tiles its bytecode.  Where there is none, the attempt ends behind the longest piece
from the start that has one, at an unknown opcode or an operand that is cut off.  And a listing, or
the lack of one, is found piece by piece: behind bytecode that has a listing only offsets change. -/
theorem disassembly_tiles_and_composes :
    (∀ code listing, disassemble code = .ok listing → listing.Tiles code) ∧
    (∀ code error, disassemble code = .error error → ∃ place byte,
      error.ip? = some place ∧ place < code.length ∧ code[place]? = some byte ∧
      (∃ listing, disassemble (code.take place) = .ok listing) ∧
      (∀ length ≤ code.length, (∃ listing, disassemble (code.take length) = .ok listing) →
        length ≤ place) ∧
      decodeAt code place = .error error ∧
      (error = .trap place (.unknownOpcode byte) ∨
        error = .trap place (.truncated 8 (code.length - place - 1)) ∧
          code.length - place - 1 < 8)) ∧
    ∀ front listing, disassemble front = .ok listing → ∀ behind,
      (∀ rest, disassemble behind = .ok rest →
        disassemble (front ++ behind) = .ok (listing ++ rest.shift front.length)) ∧
      ∀ error, disassemble behind = .error error →
        disassemble (front ++ behind) = .error (error.shift front.length) := by
  refine ⟨fun _ _ listed => tiles_of_disassemble listed, ?failure, ?composition⟩
  case failure =>
    intro code error fails
    rcases exists_stuck fails with ⟨place, listing, stuck⟩
    rcases stuck.exists_byte with ⟨byte, present, causes⟩
    refine ⟨place, byte, ?_, stuck.inside, present, ⟨listing, stuck.lists⟩, ?_, stuck.fails, causes⟩
    · exact Entry.ip?_of_decode_error stuck.fails
    · rintro length bound ⟨other, listed⟩
      exact stuck.length_le bound listed
  case composition =>
    intro front listing listed behind
    have appended := disassemble_append listed behind
    constructor
    · intro rest listedBehind
      rw [appended, listedBehind]
      rfl
    · intro error fails
      rw [appended, fails]
      rfl

/-- A POP, whose byte is all of its instruction. -/
def lonePop : Bytes := Opcode.pop.encode none

/-- A PUSH that ends in its operand. -/
def cutPush : Bytes := (Opcode.push.encode (some 0x030201)).take 4

/-- Behind the POP the PUSH is as incomplete as by itself, and the POP is all that can be listed. -/
theorem disassemble_pop_cutPush :
    Tiles [⟨0, .pop, none⟩] lonePop ∧
      disassemble (lonePop ++ cutPush) = .error (.trap 1 (.truncated 8 3)) ∧
      ∀ length ≤ 5, (∃ listing, disassemble ((lonePop ++ cutPush).take length) = .ok listing) →
        length ≤ 1 := by
  have listed : disassemble lonePop = .ok [⟨0, .pop, none⟩] :=
    disassemble_eq_ok_iff.mpr (.cons rfl .nil)
  have cut : disassemble cutPush = .error (.trap 0 (.truncated 8 3)) := by
    rw [disassemble, cutPush, Opcode.encode, List.take_succ_cons, disassembleFrom]
    rfl
  rcases disassembly_tiles_and_composes with ⟨tiles, failure, composition⟩
  have fails : disassemble (lonePop ++ cutPush) = .error (.trap 1 (.truncated 8 3)) :=
    (composition lonePop _ listed cutPush).2 _ cut
  rcases failure _ _ fails with ⟨place, _, ip, _, _, _, longest, _⟩
  rcases Option.some.inj ip with rfl
  exact ⟨tiles _ _ listed, fails, longest⟩

end Listing

end StackMachine
