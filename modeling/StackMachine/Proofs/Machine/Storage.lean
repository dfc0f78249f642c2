import StackMachine.Machine.Memory
import StackMachine.Word.Lemmas

/-!
# Memory as a string of bytes

Writing a word replaces the eight bytes from its address on and keeps the bytes before and after
them.  Reading a word takes those eight bytes.
-/

namespace StackMachine.Memory

/-- The memory after the bytes from `address` on are replaced by those of a word. -/
def splice (memory : Memory) (address : Nat) (word : UInt64) : Memory :=
  ⟨(memory.bytes.toList.take address ++ Word.bytes word ++
    memory.bytes.toList.drop (address + Word.size)).toArray⟩

theorem toList_putBytes {bytes : Array UInt8} {position : Nat} {written : Bytes}
    (fits : position + written.length ≤ bytes.size) :
    (putBytes bytes position written).toList =
      bytes.toList.take position ++ written ++ bytes.toList.drop (position + written.length) := by
  induction written generalizing bytes position with
  | nil => simp [putBytes]
  | cons byte rest ih =>
      rw [List.length_cons] at fits
      have bound : position < bytes.toList.length := by rw [Array.length_toList]; omega
      have before : (bytes.toList.set position byte).take (position + 1) =
          bytes.toList.take position ++ [byte] := by
        rw [List.take_succ_eq_append_getElem (by simpa using bound),
          List.take_set_of_le (Nat.le_refl position), List.getElem_set_self]
      have behind : (bytes.toList.set position byte).drop (position + 1 + rest.length) =
          bytes.toList.drop (position + (byte :: rest).length) := by
        rw [List.drop_set_of_lt (by omega), List.length_cons]
        congr 1
        omega
      rw [putBytes, ih (by rw [Array.size_setIfInBounds]; omega), Array.toList_setIfInBounds,
        before, behind]
      simp

theorem putWord_eq_splice {memory : Memory} {position : Nat} (word : UInt64)
    (fits : position + Word.size ≤ memory.size) :
    memory.putWord position word = memory.splice position word := by
  have inside : position + (Word.bytes word).length ≤ memory.bytes.size := by
    rwa [Word.length_bytes]
  rw [putWord, splice, ← Word.length_bytes word, ← toList_putBytes inside]

theorem wordAt_eq (memory : Memory) (position : Nat) :
    memory.wordAt position =
      Word.ofBytes ((memory.bytes.toList.drop position).take Word.size) := by
  simp [wordAt]

theorem size_splice {memory : Memory} {address : Nat} (word : UInt64)
    (fits : address + Word.size ≤ memory.size) :
    (memory.splice address word).size = memory.size := by
  rw [← putWord_eq_splice word fits, size_putWord]

theorem getElem?_splice {memory : Memory} {address : Nat} (word : UInt64)
    (fits : address + Word.size ≤ memory.size) (index : Nat) :
    (memory.splice address word).bytes.toList[index]? =
      if address ≤ index ∧ index < address + Word.size then (Word.bytes word)[index - address]?
      else memory.bytes.toList[index]? := by
  have length : memory.bytes.toList.length = memory.size := Array.length_toList
  have front : (memory.bytes.toList.take address).length = address := by
    rw [List.length_take]
    omega
  have written : (memory.bytes.toList.take address ++ Word.bytes word).length =
      address + Word.size := by
    rw [List.length_append, front, Word.length_bytes]
  simp only [splice]
  by_cases before : index < address
  · rw [List.getElem?_append_left (by omega), List.getElem?_append_left (by omega),
      List.getElem?_take_of_lt before, if_neg (by omega)]
  · by_cases covered : index < address + Word.size
    · rw [List.getElem?_append_left (by omega), List.getElem?_append_right (by omega), front,
        if_pos (by omega)]
    · rw [List.getElem?_append_right (by omega), written, List.getElem?_drop, if_neg (by omega)]
      congr 1
      omega

theorem take_splice {memory : Memory} {address : Nat} (word : UInt64)
    (fits : address ≤ memory.size) : (memory.splice address word).bytes.toList.take address =
      memory.bytes.toList.take address := by
  rw [splice, List.append_assoc]
  exact List.take_left' (List.length_take_of_le fits)

theorem wordAt_splice {memory : Memory} {address : Nat} (word : UInt64)
    (fits : address ≤ memory.size) : (memory.splice address word).wordAt address = word := by
  rw [wordAt_eq, splice, List.append_assoc]
  simp only [List.drop_left' (List.length_take_of_le fits),
    List.take_left' (Word.length_bytes word), Word.ofBytes_bytes]

/-- A word that none of the written bytes belong to reads as before. -/
theorem wordAt_splice_of_apart {memory : Memory} {address position : Nat} (word : UInt64)
    (fits : address + Word.size ≤ memory.size)
    (apart : position + Word.size ≤ address ∨ address + Word.size ≤ position) :
    (memory.splice address word).wordAt position = memory.wordAt position := by
  rw [wordAt_eq, wordAt_eq]
  congr 1
  apply List.ext_getElem?
  intro index
  by_cases taken : index < Word.size
  · rw [List.getElem?_take_of_lt taken, List.getElem?_take_of_lt taken, List.getElem?_drop,
      List.getElem?_drop, getElem?_splice word fits, if_neg (by omega)]
  · rw [List.getElem?_take_eq_none (Nat.not_lt.mp taken),
      List.getElem?_take_eq_none (Nat.not_lt.mp taken)]

end StackMachine.Memory
