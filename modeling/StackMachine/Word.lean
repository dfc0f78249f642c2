/-!
# Little-endian words

Operands, words in memory and the length of a program container are unsigned numbers written with
the least significant byte first.  `LittleEndian` is the number format for any width; `Word` fixes
the width of the machine's words at eight bytes.

Every byte string is the one way to write its number in as many bytes:
`LittleEndian.encode_decode`.
-/

namespace StackMachine

/-- A string of bytes: bytecode or the contents of a file. -/
abbrev Bytes := List UInt8

namespace LittleEndian

/-- The `width` low bytes of `value`, least significant first. -/
def encode : (width value : Nat) → Bytes
  | 0, _ => []
  | width + 1, value => UInt8.ofNat value :: encode width (value / 256)

/-- The number written by a byte string, least significant byte first. -/
def decode : Bytes → Nat
  | [] => 0
  | byte :: rest => byte.toNat + 256 * decode rest

@[simp]
theorem length_encode (width value : Nat) : (encode width value).length = width := by
  induction width generalizing value with
  | zero => rfl
  | succ width ih => simp [encode, ih]

theorem encode_decode (bytes : Bytes) : encode bytes.length (decode bytes) = bytes := by
  induction bytes with
  | nil => rfl
  | cons byte rest ih =>
      have bound := byte.toNat_lt
      have low : UInt8.ofNat (byte.toNat + 256 * decode rest) = byte := by
        apply UInt8.toNat_inj.mp
        rw [UInt8.toNat_ofNat']
        omega
      have high : (byte.toNat + 256 * decode rest) / 256 = decode rest := by omega
      simp [encode, decode, low, high, ih]

end LittleEndian

namespace Word

/-- Bytes of a word, in memory and in an operand. -/
def size : Nat := 8

def bytes (word : UInt64) : Bytes := LittleEndian.encode size word.toNat

def ofBytes (bytes : Bytes) : UInt64 := UInt64.ofNat (LittleEndian.decode bytes)

/-- The word at the front of a byte string, when all its bytes are there. -/
def front? (code : Bytes) : Option UInt64 :=
  let front := code.take size
  if front.length = size then some (ofBytes front) else none

@[simp]
theorem length_bytes (word : UInt64) : (bytes word).length = size :=
  LittleEndian.length_encode size word.toNat

end Word

end StackMachine
