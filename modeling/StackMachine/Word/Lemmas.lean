import Mathlib.Algebra.Order.Ring.Nat
import StackMachine.Word

/-!
# Reading back what was written

A number below the range of its width is read back from its bytes, and eight bytes are written back
from their word.  So words and strings of eight bytes stand for each other.
-/

namespace StackMachine

namespace LittleEndian

theorem decode_encode (width value : Nat) :
    decode (encode width value) = value % 256 ^ width := by
  induction width generalizing value with
  | zero => simp [encode, decode, Nat.mod_one]
  | succ width ih =>
      have split : value % 256 ^ (width + 1) = value % 256 + 256 * (value / 256 % 256 ^ width) := by
        rw [Nat.pow_succ', Nat.mod_mul]
      simp [encode, decode, ih, split]

theorem decode_lt (bytes : Bytes) : decode bytes < 256 ^ bytes.length := by
  induction bytes with
  | nil => simp [decode]
  | cons byte rest ih =>
      have bound := byte.toNat_lt
      simp only [decode, List.length_cons, Nat.pow_succ]
      omega

end LittleEndian

namespace Word

theorem ofBytes_bytes (word : UInt64) : ofBytes (bytes word) = word := by
  have bound : word.toNat < 256 ^ size := word.toNat_lt
  rw [ofBytes, bytes, LittleEndian.decode_encode, Nat.mod_eq_of_lt bound, UInt64.ofNat_toNat]

theorem bytes_ofBytes {code : Bytes} (whole : code.length = size) :
    bytes (ofBytes code) = code := by
  have bound : LittleEndian.decode code < 2 ^ 64 := by
    have := LittleEndian.decode_lt code
    rw [whole] at this
    exact this
  rw [bytes, ofBytes, UInt64.toNat_ofNat', Nat.mod_eq_of_lt bound, ← whole,
    LittleEndian.encode_decode]

theorem front?_bytes_append (word : UInt64) (rest : Bytes) :
    front? (bytes word ++ rest) = some word := by
  have front : (bytes word ++ rest).take size = bytes word :=
    List.take_left' (length_bytes word)
  simp [front?, front, ofBytes_bytes]

end Word

end StackMachine
