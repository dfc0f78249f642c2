import StackMachine.Error
import StackMachine.Word

/-!
# Program files

A program is stored raw or in a container: the four bytes `OBPL`, a version byte, the length of the
bytecode as a four-byte little-endian number, and the bytecode.  The first magic byte is no opcode,
so a file that starts with the magic is never a raw program that runs.
-/

namespace StackMachine

namespace Container

def magic : Bytes := [0x4F, 0x42, 0x50, 0x4C]

/-- The one version of the format. -/
def version : UInt8 := 1

/-- Bytes of the length field. -/
def lengthWidth : Nat := 4

/-- Why a byte string is not a container, or bytecode has none. -/
inductive Fault where
  /-- The header is not complete. -/
  | truncated
  | badMagic
  | unsupportedVersion (found : UInt8)
  | lengthMismatch (declared found : Nat)
  /-- The length of the bytecode does not fit its field. -/
  | tooLong
  deriving DecidableEq, Repr

def Fault.reason : Fault → String
  | truncated => "truncated"
  | badMagic => "bad magic"
  | unsupportedVersion found => s!"unsupported version {found.toNat}"
  | lengthMismatch declared found => s!"declared {declared} bytes of bytecode, found {found}"
  | tooLong => "program exceeds 4 GiB"

def encode (code : Bytes) : Except Fault Bytes :=
  if code.length < UInt32.size then
    .ok (magic ++ version :: LittleEndian.encode lengthWidth code.length ++ code)
  else
    .error .tooLong

/-- The bytecode of a container.  The header has to be complete before its fields are looked at,
which are then checked from left to right. -/
def decode : Bytes → Except Fault Bytes
  | m₀ :: m₁ :: m₂ :: m₃ :: found :: l₀ :: l₁ :: l₂ :: l₃ :: code =>
      let declared := LittleEndian.decode [l₀, l₁, l₂, l₃]
      if [m₀, m₁, m₂, m₃] ≠ magic then .error .badMagic
      else if found ≠ version then .error (.unsupportedVersion found)
      else if code.length ≠ declared then .error (.lengthMismatch declared code.length)
      else .ok code
  | _ => .error .truncated

/-- Whether a file claims to be a container. -/
def isContainer (file : Bytes) : Bool := magic.isPrefixOf file

end Container

def Container.Fault.toError (fault : Fault) : Error := .undecodable fault.reason

namespace ProgramFile

/-- The bytecode of a program file: that of the container, or the file itself. -/
def read (file : Bytes) : Except Error Bytes :=
  if Container.isContainer file then (Container.decode file).mapError Container.Fault.toError
  else .ok file

end ProgramFile

end StackMachine
