import StackMachine.Numeral

/-!
# Errors

`Trap` lists the causes for which an instruction cannot complete, without its position.  `Error`
adds the position and the failures of the lifecycle, of labels and of program files.  Only
`Error.message` knows the wording.
-/

namespace StackMachine

/-- Why an instruction cannot complete. -/
inductive Trap where
  | stackOverflow (capacity : Nat)
  | stackUnderflow (needed available : Nat)
  | callStackOverflow (maxDepth : Nat)
  /-- A return without a pending call. -/
  | callStackUnderflow
  | divideByZero
  /-- A word at this address is not inside the memory. -/
  | memoryOutOfRange (address : UInt64) (memorySize : Nat)
  | jumpOutOfRange (target : UInt64) (codeSize : Nat)
  /-- The bytecode ends inside an instruction. -/
  | truncated (requested available : Nat)
  | unknownOpcode (byte : UInt8)
  deriving DecidableEq, Repr

inductive Error where
  /-- An instance that still holds its buffers cannot acquire them again. -/
  | alreadyInitialized
  /-- The instance holds no buffers, or no program has been loaded. -/
  | notInitialized
  | allocationFailure (buffer : String) (bytes : Nat)
  | invalidConfig (reason : String)
  /-- The instruction at `ip` cannot complete. -/
  | trap (ip : Nat) (cause : Trap)
  | undefinedLabel (label : String)
  | duplicateLabel (label : String)
  /-- A program file is not readable as one. -/
  | undecodable (reason : String)
  deriving DecidableEq, Repr

/-- The category of an error, for hosts that do not need its details. -/
inductive ErrorKind where
  | alreadyInitialized | notInitialized | allocationFailure | invalidConfig
  | stackOverflow | stackUnderflow | callStackOverflow | callStackUnderflow
  | divideByZero | outOfRange | truncatedBytecode | unknownOpcode
  | decode
  deriving DecidableEq, Repr

def Trap.kind : Trap → ErrorKind
  | stackOverflow _ => .stackOverflow
  | stackUnderflow _ _ => .stackUnderflow
  | callStackOverflow _ => .callStackOverflow
  | callStackUnderflow => .callStackUnderflow
  | divideByZero => .divideByZero
  | memoryOutOfRange _ _ => .outOfRange
  | jumpOutOfRange _ _ => .outOfRange
  | truncated _ _ => .truncatedBytecode
  | unknownOpcode _ => .unknownOpcode

/-- The wording of a trap of the instruction at `ip`. -/
def Trap.message (ip : Nat) : Trap → String
  | stackOverflow capacity => s!"stack overflow at ip {ip}: capacity {capacity}"
  | stackUnderflow needed available =>
      s!"stack underflow at ip {ip}: needed {needed}, available {available}"
  | callStackOverflow maxDepth => s!"call stack overflow at ip {ip}: max depth {maxDepth}"
  | callStackUnderflow => s!"return without call at ip {ip}"
  | divideByZero => s!"division by zero at ip {ip}"
  | memoryOutOfRange address memorySize =>
      s!"memory access out of range at ip {ip}: address {address.toNat}, memory size {memorySize}"
  | jumpOutOfRange target codeSize =>
      s!"jump target out of range at ip {ip}: target {target.toNat}, bytecode size {codeSize}"
  | truncated requested available =>
      s!"truncated bytecode at ip {ip}: needed {requested} bytes, {available} available"
  | unknownOpcode byte =>
      "unknown opcode 0x" ++ Numeral.paddedHexadecimal 2 byte.toNat ++ s!" at ip {ip}"

namespace Error

def kind : Error → ErrorKind
  | alreadyInitialized => .alreadyInitialized
  | notInitialized => .notInitialized
  | allocationFailure _ _ => .allocationFailure
  | invalidConfig _ => .invalidConfig
  | trap _ cause => cause.kind
  | undefinedLabel _ => .decode
  | duplicateLabel _ => .decode
  | undecodable _ => .decode

/-- The offset of the instruction that could not complete. -/
def ip? : Error → Option Nat
  | trap ip _ => some ip
  | _ => none

def message : Error → String
  | alreadyInitialized => "vm instance is already initialized"
  | notInitialized => "vm instance is not initialized"
  | allocationFailure buffer bytes => s!"failed to allocate {bytes} bytes for {buffer}"
  | invalidConfig reason => s!"invalid configuration: {reason}"
  | trap ip cause => cause.message ip
  | undefinedLabel label => s!"undefined label: {label}"
  | duplicateLabel label => s!"duplicate label: {label}"
  | undecodable reason => s!"decoding error: {reason}"

end Error

end StackMachine
