import StackMachine.Config
import StackMachine.Log
import StackMachine.Numeral

/-!
# Options of the command line

The arguments after the program path are options, read from left to right: three sizes and a log
level, each followed by its value, and two switches.  A later value replaces an earlier one.  The
first argument that is not understood ends the reading; it is reported under the log level read so
far.
-/

namespace StackMachine.CommandLine

inductive SizeOption where
  | memory | stack | depth
  deriving DecidableEq, Repr

def SizeOption.set (option : SizeOption) (config : Config) (value : UInt32) : Config :=
  match option with
  | memory => { config with memorySize := value }
  | stack => { config with stackSize := value }
  | depth => { config with maxCallDepth := value }

/-- What an argument asks for where an option is expected. -/
inductive Flag where
  | size (option : SizeOption)
  | logLevel
  /-- Show the listing of the program in place of running it. -/
  | listing
  /-- Log every instruction before it runs. -/
  | trace
  deriving DecidableEq, Repr

def Flag.ofArgument? : String → Option Flag
  | "--mem" => some (.size .memory)
  | "--stack" => some (.size .stack)
  | "--depth" => some (.size .depth)
  | "--log-level" => some .logLevel
  | "--disasm" => some .listing
  | "--trace" => some .trace
  | _ => none

/-- Everything the options decide. -/
structure Options where
  config : Config
  listing : Bool
  trace : Bool
  /-- The lowest level that is logged. -/
  minimum : Level
  deriving DecidableEq, Repr

/-- What holds without options. -/
def Options.standard : Options := ⟨.standard, false, false, .standard⟩

/-- Why an argument is not understood. -/
inductive Fault where
  | missingValue (flag : String)
  | invalidNumber (flag value : String)
  | unknownLevel (value : String)
  | unexpected (argument : String)
  deriving DecidableEq, Repr

def Fault.message : Fault → String
  | missingValue flag => s!"{flag} requires an argument"
  | invalidNumber flag value => s!"Invalid value for {flag}: '{value}' is not a valid number"
  | unknownLevel value => s!"Unknown log level: {value}"
  | unexpected argument => s!"Unexpected argument: {argument}\n"

/-- A fault and the lowest level that is logged when it is found. -/
structure Rejection where
  fault : Fault
  minimum : Level
  deriving DecidableEq, Repr

/-- Reads a size: an unsigned number of 32 bits. -/
def sizeValue? (text : String) : Option UInt32 :=
  (Numeral.unsigned? UInt32.size text).map UInt32.ofNat

def Options.read (options : Options) : List String → Except Rejection Options
  | [] => .ok options
  | argument :: rest =>
      match Flag.ofArgument? argument with
      | none => .error ⟨.unexpected argument, options.minimum⟩
      | some .listing => read { options with listing := true } rest
      | some .trace => read { options with trace := true } rest
      | some .logLevel =>
          match rest with
          | [] => .error ⟨.missingValue argument, options.minimum⟩
          | value :: rest =>
              match Level.ofName? value with
              | none => .error ⟨.unknownLevel value, options.minimum⟩
              | some level => read { options with minimum := level } rest
      | some (.size option) =>
          match rest with
          | [] => .error ⟨.missingValue argument, options.minimum⟩
          | value :: rest =>
              match sizeValue? value with
              | none => .error ⟨.invalidNumber argument value, options.minimum⟩
              | some size => read { options with config := option.set options.config size } rest

end StackMachine.CommandLine
