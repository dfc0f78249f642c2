/-!
# Log

Messages have a level, and a log keeps those that are at least as severe as its minimum level at the
time they are written.
-/

namespace StackMachine

/-- How severe a message is. -/
inductive Level where
  | debug | info | warn | error
  deriving DecidableEq, Repr

namespace Level

/-- Every level, the least severe first. -/
def all : List Level := [debug, info, warn, error]

def severity : Level → Nat
  | debug => 0
  | info => 1
  | warn => 2
  | error => 3

def name : Level → String
  | debug => "DEBUG"
  | info => "INFO"
  | warn => "WARN"
  | error => "ERROR"

/-- The level of a name given by a user, in upper or lower case of its ASCII letters. -/
def ofName? (name : String) : Option Level :=
  match String.ofList (name.toList.map Char.toLower) with
  | "debug" | "trace" => some debug
  | "info" => some info
  | "warn" | "warning" => some warn
  | "error" => some error
  | _ => none

/-- Whether messages of this level are written when `minimum` is the lowest level that is. -/
def isEnabled (level minimum : Level) : Bool := minimum.severity ≤ level.severity

/-- The lowest level that is written unless another one is asked for. -/
def standard : Level := info

end Level

/-- The messages written so far and the lowest level still written. -/
structure Log where
  minimum : Level
  /-- The lines, the first one first. -/
  lines : Array String

namespace Log

def empty : Log := ⟨.standard, #[]⟩

def setMinimum (log : Log) (minimum : Level) : Log := { log with minimum }

def write (log : Log) (level : Level) (message : String) : Log :=
  if level.isEnabled log.minimum then
    { log with lines := log.lines.push s!"[{level.name}] {message}\n" }
  else log

def text (log : Log) : String := String.join log.lines.toList

end Log

end StackMachine
