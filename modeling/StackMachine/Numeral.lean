/-!
# Numerals

The written forms of natural numbers: decimal, lower-case hexadecimal, padding to a column, and the
unsigned decimal numbers of the command line.
-/

namespace StackMachine.Numeral

def decimal (value : Nat) : String := String.ofList (Nat.toDigits 10 value)

def hexadecimal (value : Nat) : String := String.ofList (Nat.toDigits 16 value)

def padLeft (width : Nat) (fill : Char) (text : String) : String :=
  String.ofList (text.toList.leftpad width fill)

def padRight (width : Nat) (fill : Char) (text : String) : String :=
  String.ofList (text.toList.rightpad width fill)

/-- The hexadecimal text of a number with at least `width` digits. -/
def paddedHexadecimal (width value : Nat) : String := padLeft width '0' (hexadecimal value)

/-- The value of a decimal digit; only the ten ASCII digits have one. -/
def digit? (char : Char) : Option Nat :=
  if '0' ≤ char ∧ char ≤ '9' then some (char.toNat - '0'.toNat) else none

/-- Reads the remaining digits after those that make up `value`. -/
def digitsFrom? (value : Nat) : List Char → Option Nat
  | [] => some value
  | char :: rest => do digitsFrom? (10 * value + (← digit? char)) rest

/-- Reads a digit string, which is not empty. -/
def digits? : List Char → Option Nat
  | [] => none
  | chars => digitsFrom? 0 chars

/-- Reads an unsigned number below `bound`: an optional plus sign, then at least one digit. -/
def unsigned? (bound : Nat) (text : String) : Option Nat :=
  let value? := match text.toList with
    | '+' :: rest => digits? rest
    | chars => digits? chars
  value?.filter (· < bound)

end StackMachine.Numeral
