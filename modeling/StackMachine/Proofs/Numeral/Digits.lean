import Mathlib.Tactic.IntervalCases
import StackMachine.Numeral

/-!
# Reading digits back

A number is read back from its digits in any base up to sixteen, and zeros in front of them do not
count.  So decimal, hexadecimal and padded hexadecimal texts each stand for one number only, and
none of them contains a character that is not a digit.
-/

namespace StackMachine.Numeral

/-- The value of a digit; letters stand for the digits from ten on. -/
def digitValue (digit : Char) : Nat :=
  if digit.isDigit then digit.toNat - '0'.toNat else digit.toNat - 'a'.toNat + 10

/-- The number that digits write, the first of which counts most. -/
def valueOf (base : Nat) (digits : List Char) : Nat :=
  digits.foldl (fun value digit => base * value + digitValue digit) 0

variable {base : Nat}

theorem digitValue_digitChar {value : Nat} (small : value < 16) :
    digitValue (Nat.digitChar value) = value := by
  interval_cases value <;> rfl

theorem valueOf_concat (base : Nat) (digits : List Char) (digit : Char) :
    valueOf base (digits ++ [digit]) = base * valueOf base digits + digitValue digit := by
  simp [valueOf]

theorem valueOf_toDigits (several : 1 < base) (known : base ≤ 16) (value : Nat) :
    valueOf base (Nat.toDigits base value) = value := by
  induction value using Nat.strongRecOn with
  | ind value ih =>
      rw [Nat.toDigits_eq_if several]
      split
      · rename_i single
        have alone : valueOf base [Nat.digitChar value] = digitValue (Nat.digitChar value) := by
          simp [valueOf]
        rw [alone]
        exact digitValue_digitChar (Nat.lt_of_lt_of_le single known)
      · rename_i more
        have positive : 0 < value := by omega
        have last : value % base < 16 :=
          Nat.lt_of_lt_of_le (Nat.mod_lt value (Nat.zero_lt_of_lt several)) known
        rw [valueOf_concat, ih (value / base) (Nat.div_lt_self positive several),
          digitValue_digitChar last]
        exact Nat.div_add_mod value base

theorem valueOf_leftpad (base width : Nat) (digits : List Char) :
    valueOf base (digits.leftpad width '0') = valueOf base digits := by
  have zeros : ∀ count, valueOf base (List.replicate count '0') = 0 := by
    intro count
    induction count with
    | zero => rfl
    | succ count ih =>
        rw [List.replicate_succ', valueOf_concat, ih]
        rfl
  have front := zeros (width - digits.length)
  unfold valueOf at front ⊢
  rw [List.leftpad, List.foldl_append, front]

theorem toDigits_injective (several : 1 < base) (known : base ≤ 16) :
    Function.Injective (Nat.toDigits base) :=
  Function.LeftInverse.injective (valueOf_toDigits several known)

theorem decimal_injective : Function.Injective decimal := by
  intro first second same
  apply toDigits_injective (by decide : 1 < 10) (by decide)
  exact String.ofList_injective same

theorem hexadecimal_injective : Function.Injective hexadecimal := by
  intro first second same
  apply toDigits_injective (by decide : 1 < 16) (by decide)
  exact String.ofList_injective same

theorem toList_paddedHexadecimal (width value : Nat) :
    (paddedHexadecimal width value).toList = (Nat.toDigits 16 value).leftpad width '0' := by
  rw [paddedHexadecimal, padLeft, hexadecimal, String.toList_ofList, String.toList_ofList]

theorem paddedHexadecimal_injective (width : Nat) :
    Function.Injective (paddedHexadecimal width) := by
  intro first second same
  have digits := congrArg String.toList same
  rw [toList_paddedHexadecimal, toList_paddedHexadecimal] at digits
  have values := congrArg (valueOf 16) digits
  rw [valueOf_leftpad, valueOf_leftpad] at values
  rwa [valueOf_toDigits (by decide) (by decide), valueOf_toDigits (by decide) (by decide)] at values

section Absent

variable {char : Char} (other : ∀ value < 16, Nat.digitChar value ≠ char)

include other

theorem not_mem_toDigits (several : 1 < base) (known : base ≤ 16) (value : Nat) :
    char ∉ Nat.toDigits base value := by
  induction value using Nat.strongRecOn with
  | ind value ih =>
      rw [Nat.toDigits_eq_if several]
      split
      · rename_i single
        intro member
        apply other value (Nat.lt_of_lt_of_le single known)
        exact (List.mem_singleton.mp member).symm
      · rename_i more
        have positive : 0 < value := by omega
        intro member
        rcases List.mem_append.mp member with front | last
        · exact ih (value / base) (Nat.div_lt_self positive several) front
        · apply other (value % base)
          · exact Nat.lt_of_lt_of_le (Nat.mod_lt value (Nat.zero_lt_of_lt several)) known
          · exact (List.mem_singleton.mp last).symm

theorem not_mem_decimal (value : Nat) : char ∉ (decimal value).toList := by
  rw [decimal, String.toList_ofList]
  exact not_mem_toDigits other (by decide) (by decide) value

theorem not_mem_hexadecimal (value : Nat) : char ∉ (hexadecimal value).toList := by
  rw [hexadecimal, String.toList_ofList]
  exact not_mem_toDigits other (by decide) (by decide) value

theorem not_mem_paddedHexadecimal (width value : Nat) :
    char ∉ (paddedHexadecimal width value).toList := by
  rw [toList_paddedHexadecimal, List.leftpad]
  intro member
  rcases List.mem_append.mp member with zeros | digits
  · apply other 0 (by decide)
    exact (List.eq_of_mem_replicate zeros).symm
  · exact not_mem_toDigits other (by decide) (by decide) value digits

end Absent

end StackMachine.Numeral
