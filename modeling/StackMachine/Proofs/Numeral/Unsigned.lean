import StackMachine.Proofs.Numeral.Digits

/-!
# Unsigned numbers as they are typed

A number is typed as at least one decimal digit, with or without a plus sign in front.  Zeros in
front of it do not count, and nothing else may stand beside it.  Reading accepts exactly these
texts, as long as the number is below the bound.
-/

namespace StackMachine.Numeral

/-- A text is a way to type a number. -/
def Types (text : String) (value : Nat) : Prop :=
  ∃ sign digits, text.toList = sign ++ digits ∧ (sign = [] ∨ sign = ['+']) ∧ digits ≠ [] ∧
    (∀ digit ∈ digits, digit.isDigit = true) ∧ valueOf 10 digits = value

variable {value bound : Nat}

theorem digit?_eq_some_iff {char : Char} :
    digit? char = some value ↔ char.isDigit = true ∧ digitValue char = value := by
  have known : ('0' ≤ char ∧ char ≤ '9') ↔ char.isDigit = true := by
    simp [Char.isDigit, Char.le_def]
  by_cases digit : char.isDigit = true
  · simp [digit?, known, digitValue, digit]
  · simp [digit?, known, digit]

theorem digitsFrom?_eq_some_iff {chars : List Char} {front : Nat} :
    digitsFrom? front chars = some value ↔
      (∀ digit ∈ chars, digit.isDigit = true) ∧
        chars.foldl (fun value digit => 10 * value + digitValue digit) front = value := by
  induction chars generalizing front with
  | nil => simp [digitsFrom?]
  | cons char rest ih =>
      simp only [digitsFrom?, Option.bind_eq_bind, Option.bind_eq_some_iff, digit?_eq_some_iff, ih,
        List.forall_mem_cons, List.foldl_cons]
      constructor
      · rintro ⟨_, ⟨digit, rfl⟩, digits, total⟩
        exact ⟨⟨digit, digits⟩, total⟩
      · rintro ⟨⟨digit, digits⟩, total⟩
        exact ⟨_, ⟨digit, rfl⟩, digits, total⟩

theorem digits?_eq_some_iff {chars : List Char} :
    digits? chars = some value ↔
      chars ≠ [] ∧ (∀ digit ∈ chars, digit.isDigit = true) ∧ valueOf 10 chars = value := by
  cases chars with
  | nil => simp [digits?]
  | cons char rest => simp [digits?, digitsFrom?_eq_some_iff, valueOf]

/-- Reading accepts what is a way to type a number below the bound, and nothing else. -/
theorem unsigned?_eq_some_iff {text : String} :
    unsigned? bound text = some value ↔ Types text value ∧ value < bound := by
  simp only [unsigned?, Option.filter_eq_some_iff, decide_eq_true_eq]
  apply and_congr_left
  intro _
  split
  · rename_i rest signed
    rw [digits?_eq_some_iff]
    constructor
    · intro typed
      exact ⟨['+'], rest, signed, Or.inr rfl, typed⟩
    · rintro ⟨sign, digits, whole, rfl | rfl, typed⟩
      · have plus : '+' ∈ digits := by
          rw [← List.nil_append digits, ← whole, signed]
          exact List.mem_cons_self
        exact absurd (typed.2.1 '+' plus) (by decide)
      · rw [signed] at whole
        rcases List.cons.inj whole with ⟨_, rfl⟩
        exact typed
  · rename_i unsigned
    rw [digits?_eq_some_iff]
    constructor
    · intro typed
      exact ⟨[], text.toList, rfl, Or.inl rfl, typed⟩
    · rintro ⟨sign, digits, whole, rfl | rfl, typed⟩
      · rw [whole]
        exact typed
      · exact absurd whole (unsigned digits)

end StackMachine.Numeral
