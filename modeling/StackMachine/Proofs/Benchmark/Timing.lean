import Mathlib.Algebra.Order.Ring.Nat
import StackMachine.Benchmark.Report

/-!
# What a benchmark measures

The clock alone decides the number of timed calls: it is the position of the first reading that is
at least the minimum.  From this position follow the calls of the subject, the total time and the
instruction count, whatever the clock shows and whatever the subject does.

The number is kept in 64 bits, and the average divides by the last 32 of them.  So there is an
average unless the number is a multiple of `2 ^ 32`, and it is the one per call as long as the
number is positive and below `2 ^ 32`.  A clock whose first reading is late leaves no timed call and
thus no average.
-/

namespace StackMachine.Benchmark

/-- The first `count` readings of a clock. -/
def readings (clock : Nat → Nat) (count : Nat) : List Nat := (List.range count).map clock

/-- The reading at `position` is the first one that is at least `minimum`. -/
structure FirstReached (clock : Nat → Nat) (minimum position : Nat) : Prop where
  early : ∀ index < position, clock index < minimum
  reached : minimum ≤ clock position

/-- The instructions of the last one of some calls, or `before` without one. -/
def Subject.lastCount {State : Type} (subject : Subject State) (before : UInt64) (state : State) :
    (calls : Nat) → UInt64
  | 0 => before
  | calls + 1 => (subject (subject.after calls state)).1

section Clock

variable {clock : Nat → Nat} {minimum position : Nat}

theorem readings_succ (count : Nat) :
    readings clock (count + 1) = clock 0 :: readings (fun index => clock (index + 1)) count := by
  simp [readings, List.range_succ_eq_map, Function.comp_def]

theorem FirstReached.next (first : FirstReached clock minimum (position + 1)) :
    FirstReached (fun index => clock (index + 1)) minimum position :=
  ⟨fun index before => first.early (index + 1) (Nat.succ_lt_succ before), first.reached⟩

/-- If some reading is at least the minimum, there is a first one. -/
theorem exists_firstReached {index : Nat} (reached : minimum ≤ clock index) :
    ∃ position, FirstReached clock minimum position := by
  induction index generalizing clock with
  | zero => exact ⟨0, by simp, reached⟩
  | succ index ih =>
      rcases @ih (fun index => clock (index + 1)) reached with ⟨position, first⟩
      by_cases now : minimum ≤ clock 0
      · exact ⟨0, by simp, now⟩
      · refine ⟨position + 1, ?_, first.reached⟩
        rintro (_ | earlier) before
        · exact Nat.lt_of_not_le now
        · exact first.early earlier (Nat.lt_of_succ_lt_succ before)

theorem FirstReached.unique {other : Nat} (first : FirstReached clock minimum position)
    (second : FirstReached clock minimum other) : position = other := by
  rcases Nat.lt_trichotomy position other with earlier | same | later
  · exact absurd first.reached (Nat.not_le_of_lt (second.early position earlier))
  · exact same
  · exact absurd second.reached (Nat.not_le_of_lt (first.early other later))

theorem firstReached_steady {tick : Nat} (ticks : 0 < tick) (minimum : Nat) :
    FirstReached (fun index => (index + 1) * tick) minimum ((minimum - 1) / tick) where
  early := by
    intro index before
    have whole : (index + 1) * tick ≤ minimum - 1 := (Nat.le_div_iff_mul_le ticks).mp before
    have positive : 0 < (index + 1) * tick := Nat.mul_pos (Nat.succ_pos index) ticks
    omega
  reached := by
    have behind : minimum - 1 < ((minimum - 1) / tick + 1) * tick :=
      (Nat.div_lt_iff_lt_mul ticks).mp (Nat.lt_succ_self _)
    omega

end Clock

section Calls

variable {State : Type} (subject : Subject State) (state : State)

theorem Subject.after_add (calls more : Nat) :
    subject.after (calls + more) state = subject.after more (subject.after calls state) := by
  induction calls generalizing state with
  | zero => rw [Nat.zero_add, Subject.after]
  | succ calls ih => rw [Nat.succ_add, Subject.after, Subject.after, ih]

/-- A call moves the ones that are left one place on. -/
theorem Subject.lastCount_next (before : UInt64) (calls : Nat) :
    subject.lastCount (subject state).1 (subject state).2 calls =
      subject.lastCount before state (calls + 1) := by
  cases calls <;> rfl

theorem Subject.lastCount_after (before : UInt64) (earlier calls : Nat) :
    subject.lastCount before (subject.after earlier state) calls =
      if calls = 0 then before
      else (subject (subject.after (earlier + (calls - 1)) state)).1 := by
  cases calls with
  | zero => rfl
  | succ calls => simp [lastCount, after_add]

end Calls

section Loop

variable {State : Type} {subject : Subject State} {state : State} {name : String}
  {minimum position : Nat} {iterations executed : UInt64} {clock : Nat → Nat}

theorem measureFrom_of_lt {elapsed : Nat} (early : elapsed < minimum) (rest : List Nat) :
    measureFrom name minimum subject iterations executed state (elapsed :: rest) =
      measureFrom name minimum subject (iterations + 1) (subject state).1 (subject state).2
        rest := by
  rw [measureFrom, if_pos early]

theorem measureFrom_of_le {elapsed : Nat} (reached : minimum ≤ elapsed) (rest : List Nat) :
    measureFrom name minimum subject iterations executed state (elapsed :: rest) =
      rest.head?.map fun total => (⟨name, iterations, total, executed⟩, state) := by
  rw [measureFrom, if_neg (Nat.not_lt.mpr reached)]

/-- Readings below the minimum do not end a benchmark. -/
theorem measureFrom_eq_none {count : Nat} (early : ∀ index < count, clock index < minimum) :
    measureFrom name minimum subject iterations executed state (readings clock count) = none := by
  induction count generalizing clock iterations executed state with
  | zero => rfl
  | succ count ih =>
      rw [readings_succ, measureFrom_of_lt (early 0 (Nat.zero_lt_succ count))]
      exact ih fun index before => early (index + 1) (Nat.succ_lt_succ before)

/-- The loop takes one timed call for each reading before the first one that reaches the minimum,
and then one reading more. -/
theorem measureFrom_readings (first : FirstReached clock minimum position) (count : Nat) :
    measureFrom name minimum subject iterations executed state (readings clock count) =
      if position + 2 ≤ count then
        some (⟨name, iterations + UInt64.ofNat position, clock (position + 1),
          subject.lastCount executed state position⟩, subject.after position state)
      else none := by
  induction position generalizing clock iterations executed state count with
  | zero =>
      match count with
      | 0 => rfl
      | 1 => rw [readings_succ, measureFrom_of_le first.reached]; rfl
      | count + 2 =>
          rw [readings_succ, readings_succ, measureFrom_of_le first.reached,
            if_pos (Nat.le_add_left _ _)]
          simp [Subject.lastCount, Subject.after]
  | succ position ih =>
      match count with
      | 0 => rfl
      | count + 1 =>
          have counted : iterations + 1 + UInt64.ofNat position =
              iterations + UInt64.ofNat (position + 1) := by
            rw [UInt64.ofNat_add, UInt64.add_assoc, UInt64.add_comm 1]
            rfl
          rw [readings_succ, measureFrom_of_lt (first.early 0 (Nat.zero_lt_succ position)),
            ih first.next, counted, subject.lastCount_next state executed]
          simp only [Subject.after, Nat.add_right_comm position 1 2, Nat.add_le_add_iff_right]

end Loop

section Measure

variable {State : Type} (subject : Subject State) (start : State) (name : String)
  {clock : Nat → Nat} {minimum position : Nat}

theorem measure_readings (first : FirstReached clock minimum position) (count : Nat) :
    measure name minimum subject start (readings clock count) =
      if position + 2 ≤ count then
        some (⟨name, UInt64.ofNat position, clock (position + 1),
          subject.lastCount 0 (subject.after warmupCalls start) position⟩,
          subject.after (warmupCalls + position) start)
      else none := by
  rw [measure, measureFrom_readings first, UInt64.zero_add, subject.after_add]

/-- A benchmark ends exactly if some reading reaches the minimum and another one follows. -/
theorem measure_isSome_iff (count : Nat) :
    (measure name minimum subject start (readings clock count)).isSome ↔
      ∃ position, FirstReached clock minimum position ∧ position + 2 ≤ count := by
  constructor
  · intro ends
    by_cases late : ∃ index, minimum ≤ clock index
    · rcases late with ⟨index, reached⟩
      rcases exists_firstReached reached with ⟨position, first⟩
      exact ⟨position, first, by simpa [measure_readings subject start name first] using ends⟩
    · have early : ∀ index < count, clock index < minimum := fun index _ =>
        Nat.lt_of_not_le fun reached => late ⟨index, reached⟩
      simp [measure, measureFrom_eq_none early] at ends
  · rintro ⟨position, first, enough⟩
    simp [measure_readings subject start name first, enough]

/-- The average divides by the number of calls modulo `2 ^ 32`. -/
theorem Measurement.average?_eq {measurement : Measurement}
    (counted : measurement.iterations = UInt64.ofNat position) :
    measurement.average? =
      if 2 ^ 32 ∣ position then none else some (measurement.total / (position % 2 ^ 32)) := by
  have divisor : measurement.iterations.toUInt32.toNat = position % 2 ^ 32 := by
    rw [UInt64.toNat_toUInt32, counted, UInt64.toNat_ofNat']
    exact Nat.mod_mod_of_dvd position (by decide)
  have zero : measurement.iterations.toUInt32 = 0 ↔ 2 ^ 32 ∣ position := by
    rw [← UInt32.toNat_inj, divisor, Nat.dvd_iff_mod_eq_zero]
    rfl
  simp only [Measurement.average?, zero, divisor]

/-- Let the reading at `position` be the first one that is at least the minimum.  Then a benchmark
ends with the reading behind it, which is the total time.  It leaves the state of `5 + position`
calls, whatever a call does to the state, so it made this number of calls; `position` of them are
timed, and the instruction count is the one of the last timed call.

The average is the time of a timed call, if their number is positive and below `2 ^ 32`.  There is
none if the number is a multiple of `2 ^ 32`. -/
theorem measures_under_any_clock (first : FirstReached clock minimum position) :
    ∃ measurement : Measurement,
      (∀ count, measure name minimum subject start (readings clock count) =
        if position + 2 ≤ count then some (measurement, subject.after (5 + position) start)
        else none) ∧
      measurement.name = name ∧
      measurement.iterations = UInt64.ofNat position ∧
      measurement.total = clock (position + 1) ∧
      measurement.instructions =
        (if position = 0 then 0 else (subject (subject.after (5 + (position - 1)) start)).1) ∧
      (0 < position → position < 2 ^ 32 →
        measurement.average? = some (clock (position + 1) / position)) ∧
      measurement.average? =
        if 2 ^ 32 ∣ position then none else some (clock (position + 1) / (position % 2 ^ 32)) := by
  refine ⟨_, measure_readings subject start name first, rfl, rfl, rfl, ?last, ?perCall,
    Measurement.average?_eq rfl⟩
  case last =>
    rw [subject.lastCount_after]
    rfl
  case perCall =>
    intro positive fits
    rw [Measurement.average?_eq rfl, if_neg (Nat.not_dvd_of_pos_of_lt positive fits),
      Nat.mod_eq_of_lt fits]

/-- A subject that counts its calls, under a clock that advances by 4. -/
theorem measures_counting :
    ∃ measurement : Measurement,
      measure "calls" 10 (fun calls : Nat => (UInt64.ofNat calls, calls + 1)) 0 [4, 8, 12, 16] =
        some (measurement, 7) ∧
      measurement.iterations = 2 ∧ measurement.total = 16 ∧ measurement.instructions = 6 ∧
      measurement.average? = some 8 := by
  rcases measures_under_any_clock (fun calls : Nat => (UInt64.ofNat calls, calls + 1)) 0 "calls"
    (firstReached_steady (by decide : 0 < 4) 10) with
      ⟨measurement, ends, _, iterations, total, instructions, average, _⟩
  exact ⟨measurement, ends 4, iterations, total, instructions, average (by decide) (by decide)⟩

/-- A clock that starts late gives no timed call, and no average. -/
theorem late_clock_has_no_average :
    FirstReached (fun index => (index + 1) * 2000000000) minimumTime 0 ∧
      ∃ measurement : Measurement,
        measure "factorial(10)" minimumTime (fun calls : Nat => (106, calls + 1)) 0
          (readings (fun index => (index + 1) * 2000000000) 2) = some (measurement, 5) ∧
        measurement.iterations = 0 ∧ measurement.average? = none :=
  ⟨firstReached_steady (by decide) minimumTime, _, rfl, rfl, rfl⟩

end Measure

end StackMachine.Benchmark
