import StackMachine.Proofs.Benchmark.Timing

/-!
# When the report is complete

The report has a line for each program of the suite, and a line needs an average.  All programs are
timed under the same clock, which alone decides how often they are called.  So either every line has
its average, or the report breaks off behind its heading.

A report that has all its lines thus says something about the clock: it reached the minimum, and not
after a number of calls that is a multiple of `2 ^ 32`.  Of the programs it takes only that each of
them runs to its end.
-/

namespace StackMachine.Benchmark

variable {fuel position count : Nat} {clock : Nat → Nat} {program : List Assembly.Directive}
  {programs : List (String × List Assembly.Directive)}

@[simp]
theorem Measurement.isSome_line? (measurement : Measurement) :
    measurement.line?.isSome = measurement.average?.isSome := by
  cases average : measurement.average? <;> simp [line?, average]

/-- A program is measured only if the clock came to the end of the benchmark. -/
theorem exists_firstReached_of_measureProgram {name : String}
    (measured : (measureProgram fuel name program (readings clock count)).isSome) :
    ∃ position, FirstReached clock minimumTime position ∧ position + 2 ≤ count := by
  cases counted : instructionCount fuel program with
  | none => simp [measureProgram, counted] at measured
  | some executed =>
      apply (measure_isSome_iff (fun state => (executed, state)) () name count).mp
      cases ends : measure name minimumTime (fun state => (executed, state)) ()
          (readings clock count) with
      | none => simp [measureProgram, counted, ends] at measured
      | some measurement => rfl

/-- All programs are called equally often, so they have an average or lack it together. -/
theorem exists_measureProgram (first : FirstReached clock minimumTime position)
    (enough : position + 2 ≤ count) (runs : (instructionCount fuel program).isSome)
    (name : String) :
    ∃ measurement, measureProgram fuel name program (readings clock count) = some measurement ∧
      (measurement.line?.isSome ↔ ¬ 2 ^ 32 ∣ position) := by
  rcases Option.isSome_iff_exists.mp runs with ⟨executed, counted⟩
  have ends := measure_readings (fun state => (executed, state)) () name first count
  rw [if_pos enough] at ends
  have result : ∃ measurement : Measurement,
      measureProgram fuel name program (readings clock count) = some measurement ∧
        measurement.iterations = UInt64.ofNat position :=
    ⟨_, by rw [measureProgram, counted, Option.bind_eq_bind, Option.bind_some, ends]; rfl, rfl⟩
  rcases result with ⟨measurement, measured, iterations⟩
  refine ⟨measurement, measured, ?_⟩
  simp [Measurement.average?_eq iterations]

theorem exists_firstReached_of_printFrom (nonempty : programs ≠ []) {printed : String}
    (ends : (printFrom fuel (readings clock count) printed programs).isSome) :
    ∃ position, FirstReached clock minimumTime position ∧ position + 2 ≤ count := by
  cases programs with
  | nil => contradiction
  | cons entry rest =>
      cases measured : measureProgram fuel entry.1 entry.2 (readings clock count) with
      | none => simp [printFrom, measured] at ends
      | some measurement =>
          apply exists_firstReached_of_measureProgram
          rw [measured]
          rfl

/-- Without an average the first program breaks the report off. -/
theorem printFrom_of_dvd (first : FirstReached clock minimumTime position)
    (enough : position + 2 ≤ count) (multiple : 2 ^ 32 ∣ position) (nonempty : programs ≠ [])
    (runs : ∀ entry ∈ programs, (instructionCount fuel entry.2).isSome) (printed : String) :
    printFrom fuel (readings clock count) printed programs = some ⟨brokenOff, printed⟩ := by
  cases programs with
  | nil => contradiction
  | cons entry rest =>
      rcases exists_measureProgram first enough (runs entry List.mem_cons_self) entry.1 with
        ⟨measurement, measured, averaged⟩
      have unlined : measurement.line? = none := by
        apply Option.not_isSome_iff_eq_none.mp
        exact fun lined => averaged.mp lined multiple
      simp [printFrom, measured, unlined]

/-- With an average each program adds its line. -/
theorem exists_printFrom_of_not_dvd (first : FirstReached clock minimumTime position)
    (enough : position + 2 ≤ count) (averages : ¬ 2 ^ 32 ∣ position)
    (runs : ∀ entry ∈ programs, (instructionCount fuel entry.2).isSome) (printed : String) :
    ∃ text, printFrom fuel (readings clock count) printed programs = some ⟨0, text⟩ := by
  induction programs generalizing printed with
  | nil => exact ⟨_, rfl⟩
  | cons entry rest ih =>
      rcases exists_measureProgram first enough (runs entry List.mem_cons_self) entry.1 with
        ⟨measurement, measured, averaged⟩
      rcases Option.isSome_iff_exists.mp (averaged.mpr averages) with ⟨line, lined⟩
      rcases ih (fun other present => runs other (List.mem_cons_of_mem _ present))
        (printed ++ line) with ⟨text, finished⟩
      exact ⟨text, by simp [printFrom, measured, lined, finished]⟩

/-- The report has all its lines exactly if some reading of the clock reaches the minimum, another
one follows, and the number of timed calls is no multiple of `2 ^ 32`. -/
theorem isSome_report?_iff (runs : ∀ entry ∈ suite, (instructionCount fuel entry.2).isSome) :
    (report? fuel (readings clock count)).isSome ↔
      ∃ position, FirstReached clock minimumTime position ∧ position + 2 ≤ count ∧
        ¬ 2 ^ 32 ∣ position := by
  have nonempty : suite ≠ [] := by simp [suite]
  constructor
  · intro reported
    have ends : (print fuel (readings clock count)).isSome := by
      cases printed : print fuel (readings clock count) with
      | none => simp [report?, printed] at reported
      | some printout => rfl
    rcases exists_firstReached_of_printFrom nonempty ends with ⟨position, first, enough⟩
    refine ⟨position, first, enough, ?_⟩
    intro multiple
    have printed := printFrom_of_dvd first enough multiple nonempty runs heading
    simp [report?, print, printed, brokenOff] at reported
  · rintro ⟨position, first, enough, averages⟩
    rcases exists_printFrom_of_not_dvd first enough averages runs heading with ⟨text, printed⟩
    simp [report?, print, printed]

/-- Under a clock that advances steadily, the report has all its lines exactly if the clock advances
by less than the minimum. -/
theorem isSome_report?_steady_iff {tick : Nat} (ticks : 0 < tick)
    (runs : ∀ entry ∈ suite, (instructionCount fuel entry.2).isSome) :
    (report? fuel (steadyReadings tick minimumTime)).isSome ↔ tick < minimumTime := by
  have few : (minimumTime - 1) / tick < 2 ^ 32 :=
    Nat.lt_of_le_of_lt (Nat.div_le_self _ _) (by decide)
  have late : (minimumTime - 1) / tick = 0 ↔ minimumTime ≤ tick := by
    rw [Nat.div_eq_zero_iff]
    have positive : 0 < minimumTime := by decide
    omega
  apply (isSome_report?_iff runs).trans
  constructor
  · rintro ⟨position, first, _, averages⟩
    rcases first.unique (firstReached_steady ticks minimumTime) with rfl
    apply Nat.lt_of_not_le
    intro slow
    exact averages (late.mpr slow ▸ Nat.dvd_zero _)
  · intro quick
    refine ⟨_, firstReached_steady ticks minimumTime, Nat.le_refl _, ?_⟩
    intro multiple
    exact Nat.not_le_of_lt quick (late.mp (Nat.eq_zero_of_dvd_of_lt multiple few))

end StackMachine.Benchmark
