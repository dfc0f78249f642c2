
/-!
# Timing

A benchmark calls its subject a few times without looking at the clock and then again and again
until the time since the start reaches a minimum.  The clock is an argument: the list of its
readings, each being the time since the start, in nanoseconds.
-/

namespace StackMachine.Benchmark

/-- What is timed.  A call runs a number of instructions and may change a state of its own, which
the next call finds. -/
abbrev Subject (State : Type) : Type := State → UInt64 × State

/-- The state that a number of calls leaves. -/
def Subject.after {State : Type} (subject : Subject State) : (calls : Nat) → State → State
  | 0, state => state
  | calls + 1, state => subject.after calls (subject state).2

/-- Calls made before the clock is started. -/
def warmupCalls : Nat := 5

/-- What is known of a benchmark when it is over. -/
structure Measurement where
  /-- What the report calls it. -/
  name : String
  /-- Timed calls, in 64 bits. -/
  iterations : UInt64
  /-- Time since the start at the end. -/
  total : Nat
  /-- Instructions of the last timed call; zero without one. -/
  instructions : UInt64
  deriving DecidableEq, Repr

/-- Continues the benchmark `name` in a state of its subject after `iterations` timed calls, of
which the last one ran `instructions`.  The subject is called as long as the clock shows less than
`minimum`.  There is no measurement when the clock has too few readings. -/
def measureFrom {State : Type} (name : String) (minimum : Nat) (subject : Subject State)
    (iterations instructions : UInt64) (state : State) :
    (readings : List Nat) → Option (Measurement × State)
  | [] => none
  | elapsed :: rest =>
      if elapsed < minimum then
        let (executed, next) := subject state
        measureFrom name minimum subject (iterations + 1) executed next rest
      else
        rest.head?.map fun total => (⟨name, iterations, total, instructions⟩, state)

/-- Warms up, then calls the subject until a reading of the clock is at least `minimum`; the reading
after that one is the total time.  The state is the one that the last call leaves. -/
def measure {State : Type} (name : String) (minimum : Nat) (subject : Subject State)
    (state : State) (readings : List Nat) : Option (Measurement × State) :=
  measureFrom name minimum subject 0 0 (subject.after warmupCalls state) readings

/-- The average time of a timed call in whole nanoseconds, rounded down.  The number of calls is
kept in 32 bits here; there is no average when it is zero. -/
def Measurement.average? (measurement : Measurement) : Option Nat :=
  let divisor := measurement.iterations.toUInt32
  if divisor = 0 then none else some (measurement.total / divisor.toNat)

/-- The readings of a clock that advances by `tick` between any two of them, until one is at least
`minimum` and one more is taken. -/
def steadyReadings (tick minimum : Nat) : List Nat :=
  (List.range ((minimum - 1) / tick + 2)).map fun index => (index + 1) * tick

end StackMachine.Benchmark
