import StackMachine.CommandLine.Session
import StackMachine.Proofs.Vm.Fresh
import StackMachine.Proofs.Vm.Trace

/-!
# Tracing a session

A session that traces takes the steps of its program one at a time and writes a line before each, in
place of executing the program at one go.  Both stop at the same step, so they print the same values
and end in the same way.

A session that cannot read its program, or has no instance to run it on, ends before there is
anything to trace.  What decides about this are the file and the sizes, which the switch for tracing
leaves alone.  All else in a session is a function of the `Execution` and of the log, and the log
has no part in what the session answers.
-/

namespace StackMachine

namespace Log

/-- A message as it stands in a log. -/
def line (level : Level) (message : String) : String := s!"[{level.name}] {message}\n"

/-- A log with more lines at its end. -/
def extend (log : Log) (lines : List String) : Log :=
  { log with lines := log.lines ++ lines.toArray }

variable {log : Log}

theorem extend_nil (log : Log) : log.extend [] = log := by
  simp [extend]

theorem extend_extend (log : Log) (first second : List String) :
    (log.extend first).extend second = log.extend (first ++ second) := by
  simp [extend]

theorem write_of_debug (verbose : log.minimum = .debug) (level : Level) (message : String) :
    log.write level message = log.extend [line level message] := by
  simp [write, extend, line, verbose, Level.isEnabled, Level.severity]

theorem write_error (log : Log) (message : String) :
    log.write .error message = log.extend [line .error message] := by
  cases minimum : log.minimum <;>
    simp [write, extend, line, minimum, Level.isEnabled, Level.severity]

/-- Writing a message adds its line, or nothing. -/
theorem lines_write (log : Log) (level : Level) (message : String) :
    (log.write level message).lines.toList = log.lines.toList ∨
      (log.write level message).lines.toList = log.lines.toList ++ [line level message] := by
  unfold write
  split
  · right
    simp [line]
  · exact Or.inl rfl

theorem toList_lines_extend (log : Log) (lines : List String) :
    (log.extend lines).lines.toList = log.lines.toList ++ lines := by
  simp [extend]

end Log

namespace CommandLine

namespace Options

/-- The same options with tracing. -/
def traced (options : Options) : Options := { options with trace := true }

variable {options early : Options} {before rest : List String} {argument : String}

theorem read_unexpected (flag : Flag.ofArgument? argument = none) :
    options.read (argument :: rest) = .error ⟨.unexpected argument, options.minimum⟩ := by
  rw [read.eq_def]
  simp only [flag]

theorem read_listing (flag : Flag.ofArgument? argument = some .listing) :
    options.read (argument :: rest) = read { options with listing := true } rest := by
  rw [read.eq_def]
  simp only [flag]

theorem read_trace (flag : Flag.ofArgument? argument = some .trace) :
    options.read (argument :: rest) = options.traced.read rest := by
  rw [read.eq_def]
  simp only [flag, traced]

/-- Arguments that are understood by themselves are understood in front of others. -/
theorem read_append (accepted : options.read before = .ok early) (after : List String) :
    options.read (before ++ after) = early.read after := by
  induction options, before using read.induct with
  | case1 options =>
      rcases Except.ok.inj accepted with rfl
      rfl
  | case2 options _ _ flag =>
      rw [read_unexpected flag] at accepted
      contradiction
  | case3 options _ _ flag ih =>
      rw [read_listing flag] at accepted
      rw [List.cons_append, read_listing flag]
      exact ih accepted
  | case4 options _ _ flag ih =>
      rw [read_trace flag] at accepted
      rw [List.cons_append, read_trace flag]
      exact ih accepted
  | case7 options _ flag _ _ level named ih =>
      simp only [read, flag, named, List.cons_append] at accepted ⊢
      exact ih accepted
  | case10 options _ option flag _ _ size sized ih =>
      simp only [read, flag, sized, List.cons_append] at accepted ⊢
      exact ih accepted
  | _ => simp_all [read]

/-- The switch for tracing has no part in how the other arguments are understood. -/
theorem read_traced (options : Options) (arguments : List String) :
    options.traced.read arguments = (options.read arguments).map traced := by
  induction options, arguments using read.induct with
  | case1 options => rfl
  | case2 options _ _ flag =>
      rw [read_unexpected flag, read_unexpected flag]
      rfl
  | case3 options _ _ flag ih =>
      rw [read_listing flag, read_listing flag]
      exact ih
  | case4 options _ _ flag ih =>
      rw [read_trace flag, read_trace flag]
      exact ih
  | case7 options _ flag _ _ level named ih =>
      simp only [read, flag, named]
      exact ih
  | case10 options _ option flag _ _ size sized ih =>
      simp only [read, flag, sized]
      exact ih
  | _ => simp_all [read, traced, Except.map]

/-- The switch for tracing can stand wherever an option is expected. -/
theorem read_insert_trace {final : Options} {after : List String}
    (early : ∃ options, standard.read before = .ok options)
    (accepted : standard.read (before ++ after) = .ok final) :
    standard.read (before ++ "--trace" :: after) = .ok final.traced := by
  rcases early with ⟨options, understood⟩
  rw [read_append understood] at accepted
  rw [read_append understood, read_trace rfl, read_traced, accepted]
  rfl

end Options

/-- The instance on which a session runs a program. -/
def launched (config : Config) (code : Bytes) : Vm :=
  ⟨config, some ((Machine.ofConfig config).load code)⟩

theorem executed_launched (config : Config) (code : Bytes) :
    (launched config code).executed = 0 :=
  rfl

/-- A session with these sizes gets as far as running the program: it can read it, and an instance
with its buffers is there. -/
structure Launches (host : Host) (path : String) (config : Config) (code : Bytes) : Prop where
  decodes : ∃ file, host.fileContents path = .ok file ∧ ProgramFile.read file = .ok code
  valid : config.validate = .ok ()
  memory : host.allocator.reserve .memory config.memorySize.toNat = .ok ()
  operandStack :
    host.allocator.reserve .operandStack (Word.size * config.stackSize.toNat) = .ok ()
  callStack : host.allocator.reserve .callStack (Word.size * config.maxCallDepth.toNat) = .ok ()
  bytecode : host.allocator.reserve .bytecode code.length = .ok ()

/-- A session that does not get as far as running a program ends with a line that says why, after
at most the note that there is an instance. -/
structure Transcript.Refuses (config : Config) (transcript : Transcript) : Prop where
  exitCode : transcript.exitCode = 1
  output : transcript.output = ""
  log : ∃ message, transcript.log.lines.toList = [Log.line .error message] ∨
    transcript.log.lines.toList =
      [Log.line .debug (createdNote config), Log.line .error message]

/-- The line on which a traced session shows an instruction and the operand stack before it. -/
def sightingLine (sighting : Sighting) : String :=
  "[DEBUG] " ++ sighting.1.text ++ "  stack=[" ++
    ", ".intercalate (sighting.2.map fun word => toString word.toNat) ++ "]\n"

theorem line_traceNote (sighting : Sighting) :
    Log.line .debug (traceNote sighting.1 sighting.2) = sightingLine sighting := by
  have level : Log.line .debug (traceNote sighting.1 sighting.2) =
      "[DEBUG] " ++ traceNote sighting.1 sighting.2 ++ "\n" := rfl
  have opened : "  stack=[" = "  stack=" ++ "[" := rfl
  have closed : "]\n" = "]" ++ "\n" := rfl
  have words : wordsText sighting.2 =
    "[" ++ ", ".intercalate (sighting.2.map fun word => toString word.toNat) ++ "]" := rfl
  rw [level, sightingLine, opened, closed, traceNote, words]
  simp only [String.append_assoc]

/-- The last line of a session that ran its program. -/
def closingLine (execution : Execution Vm) : String :=
  match execution.result with
  | .error error => Log.line .error s!"Execution failed: {error.message}"
  | .ok () => Log.line .info (executedNote execution.state)

/-- Runs the program of a session. -/
def runLaunched (fuel : Nat) (options : Options) (log : Log) (vm : Vm) : Option Transcript := do
  let (execution, log) ← if options.trace then executeTraced fuel log vm
    else executePlain fuel log vm
  return conclude execution log

section Conclude

variable {execution : Execution Vm} {log : Log}

theorem exitCode_conclude :
    (conclude execution log).exitCode = 0 ↔ execution.result = .ok () := by
  cases result : execution.result with
  | error error => simp [conclude, result, Transcript.failure]
  | ok done => simp [conclude, result]

theorem output_conclude :
    (conclude execution log).output = String.join ((execution.printed.toList ++
      if execution.result.isOk then execution.state.stack.getLast?.toList else []).map
        fun value => toString value.toNat ++ "\n") := by
  change _ = valueLines _
  have top := execution.state.toOption_peek
  cases result : execution.result with
  | error error => simp [conclude, result, Transcript.failure, Except.isOk, Except.toBool]
  | ok done =>
      rw [← top]
      cases peeked : execution.state.peek with
      | error error =>
          simp [conclude, result, peeked, Except.isOk, Except.toBool, Except.toOption]
      | ok word =>
          simp [conclude, result, peeked, Except.isOk, Except.toBool, Except.toOption, valueLines]

theorem log_conclude_extend (verbose : log.minimum = .debug) (lines : List String) :
    (conclude execution (log.extend lines)).log =
      log.extend (lines ++ [closingLine execution]) := by
  have extended : (log.extend lines).minimum = .debug := verbose
  rw [← Log.extend_extend]
  cases result : execution.result with
  | error error =>
      simp only [conclude, result, Transcript.failure, closingLine]
      exact Log.write_of_debug extended _ _
  | ok done =>
      simp only [conclude, result, closingLine]
      exact Log.write_of_debug extended _ _

/-- The log has no part in what a session answers. -/
theorem answer_conclude (execution : Execution Vm) (log other : Log) :
    (conclude execution log).output = (conclude execution other).output ∧
      (conclude execution log).exitCode = (conclude execution other).exitCode := by
  cases result : execution.result with
  | error error => simp [conclude, result, Transcript.failure]
  | ok done => simp [conclude, result]

end Conclude

section Run

variable {vm : Vm} {machine : Machine} {fuel count : Nat} {log : Log} {options : Options}

theorem logObservation_eq (verbose : log.minimum = .debug) (observation : Observation) :
    logObservation log observation =
      log.extend (observation.sighting?.toList.map sightingLine) := by
  cases entry : observation.entry? with
  | none => simp [logObservation, Observation.sighting?, entry, Log.extend_nil]
  | some entry =>
      simp [logObservation, Observation.sighting?, entry, ← line_traceNote,
        Log.write_of_debug verbose]

theorem foldl_logObservation (verbose : log.minimum = .debug) (observations : List Observation) :
    observations.foldl logObservation log =
      log.extend ((observations.filterMap Observation.sighting?).map sightingLine) := by
  induction observations generalizing log with
  | nil => exact (Log.extend_nil log).symm
  | cons observation rest ih =>
      have extended (lines : List String) : (log.extend lines).minimum = .debug := verbose
      rw [List.foldl_cons, logObservation_eq verbose, ih (extended _), Log.extend_extend]
      cases seen : observation.sighting? <;> simp [seen]

theorem executeTraced_of_runs (runs : vm.Runs fuel) : executeTraced fuel log vm = none := by
  cases fuel with
  | zero => rfl
  | succ fuel =>
      have last := (Transition.runs_iff Vm.step).mp runs fuel (Nat.lt_succ_self fuel)
      simp only [executeTraced, Vm.trace, Vm.traceFrom_of_runs runs, Vm.observations_concat]
      simp [Vm.observe, last, Status.isFinished]

theorem executeTraced_of_stops (bound : count < fuel) (runs : vm.Runs count)
    (stops : (vm.after count).step.result ≠ .ok .running) :
    executeTraced fuel log vm = some (Transition.stop Vm.step count vm,
      (vm.observations (count + 1)).foldl logObservation log) := by
  have last : (vm.observations (count + 1)).toArray.back? =
      some ((vm.after count).observe (vm.after count).step) := by
    rw [Vm.observations_concat]
    simp
  have printed := vm.record_observations (count + 1) #[]
  simp only [executeTraced, Vm.trace, Vm.traceFrom_of_stops bound runs stops, Array.empty_append,
    last, List.size_toArray, List.foldl_toArray', printed]
  cases result : (vm.after count).step.result with
  | error error => simp [Transition.stop, Vm.observe, result, Except.map]
  | ok status =>
      have finished : status.isFinished = true := by
        cases status with
        | running => exact absurd result stops
        | halted => rfl
        | endOfProgram => rfl
      simp [Transition.stop, Vm.observe, result, finished, Except.map]

theorem executePlain_of_runs (live : vm.machine? = some machine) (runs : vm.Runs fuel) :
    executePlain fuel log vm = none := by
  have unfinished : vm.execute fuel = none := by
    rw [Option.eq_none_iff_forall_ne_some]
    intro execution finished
    rcases (Vm.execute_eq_some_iff live).mp finished with ⟨count, bound, _, stops, _⟩
    exact stops ((Transition.runs_iff Vm.step).mp runs count bound)
  rw [executePlain, unfinished]
  rfl

theorem executePlain_of_execute {execution : Execution Vm} (log : Log)
    (finished : vm.execute fuel = some execution) :
    ∃ after, executePlain fuel log vm = some (execution, after) := by
  rw [executePlain, finished]
  cases result : execution.result with
  | error error =>
      simp only [Option.bind_eq_bind, Option.bind_some, result]
      exact ⟨_, rfl⟩
  | ok done =>
      simp only [Option.bind_eq_bind, Option.bind_some, result]
      exact ⟨_, rfl⟩

theorem runLaunched_of_runs (live : vm.machine? = some machine) (runs : vm.Runs fuel) :
    runLaunched fuel options log vm = none := by
  unfold runLaunched
  split
  · rw [executeTraced_of_runs runs]
    rfl
  · rw [executePlain_of_runs live runs]
    rfl

theorem runLaunched_of_stops (log : Log) (live : vm.machine? = some machine) (bound : count < fuel)
    (runs : vm.Runs count) (stops : (vm.after count).step.result ≠ .ok .running) :
    ∃ after, runLaunched fuel options log vm =
        some (conclude (Transition.stop Vm.step count vm) after) ∧
      (options.trace = true →
        after = (vm.observations (count + 1)).foldl logObservation log) := by
  have finished : vm.execute fuel = some (Transition.stop Vm.step count vm) :=
    (Vm.execute_eq_some_iff live).mpr ⟨count, bound, runs, stops, rfl⟩
  unfold runLaunched
  cases traced : options.trace with
  | true =>
      refine ⟨_, ?_, fun _ => rfl⟩
      rw [if_pos rfl, executeTraced_of_stops bound runs stops]
      rfl
  | false =>
      rcases executePlain_of_execute log finished with ⟨after, executed⟩
      refine ⟨after, ?_, ?_⟩
      · simp only [Bool.false_eq_true, if_false, executed]
        rfl
      · intro impossible
        contradiction

end Run

section Open

variable {fuel : Nat} {host : Host} {path : String} {options : Options} {config : Config}
  {code : Bytes}

theorem created_iff {allocator : Allocator} {vm : Vm} :
    Vm.create allocator config = .ok vm ↔
      config.validate = .ok () ∧
      allocator.reserve .memory config.memorySize.toNat = .ok () ∧
      allocator.reserve .operandStack (Word.size * config.stackSize.toNat) = .ok () ∧
      allocator.reserve .callStack (Word.size * config.maxCallDepth.toNat) = .ok () ∧
      vm = ⟨config, some (.ofConfig config)⟩ := by
  simp only [Vm.create, Vm.acquire, bind_eq_ok_iff]
  constructor
  · rintro ⟨machine, ⟨_, valid, _, memory, _, stack, _, calls, acquired⟩, created⟩
    rcases Except.ok.inj acquired with rfl
    exact ⟨valid, memory, stack, calls, (Except.ok.inj created).symm⟩
  · rintro ⟨valid, memory, stack, calls, rfl⟩
    exact ⟨_, ⟨_, valid, _, memory, _, stack, _, calls, rfl⟩, rfl⟩

theorem Launches.unique {other : Bytes} (launches : Launches host path config code)
    (again : Launches host path config other) : other = code := by
  rcases launches.decodes with ⟨file, reads, decodes⟩
  rcases again.decodes with ⟨_, present, found⟩
  rw [reads] at present
  rcases Except.ok.inj present with rfl
  rw [decodes] at found
  exact (Except.ok.inj found).symm

/-- The log of a session when its program starts. -/
def Options.openingLog (options : Options) (code : Bytes) : Log :=
  let log := Log.empty.setMinimum options.minimum
  let log := if options.trace then log.setMinimum .debug else log
  (log.write .debug (createdNote options.config)).write .debug (loadedNote code.length)

theorem openProgram_of_launches (launches : Launches host path options.config code)
    (unlisted : options.listing = false) :
    openProgram fuel host path options =
      runLaunched fuel options (options.openingLog code) (launched options.config code) := by
  rcases launches.decodes with ⟨file, reads, decodes⟩
  have created := created_iff.mpr
    ⟨launches.valid, launches.memory, launches.operandStack, launches.callStack, rfl⟩
  have loaded : (Vm.mk options.config (some (.ofConfig options.config))).load host.allocator code =
      ⟨.ok (), launched options.config code⟩ := by
    simp only [Vm.load, launches.bytecode]
    rfl
  simp only [openProgram, reads, decodes, unlisted, Bool.false_eq_true, if_false, runProgram,
    created, loaded]
  rfl

theorem refuses_failure {log : Log} {message : String}
    (noted : log.lines.toList = [] ∨
      log.lines.toList = [Log.line .debug (createdNote config)]) :
    (Transcript.failure "" log message).Refuses config := by
  refine ⟨rfl, rfl, message, ?_⟩
  rw [Transcript.failure, Log.write_error, Log.toList_lines_extend]
  rcases noted with silent | created
  · left
    rw [silent]
    rfl
  · right
    rw [created]
    rfl

theorem openProgram_of_refuses (fuel : Nat)
    (refuses : ∀ code, ¬ Launches host path options.config code)
    (unlisted : options.listing = false) :
    ∃ transcript, openProgram fuel host path options = some transcript ∧
      transcript.Refuses options.config := by
  have silent (log : Log) (lines : log.lines = #[]) :
      (if options.trace then log.setMinimum .debug else log).lines.toList = [] := by
    split <;> simp [Log.setMinimum, lines]
  unfold openProgram
  cases reads : host.fileContents path with
  | error reason => exact ⟨_, rfl, refuses_failure (Or.inl rfl)⟩
  | ok file =>
      cases decodes : ProgramFile.read file with
      | error error =>
          simp only [decodes]
          exact ⟨_, rfl, refuses_failure (Or.inl rfl)⟩
      | ok code =>
          simp only [decodes, unlisted, Bool.false_eq_true, if_false, runProgram]
          cases creates : Vm.create host.allocator options.config with
          | error error => exact ⟨_, rfl, refuses_failure (Or.inl (silent _ rfl))⟩
          | ok vm =>
              rcases created_iff.mp creates with ⟨valid, memory, stack, calls, rfl⟩
              cases grants : host.allocator.reserve .bytecode code.length with
              | ok granted =>
                  have launches : Launches host path options.config code :=
                    ⟨⟨file, reads, decodes⟩, valid, memory, stack, calls, grants⟩
                  exact absurd launches (refuses code)
              | error error =>
                  simp only [Vm.load, grants]
                  refine ⟨_, rfl, refuses_failure ?_⟩
                  have nothing := silent (Log.empty.setMinimum options.minimum) rfl
                  rcases Log.lines_write _ .debug (createdNote options.config) with same | added
                  · exact Or.inl (same.trans nothing)
                  · right
                    rw [added, nothing]
                    rfl

theorem openingLog_of_traced (traced : options.trace = true) (code : Bytes) :
    options.openingLog code = (Log.empty.setMinimum .debug).extend
      [Log.line .debug (createdNote options.config), Log.line .debug (loadedNote code.length)] := by
  simp only [Options.openingLog, traced, if_true, Log.setMinimum]
  rw [Log.write_of_debug rfl, Log.write_of_debug rfl, Log.extend_extend]
  rfl

/-- The lines of a traced session that stops after `count` steps and one more. -/
def tracedLines (config : Config) (code : Bytes) (count : Nat) : List String :=
  [Log.line .debug (createdNote config), Log.line .debug (loadedNote code.length)] ++
    ((launched config code).completions (count + 1) ++
      ((launched config code).after count).faulting?.toList).map sightingLine ++
    [closingLine (Transition.stop Vm.step count (launched config code))]

theorem openProgram_of_stops {count : Nat} (launches : Launches host path options.config code)
    (unlisted : options.listing = false) (bound : count < fuel)
    (runs : (launched options.config code).Runs count)
    (stops : ((launched options.config code).after count).step.result ≠ .ok .running) :
    ∃ log transcript, openProgram fuel host path options = some transcript ∧
      transcript = conclude (Transition.stop Vm.step count (launched options.config code)) log ∧
      (options.trace = true →
        transcript.log.lines.toList = tracedLines options.config code count) := by
  rcases runLaunched_of_stops (options.openingLog code) rfl bound runs stops with
    ⟨log, ends, shows⟩
  refine ⟨log, _, ?_, rfl, ?_⟩
  · rw [openProgram_of_launches launches unlisted]
    exact ends
  · intro traced
    have opening := openingLog_of_traced traced code
    have verbose : (options.openingLog code).minimum = .debug := by
      rw [opening]
      rfl
    rw [foldl_logObservation verbose, Vm.sightings_of_runs runs] at shows
    rw [shows traced, log_conclude_extend verbose, opening, Log.extend_extend,
      Log.toList_lines_extend, tracedLines, List.append_assoc]
    rfl

/-- A session has run its program for `count` steps and the one that ended it. -/
structure Transcript.Ran (fuel : Nat) (options : Options) (code : Bytes) (count : Nat)
    (transcript : Transcript) : Prop where
  bound : count < fuel
  runs : (launched options.config code).Runs count
  stops : ((launched options.config code).after count).step.result ≠ .ok .running
  concludes : ∃ log, transcript =
    conclude (Transition.stop Vm.step count (launched options.config code)) log
  shows : options.trace = true →
    transcript.log.lines.toList = tracedLines options.config code count

variable {transcript : Transcript} {count : Nat}

theorem Transcript.Ran.execute_eq (ran : transcript.Ran fuel options code count) :
    (launched options.config code).execute fuel =
      some (Transition.stop Vm.step count (launched options.config code)) :=
  (Vm.execute_eq_some_iff rfl).mpr ⟨count, ran.bound, ran.runs, ran.stops, rfl⟩

theorem exists_ran (launches : Launches host path options.config code)
    (unlisted : options.listing = false)
    (finished : openProgram fuel host path options = some transcript) :
    ∃ count, transcript.Ran fuel options code count := by
  have ends : ¬ (launched options.config code).Runs fuel := by
    intro runs
    rw [openProgram_of_launches launches unlisted, runLaunched_of_runs rfl runs] at finished
    contradiction
  rcases Transition.exists_stop_lt ends with ⟨count, bound, runs, stops⟩
  rcases openProgram_of_stops launches unlisted bound runs stops with
    ⟨log, _, concluded, same, shows⟩
  rcases Option.some.inj (finished.symm.trans concluded) with rfl
  exact ⟨count, bound, runs, stops, ⟨log, same⟩, shows⟩

theorem refuses_of_openProgram (refuses : ∀ code, ¬ Launches host path options.config code)
    (unlisted : options.listing = false)
    (finished : openProgram fuel host path options = some transcript) :
    transcript.Refuses options.config := by
  rcases openProgram_of_refuses fuel refuses unlisted with ⟨_, ends, refused⟩
  rcases Option.some.inj (finished.symm.trans ends) with rfl
  exact refused

/-- A session that traces ends like one that does not. -/
theorem exists_openProgram_traced (unlisted : options.listing = false)
    (finished : openProgram fuel host path options = some transcript) :
    ∃ traced, openProgram fuel host path options.traced = some traced ∧
      traced.output = transcript.output ∧ traced.exitCode = transcript.exitCode := by
  by_cases launch : ∃ code, Launches host path options.config code
  · rcases launch with ⟨code, launches⟩
    rcases exists_ran launches unlisted finished with ⟨count, ran⟩
    rcases ran.concludes with ⟨log, rfl⟩
    have launchesToo : Launches host path options.traced.config code := launches
    rcases openProgram_of_stops launchesToo unlisted ran.bound ran.runs ran.stops with
      ⟨other, _, ends, rfl, _⟩
    exact ⟨_, ends, answer_conclude _ other log⟩
  · have refuses := not_exists.mp launch
    have refusesToo : ∀ code, ¬ Launches host path options.traced.config code := refuses
    have refused := refuses_of_openProgram refuses unlisted finished
    rcases openProgram_of_refuses fuel refusesToo unlisted with ⟨traced, ends, refusedToo⟩
    exact ⟨traced, ends, refusedToo.output.trans refused.output.symm,
      refusedToo.exitCode.trans refused.exitCode.symm⟩

theorem exitCode_eq_zero_iff (unlisted : options.listing = false)
    (finished : openProgram fuel host path options = some transcript) :
    transcript.exitCode = 0 ↔
      ∃ code execution, Launches host path options.config code ∧
        (launched options.config code).execute fuel = some execution ∧
        execution.result = .ok () := by
  constructor
  · intro succeeds
    by_cases launch : ∃ code, Launches host path options.config code
    · rcases launch with ⟨code, launches⟩
      rcases exists_ran launches unlisted finished with ⟨count, ran⟩
      rcases ran.concludes with ⟨log, rfl⟩
      exact ⟨code, _, launches, ran.execute_eq, exitCode_conclude.mp succeeds⟩
    · have refused := refuses_of_openProgram (not_exists.mp launch) unlisted finished
      rw [refused.exitCode] at succeeds
      contradiction
  · rintro ⟨code, execution, launches, executed, succeeds⟩
    rcases exists_ran launches unlisted finished with ⟨count, ran⟩
    rcases ran.concludes with ⟨log, rfl⟩
    rcases Option.some.inj (executed.symm.trans ran.execute_eq) with rfl
    exact exitCode_conclude.mpr succeeds

theorem session_of_accepted {arguments : List String} (program : String)
    (opens : path ≠ "--help" ∧ path ≠ "-h")
    (accepted : Options.standard.read arguments = .ok options) :
    session fuel host program (path :: arguments) = openProgram fuel host path options := by
  rw [session, if_neg (not_or.mpr opens), accepted]

end Open

/-- Tracing does not change what a session answers, and the trace shows the run.

The switch may stand wherever an option is expected.  A session succeeds exactly when its file
decodes, its sizes are valid, its buffers are granted and its program succeeds.  It prints what the
program prints, each value in decimal on a line of its own, and after a success the top of the
operand stack in the same way, if there is one.  A traced session shows each instruction that the
program completes, as many as the instance counts, and then the one at fault, unless that does not
decode. -/
theorem tracing_is_faithful {fuel : Nat} {host : Host} {program path : String}
    {arguments : List String} {options : Options} {transcript : Transcript}
    (opens : path ≠ "--help" ∧ path ≠ "-h")
    (accepted : Options.standard.read arguments = .ok options)
    (unlisted : options.listing = false)
    (finished : session fuel host program (path :: arguments) = some transcript) :
    (∀ before after, arguments = before ++ after →
      (∃ early, Options.standard.read before = .ok early) →
      ∃ traced, session fuel host program (path :: (before ++ "--trace" :: after)) = some traced ∧
        traced.output = transcript.output ∧ traced.exitCode = transcript.exitCode) ∧
    (transcript.exitCode = 0 ↔
      ∃ code execution, Launches host path options.config code ∧
        (launched options.config code).execute fuel = some execution ∧
        execution.result = .ok ()) ∧
    (∀ code, Launches host path options.config code →
      ∃ count execution, (launched options.config code).Runs count ∧
        ((launched options.config code).after count).step.result ≠ .ok .running ∧
        (launched options.config code).execute fuel = some execution ∧
        execution = Transition.stop Vm.step count (launched options.config code) ∧
        execution.state.executed =
          UInt64.ofNat ((launched options.config code).completions (count + 1)).length ∧
        transcript.output = String.join ((execution.printed.toList ++
          if execution.result.isOk then execution.state.stack.getLast?.toList else []).map
            fun value => toString value.toNat ++ "\n") ∧
        (options.trace = true →
          transcript.log.lines.toList = tracedLines options.config code count)) ∧
    ((∀ code, ¬ Launches host path options.config code) → transcript.Refuses options.config) := by
  rw [session_of_accepted program opens accepted] at finished
  refine ⟨?tracing, exitCode_eq_zero_iff unlisted finished, ?run, ?refusal⟩
  case tracing =>
    rintro before after rfl early
    rw [session_of_accepted program opens (Options.read_insert_trace early accepted)]
    exact exists_openProgram_traced unlisted finished
  case run =>
    intro code launches
    rcases exists_ran launches unlisted finished with ⟨count, ran⟩
    rcases ran.concludes with ⟨log, same⟩
    have output := congrArg Transcript.output same
    have counted := (launched options.config code).executed_eq_length_completions (count + 1)
    rw [executed_launched, UInt64.zero_add] at counted
    exact ⟨count, _, ran.runs, ran.stops, ran.execute_eq, rfl, counted,
      output.trans output_conclude, ran.shows⟩
  case refusal =>
    intro refuses
    exact refuses_of_openProgram refuses unlisted finished

/-- The bytes of a program that prints a word and stumbles over an ADD. -/
def stumblingCode : Bytes :=
  Opcode.push.encode (some 7) ++ Opcode.print.encode none ++ Opcode.add.encode none

/-- A host on which every file holds that program. -/
def stumblingHost : Host := ⟨.unlimited, fun _ => .ok stumblingCode⟩

/-- The bytes of a program that prints a word and leaves another one on top of it. -/
def toppingCode : Bytes :=
  Opcode.push.encode (some 7) ++ Opcode.print.encode none ++ Opcode.push.encode (some 12)

/-- A host on which every file holds that program. -/
def toppingHost : Host := ⟨.unlimited, fun _ => .ok toppingCode⟩

/-- A session that succeeds ends with the top of the stack.  The log of a traced session shows the
PUSH and the PRINT that were completed, and the ADD. -/
theorem session_stumbling :
    (∃ topped, session 3 toppingHost "run" ["top.bin"] = some topped ∧
      topped.output = "7\n12\n" ∧ topped.exitCode = 0) ∧
    ∃ plain traced, session 3 stumblingHost "run" ["add.bin"] = some plain ∧
      session 3 stumblingHost "run" ["add.bin", "--trace"] = some traced ∧
      plain.output = "7\n" ∧ traced.output = "7\n" ∧ traced.exitCode ≠ 0 ∧
      traced.log.lines.toList =
        ["[DEBUG] vm created: memory=65536B stack=1024 words call depth=256\n",
          "[DEBUG] loaded 11 bytes of bytecode\n",
          "[DEBUG] 0000: PUSH 7  stack=[]\n",
          "[DEBUG] 0009: PRINT  stack=[7]\n",
          "[DEBUG] 000a: ADD  stack=[7]\n",
          "[ERROR] Execution failed: stack underflow at ip 10: needed 2, available 1\n"] := by
  constructor
  · have launches : Launches toppingHost "top.bin" .standard toppingCode :=
      ⟨⟨_, rfl, rfl⟩, rfl, rfl, rfl, rfl, rfl⟩
    have opens : "top.bin" ≠ "--help" ∧ "top.bin" ≠ "-h" := by decide
    have ends : ∃ topped, session 3 toppingHost "run" ["top.bin"] = some topped := ⟨_, rfl⟩
    rcases ends with ⟨topped, ends⟩
    rcases tracing_is_faithful opens rfl rfl ends with ⟨_, status, output, _⟩
    rcases output toppingCode launches with
      ⟨count, _, runs, stops, executed, rfl, _, printed, _⟩
    have running : (launched .standard toppingCode).Runs 2 := ⟨rfl, rfl, trivial⟩
    rcases Transition.stop_unique running (by decide) runs stops with rfl
    exact ⟨topped, ends, printed, status.mpr ⟨_, _, launches, executed, rfl⟩⟩
  · have launches : Launches stumblingHost "add.bin" .standard stumblingCode :=
      ⟨⟨_, rfl, rfl⟩, rfl, rfl, rfl, rfl, rfl⟩
    have opens : "add.bin" ≠ "--help" ∧ "add.bin" ≠ "-h" := by decide
    have ends : ∃ plain, session 3 stumblingHost "run" ["add.bin"] = some plain := ⟨_, rfl⟩
    rcases ends with ⟨plain, ends⟩
    rcases tracing_is_faithful opens rfl rfl ends with ⟨tracing, _, output, _⟩
    rcases tracing [] [] rfl ⟨_, rfl⟩ with ⟨traced, endsToo, sameOutput, sameExitCode⟩
    rcases tracing_is_faithful opens rfl rfl endsToo with ⟨_, status, shows, _⟩
    rcases output stumblingCode launches with
      ⟨count, _, runs, stops, _, rfl, _, printed, _⟩
    have stopped : (launched .standard stumblingCode).Runs 2 := ⟨rfl, rfl, trivial⟩
    rcases Transition.stop_unique stopped (by decide) runs stops with rfl
    rcases shows stumblingCode launches with ⟨other, _, otherRuns, otherStops, _, rfl, _, _, lines⟩
    rcases Transition.stop_unique stopped (by decide) otherRuns otherStops with rfl
    refine ⟨plain, traced, ends, endsToo, printed, sameOutput.trans printed, ?_, lines rfl⟩
    intro succeeds
    rcases status.mp succeeds with ⟨_, execution, again, executed, ended⟩
    rcases launches.unique again with rfl
    have fails : (launched .standard stumblingCode).execute 3 =
        some ⟨.error (.trap 10 (.stackUnderflow 2 1)), #[7], _⟩ := rfl
    rcases Option.some.inj (executed.symm.trans fails) with rfl
    contradiction

end CommandLine

end StackMachine
