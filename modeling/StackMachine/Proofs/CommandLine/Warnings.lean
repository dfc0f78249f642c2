import StackMachine.Proofs.CommandLine.Tracing
import StackMachine.Proofs.Listing.Rendering

/-!
# Traced logs and logs at the lowest level

A session that traces writes all messages, and so does one that asks for the lowest level.  Apart
from the instructions, which only the trace shows, the two logs agree as long as the program
succeeds.  A trap tells them apart: executing a program warns of it, and stepping through the
program does not.  So the warning stands once in the log at the lowest level and is missing in the
traced one, which goes straight to the line that ends the session.
-/

namespace StackMachine

theorem Level.name_injective : Function.Injective name := by
  intro level other same
  cases level with
  | _ => cases other with
    | _ => first | rfl | contradiction

namespace Log

theorem toList_line (level : Level) (message : String) :
    (line level message).toList =
      '[' :: (level.name.toList ++ ']' :: ' ' :: (message.toList ++ ['\n'])) := by
  have whole : line level message = "[" ++ level.name ++ "] " ++ message ++ "\n" := rfl
  simp [whole]

/-- A line tells its level and its message. -/
theorem line_injective {level other : Level} {message text : String}
    (same : line level message = line other text) : level = other ∧ message = text := by
  have closed (level : Level) : ']' ∉ level.name.toList := by cases level <;> decide
  have chars := congrArg String.toList same
  rw [toList_line, toList_line] at chars
  rcases append_inj_of_mark (closed level) (closed other) (by simp) (by simp)
    (List.cons.inj chars).2 with ⟨names, messages⟩
  refine ⟨Level.name_injective (String.toList_inj.mp names), ?_⟩
  apply String.toList_inj.mp
  simpa using messages

end Log

namespace CommandLine

/-- A line shows an instruction that is about to run. -/
def IsTraceLine (line : String) : Prop := ∃ sighting, line = sightingLine sighting

/-- The line that warns of a trap. -/
def trapLine (error : Error) : String :=
  Log.line .warn s!"execution trapped: {error.message}"

/-- The lines that executing a program adds to the log. -/
def trapLines (execution : Execution Vm) : List String :=
  match execution.result with
  | .error error => [trapLine error]
  | .ok () => []

section Lines

theorem not_isTraceLine_of_level {level : Level} (higher : level ≠ .debug) (message : String) :
    ¬ IsTraceLine (Log.line level message) := by
  rintro ⟨sighting, same⟩
  rw [← line_traceNote] at same
  exact higher (Log.line_injective same).1

theorem not_isTraceLine_trapLine (error : Error) : ¬ IsTraceLine (trapLine error) :=
  not_isTraceLine_of_level (by decide) _

/-- A trace line begins with an offset in digits. -/
theorem exists_digit_of_traceNote (entry : Entry) (stack : List UInt64) :
    ∃ digit rest, (traceNote entry stack).toList = digit :: rest ∧
      digit ∈ (Numeral.paddedHexadecimal 4 entry.offset).toList := by
  have padded : 4 ≤ (Numeral.paddedHexadecimal 4 entry.offset).toList.length := by
    rw [Numeral.toList_paddedHexadecimal, List.length_leftpad]
    exact Nat.le_max_left 4 _
  cases offset : (Numeral.paddedHexadecimal 4 entry.offset).toList with
  | nil => simp [offset] at padded
  | cons digit digits =>
      rw [traceNote, String.toList_append, String.toList_append, Entry.toList_text, offset]
      exact ⟨digit, _, rfl, List.mem_cons_self⟩

theorem not_isTraceLine_of_front {char : Char} {message : String} {chars : List Char}
    (other : ∀ value < 16, Nat.digitChar value ≠ char) (begins : message.toList = char :: chars) :
    ¬ IsTraceLine (Log.line .debug message) := by
  rintro ⟨⟨entry, stack⟩, same⟩
  rw [← line_traceNote] at same
  rcases exists_digit_of_traceNote entry stack with ⟨digit, rest, note, present⟩
  rw [← (Log.line_injective same).2, begins] at note
  rcases List.cons.inj note with ⟨rfl, _⟩
  exact Numeral.not_mem_paddedHexadecimal other 4 entry.offset present

theorem not_isTraceLine_created (config : Config) :
    ¬ IsTraceLine (Log.line .debug (createdNote config)) := by
  have begins : ∃ rest, createdNote config = "vm created: memory=" ++ rest := by
    unfold createdNote
    rw [String.append_assoc, String.append_assoc, String.append_assoc, String.append_assoc]
    exact ⟨_, congrArg (· ++ _) rfl⟩
  rcases begins with ⟨rest, whole⟩
  apply not_isTraceLine_of_front (by decide : ∀ value < 16, Nat.digitChar value ≠ 'v')
  rw [whole, String.toList_append]
  rfl

theorem not_isTraceLine_loaded (codeSize : Nat) :
    ¬ IsTraceLine (Log.line .debug (loadedNote codeSize)) := by
  have begins : ∃ rest, loadedNote codeSize = "loaded " ++ rest := by
    unfold loadedNote
    rw [String.append_assoc]
    exact ⟨_, congrArg (· ++ _) rfl⟩
  rcases begins with ⟨rest, whole⟩
  apply not_isTraceLine_of_front (by decide : ∀ value < 16, Nat.digitChar value ≠ 'l')
  rw [whole, String.toList_append]
  rfl

theorem exists_closingLine (execution : Execution Vm) :
    ∃ level message, closingLine execution = Log.line level message ∧ level ≠ .debug ∧
      level ≠ .warn := by
  cases result : execution.result with
  | error error => exact ⟨.error, _, by rw [closingLine, result], by decide, by decide⟩
  | ok done => exact ⟨.info, _, by rw [closingLine, result], by decide, by decide⟩

end Lines

section Filter

open scoped Classical in
/-- Lines without those that show an instruction. -/
noncomputable def withoutTrace (lines : List String) : List String :=
  lines.filter fun line => ¬ IsTraceLine line

theorem withoutTrace_append (front back : List String) :
    withoutTrace (front ++ back) = withoutTrace front ++ withoutTrace back :=
  List.filter_append ..

theorem withoutTrace_of_forall {lines : List String} (others : ∀ line ∈ lines, ¬ IsTraceLine line) :
    withoutTrace lines = lines := by
  apply List.filter_eq_self.mpr
  intro line member
  simpa using others line member

theorem withoutTrace_map_sightingLine (sightings : List Sighting) :
    withoutTrace (sightings.map sightingLine) = [] := by
  apply List.filter_eq_nil_iff.mpr
  simp only [List.forall_mem_map, decide_eq_true_eq, not_not]
  intro sighting _
  exact ⟨sighting, rfl⟩

theorem mem_withoutTrace {lines : List String} {line : String} (other : ¬ IsTraceLine line) :
    line ∈ withoutTrace lines ↔ line ∈ lines := by
  simp [withoutTrace, other]

theorem withoutTrace_tracedLines (config : Config) (code : Bytes) (count : Nat) :
    withoutTrace (tracedLines config code count) =
      [Log.line .debug (createdNote config), Log.line .debug (loadedNote code.length),
        closingLine (Transition.stop Vm.step count (launched config code))] := by
  have opening : ∀ line ∈ [Log.line .debug (createdNote config),
      Log.line .debug (loadedNote code.length)], ¬ IsTraceLine line := by
    simp only [List.forall_mem_cons, List.not_mem_nil, false_implies, implies_true, and_true]
    exact ⟨not_isTraceLine_created config, not_isTraceLine_loaded code.length⟩
  have closing (execution : Execution Vm) :
      ∀ line ∈ [closingLine execution], ¬ IsTraceLine line := by
    rcases exists_closingLine execution with ⟨level, message, same, higher, _⟩
    rw [same]
    exact List.forall_mem_singleton.mpr (not_isTraceLine_of_level higher message)
  rw [tracedLines, withoutTrace_append, withoutTrace_append, withoutTrace_map_sightingLine,
    withoutTrace_of_forall opening, withoutTrace_of_forall (closing _)]
  rfl

end Filter

section Run

variable {fuel count : Nat} {host : Host} {path : String} {options : Options} {code : Bytes}
  {log : Log} {vm : Vm} {execution : Execution Vm}

theorem executePlain_of_verbose (verbose : log.minimum = .debug)
    (finished : vm.execute fuel = some execution) :
    executePlain fuel log vm = some (execution, log.extend (trapLines execution)) := by
  rw [executePlain, finished]
  cases result : execution.result with
  | error error =>
      simp only [Option.bind_eq_bind, Option.bind_some, result, trapLines]
      rw [Log.write_of_debug verbose]
      rfl
  | ok done =>
      simp only [Option.bind_eq_bind, Option.bind_some, result, trapLines, Log.extend_nil]
      rfl

theorem openingLog_of_verbose (verbose : options.minimum = .debug)
    (untraced : options.trace = false) (code : Bytes) :
    options.openingLog code = (Log.empty.setMinimum .debug).extend
      [Log.line .debug (createdNote options.config), Log.line .debug (loadedNote code.length)] := by
  simp only [Options.openingLog, untraced, Bool.false_eq_true, if_false, verbose]
  rw [Log.write_of_debug rfl, Log.write_of_debug rfl, Log.extend_extend]
  rfl

/-- The log of a session at the lowest level that does not trace. -/
theorem openProgram_of_verbose (launches : Launches host path options.config code)
    (unlisted : options.listing = false) (untraced : options.trace = false)
    (verbose : options.minimum = .debug)
    (finished : (launched options.config code).execute fuel = some execution) :
    ∃ transcript, openProgram fuel host path options = some transcript ∧
      transcript.log.lines.toList =
        [Log.line .debug (createdNote options.config), Log.line .debug (loadedNote code.length)] ++
          trapLines execution ++ [closingLine execution] := by
  have opening := openingLog_of_verbose verbose untraced code
  have lowest : (options.openingLog code).minimum = .debug := by
    rw [opening]
    rfl
  refine ⟨conclude execution ((options.openingLog code).extend (trapLines execution)), ?_, ?_⟩
  · rw [openProgram_of_launches launches unlisted, runLaunched, untraced,
      executePlain_of_verbose lowest finished]
    rfl
  · rw [log_conclude_extend lowest, opening, Log.extend_extend, Log.toList_lines_extend,
      List.append_assoc]
    rfl

end Run

section Warning

variable {fuel : Nat} {host : Host} {path : String} {options : Options} {code : Bytes}
  {execution : Execution Vm} {error : Error}

theorem line_ne_trapLine {level : Level} (other : level ≠ .warn) (message : String)
    (error : Error) : Log.line level message ≠ trapLine error := by
  intro same
  exact other (Log.line_injective same).1

theorem closingLine_ne_trapLine (execution : Execution Vm) (error : Error) :
    closingLine execution ≠ trapLine error := by
  rcases exists_closingLine execution with ⟨level, message, same, _, other⟩
  rw [same]
  exact line_ne_trapLine other message error

/-- What the two logs hold apart from the trace. -/
theorem exists_logs (launches : Launches host path options.config code)
    (unlisted : options.listing = false) (untraced : options.trace = false)
    (finished : (launched options.config code).execute fuel = some execution) :
    ∃ traced verbose, openProgram fuel host path options.traced = some traced ∧
      openProgram fuel host path { options with minimum := .debug } = some verbose ∧
      withoutTrace traced.log.lines.toList =
        [Log.line .debug (createdNote options.config), Log.line .debug (loadedNote code.length),
          closingLine execution] ∧
      verbose.log.lines.toList =
        [Log.line .debug (createdNote options.config), Log.line .debug (loadedNote code.length)] ++
          trapLines execution ++ [closingLine execution] := by
  rcases (Vm.execute_eq_some_iff rfl).mp finished with ⟨count, bound, runs, stops, rfl⟩
  have launchesTraced : Launches host path options.traced.config code := launches
  have launchesVerbose : Launches host path ({ options with minimum := .debug } : Options).config
    code := launches
  rcases openProgram_of_stops launchesTraced unlisted bound runs stops with
    ⟨_, traced, ends, _, shows⟩
  rcases openProgram_of_verbose launchesVerbose unlisted untraced rfl finished with
    ⟨verbose, endsVerbose, lines⟩
  refine ⟨traced, verbose, ends, endsVerbose, ?_, lines⟩
  rw [shows rfl]
  exact withoutTrace_tracedLines options.config code count

/-- A trap puts its warning in front of the last line of the one log and leaves no warning in the
other. -/
theorem warning_of_logs {traced verbose : List String} {config : Config}
    (traps : execution.result = .error error)
    (silent : withoutTrace traced =
      [Log.line .debug (createdNote config), Log.line .debug (loadedNote code.length),
        closingLine execution])
    (lines : verbose =
      [Log.line .debug (createdNote config), Log.line .debug (loadedNote code.length)] ++
        trapLines execution ++ [closingLine execution]) :
    verbose.count (trapLine error) = 1 ∧ trapLine error ∉ traced ∧
      withoutTrace traced = verbose.erase (trapLine error) := by
  have created := line_ne_trapLine (by decide : Level.debug ≠ .warn) (createdNote config) error
  have loaded := line_ne_trapLine (by decide : Level.debug ≠ .warn) (loadedNote code.length) error
  have closing := closingLine_ne_trapLine execution error
  have warned : trapLines execution = [trapLine error] := by rw [trapLines, traps]
  rw [warned] at lines
  refine ⟨?_, ?_, ?_⟩
  · rw [lines]
    simp [created, loaded, closing]
  · rw [← mem_withoutTrace (not_isTraceLine_trapLine error), silent]
    simp [created.symm, loaded.symm, closing.symm]
  · rw [silent, lines]
    simp [created, loaded]

end Warning

/-- Apart from the instructions that it shows, a session with the switch for tracing logs what the
same session logs with the lowest level asked for at the end, provided that the program succeeds.
When it traps, the warning of the trap stands once in the log at the lowest level, and the traced
log has all other lines but not the warning. -/
theorem trace_adds_lines {fuel : Nat} {host : Host} {program path : String}
    {arguments : List String} {options : Options} {code : Bytes} {execution : Execution Vm}
    (opens : path ≠ "--help" ∧ path ≠ "-h")
    (accepted : Options.standard.read arguments = .ok options)
    (unlisted : options.listing = false) (untraced : options.trace = false)
    (launches : Launches host path options.config code)
    (finished : (launched options.config code).execute fuel = some execution) :
    ∃ traced verbose,
      session fuel host program (path :: (arguments ++ ["--trace"])) = some traced ∧
      session fuel host program (path :: (arguments ++ ["--log-level", "debug"])) = some verbose ∧
      (execution.result = .ok () →
        withoutTrace traced.log.lines.toList = verbose.log.lines.toList) ∧
      ∀ error, execution.result = .error error →
        verbose.log.lines.toList.count (trapLine error) = 1 ∧
        trapLine error ∉ traced.log.lines.toList ∧
        withoutTrace traced.log.lines.toList =
          verbose.log.lines.toList.erase (trapLine error) := by
  have acceptedTraced : Options.standard.read (arguments ++ ["--trace"]) = .ok options.traced := by
    rw [Options.read_append accepted]
    rfl
  have acceptedVerbose : Options.standard.read (arguments ++ ["--log-level", "debug"]) =
      .ok { options with minimum := .debug } := by
    rw [Options.read_append accepted]
    rfl
  rw [session_of_accepted program opens acceptedTraced,
    session_of_accepted program opens acceptedVerbose]
  rcases exists_logs launches unlisted untraced finished with
    ⟨traced, verbose, ends, endsVerbose, silent, lines⟩
  refine ⟨traced, verbose, ends, endsVerbose, ?_, ?_⟩
  · intro succeeds
    rw [silent, lines, trapLines, succeeds]
    rfl
  · intro error traps
    exact warning_of_logs traps silent lines

/-- With a small stack the program that stumbles over an ADD is warned of once, and not at all when
it is traced. -/
theorem trace_adds_lines_stumbling :
    ∃ traced verbose,
      session 3 stumblingHost "run" ["add.bin", "--stack", "9", "--trace"] = some traced ∧
      session 3 stumblingHost "run" ["add.bin", "--stack", "9", "--log-level", "debug"] =
        some verbose ∧
      verbose.log.lines.toList.count (trapLine (.trap 10 (.stackUnderflow 2 1))) = 1 ∧
      withoutTrace traced.log.lines.toList =
        verbose.log.lines.toList.erase (trapLine (.trap 10 (.stackUnderflow 2 1))) := by
  have opens : "add.bin" ≠ "--help" ∧ "add.bin" ≠ "-h" := by decide
  have launches : Launches stumblingHost "add.bin" { Config.standard with stackSize := 9 }
      stumblingCode := ⟨⟨_, rfl, rfl⟩, rfl, rfl, rfl, rfl, rfl⟩
  have finished : (launched { Config.standard with stackSize := 9 } stumblingCode).execute 3 =
      some ⟨.error (.trap 10 (.stackUnderflow 2 1)), #[7], _⟩ := rfl
  have accepted : Options.standard.read ["--stack", "9"] =
      .ok { Options.standard with config := { Config.standard with stackSize := 9 } } := rfl
  rcases trace_adds_lines opens accepted rfl rfl launches finished with
    ⟨traced, verbose, ends, endsVerbose, _, warns⟩
  rcases warns _ rfl with ⟨once, _, rest⟩
  exact ⟨traced, verbose, ends, endsVerbose, once, rest⟩

/-- A host on which every file holds a POP. -/
def poppingHost : Host := ⟨.unlimited, fun _ => .ok (Opcode.pop.encode none)⟩

/-- A POP on an empty stack is not warned of when it is traced, so the traced log is not the other
one with the instruction added. -/
theorem trace_drops_warning :
    ∃ traced verbose,
      session 1 poppingHost "run" ["program.bin", "--trace"] = some traced ∧
      session 1 poppingHost "run" ["program.bin", "--log-level", "debug"] = some verbose ∧
      verbose.log.lines.toList.count (trapLine (.trap 0 (.stackUnderflow 1 0))) = 1 ∧
      traced.log.lines.toList.count (trapLine (.trap 0 (.stackUnderflow 1 0))) = 0 ∧
      withoutTrace traced.log.lines.toList ≠ verbose.log.lines.toList := by
  have launches : Launches poppingHost "program.bin" Options.standard.config
      (Opcode.pop.encode none) := ⟨⟨_, rfl, rfl⟩, rfl, rfl, rfl, rfl, rfl⟩
  have finished : (launched Options.standard.config (Opcode.pop.encode none)).execute 1 =
      some ⟨.error (.trap 0 (.stackUnderflow 1 0)), #[], _⟩ := rfl
  rcases exists_logs launches rfl rfl finished with
    ⟨traced, verbose, ends, endsVerbose, silent, lines⟩
  rcases warning_of_logs rfl silent lines with ⟨once, missing, _⟩
  refine ⟨traced, verbose, ends, endsVerbose, once, List.count_eq_zero.mpr missing, ?_⟩
  intro same
  have warned := List.count_pos_iff.mp (Nat.lt_of_lt_of_eq Nat.one_pos once.symm)
  rw [← same, mem_withoutTrace (not_isTraceLine_trapLine _)] at warned
  exact missing warned

end CommandLine

end StackMachine
