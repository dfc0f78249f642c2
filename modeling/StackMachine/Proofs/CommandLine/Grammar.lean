import Mathlib.Data.List.Forall2
import Mathlib.Data.List.Induction
import StackMachine.Proofs.CommandLine.Tracing
import StackMachine.Proofs.Numeral.Unsigned

/-!
# The grammar of the options

The arguments after the program path are understood exactly when they are options one behind
another, each written in one of its spellings.  An option name that stands where a value is expected
is read as that value, so the arguments are taken apart from the left.

What the options decide is a function of the last value given for each of them.  Options of
different kinds have nothing to do with each other, so their order does not matter, and a session
that shows a listing never runs the program.
-/

namespace StackMachine

namespace Level

/-- The names of the levels, in lower case. -/
def names : List (String × Level) :=
  [("debug", debug), ("trace", debug), ("info", info), ("warn", warn), ("warning", warn),
    ("error", error)]

/-- A text is a word, in which each letter may also be the capital letter. -/
def IsCased (word text : String) : Prop :=
  List.Forall₂ (fun letter char => char = letter ∨ char = letter.toUpper) word.toList text.toList

theorem toLower_eq_iff {letter char : Char} (lower : letter.isLower = true) :
    char.toLower = letter ↔ char = letter ∨ char = letter.toUpper := by
  have codes : ('a' : Char).val.toNat = 97 ∧ ('z' : Char).val.toNat = 122 ∧
      ('A' : Char).val.toNat = 65 ∧ ('Z' : Char).val.toNat = 90 := ⟨rfl, rfl, rfl, rfl⟩
  rcases codes with ⟨firstLower, lastLower, firstUpper, lastUpper⟩
  have bound := char.val.toNat_lt
  delta Char.isLower at lower
  delta Char.toLower Char.toUpper
  simp only [Bool.and_eq_true, decide_eq_true_eq, ge_iff_le, UInt32.le_iff_toNat_le, firstLower,
    lastLower, firstUpper, lastUpper] at *
  rw [dif_pos lower]
  split
  · simp only [Char.ext_iff, ← UInt32.toNat_inj, UInt32.toNat_add, UInt32.toNat_sub]
    omega
  · simp only [Char.ext_iff, ← UInt32.toNat_inj, UInt32.toNat_add, UInt32.toNat_sub]
    omega

theorem map_toLower_eq_iff {word text : List Char}
    (lower : ∀ letter ∈ word, letter.isLower = true) :
    text.map Char.toLower = word ↔
      List.Forall₂ (fun letter char => char = letter ∨ char = letter.toUpper) word text := by
  induction word generalizing text with
  | nil => simp
  | cons letter word ih =>
      rcases List.forall_mem_cons.mp lower with ⟨first, rest⟩
      cases text with
      | nil => simp
      | cons char text => simp [toLower_eq_iff first, ih rest]

theorem isLower_of_mem_names {word : String} {level : Level} (known : (word, level) ∈ names) :
    ∀ letter ∈ word.toList, letter.isLower = true := by
  have all : ∀ name ∈ names, ∀ letter ∈ name.1.toList, letter.isLower = true := by
    simp [names]
  exact all _ known

theorem mem_names_of_lookup {word : String} {level : Level}
    (found : names.lookup word = some level) : (word, level) ∈ names := by
  rcases List.lookup_eq_some_iff.mp found with ⟨front, back, split, _⟩
  simp [split]

theorem lookup_of_mem_names {word : String} {level : Level} (known : (word, level) ∈ names) :
    names.lookup word = some level := by
  have all : ∀ name ∈ names, names.lookup name.1 = some name.2 := by decide
  exact all _ known

theorem ofName?_eq_lookup (text : String) :
    ofName? text = names.lookup (String.ofList (text.toList.map Char.toLower)) := by
  unfold ofName?
  split
  case h_7 =>
    symm
    simp_all [names, List.lookup_eq_none_iff]
  all_goals
    rename_i lowered
    rw [lowered]
    rfl

/-- A level is named by the words of the list in any mixture of small and capital letters, and by no
other text. -/
theorem ofName?_eq_some_iff {text : String} {level : Level} :
    ofName? text = some level ↔ ∃ word, (word, level) ∈ names ∧ IsCased word text := by
  rw [ofName?_eq_lookup]
  constructor
  · intro found
    have known := mem_names_of_lookup found
    refine ⟨_, known, (map_toLower_eq_iff (isLower_of_mem_names known)).mp ?_⟩
    exact String.toList_ofList.symm
  · rintro ⟨word, known, cased⟩
    rw [(map_toLower_eq_iff (isLower_of_mem_names known)).mpr cased, String.ofList_toList]
    exact lookup_of_mem_names known

end Level

namespace CommandLine

/-- What one option settles. -/
inductive Setting where
  | size (option : SizeOption) (value : UInt32)
  | logLevel (level : Level)
  | listing
  | trace
  deriving DecidableEq, Repr

/-- The argument that an option begins with. -/
def Flag.argument : Flag → String
  | size .memory => "--mem"
  | size .stack => "--stack"
  | size .depth => "--depth"
  | logLevel => "--log-level"
  | listing => "--disasm"
  | trace => "--trace"

namespace Setting

/-- The ways to write an option: the arguments it is made of. -/
inductive Spelled : Setting → List String → Prop where
  | size {option : SizeOption} {value : UInt32} {text : String}
      (number : Numeral.Types text value.toNat) :
      Spelled (size option value) [(Flag.size option).argument, text]
  | logLevel {level : Level} {word text : String} (known : (word, level) ∈ Level.names)
      (cased : Level.IsCased word text) : Spelled (logLevel level) [Flag.logLevel.argument, text]
  | listing : Spelled listing [Flag.listing.argument]
  | trace : Spelled trace [Flag.trace.argument]

/-- What an option begins with. -/
def flag : Setting → Flag
  | size option _ => .size option
  | logLevel _ => .logLevel
  | listing => .listing
  | trace => .trace

/-- The value of an option for this size. -/
def size? (wanted : SizeOption) : Setting → Option UInt32
  | size option value => if option = wanted then some value else none
  | _ => none

/-- The value of an option for the log level. -/
def level? : Setting → Option Level
  | logLevel level => some level
  | _ => none

end Setting

/-- Options one behind another, taken apart from the left. -/
inductive Spelled : List Setting → List String → Prop where
  | nil : Spelled [] []
  | cons {setting : Setting} {settings : List Setting} {group arguments : List String}
      (first : setting.Spelled group) (rest : Spelled settings arguments) :
      Spelled (setting :: settings) (group ++ arguments)

/-- The last value given for a size. -/
def lastSize? (option : SizeOption) (settings : List Setting) : Option UInt32 :=
  (settings.filterMap (Setting.size? option)).getLast?

/-- The last value given for the log level. -/
def lastLevel? (settings : List Setting) : Option Level :=
  (settings.filterMap Setting.level?).getLast?

/-- Two lists of options give the same last value for each option. -/
structure SameChoices (settings other : List Setting) : Prop where
  sizes : ∀ option, lastSize? option other = lastSize? option settings
  level : lastLevel? other = lastLevel? settings
  listing : .listing ∈ other ↔ .listing ∈ settings
  trace : .trace ∈ other ↔ .trace ∈ settings

theorem filterMap_swap {α : Type} {select : Setting → Option α} {first second : Setting}
    (apart : select first = none ∨ select second = none) (front back : List Setting) :
    (front ++ second :: first :: back).filterMap select =
      (front ++ first :: second :: back).filterMap select := by
  rcases apart with unselected | unselected
  · simp [List.filterMap_cons, unselected]
  · simp [List.filterMap_cons, unselected]

/-- Options of different kinds can change places. -/
theorem sameChoices_swap {first second : Setting} (different : first.flag ≠ second.flag)
    (front back : List Setting) :
    SameChoices (front ++ first :: second :: back) (front ++ second :: first :: back) := by
  refine ⟨?_, ?_, by simp [or_left_comm], by simp [or_left_comm]⟩
  · intro option
    rw [lastSize?, filterMap_swap, ← lastSize?]
    cases first with
    | size option =>
        cases second with
        | size other =>
            simp only [Setting.size?, Setting.flag] at different ⊢
            grind
        | _ => exact Or.inr rfl
    | _ => exact Or.inl rfl
  · rw [lastLevel?, filterMap_swap, ← lastLevel?]
    cases first with
    | logLevel level =>
        cases second with
        | logLevel other => exact absurd rfl different
        | _ => exact Or.inr rfl
    | _ => exact Or.inl rfl

theorem Flag.ofArgument?_eq_some_iff {argument : String} {flag : Flag} :
    ofArgument? argument = some flag ↔ argument = flag.argument := by
  constructor
  · intro found
    unfold ofArgument? at found
    split at found
    case h_7 => contradiction
    all_goals
      rcases Option.some.inj found with rfl
      rfl
  · rintro rfl
    rcases flag with (_ | _ | _) | _ | _ | _
    all_goals rfl

theorem sizeValue?_eq_some_iff {text : String} {value : UInt32} :
    sizeValue? text = some value ↔ Numeral.Types text value.toNat := by
  have bound : value.toNat < UInt32.size := value.toNat_lt
  simp only [sizeValue?, Option.map_eq_some_iff, Numeral.unsigned?_eq_some_iff]
  constructor
  · rintro ⟨number, ⟨typed, small⟩, rfl⟩
    rwa [UInt32.toNat_ofNat_of_lt' small]
  · intro typed
    exact ⟨value.toNat, ⟨typed, bound⟩, UInt32.ofNat_toNat⟩

namespace Options

/-- The options with one more of them given. -/
def apply (options : Options) : Setting → Options
  | .size option value => { options with config := option.set options.config value }
  | .logLevel level => { options with minimum := level }
  | .listing => { options with listing := true }
  | .trace => { options with trace := true }

/-- What options decide: for each of them the last value counts, and without one the standard. -/
def ofSettings (settings : List Setting) : Options where
  config :=
    { memorySize := (lastSize? .memory settings).getD Config.standard.memorySize
      stackSize := (lastSize? .stack settings).getD Config.standard.stackSize
      maxCallDepth := (lastSize? .depth settings).getD Config.standard.maxCallDepth }
  listing := decide (.listing ∈ settings)
  trace := decide (.trace ∈ settings)
  minimum := (lastLevel? settings).getD .standard

theorem ofSettings_concat (settings : List Setting) (setting : Setting) :
    ofSettings (settings ++ [setting]) = (ofSettings settings).apply setting := by
  cases setting with
  | size option value =>
      cases option <;>
        simp [ofSettings, apply, lastSize?, lastLevel?, Setting.size?, Setting.level?,
          SizeOption.set]
  | _ => simp [ofSettings, apply, lastSize?, lastLevel?, Setting.size?, Setting.level?]

theorem ofSettings_congr {settings other : List Setting} (same : SameChoices settings other) :
    ofSettings other = ofSettings settings := by
  simp only [ofSettings, same.sizes, same.level, same.listing, same.trace]

theorem foldl_apply_standard (settings : List Setting) :
    settings.foldl apply standard = ofSettings settings := by
  induction settings using List.reverseRecOn with
  | nil => rfl
  | append_singleton settings setting ih => rw [List.foldl_concat, ih, ofSettings_concat]

theorem read_of_spelled {setting : Setting} {group : List String} (spelled : setting.Spelled group)
    (options : Options) (rest : List String) :
    options.read (group ++ rest) = (options.apply setting).read rest := by
  have flagged (flag : Flag) : Flag.ofArgument? flag.argument = some flag :=
    Flag.ofArgument?_eq_some_iff.mpr rfl
  cases spelled with
  | size number =>
      have valued := sizeValue?_eq_some_iff.mpr number
      simp only [List.cons_append, List.nil_append, read, flagged, valued, apply]
  | logLevel known cased =>
      have named := Level.ofName?_eq_some_iff.mpr ⟨_, known, cased⟩
      simp only [List.cons_append, List.nil_append, read, flagged, named, apply]
  | listing =>
      rw [List.cons_append, List.nil_append, read_listing (flagged .listing)]
      rfl
  | trace =>
      rw [List.cons_append, List.nil_append, read_trace (flagged .trace)]
      rfl

theorem exists_spelled_of_read {options final : Options} {arguments : List String}
    (accepted : options.read arguments = .ok final) :
    ∃ settings, Spelled settings arguments ∧ final = settings.foldl apply options := by
  induction options, arguments using read.induct with
  | case1 options =>
      rcases Except.ok.inj accepted with rfl
      exact ⟨[], .nil, rfl⟩
  | case2 options _ _ flag =>
      rw [read_unexpected flag] at accepted
      contradiction
  | case3 options _ _ flag ih =>
      rw [read_listing flag] at accepted
      rcases ih accepted with ⟨settings, spelled, rfl⟩
      rcases Flag.ofArgument?_eq_some_iff.mp flag with rfl
      exact ⟨.listing :: settings, .cons .listing spelled, rfl⟩
  | case4 options _ _ flag ih =>
      rw [read_trace flag] at accepted
      rcases ih accepted with ⟨settings, spelled, rfl⟩
      rcases Flag.ofArgument?_eq_some_iff.mp flag with rfl
      exact ⟨.trace :: settings, .cons .trace spelled, rfl⟩
  | case7 options _ flag _ _ level named ih =>
      simp only [read, flag, named] at accepted
      rcases ih accepted with ⟨settings, spelled, rfl⟩
      rcases Flag.ofArgument?_eq_some_iff.mp flag with rfl
      rcases Level.ofName?_eq_some_iff.mp named with ⟨_, known, cased⟩
      exact ⟨.logLevel level :: settings, .cons (.logLevel known cased) spelled, rfl⟩
  | case10 options _ option flag _ _ size sized ih =>
      simp only [read, flag, sized] at accepted
      rcases ih accepted with ⟨settings, spelled, rfl⟩
      rcases Flag.ofArgument?_eq_some_iff.mp flag with rfl
      have number := sizeValue?_eq_some_iff.mp sized
      exact ⟨.size option size :: settings, .cons (.size number) spelled, rfl⟩
  | _ => simp_all [read]

/-- Reading succeeds on options one behind another and takes them in their order. -/
theorem read_eq_ok_iff {options final : Options} {arguments : List String} :
    options.read arguments = .ok final ↔
      ∃ settings, Spelled settings arguments ∧ final = settings.foldl apply options := by
  refine ⟨exists_spelled_of_read, ?_⟩
  rintro ⟨settings, spelled, rfl⟩
  induction spelled generalizing options with
  | nil => rfl
  | cons first _ ih => rw [read_of_spelled first, ih, List.foldl_cons]

theorem read_standard_eq_ok_iff {options : Options} {arguments : List String} :
    standard.read arguments = .ok options ↔
      ∃ settings, Spelled settings arguments ∧ options = ofSettings settings := by
  simp only [read_eq_ok_iff, foldl_apply_standard]

end Options

section Session

variable {fuel : Nat} {host : Host} {program path : String} {arguments : List String}

theorem session_of_spelled {settings : List Setting} (opens : path ≠ "--help" ∧ path ≠ "-h")
    (spelled : Spelled settings arguments) :
    session fuel host program (path :: arguments) =
      openProgram fuel host path (.ofSettings settings) :=
  session_of_accepted program opens (Options.read_standard_eq_ok_iff.mpr ⟨settings, spelled, rfl⟩)

theorem session_of_sameChoices {settings other : List Setting} {rearranged : List String}
    (opens : path ≠ "--help" ∧ path ≠ "-h") (spelled : Spelled settings arguments)
    (spelledOther : Spelled other rearranged) (same : SameChoices settings other) :
    session fuel host program (path :: rearranged) =
      session fuel host program (path :: arguments) := by
  rw [session_of_spelled opens spelledOther, session_of_spelled opens spelled,
    Options.ofSettings_congr same]

theorem session_of_rejected {rejection : Rejection} (opens : path ≠ "--help" ∧ path ≠ "-h")
    (rejected : Options.standard.read arguments = .error rejection) :
    session fuel host program (path :: arguments) = some (reject program rejection) := by
  rw [session, if_neg (not_or.mpr opens), rejected]

theorem exitCode_reject (program : String) (rejection : Rejection) :
    (reject program rejection).exitCode = 1 := by
  rcases rejection with ⟨_ | _ | _ | _, minimum⟩
  all_goals rfl

theorem output_reject (program : String) (rejection : Rejection) :
    (reject program rejection).output = "" := by
  rcases rejection with ⟨_ | _ | _ | _, minimum⟩
  all_goals rfl

/-- With a listing asked for, a program that can be read is listed, whatever it would do. -/
theorem openProgram_of_listing {options : Options} {file code : Bytes}
    (listed : options.listing = true) (reads : host.fileContents path = .ok file)
    (decodes : ProgramFile.read file = .ok code) :
    openProgram fuel host path options =
      some (showListing (Log.empty.setMinimum options.minimum) code) := by
  simp only [openProgram, reads, decodes, listed, if_true]

end Session

/-- The arguments after the program path are accepted exactly when they are options one behind
another.

What they decide is then told by the last value of each option and the standard for those that are
missing, so a session is the same for any two lists of options that agree on these.  With a listing
asked for, the program is not run, so it does not matter whether it would end.  Without a way to
take the arguments apart, a session fails, prints nothing and asks nothing of its host, so the
program file has no part in what it leaves behind. -/
theorem options_follow_grammar {path : String} (program : String) (arguments : List String)
    (opens : path ≠ "--help" ∧ path ≠ "-h") :
    (∀ options, Options.standard.read arguments = .ok options ↔
      ∃ settings, Spelled settings arguments ∧ options = .ofSettings settings) ∧
    (∀ settings, Spelled settings arguments → ∀ fuel host,
      session fuel host program (path :: arguments) =
        openProgram fuel host path (.ofSettings settings) ∧
      (∀ other rearranged, Spelled other rearranged → SameChoices settings other →
        session fuel host program (path :: rearranged) =
          session fuel host program (path :: arguments)) ∧
      (∀ front back first second rearranged, settings = front ++ first :: second :: back →
        first.flag ≠ second.flag → Spelled (front ++ second :: first :: back) rearranged →
        session fuel host program (path :: rearranged) =
          session fuel host program (path :: arguments)) ∧
      (.listing ∈ settings → ∀ file code, host.fileContents path = .ok file →
        ProgramFile.read file = .ok code →
        session fuel host program (path :: arguments) =
          some (showListing (Log.empty.setMinimum ((lastLevel? settings).getD .standard)) code))) ∧
    ((∀ settings, ¬ Spelled settings arguments) →
      ∃ transcript, transcript.exitCode = 1 ∧ transcript.output = "" ∧
        ∀ fuel host, session fuel host program (path :: arguments) = some transcript) := by
  refine ⟨fun options => Options.read_standard_eq_ok_iff, ?accepted, ?rejected⟩
  case accepted =>
    intro settings spelled fuel host
    refine ⟨session_of_spelled opens spelled, ?_, ?_, ?_⟩
    · intro other rearranged spelledOther same
      exact session_of_sameChoices opens spelled spelledOther same
    · rintro front back first second rearranged rfl different spelledOther
      exact session_of_sameChoices opens spelled spelledOther
        (sameChoices_swap different front back)
    · intro listed file code reads decodes
      rw [session_of_spelled opens spelled]
      exact openProgram_of_listing (decide_eq_true listed) reads decodes
  case rejected =>
    intro unspelled
    cases understood : Options.standard.read arguments with
    | ok options =>
        rcases Options.read_standard_eq_ok_iff.mp understood with ⟨settings, spelled, _⟩
        exact absurd spelled (unspelled settings)
    | error rejection =>
        refine ⟨reject program rejection, exitCode_reject _ _, output_reject _ _, ?_⟩
        intro fuel host
        exact session_of_rejected opens understood

/-- A later size replaces an earlier one, and the log level may stand before or behind it. -/
theorem session_rearranged :
    ("program.bin" ≠ "--help" ∧ "program.bin" ≠ "-h") ∧
    (∀ fuel host,
      session fuel host "run"
          ["program.bin", "--mem", "64", "--mem", "+032", "--log-level", "eRRor"] =
        session fuel host "run" ["program.bin", "--log-level", "error", "--mem", "32"]) ∧
    ∃ transcript, transcript.exitCode = 1 ∧ transcript.output = "" ∧
      ∀ fuel host, session fuel host "run" ["program.bin", "--mem", "--disasm"] =
        some transcript := by
  have opens : "program.bin" ≠ "--help" ∧ "program.bin" ≠ "-h" := by decide
  have twice : Numeral.Types "64" 64 ∧ Numeral.Types "+032" 32 ∧ Numeral.Types "32" 32 :=
    ⟨⟨[], ['6', '4'], rfl, Or.inl rfl, by simp, by simp, rfl⟩,
      ⟨['+'], ['0', '3', '2'], rfl, Or.inr rfl, by simp, by simp, rfl⟩,
      ⟨[], ['3', '2'], rfl, Or.inl rfl, by simp, by simp, rfl⟩⟩
  rcases twice with ⟨earlier, signed, plain⟩
  have known : ("error", Level.error) ∈ Level.names := by decide
  have cased : Level.IsCased "error" "eRRor" := by
    apply (Level.map_toLower_eq_iff (Level.isLower_of_mem_names known)).mp
    rfl
  have lower : Level.IsCased "error" "error" := by
    apply (Level.map_toLower_eq_iff (Level.isLower_of_mem_names known)).mp
    rfl
  have spelled : Spelled [.size .memory 64, .size .memory 32, .logLevel .error]
      ["--mem", "64", "--mem", "+032", "--log-level", "eRRor"] :=
    .cons (.size earlier) (.cons (.size signed) (.cons (.logLevel known cased) .nil))
  have spelledOther : Spelled [.logLevel .error, .size .memory 32]
      ["--log-level", "error", "--mem", "32"] :=
    .cons (.logLevel known lower) (.cons (.size plain) .nil)
  have same : SameChoices [.size .memory 64, .size .memory 32, .logLevel .error]
      [.logLevel .error, .size .memory 32] := by
    refine ⟨?_, rfl, by decide, by decide⟩
    intro option
    cases option with
    | _ => rfl
  refine ⟨opens, ?_, ?_⟩
  · intro fuel host
    rcases options_follow_grammar "run" _ opens with ⟨_, accepted, _⟩
    exact ((accepted _ spelled fuel host).2.1 _ _ spelledOther same).symm
  · rcases options_follow_grammar "run" _ opens with ⟨understood, _, rejected⟩
    apply rejected
    intro settings unlikely
    have swallowed : Options.standard.read ["--mem", "--disasm"] =
        .error ⟨.invalidNumber "--mem" "--disasm", .info⟩ := rfl
    cases swallowed.symm.trans ((understood _).mpr ⟨settings, unlikely, rfl⟩)

end CommandLine

end StackMachine
