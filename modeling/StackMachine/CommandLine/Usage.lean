/-!
# Usage

The help text of the command line.
-/

namespace StackMachine.CommandLine

/-- The help text, for a program of this name. -/
def usage (program : String) : String := String.join <| List.map (· ++ "\n") [
  "Bytecode Runner",
  "",
  "USAGE:",
  s!"    {program} <program> [OPTIONS]",
  "",
  "ARGS:",
  "    <program>    Bytecode file (raw or OBPL container)",
  "",
  "OPTIONS:",
  "    --mem <bytes>          Memory region size (default 65536)",
  "    --stack <words>        Operand stack capacity (default 1024)",
  "    --depth <frames>       Maximum call depth (default 256)",
  "    --disasm               Print a listing instead of executing",
  "    --trace                Log every instruction before it executes",
  "    --log-level <level>    Minimum log level: debug, info, warn, error",
  "    -h, --help             Print this help message",
  "",
  "EXAMPLES:",
  "    # Run with default sizes",
  s!"    {program} program.bin",
  "",
  "    # Run with a small stack and trace execution",
  s!"    {program} program.bin --stack 64 --trace",
  "",
  "    # Inspect a program without running it",
  s!"    {program} program.bin --disasm"]

end StackMachine.CommandLine
