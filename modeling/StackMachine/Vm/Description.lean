import StackMachine.Numeral
import StackMachine.Vm.Basic

/-!
# Descriptions of instances

The one-line text that shows an instance to a developer, and the text of a stack in it.
-/

namespace StackMachine

def wordsText (words : List UInt64) : String :=
  "[" ++ ", ".intercalate (words.map fun word => Numeral.decimal word.toNat) ++ "]"

def truthText (holds : Bool) : String := if holds then "true" else "false"

def Config.description (config : Config) : String :=
  s!"VmConfig \x7b mem_size: {config.memorySize.toNat}, stack_size: {config.stackSize.toNat}, " ++
    s!"max_call_depth: {config.maxCallDepth.toNat} \x7d"

def Vm.description (vm : Vm) : String :=
  "VM \x7b config: " ++ vm.config.description ++ ", initialized: " ++ truthText vm.isInitialized ++
    s!", ip: {vm.ip}, stack: " ++ wordsText vm.stack ++ s!", call_depth: {vm.callDepth} \x7d"

end StackMachine
