import StackMachine.Assembly
import StackMachine.Benchmark.Report
import StackMachine.Calendar
import StackMachine.CommandLine.Session
import StackMachine.Container
import StackMachine.Main
import StackMachine.Proofs.Assembly.Inversion
import StackMachine.Proofs.Assembly.Labels
import StackMachine.Proofs.Assembly.Patching
import StackMachine.Proofs.Assembly.Resolution
import StackMachine.Proofs.Benchmark.CountedLoop
import StackMachine.Proofs.CommandLine.Tracing
import StackMachine.Proofs.Container.RoundTrip
import StackMachine.Proofs.Listing.Composition
import StackMachine.Proofs.Listing.Coverage
import StackMachine.Proofs.Listing.Layout
import StackMachine.Proofs.Machine.Refinement
import StackMachine.Proofs.Machine.Stepping
import StackMachine.Proofs.Machine.StraightLine
import StackMachine.Proofs.Vm.Accounting
import StackMachine.Proofs.Vm.CallMatching
import StackMachine.Proofs.Vm.Coherence
import StackMachine.Proofs.Vm.ControlFlow
import StackMachine.Proofs.Vm.Headroom
import StackMachine.Proofs.Vm.History
import StackMachine.Proofs.Vm.Lockstep
import StackMachine.Proofs.Vm.Passage
import StackMachine.Proofs.Vm.Past
import StackMachine.Proofs.Vm.Refusal
import StackMachine.Proofs.Vm.Reload
import StackMachine.Proofs.Vm.Slicing
import StackMachine.Proofs.Vm.StoreHistory
import StackMachine.Proofs.Vm.StraightLine
import StackMachine.Proofs.Vm.Trace
import StackMachine.Proofs.Vm.TrapAtomicity
import StackMachine.Vm.Description
import StackMachine.Vm.Run
import StackMachine.Word.Lemmas
import StackMachine.Proofs.Listing.Rendering
import StackMachine.Proofs.Benchmark.Factorial
import StackMachine.Proofs.Vm.ForwardOnly
import StackMachine.Proofs.Calendar.Conversion
import StackMachine.Proofs.Calendar.Registers
import StackMachine.Proofs.Vm.TrailingBytes
import StackMachine.Proofs.Numeral.Unsigned
import StackMachine.Proofs.CommandLine.Grammar
import StackMachine.Proofs.CommandLine.Warnings
import StackMachine.Proofs.Benchmark.Report
