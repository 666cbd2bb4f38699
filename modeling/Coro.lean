import Coro.CommandLine.Directory
import Coro.Main
import Coro.Proofs.Machine.Recheck
import Coro.Proofs.Machine.States
import Coro.Proofs.Structured
import Coro.Proofs.Program.Reference
import Coro.Proofs.Machine.Invariant
import Coro.Proofs.Machine.Bounds
import Coro.Proofs.Machine.Retention
import Coro.Proofs.Resolution.Naming
import Coro.Proofs.Resolution.Ownership
import Coro.Proofs.Machine.Confinement
import Coro.Proofs.Machine.Isolation
import Coro.Proofs.Structured.Routine
import Coro.Proofs.Machine.Truncation
import Coro.Proofs.Machine.Result
import Coro.Proofs.Machine.Rotation
import Coro.Proofs.Emit.Scoping
import Coro.Proofs.Parser.Printer
import Coro.Proofs.Emit.ReadBack
import Coro.Proofs.Hint
import Coro.Proofs.Token.Lines
import Coro.Proofs.Machine.Timing
import Coro.Proofs.Emit.Cascade
import Coro.Proofs.Resolution.Lexical
import Coro.Proofs.Program.Cycle
import Coro.Proofs.Emit.Labels
import Coro.Proofs.Registers.Binding
import Coro.Proofs.Token.Coverage
import Coro.Proofs.Registers.Degradation
import Coro.Proofs.Resolution.Folding
import Coro.Proofs.Report
import Coro.Proofs.Model.Modular
import Coro.Proofs.Token.Values
