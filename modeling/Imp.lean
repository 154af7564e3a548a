import Imp.Main
import Imp.Toolchain
import Imp.Proofs.Wat.Simulation
import Imp.Proofs.Wat.Validation
import Imp.Proofs.Asm.Simulation
import Imp.Proofs.Asm.Saturation
import Imp.Proofs.Python.Simulation
import Imp.Proofs.Printer
import Imp.Proofs.Dialects
import Imp.Proofs.Tiling
import Imp.Proofs.Run.Limit
import Imp.Proofs.Run.Certificate
import Imp.Proofs.Json.Saved
import Imp.Proofs.Run.Endless
import Imp.Proofs.Wat.Divergence
import Imp.Proofs.Asm.ExitTest
import Imp.Proofs.Asm.Labels
import Imp.Proofs.Asm.Stack
import Imp.Proofs.Asm.WellFormed
import Imp.Proofs.CommandLine.Effects
import Imp.Proofs.Parser.Viability
import Imp.Proofs.Parser.Termination
import Imp.Proofs.Parentheses
import Imp.Proofs.FirstFault
import Imp.Proofs.Run.Flow
import Imp.Proofs.Concatenation
import Imp.Proofs.Wat.Refusal
import Imp.Proofs.Asm.Cells
import Imp.Proofs.Evaluation
import Imp.Proofs.Run.Bindings
import Imp.Proofs.Python.Recovery
import Imp.Proofs.Python.Reserved
import Imp.Proofs.Run.Sites
import Imp.Proofs.ByteOrder
import Imp.Proofs.Env.History
import Imp.Proofs.Artifacts
import Imp.Proofs.Sources
import Imp.Proofs.Readable
import Imp.Proofs.CommandLine.Switches
import Imp.Proofs.StepLimit
import Imp.Proofs.Asm.Residue
import Imp.Proofs.Variables
