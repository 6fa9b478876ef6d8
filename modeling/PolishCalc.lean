import PolishCalc.CommandLine
import PolishCalc.Main
import PolishCalc.Spelling
import PolishCalc.Descent
import PolishCalc.IndexedBindings
import PolishCalc.IndexedRuns
import PolishCalc.Proofs.InstructionText
import PolishCalc.Proofs.ReadTokens
import PolishCalc.Proofs.Evaluation
import PolishCalc.Proofs.LoweredRuns
import PolishCalc.Proofs.Acceptance
import PolishCalc.Proofs.Descent
import PolishCalc.Proofs.CompilerCorrectness
import PolishCalc.Proofs.Grammar
import PolishCalc.Proofs.Calculator
import PolishCalc.Proofs.RefusedTokens
import PolishCalc.Proofs.Listing
import PolishCalc.Proofs.MachineHistory
import PolishCalc.Proofs.InstructionEffect
import PolishCalc.Proofs.Raising
import PolishCalc.Proofs.StackCheck
import PolishCalc.Proofs.Renaming
import PolishCalc.Proofs.StoppingPlace
import PolishCalc.Proofs.FirstWords
import PolishCalc.Proofs.InfixText
import PolishCalc.Proofs.FirstFault
import PolishCalc.Proofs.FailedStatements
import PolishCalc.Proofs.FailedInstructions
import PolishCalc.Proofs.InstructionCodec
import PolishCalc.Proofs.StrictEvaluation
import PolishCalc.Proofs.UnassignedReads
import PolishCalc.Proofs.StackHeight
import PolishCalc.Proofs.StackFrame
import PolishCalc.Proofs.IndexedStore
import PolishCalc.Proofs.IndexedRuns
import PolishCalc.Proofs.OrderedStore
import PolishCalc.Proofs.Concatenation
import PolishCalc.Proofs.ExactArithmetic
import PolishCalc.Proofs.ReadNames
import PolishCalc.Proofs.Substitution
import PolishCalc.Proofs.SourceLayout
import PolishCalc.Text.Contents
import PolishCalc.Proofs.InstructionLines
import PolishCalc.Proofs.Reports
import PolishCalc.Proofs.Literals
import PolishCalc.Proofs.Division
import PolishCalc.Proofs.SquareRoot
