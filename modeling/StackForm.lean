import StackForm.Block
import StackForm.Code
import StackForm.Comparison
import StackForm.Directive.Basic
import StackForm.Directive.Check
import StackForm.Directive.Number
import StackForm.Emission
import StackForm.Eval
import StackForm.Folding
import StackForm.Forest
import StackForm.LowerFault
import StackForm.Lowering
import StackForm.Machine
import StackForm.Op
import StackForm.Opcode
import StackForm.Proofs.Accepted
import StackForm.Proofs.Arithmetic
import StackForm.Proofs.Capacity
import StackForm.Proofs.Comments
import StackForm.Proofs.Definedness
import StackForm.Proofs.Diagnosis
import StackForm.Proofs.DirectiveText
import StackForm.Proofs.Effect
import StackForm.Proofs.Emission
import StackForm.Proofs.EmissionSteps
import StackForm.Proofs.Evaluation
import StackForm.Proofs.Expectation
import StackForm.Proofs.FirstBadLine
import StackForm.Proofs.FirstFault
import StackForm.Proofs.FoldingRule
import StackForm.Proofs.Fusion
import StackForm.Proofs.GoodLines
import StackForm.Proofs.Insertion
import StackForm.Proofs.Layout
import StackForm.Proofs.LineInvariant
import StackForm.Proofs.LineLanguage
import StackForm.Proofs.LineReading
import StackForm.Proofs.LineShape
import StackForm.Proofs.LineStatement
import StackForm.Proofs.Linear
import StackForm.Proofs.Lookup
import StackForm.Proofs.Lossless
import StackForm.Proofs.Numbering
import StackForm.Proofs.Order
import StackForm.Proofs.Peephole
import StackForm.Proofs.Plan
import StackForm.Proofs.Postorder
import StackForm.Proofs.Printed
import StackForm.Proofs.PrintedForest
import StackForm.Proofs.Reading
import StackForm.Proofs.Recovery
import StackForm.Proofs.Refusal
import StackForm.Proofs.Relabelling
import StackForm.Proofs.Renumbering
import StackForm.Proofs.Replay
import StackForm.Proofs.Report
import StackForm.Proofs.Resolution
import StackForm.Proofs.RoundTrip
import StackForm.Proofs.Safety
import StackForm.Proofs.Sequence
import StackForm.Proofs.Simulation
import StackForm.Proofs.Spans
import StackForm.Proofs.StackDepth
import StackForm.Proofs.TracedLowering
import StackForm.Proofs.Tracing
import StackForm.Proofs.Traversal
import StackForm.Proofs.Uniqueness
import StackForm.Proofs.Uses
import StackForm.Proofs.WellFormed
import StackForm.Proofs.WithinLine
import StackForm.Proofs.Words
import StackForm.Store
import StackForm.Text.Blank
import StackForm.Text.Diagnostic
import StackForm.Text.Excerpt
import StackForm.Text.Grammar
import StackForm.Text.Matcher
import StackForm.Text.Parse
import StackForm.Text.Row
import StackForm.Text.Span
import StackForm.Text.Window
import StackForm.Trace
import StackForm.Tree
import StackForm.UseTable
import StackForm.Word
