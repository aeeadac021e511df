import CondRegions.Files.Tree
import CondRegions.Main
import CondRegions.Proofs.Condition.Lexing
import CondRegions.Proofs.Condition.Grammar
import CondRegions.Proofs.Condition.Parsing
import CondRegions.Proofs.Condition.Place
import CondRegions.Proofs.Condition.Context
import CondRegions.Proofs.Condition.Composition
import CondRegions.Proofs.Bracket.Walk
import CondRegions.Proofs.Marker.Shape
import CondRegions.Proofs.Marker.Found
import CondRegions.Proofs.Marker.LineBreak
import CondRegions.Proofs.Pass.Elimination
import CondRegions.Proofs.Pass.Order
import CondRegions.Proofs.Pass.Report
import CondRegions.Proofs.Pass.Concatenation
import CondRegions.Proofs.Pass.Idempotence
import CondRegions.Proofs.Pass.Inspection
import CondRegions.Proofs.Pass.Remainder
import CondRegions.Proofs.Pass.LineEnding
import CondRegions.Proofs.Pass.Noninterference
import CondRegions.Proofs.Pass.Change
import CondRegions.Proofs.Config.Layers
import CondRegions.Proofs.Files.Place
import CondRegions.Proofs.Files.Access
import CondRegions.Proofs.Files.Directories
import CondRegions.Proofs.Files.WellFormed
import CondRegions.Proofs.Files.Walk
import CondRegions.Proofs.Selection.Discovery
import CondRegions.Proofs.Emit.File
import CondRegions.Proofs.Emit.Tree
import CondRegions.Proofs.Command.Process
import CondRegions.Proofs.Command.Mirror
import CondRegions.Proofs.Command.Sources
import CondRegions.Proofs.Selection.Glob
import CondRegions.Proofs.Selection.Filter
import CondRegions.Proofs.Condition.Comparison
import CondRegions.Proofs.Condition.Printing
import CondRegions.Proofs.Condition.Viable
import CondRegions.Proofs.Condition.FirstError
import CondRegions.Proofs.Condition.Parentheses
import CondRegions.Proofs.Condition.Readable
import CondRegions.Proofs.Config.EnvFile
import CondRegions.Proofs.Config.EnvComment
import CondRegions.Proofs.Region.LineNumbers
import CondRegions.Proofs.Selection.Spelling
import CondRegions.Proofs.Condition.SpanTree
import CondRegions.Proofs.Condition.Spans
import CondRegions.Proofs.Condition.StringLiteral
