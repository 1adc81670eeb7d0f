import LuaTranspiler.Files.Directory
import LuaTranspiler.Main
import LuaTranspiler.Proofs.Number.ReadBack
import LuaTranspiler.Proofs.Target.Reader
import LuaTranspiler.Proofs.Target.Unambiguous
import LuaTranspiler.Proofs.Target.LineMap
import LuaTranspiler.Proofs.Target.Splitting
import LuaTranspiler.Proofs.Target.Boundaries
import LuaTranspiler.Proofs.Target.TypeTexts
import LuaTranspiler.Proofs.Source.Expressions
import LuaTranspiler.Proofs.Source.RoundTrip
import LuaTranspiler.Proofs.Source.Layout
import LuaTranspiler.Proofs.Source.Placement
import LuaTranspiler.Proofs.Source.Nesting
import LuaTranspiler.Proofs.Source.Shape
import LuaTranspiler.Proofs.Source.Moving
import LuaTranspiler.Proofs.Source.Spacing
import LuaTranspiler.Proofs.Source.Leaves
import LuaTranspiler.Proofs.Source.ParameterLists
import LuaTranspiler.Proofs.Source.Matching
import LuaTranspiler.Proofs.Source.Parentheses
import LuaTranspiler.Proofs.Source.Termination
import LuaTranspiler.Proofs.Token.Lossless
import LuaTranspiler.Proofs.Token.Content
import LuaTranspiler.Proofs.Token.Escapes
import LuaTranspiler.Proofs.Token.QuotedStrings
import LuaTranspiler.Proofs.Token.Patterns
import LuaTranspiler.Proofs.Token.MaximalMunch
import LuaTranspiler.Proofs.Token.Delimiters
import LuaTranspiler.Proofs.Text.StringValue
import LuaTranspiler.Proofs.Doc.Association
import LuaTranspiler.Proofs.Doc.TagText
import LuaTranspiler.Proofs.Lowering.Blocks
import LuaTranspiler.Proofs.Lowering.Building
import LuaTranspiler.Proofs.Lowering.Rewriting
import LuaTranspiler.Proofs.Lowering.Identity
import LuaTranspiler.Proofs.Lowering.Refusal
import LuaTranspiler.Proofs.Lowering.SourceMap
import LuaTranspiler.Proofs.Lowering.Unmarked
import LuaTranspiler.Proofs.Lowering.Documented
import LuaTranspiler.Proofs.Lowering.Reports
import LuaTranspiler.Proofs.Lowering.ReportOrder
import LuaTranspiler.Proofs.Lowering.Spreads
import LuaTranspiler.Proofs.Lowering.Lowered
import LuaTranspiler.Proofs.Lowering.Varargs
import LuaTranspiler.Proofs.Lowering.TokenBoundaries
import LuaTranspiler.Proofs.Typing.Walk
import LuaTranspiler.Proofs.Typing.Lexical
import LuaTranspiler.Proofs.Typing.Coverage
import LuaTranspiler.Proofs.Typing.Assignability
import LuaTranspiler.Proofs.Typing.Values
import LuaTranspiler.Proofs.Typing.Annotations
import LuaTranspiler.Proofs.Typing.Evaluation
import LuaTranspiler.Proofs.Typing.FindingOrder
import LuaTranspiler.Proofs.Independence
import LuaTranspiler.Proofs.Files.Overwriting
import LuaTranspiler.Proofs.CommandLine.Outputs
