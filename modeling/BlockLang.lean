import BlockLang.Diagnostic.Render
import BlockLang.Token.Scan
import BlockLang.Number.Shortest
import BlockLang.Operator
import BlockLang.Types.Instance
import BlockLang.Types.Shape
import BlockLang.Types.Display
import BlockLang.Types.Cost
import BlockLang.Value.Heap
import BlockLang.Scope.Lookup
import BlockLang.Tree.Dump
import BlockLang.Session.Pass
import BlockLang.Grammar.Statement
import BlockLang.Lowered.Normalize
import BlockLang.Lowered.Check
import BlockLang.Typing.Statement
import BlockLang.Program.Compile
import BlockLang.Program.FileTree
import BlockLang.CommandLine.Run
import BlockLang.Main
import BlockLang.Proofs.Lowered.Module
import BlockLang.Proofs.Lowered.Places
import BlockLang.Proofs.Program.Annotated
import BlockLang.Proofs.Types.Built
import BlockLang.Proofs.Types.Nested
import BlockLang.Proofs.Scope.Look
import BlockLang.Proofs.Scope.Visible
import BlockLang.Proofs.Scope.Found
import BlockLang.Proofs.Scope.Tour
import BlockLang.Proofs.Program.Visibility
import BlockLang.Proofs.Token.Pieces
import BlockLang.Proofs.Types.Pieces
import BlockLang.Proofs.Types.Spoiled
import BlockLang.Proofs.Grammar.Type
import BlockLang.Proofs.Typing.ReadBack
import BlockLang.Proofs.Tree.Edit
import BlockLang.Proofs.Tree.Rooted
import BlockLang.Proofs.Grammar.Ends
import BlockLang.Proofs.Program.Journal
import BlockLang.Proofs.Program.Tour
import BlockLang.Proofs.Program.Once
import BlockLang.Proofs.Token.Tiling
import BlockLang.Proofs.Value.Storage
import BlockLang.Proofs.Value.Reading
import BlockLang.Proofs.Value.Copy
import BlockLang.Proofs.Value.Folding
import BlockLang.Proofs.Grammar.Result
import BlockLang.Proofs.Program.Contained
import BlockLang.Proofs.Grammar.Precedence
import BlockLang.Proofs.Typing.Choice
import BlockLang.Proofs.Typing.Recursive
import BlockLang.Proofs.Types.Compare
import BlockLang.Proofs.Typing.Promotion
import BlockLang.Proofs.Value.Conversion
import BlockLang.Proofs.Token.Quoted
import BlockLang.Proofs.Grammar.Bytes
import BlockLang.Proofs.Program.Definition
import BlockLang.Proofs.Homes.Module
import BlockLang.Proofs.Grammar.Arguments
import BlockLang.Proofs.Grammar.Postfix
import BlockLang.Proofs.Typing.Indexing
import BlockLang.Proofs.Types.Structural
import BlockLang.Proofs.Diagnostic.Caret
import BlockLang.Proofs.Source.Lookup
import BlockLang.Proofs.Tree.Walk
import BlockLang.Proofs.Spans.Module
import BlockLang.Proofs.Program.Owned
