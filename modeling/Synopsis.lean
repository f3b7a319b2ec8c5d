import Synopsis.Abridge
import Synopsis.Command
import Synopsis.Command.Action
import Synopsis.Command.Argument
import Synopsis.Command.Request
import Synopsis.Config
import Synopsis.Content
import Synopsis.Document
import Synopsis.Exclude
import Synopsis.Failure
import Synopsis.FileTree
import Synopsis.Filter
import Synopsis.Grammar.Go
import Synopsis.Grammar.Java
import Synopsis.Grammar.Python
import Synopsis.Grammar.Rust
import Synopsis.Grammar.Script
import Synopsis.Ignore.Pattern
import Synopsis.Ignore.Reader
import Synopsis.Ignore.Rule
import Synopsis.Job
import Synopsis.Language
import Synopsis.Layout
import Synopsis.Main
import Synopsis.MapError
import Synopsis.Number.Binary64
import Synopsis.Number.Grouped
import Synopsis.Outline
import Synopsis.Plan
import Synopsis.Proofs.NestedCuts
import Synopsis.Proofs.Outlining
import Synopsis.Proofs.Plan.Sweep
import Synopsis.Proofs.Planning
import Synopsis.Proofs.Span
import Synopsis.Proofs.Splicing
import Synopsis.Proofs.Splitting
import Synopsis.Proofs.Tracing
import Synopsis.Proofs.Syntax.Grammars
import Synopsis.Proofs.Syntax.Nesting
import Synopsis.Proofs.Syntax.Reading
import Synopsis.Proofs.Text.Boundary
import Synopsis.Proofs.Text.Encoding
import Synopsis.Proofs.Truncation
import Synopsis.Reduction
import Synopsis.Span
import Synopsis.Splice
import Synopsis.Syntax.Comment
import Synopsis.Syntax.Pattern
import Synopsis.Syntax.Repair
import Synopsis.Syntax.Scan
import Synopsis.Syntax.Tree
import Synopsis.Text.Blank
import Synopsis.Text.Lines
import Synopsis.Text.Path
import Synopsis.Text.Quoted
import Synopsis.Text.Shown
import Synopsis.Text.Slice
import Synopsis.Text.Utf8
import Synopsis.Toml.Number
import Synopsis.Toml.Quoted
import Synopsis.Toml.Reader
import Synopsis.Walk
import Synopsis.Walk.Level
import Synopsis.Proofs.Lexeme
import Synopsis.Proofs.Placement
import Synopsis.Proofs.Docstrings
import Synopsis.Proofs.Merging
import Synopsis.Proofs.Refilling
import Synopsis.Proofs.Sorting
import Synopsis.Proofs.Sources
import Synopsis.Proofs.FileTree
import Synopsis.Proofs.Listing
import Synopsis.Proofs.Text.Decoding
import Synopsis.Proofs.Running
import Synopsis.Proofs.Reporting
import Synopsis.Proofs.ErrorPolicy
import Synopsis.Proofs.Restriction
import Synopsis.Proofs.Limits
import Synopsis.Proofs.Document
import Synopsis.Proofs.Tidying
import Synopsis.Proofs.Syntax.Origins
import Synopsis.Proofs.LineStarts
import Synopsis.Proofs.Syntax.Suites
import Synopsis.Proofs.DocstringLines
import Synopsis.Proofs.LayingOut
import Synopsis.Proofs.HigherLimits
import Synopsis.Proofs.LiteralForm
import Synopsis.Proofs.LineCounts
import Synopsis.Proofs.NormalForm
import Synopsis.Proofs.CanonicalListing
import Synopsis.Proofs.Grouping
import Synopsis.Proofs.Syntax.Faults
import Synopsis.Proofs.Writing
import Synopsis.Proofs.Delivery
