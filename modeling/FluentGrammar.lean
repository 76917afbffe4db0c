import FluentGrammar.Chain.Basic
import FluentGrammar.Chain.Enumeration
import FluentGrammar.Command.Options
import FluentGrammar.Command.Request
import FluentGrammar.Command.Run
import FluentGrammar.Grammar.Acceptance
import FluentGrammar.Grammar.Basic
import FluentGrammar.Grammar.Error
import FluentGrammar.Grammar.Evaluation
import FluentGrammar.Grammar.Inspection
import FluentGrammar.Grammar.Layout
import FluentGrammar.Grammar.Metrics
import FluentGrammar.Grammar.Naming
import FluentGrammar.Grammar.Reachability
import FluentGrammar.Grammar.Reader
import FluentGrammar.Grammar.Rule
import FluentGrammar.Grammar.Symbol
import FluentGrammar.Grammar.Token
import FluentGrammar.Grammar.Validation
import FluentGrammar.Grammar.WellFormed
import FluentGrammar.Grammar.Writable
import FluentGrammar.Json.Printer
import FluentGrammar.Json.Reader
import FluentGrammar.Json.Value
import FluentGrammar.Language.Counts
import FluentGrammar.Language.Derivation
import FluentGrammar.Language.Tree
import FluentGrammar.Language.Words
import FluentGrammar.Main
import FluentGrammar.Number.Decimal
import FluentGrammar.Proofs.Bridging.Exact
import FluentGrammar.Proofs.Canonical.Checked
import FluentGrammar.Proofs.Canonical.FirstTerminals
import FluentGrammar.Proofs.Canonical.Form
import FluentGrammar.Proofs.Canonical.Idempotence
import FluentGrammar.Proofs.Canonical.Limits
import FluentGrammar.Proofs.Canonical.Meaning
import FluentGrammar.Proofs.Canonical.Readable
import FluentGrammar.Proofs.Canonical.Rejection
import FluentGrammar.Proofs.Canonical.Renumbering
import FluentGrammar.Proofs.Canonical.RuleCounts
import FluentGrammar.Proofs.Canonical.Switches
import FluentGrammar.Proofs.Canonical.Termination
import FluentGrammar.Proofs.Canonical.TreeCounts
import FluentGrammar.Proofs.Canonical.WellTagged
import FluentGrammar.Proofs.Chain.Decomposition
import FluentGrammar.Proofs.Chain.Enumeration
import FluentGrammar.Proofs.Chain.Openings
import FluentGrammar.Proofs.Chain.Parting
import FluentGrammar.Proofs.Chain.Paths
import FluentGrammar.Proofs.Chain.Separation
import FluentGrammar.Proofs.Chain.Words
import FluentGrammar.Proofs.Folding.Leftovers
import FluentGrammar.Proofs.Folding.Lossless
import FluentGrammar.Proofs.Folding.Rounds
import FluentGrammar.Proofs.Grammar.Acyclicity
import FluentGrammar.Proofs.Grammar.Circles
import FluentGrammar.Proofs.Grammar.Depth
import FluentGrammar.Proofs.Grammar.Evaluation
import FluentGrammar.Proofs.Grammar.Order
import FluentGrammar.Proofs.Grammar.Pruning
import FluentGrammar.Proofs.Grammar.Reachability
import FluentGrammar.Proofs.Grammar.Renumbering
import FluentGrammar.Proofs.Grammar.RuleOrder
import FluentGrammar.Proofs.Grammar.Validation
import FluentGrammar.Proofs.Language.Counts
import FluentGrammar.Proofs.Language.Fitting
import FluentGrammar.Proofs.Language.Words
import FluentGrammar.Proofs.Renumbering.Discovery
import FluentGrammar.Proofs.Renumbering.Factoring
import FluentGrammar.Proofs.Renumbering.Inverse
import FluentGrammar.Proofs.Renumbering.Lookup
import FluentGrammar.Proofs.Renumbering.Passes
import FluentGrammar.Proofs.Renumbering.Rounds
import FluentGrammar.Proofs.Renumbering.Runs
import FluentGrammar.Proofs.Report.Annotated
import FluentGrammar.Proofs.Report.Conflicts
import FluentGrammar.Proofs.Report.GraphRules
import FluentGrammar.Proofs.Report.GraphText
import FluentGrammar.Proofs.Rewriting.Bound
import FluentGrammar.Proofs.Rewriting.Bridging
import FluentGrammar.Proofs.Rewriting.Coherence
import FluentGrammar.Proofs.Rewriting.Failures
import FluentGrammar.Proofs.Rewriting.Folding
import FluentGrammar.Proofs.Rewriting.History
import FluentGrammar.Proofs.Rewriting.Invariants
import FluentGrammar.Proofs.Rewriting.Pruning
import FluentGrammar.Proofs.Rewriting.RoundRuns
import FluentGrammar.Proofs.Rewriting.Rounds
import FluentGrammar.Proofs.Rewriting.Steps
import FluentGrammar.Proofs.Rewriting.Vocabulary
import FluentGrammar.Proofs.Sample.RandomGrammar
import FluentGrammar.Proofs.Sample.Xorshift
import FluentGrammar.Proofs.SharedPrefix.ChainCounts
import FluentGrammar.Proofs.SharedPrefix.Discovery
import FluentGrammar.Proofs.SharedPrefix.Factoring
import FluentGrammar.Proofs.SharedPrefix.Levels
import FluentGrammar.Proofs.SharedPrefix.Limits
import FluentGrammar.Proofs.SharedPrefix.Material
import FluentGrammar.Proofs.SharedPrefix.Maximality
import FluentGrammar.Proofs.SharedPrefix.Outcome
import FluentGrammar.Proofs.SharedPrefix.Progress
import FluentGrammar.Proofs.SharedPrefix.RuleCounts
import FluentGrammar.Proofs.SharedPrefix.Runs
import FluentGrammar.Proofs.SharedPrefix.Safety
import FluentGrammar.Proofs.SharedPrefix.Splitting
import FluentGrammar.Proofs.SharedPrefix.Tracing
import FluentGrammar.Proofs.Sorted
import FluentGrammar.Proofs.Supply.Names
import FluentGrammar.Proofs.Supply.Requests
import FluentGrammar.Proofs.Supply.Sessions
import FluentGrammar.Proofs.Tag.Changes
import FluentGrammar.Proofs.Tag.Factoring
import FluentGrammar.Proofs.Tag.Folding
import FluentGrammar.Proofs.Tag.Inheritance
import FluentGrammar.Proofs.Tag.Lookup
import FluentGrammar.Proofs.Tag.Passes
import FluentGrammar.Proofs.Text.Acceptance
import FluentGrammar.Proofs.Text.Capitals
import FluentGrammar.Proofs.Text.CharClass
import FluentGrammar.Proofs.Text.Declarations
import FluentGrammar.Proofs.Text.Layout
import FluentGrammar.Proofs.Text.LineOrder
import FluentGrammar.Proofs.Text.Pieces
import FluentGrammar.Proofs.Text.Reading
import FluentGrammar.Proofs.Text.Reread
import FluentGrammar.Proofs.Text.RoundTrip
import FluentGrammar.Proofs.Text.Spacing
import FluentGrammar.Proofs.Text.Spelling
import FluentGrammar.Proofs.Text.Tokens
import FluentGrammar.Proofs.Text.Written
import FluentGrammar.Proofs.Value.Ambiguity
import FluentGrammar.Proofs.Value.Languages
import FluentGrammar.Proofs.Value.Reads
import FluentGrammar.Proofs.Value.Trees
import FluentGrammar.Proofs.Value.Valuation
import FluentGrammar.Report.Annotated
import FluentGrammar.Report.Document
import FluentGrammar.Report.Graph
import FluentGrammar.Report.GraphReader
import FluentGrammar.Rewriting.Bridging
import FluentGrammar.Rewriting.Canonical
import FluentGrammar.Rewriting.Countdown
import FluentGrammar.Rewriting.EmptyFolding
import FluentGrammar.Rewriting.Error
import FluentGrammar.Rewriting.History
import FluentGrammar.Rewriting.Renumbering
import FluentGrammar.Rewriting.Session
import FluentGrammar.Sample.RandomGrammar
import FluentGrammar.Sample.Xorshift
import FluentGrammar.SharedPrefix.Discovery
import FluentGrammar.SharedPrefix.Factoring
import FluentGrammar.Sorted
import FluentGrammar.Stored.Reader
import FluentGrammar.Stored.Writer
import FluentGrammar.Supply.Names
import FluentGrammar.Supply.Variables
import FluentGrammar.Tag.Basic
import FluentGrammar.Tag.Meaning
import FluentGrammar.Tag.Tagging
import FluentGrammar.Text.CharClass
import FluentGrammar.Text.CodeRun
import FluentGrammar.Text.Pieces
import FluentGrammar.Text.Unicode.Naming
import FluentGrammar.Text.Unicode.UpperMapping
import FluentGrammar.Text.Unicode.Visibility
