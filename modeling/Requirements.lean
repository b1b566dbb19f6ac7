import Requirements.CommandLine
import Requirements.Ecosystem
import Requirements.Grammar
import Requirements.Json
import Requirements.Json.Printer
import Requirements.Json.Reader
import Requirements.Main
import Requirements.Operator
import Requirements.Range.Alternatives
import Requirements.Range.Bump
import Requirements.Range.Expansion
import Requirements.Range.Mark
import Requirements.Range.Partial
import Requirements.Range.Release
import Requirements.Registry.Address
import Requirements.Registry.Error
import Requirements.Registry.Exchange
import Requirements.Registry.Fetch
import Requirements.Registry.Index
import Requirements.Registry.Listing
import Requirements.Report
import Requirements.Report.Data
import Requirements.Report.Text
import Requirements.Requirement
import Requirements.Requirement.Data
import Requirements.Requirement.Merge
import Requirements.Requirement.Tighten
import Requirements.Resolution
import Requirements.Resolution.Data
import Requirements.Resolution.Error
import Requirements.Resolution.Solve
import Requirements.Run
import Requirements.Settings
import Requirements.Specifier
import Requirements.Specifier.Choice
import Requirements.Specifier.Clauses
import Requirements.Specifier.Error
import Requirements.Specifier.Pin
import Requirements.Specifier.Term
import Requirements.Table
import Requirements.Text.Blank
import Requirements.Text.Case
import Requirements.Text.Digit
import Requirements.Toml
import Requirements.Toml.Moment
import Requirements.Toml.Number
import Requirements.Toml.Reader
import Requirements.Toml.Text
import Requirements.Version
import Requirements.Version.Sort
import Requirements.Workspace
import Requirements.Proofs.Version.Order
import Requirements.Proofs.Resolution.Accounting
import Requirements.Proofs.Range.Partial
import Requirements.Proofs.Fallible
import Requirements.Proofs.Range.Expansion
import Requirements.Proofs.Range.Release
import Requirements.Proofs.Requirement.Merge
import Requirements.Proofs.Specifier.Term
import Requirements.Proofs.Specifier.Clauses
import Requirements.Proofs.Specifier.Comparators
import Requirements.Proofs.Specifier.Choice
import Requirements.Proofs.Specifier.Compose
import Requirements.Proofs.Requirement.Tighten
import Requirements.Proofs.Resolution.Pin
import Requirements.Proofs.Resolution.AnyVersion
import Requirements.Proofs.Range.Spelling
import Requirements.Proofs.Specifier.Exact
import Requirements.Proofs.Specifier.WellFormed
import Requirements.Proofs.Registry.Prefetch
import Requirements.Proofs.Range.Caret
import Requirements.Proofs.Specifier.Oversized
import Requirements.Proofs.Resolution.Outcome
import Requirements.Proofs.Resolution.Graceful
import Requirements.Proofs.Table
import Requirements.Proofs.Resolution.Reordering
import Requirements.Proofs.Registry.Offline
import Requirements.Proofs.Resolution.Failure
import Requirements.Proofs.Registry.Changes
import Requirements.Proofs.Requirement.Idempotence
import Requirements.Proofs.Resolution.Latest
import Requirements.Proofs.Specifier.Pin
import Requirements.Proofs.Registry.Requests
import Requirements.Proofs.Run.Local
import Requirements.Proofs.Registry.Yanked
import Requirements.Proofs.Range.End
import Requirements.Proofs.Range.Comparison
import Requirements.Proofs.Range.Numeric
import Requirements.Proofs.Range.Pessimistic
import Requirements.Proofs.Specifier.Shorthand
import Requirements.Proofs.Specifier.Pessimistic
import Requirements.Proofs.Specifier.Seam
import Requirements.Proofs.Specifier.Normal
import Requirements.Proofs.Specifier.Hyphen
import Requirements.Proofs.Version.Ends
import Requirements.Proofs.Requirement.Names
import Requirements.Proofs.Requirement.Ranks
import Requirements.Proofs.Requirement.Canonical
import Requirements.Proofs.Resolution.Contiguous
import Requirements.Proofs.Registry.Retries
import Requirements.Proofs.Registry.Tasks
import Requirements.Proofs.Registry.ModulePath
import Requirements.Proofs.Text.Spaces
import Requirements.Proofs.Specifier.Padding
import Requirements.Proofs.Specifier.WhiteSpace
import Requirements.Proofs.Json
import Requirements.Proofs.Data
import Requirements.Proofs.Report.Color
import Requirements.Proofs.CommandLine
import Requirements.Proofs.Settings
import Requirements.Proofs.Range.Origin
import Requirements.Proofs.Specifier.Faults
