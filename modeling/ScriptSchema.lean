import ScriptSchema.Directory
import ScriptSchema.Entries
import ScriptSchema.Interchange
import ScriptSchema.Json.Reader
import ScriptSchema.Json.Record
import ScriptSchema.Json.Text
import ScriptSchema.Json.Value
import ScriptSchema.Migration.Plan
import ScriptSchema.Migration.Step
import ScriptSchema.Migration.Workspace
import ScriptSchema.Number.Binary
import ScriptSchema.Number.Decimal
import ScriptSchema.Number.Numeral
import ScriptSchema.Number.Scaled
import ScriptSchema.Number.Shortest
import ScriptSchema.Path
import ScriptSchema.Problem.Basic
import ScriptSchema.Problem.Scalar
import ScriptSchema.Problem.Value
import ScriptSchema.Proofs.Descent
import ScriptSchema.Proofs.Search
import ScriptSchema.Proofs.Sound
import ScriptSchema.Report.Basic
import ScriptSchema.Report.Conformance
import ScriptSchema.Schema.Basic
import ScriptSchema.Schema.Check
import ScriptSchema.Schema.Component
import ScriptSchema.Schema.Fault
import ScriptSchema.Schema.Scalar
import ScriptSchema.Schema.Spec
import ScriptSchema.Script
import ScriptSchema.Text.CharSet
import ScriptSchema.Text.Clock
import ScriptSchema.Text.Pattern
import ScriptSchema.Text.Plural
import ScriptSchema.Text.Slice
import ScriptSchema.Visit.Basic
import ScriptSchema.Visit.Edit
import ScriptSchema.Visit.Instance
import ScriptSchema.Visit.Reference
import ScriptSchema.Visit.Walk
import ScriptSchema.Workbench
import ScriptSchema.Proofs.Faults
import ScriptSchema.Proofs.Stops
import ScriptSchema.Proofs.Faultless
import ScriptSchema.Proofs.Conformance
import ScriptSchema.Proofs.Integrity
import ScriptSchema.Proofs.Instances
import ScriptSchema.Proofs.Reach
import ScriptSchema.Proofs.Deletion
import ScriptSchema.Proofs.Upgrade
import ScriptSchema.Proofs.HandOn
import ScriptSchema.Proofs.Returns
import ScriptSchema.Proofs.Grounded
import ScriptSchema.Proofs.Completion
import ScriptSchema.Proofs.Located
import ScriptSchema.Proofs.InPlace
import ScriptSchema.Proofs.Unison
import ScriptSchema.Proofs.Member
import ScriptSchema.Proofs.ReadBack
import ScriptSchema.Proofs.Reordering
import ScriptSchema.Proofs.Unambiguous
import ScriptSchema.Proofs.Haul
import ScriptSchema.Proofs.Repeats
import ScriptSchema.Proofs.Transfer
import ScriptSchema.Proofs.Addition
import ScriptSchema.Proofs.Plural
import ScriptSchema.Proofs.CollectionNames
import ScriptSchema.Proofs.SideBySide
import ScriptSchema.Proofs.Relay
import ScriptSchema.Proofs.Listing
import ScriptSchema.Proofs.Errand
import ScriptSchema.Proofs.Selection
import ScriptSchema.Proofs.Endings
import ScriptSchema.Proofs.KeyRenaming
import ScriptSchema.Proofs.Edges
import ScriptSchema.Proofs.StepEnds
import ScriptSchema.Proofs.Flushing
import ScriptSchema.Proofs.Turns
import ScriptSchema.Proofs.Tidy
import ScriptSchema.Proofs.Samples
import ScriptSchema.Proofs.Blocks
import ScriptSchema.Proofs.EntryPoints
import ScriptSchema.Proofs.Referrers
import ScriptSchema.Proofs.Wording
import ScriptSchema.Proofs.Flagged
import ScriptSchema.Proofs.Onward
import ScriptSchema.Proofs.Addresses
import ScriptSchema.Proofs.Flattening
import ScriptSchema.Proofs.BareInstance
import ScriptSchema.Proofs.Lookups
import ScriptSchema.Proofs.Matching
import ScriptSchema.Proofs.Emails
import ScriptSchema.Proofs.Identifiers
import ScriptSchema.Proofs.Coordinates
import ScriptSchema.Proofs.Taking
