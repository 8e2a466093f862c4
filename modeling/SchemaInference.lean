import SchemaInference.Command.Workspace
import SchemaInference.Main
import SchemaInference.Proofs.Outcome
import SchemaInference.Proofs.Schema.Members
import SchemaInference.Proofs.Schema.Joins
import SchemaInference.Proofs.Schema.Absorbs
import SchemaInference.Proofs.Schema.Bounds
import SchemaInference.Proofs.Schema.Fold
import SchemaInference.Proofs.Schema.Presence
import SchemaInference.Proofs.Schema.Halting
import SchemaInference.Proofs.Schema.Merging
import SchemaInference.Proofs.Schema.Growth
import SchemaInference.Proofs.Schema.Policies
import SchemaInference.Proofs.Schema.Clashes
import SchemaInference.Proofs.Schema.Semilattice
import SchemaInference.Proofs.Run.Findings
import SchemaInference.Proofs.Run.Walk
import SchemaInference.Proofs.Run.Shown
import SchemaInference.Proofs.Run.Registry
import SchemaInference.Proofs.Run.Documents
import SchemaInference.Proofs.Run.Coverage
import SchemaInference.Proofs.Run.Closed
import SchemaInference.Proofs.Run.Calls
import SchemaInference.Proofs.Run.Completion
import SchemaInference.Proofs.Run.Wrapped
import SchemaInference.Proofs.Identifier.Sanitize
import SchemaInference.Proofs.Identifier.Dialects
import SchemaInference.Proofs.Identifier.OnePass
import SchemaInference.Proofs.Settings.Built
import SchemaInference.Proofs.Settings.MapPaths
import SchemaInference.Proofs.Settings.Rooted
import SchemaInference.Proofs.Settings.Written
import SchemaInference.Proofs.Settings.Renaming
import SchemaInference.Proofs.Settings.ObjectNames
import SchemaInference.Proofs.Run.Lockstep
import SchemaInference.Proofs.Run.Conformance
import SchemaInference.Proofs.Run.Alike
import SchemaInference.Proofs.Run.Order
import SchemaInference.Proofs.Run.Invariant
import SchemaInference.Proofs.Run.Naming
import SchemaInference.Proofs.Run.Replay
import SchemaInference.Proofs.Run.Objects
import SchemaInference.Proofs.Run.Required
import SchemaInference.Proofs.Run.Growth
import SchemaInference.Proofs.Run.Places
import SchemaInference.Proofs.Run.Roots
import SchemaInference.Proofs.Run.Blame
import SchemaInference.Proofs.Run.Validity
import SchemaInference.Proofs.Run.Unwarned
import SchemaInference.Proofs.Run.Seen
import SchemaInference.Proofs.Run.Features
import SchemaInference.Proofs.Run.Lenient
import SchemaInference.Proofs.Run.Agree
import SchemaInference.Proofs.Run.Gaps
import SchemaInference.Proofs.View.References
import SchemaInference.Proofs.View.Agree
import SchemaInference.Proofs.View.Outline
import SchemaInference.Proofs.View.Hidden
import SchemaInference.Proofs.View.Layout
import SchemaInference.Proofs.View.ReadBack
import SchemaInference.Proofs.Document.Grammar
import SchemaInference.Proofs.Document.Scan
import SchemaInference.Proofs.Document.Ending
import SchemaInference.Proofs.Document.Reader
import SchemaInference.Proofs.Document.Viable
import SchemaInference.Proofs.Document.Extended
import SchemaInference.Proofs.Command.Override
import SchemaInference.Proofs.Command.Flags
import SchemaInference.Proofs.Command.Stages
import SchemaInference.Proofs.Command.Pipeline
import SchemaInference.Document.Cursor
import SchemaInference.Proofs.Document.Bytes
import SchemaInference.Proofs.Document.Follows
import SchemaInference.Proofs.Document.Cursor
