import ProtoSchema.Store.Memory
import ProtoSchema.Diagnostic.Selection
import ProtoSchema.Ledger.Workers
import ProtoSchema.Main
import ProtoSchema.Proofs.Ledger.Entries
import ProtoSchema.Proofs.Ledger.Waiting
import ProtoSchema.Proofs.Ledger.Published
import ProtoSchema.Proofs.Workers.Run
import ProtoSchema.Proofs.Workers.Deadlock
import ProtoSchema.Proofs.Workers.LifeCycle
import ProtoSchema.Proofs.Workers.Discipline
import ProtoSchema.Proofs.Overlay.Serving
import ProtoSchema.Proofs.Session.Course
import ProtoSchema.Proofs.Session.Calls
import ProtoSchema.Proofs.Linked.Problems
import ProtoSchema.Proofs.Linked.Correspondence
import ProtoSchema.Proofs.Session.Cycles
import ProtoSchema.Proofs.Session.Acceptance
import ProtoSchema.Proofs.Session.History
import ProtoSchema.Proofs.Session.Publication
import ProtoSchema.Proofs.Session.Consistency
import ProtoSchema.Proofs.Session.Failures
import ProtoSchema.Proofs.Linked.Declaring
import ProtoSchema.Proofs.Linked.Sites
import ProtoSchema.Proofs.Linked.Symbols
import ProtoSchema.Proofs.Schema.Braces
import ProtoSchema.Proofs.Schema.Alike
import ProtoSchema.Proofs.Schema.Recovery
import ProtoSchema.Proofs.Schema.Phrases
import ProtoSchema.Proofs.Schema.Files
import ProtoSchema.Proofs.Token.Scanning
import ProtoSchema.Proofs.Token.Reading
import ProtoSchema.Proofs.Schema.Blocks
import ProtoSchema.Proofs.Linked.References
import ProtoSchema.Proofs.Linked.Mentions
import ProtoSchema.Proofs.Linked.Usage
import ProtoSchema.Proofs.Session.Leniency
import ProtoSchema.Proofs.Schema.Taking
import ProtoSchema.Proofs.Token.Spelling
import ProtoSchema.Proofs.Schema.Written
import ProtoSchema.Proofs.Schema.Parts
import ProtoSchema.Proofs.Schema.RoundTrip
import ProtoSchema.Proofs.Linked.Supply
import ProtoSchema.Proofs.Linked.Partial
import ProtoSchema.Proofs.Token.Layout
import ProtoSchema.Proofs.Schema.Errors
import ProtoSchema.Proofs.Session.Claims
import ProtoSchema.Proofs.Session.Finality
import ProtoSchema.Proofs.Linked.Scoping
import ProtoSchema.Proofs.Linked.Rearranging
import ProtoSchema.Proofs.Session.Trail
import ProtoSchema.Proofs.Session.Reexports
import ProtoSchema.Proofs.Token.Covering
import ProtoSchema.Proofs.Token.Pieces
import ProtoSchema.Proofs.Token.Runs
import ProtoSchema.Proofs.Token.Replaced
import ProtoSchema.Proofs.Schema.Renumbering
import ProtoSchema.Proofs.Schema.Renumbered
import ProtoSchema.Proofs.Schema.Numbered
import ProtoSchema.Proofs.Schema.Numbers
import ProtoSchema.Proofs.Token.Joining
import ProtoSchema.Proofs.Schema.Places
import ProtoSchema.Proofs.Schema.Methods
import ProtoSchema.Proofs.Schema.Extends
import ProtoSchema.Proofs.Schema.Nesting
import ProtoSchema.Proofs.Schema.Progress
import ProtoSchema.Proofs.Workers.Blocked
import ProtoSchema.Proofs.Linked.Exposure
import ProtoSchema.Proofs.Catalog.Preorder
import ProtoSchema.Proofs.Path.Canonical
import ProtoSchema.Proofs.Catalog.Lookup
import ProtoSchema.Proofs.Linked.Oneofs
import ProtoSchema.Proofs.Linked.Groups
import ProtoSchema.Proofs.Overlay.Mounting
import ProtoSchema.Proofs.Overlay.Listing
import ProtoSchema.Proofs.Session.Obtained
import ProtoSchema.Proofs.CommandLine.Roots
import ProtoSchema.Proofs.Text.OneLine
import ProtoSchema.Proofs.Diagnostic.Short
import ProtoSchema.Proofs.Text.Tinted
import ProtoSchema.Proofs.Diagnostic.Color
import ProtoSchema.Proofs.Token.Legible
import ProtoSchema.Proofs.Schema.Legible
import ProtoSchema.Proofs.Schema.Worded
import ProtoSchema.Proofs.Schema.Telling
import ProtoSchema.Proofs.Linked.Legible
import ProtoSchema.Proofs.Overlay.OneLine
import ProtoSchema.Proofs.Session.Legible
