import TypedRecords.Calendar.Instant
import TypedRecords.Calendar.Timestamp
import TypedRecords.Catalog
import TypedRecords.Class.Definition
import TypedRecords.Class.Directory
import TypedRecords.Collection
import TypedRecords.Collection.Index
import TypedRecords.Database
import TypedRecords.Database.Journal
import TypedRecords.Document.Patch
import TypedRecords.Document.Path
import TypedRecords.Document.Projection
import TypedRecords.Error
import TypedRecords.Fields
import TypedRecords.Json
import TypedRecords.Json.Reader
import TypedRecords.Number
import TypedRecords.Number.Layout
import TypedRecords.Number.Rounding
import TypedRecords.Number.Shortest
import TypedRecords.Pattern
import TypedRecords.Proofs.Accepted
import TypedRecords.Proofs.Calendar.Days
import TypedRecords.Proofs.Calendar.Timestamps
import TypedRecords.Proofs.Class.Entered
import TypedRecords.Proofs.Class.Growing
import TypedRecords.Proofs.Class.Lawful
import TypedRecords.Proofs.Class.StandIn
import TypedRecords.Proofs.Client
import TypedRecords.Proofs.Database.Arranged
import TypedRecords.Proofs.Database.Atomic
import TypedRecords.Proofs.Database.Calls
import TypedRecords.Proofs.Database.Guarded
import TypedRecords.Proofs.Database.Uniqueness
import TypedRecords.Proofs.Document.Applied
import TypedRecords.Proofs.Document.Edits
import TypedRecords.Proofs.Document.Entire
import TypedRecords.Proofs.Document.Gapless
import TypedRecords.Proofs.Document.Names
import TypedRecords.Proofs.Document.Overlay
import TypedRecords.Proofs.Document.Parts
import TypedRecords.Proofs.Document.Paths
import TypedRecords.Proofs.Document.Placed
import TypedRecords.Proofs.Document.Presented
import TypedRecords.Proofs.Document.Projected
import TypedRecords.Proofs.Document.Remnants
import TypedRecords.Proofs.Document.Retained
import TypedRecords.Proofs.Document.Stored
import TypedRecords.Proofs.Document.Taken
import TypedRecords.Proofs.Document.Untouched
import TypedRecords.Proofs.Document.WellFormed
import TypedRecords.Proofs.Document.Written
import TypedRecords.Proofs.Failing
import TypedRecords.Proofs.Federation
import TypedRecords.Proofs.Fields
import TypedRecords.Proofs.Matching
import TypedRecords.Proofs.Persistence
import TypedRecords.Proofs.Query.Answered
import TypedRecords.Proofs.Query.Compiled
import TypedRecords.Proofs.Query.Grammar
import TypedRecords.Proofs.Query.Meaning
import TypedRecords.Proofs.Record.Accepting
import TypedRecords.Proofs.Record.Agreed
import TypedRecords.Proofs.Record.Aside
import TypedRecords.Proofs.Record.Correspondence
import TypedRecords.Proofs.Record.Depicted
import TypedRecords.Proofs.Record.Drafted
import TypedRecords.Proofs.Record.Encoding
import TypedRecords.Proofs.Record.Ending
import TypedRecords.Proofs.Record.Entering
import TypedRecords.Proofs.Record.Forking
import TypedRecords.Proofs.Record.Gapped
import TypedRecords.Proofs.Record.Graph
import TypedRecords.Proofs.Record.Halted
import TypedRecords.Proofs.Record.Held
import TypedRecords.Proofs.Record.Isolated
import TypedRecords.Proofs.Record.Legible
import TypedRecords.Proofs.Record.Namesakes
import TypedRecords.Proofs.Record.Narrowed
import TypedRecords.Proofs.Record.Omitted
import TypedRecords.Proofs.Record.Places
import TypedRecords.Proofs.Record.Planted
import TypedRecords.Proofs.Record.Primary
import TypedRecords.Proofs.Record.ReadThrough
import TypedRecords.Proofs.Record.Reading
import TypedRecords.Proofs.Record.Rebuilt
import TypedRecords.Proofs.Record.Recast
import TypedRecords.Proofs.Record.Regions
import TypedRecords.Proofs.Record.Relaid
import TypedRecords.Proofs.Record.Restored
import TypedRecords.Proofs.Record.Selected
import TypedRecords.Proofs.Record.Selection
import TypedRecords.Proofs.Record.Sent
import TypedRecords.Proofs.Record.Serialized
import TypedRecords.Proofs.Record.Settled
import TypedRecords.Proofs.Record.Spanning
import TypedRecords.Proofs.Record.Stamping
import TypedRecords.Proofs.Record.Stored
import TypedRecords.Proofs.Record.Typed
import TypedRecords.Proofs.Record.Validated
import TypedRecords.Proofs.Record.Views
import TypedRecords.Proofs.Record.Walks
import TypedRecords.Proofs.Record.Writing
import TypedRecords.Proofs.References
import TypedRecords.Proofs.Results
import TypedRecords.Proofs.Searches
import TypedRecords.Proofs.Selector
import TypedRecords.Proofs.Selector.Lattice
import TypedRecords.Proofs.Selector.Paths
import TypedRecords.Proofs.Selector.Picking
import TypedRecords.Proofs.Selector.Sieving
import TypedRecords.Proofs.Store.AllOrNothing
import TypedRecords.Proofs.Store.Applying
import TypedRecords.Proofs.Store.Choosing
import TypedRecords.Proofs.Store.Conveying
import TypedRecords.Proofs.Store.Delivering
import TypedRecords.Proofs.Store.Ending
import TypedRecords.Proofs.Store.Exchanging
import TypedRecords.Proofs.Store.Exploring
import TypedRecords.Proofs.Store.Filling
import TypedRecords.Proofs.Store.Following
import TypedRecords.Proofs.Store.Found
import TypedRecords.Proofs.Store.Guarding
import TypedRecords.Proofs.Store.Identifying
import TypedRecords.Proofs.Store.Interrupted
import TypedRecords.Proofs.Store.Kept
import TypedRecords.Proofs.Store.Loading
import TypedRecords.Proofs.Store.Missing
import TypedRecords.Proofs.Store.Omitting
import TypedRecords.Proofs.Store.Partial
import TypedRecords.Proofs.Store.Plain
import TypedRecords.Proofs.Store.Preparing
import TypedRecords.Proofs.Store.Reached
import TypedRecords.Proofs.Store.Recasting
import TypedRecords.Proofs.Store.Referring
import TypedRecords.Proofs.Store.Registration
import TypedRecords.Proofs.Store.RoundTrip
import TypedRecords.Proofs.Store.Saves
import TypedRecords.Proofs.Store.Saving
import TypedRecords.Proofs.Store.Spelled
import TypedRecords.Proofs.Store.Tables
import TypedRecords.Proofs.Store.Tending
import TypedRecords.Proofs.Store.Thinned
import TypedRecords.Proofs.Store.Tracking
import TypedRecords.Proofs.Store.Unread
import TypedRecords.Proofs.Store.Updating
import TypedRecords.Proofs.Store.Working
import TypedRecords.Proofs.Substitution
import TypedRecords.Proofs.Tree.Decode
import TypedRecords.Proofs.Tree.Outlined
import TypedRecords.Proofs.Tree.Readable
import TypedRecords.Proofs.Types.Check
import TypedRecords.Proofs.Types.Compared
import TypedRecords.Proofs.Types.Conforming
import TypedRecords.Proofs.Types.Referencing
import TypedRecords.Proofs.Types.Sanitized
import TypedRecords.Proofs.Types.Specifier
import TypedRecords.Proofs.Validation
import TypedRecords.Proofs.Value.Sendable
import TypedRecords.Proofs.Value.WellFormed
import TypedRecords.Proofs.Value.Wire
import TypedRecords.Query.Compile
import TypedRecords.Query.Evaluate
import TypedRecords.Query.Expression
import TypedRecords.Record.Graph
import TypedRecords.Record.Selection
import TypedRecords.Record.Validation
import TypedRecords.Reference
import TypedRecords.Regex
import TypedRecords.Regex.Reader
import TypedRecords.Selector
import TypedRecords.Selector.Pick
import TypedRecords.Settings
import TypedRecords.Settings.File
import TypedRecords.Settings.Load
import TypedRecords.Store
import TypedRecords.Store.Session
import TypedRecords.Summary
import TypedRecords.Text.Folding
import TypedRecords.Text.Printable
import TypedRecords.Text.Quoted
import TypedRecords.Text.Ranges
import TypedRecords.Text.Word
import TypedRecords.Tree
import TypedRecords.Tree.Decode
import TypedRecords.Tree.Encode
import TypedRecords.Types.Check
import TypedRecords.Types.Sanitizer
import TypedRecords.Types.Specifier
import TypedRecords.Types.Validator
import TypedRecords.Types.ValueType
import TypedRecords.Value
import TypedRecords.Value.Wire
