import Ese.Build.Sample
import Ese.Main
import Ese.Proofs.Bytes.Field
import Ese.Proofs.Bytes.Read
import Ese.Proofs.Bytes.Segment
import Ese.Proofs.Bytes.Span
import Ese.Proofs.Catalog.Agreement
import Ese.Proofs.Catalog.Fold
import Ese.Proofs.Catalog.Listing
import Ese.Proofs.Catalog.Load
import Ese.Proofs.Catalog.RoundTrip
import Ese.Proofs.Catalog.Stretch
import Ese.Proofs.Command.Dump
import Ese.Proofs.Database.Accounting
import Ese.Proofs.Database.Dump
import Ese.Proofs.Database.EndToEnd
import Ese.Proofs.Database.Footprint
import Ese.Proofs.Database.LongValues
import Ese.Proofs.Database.RowErrors
import Ese.Proofs.Database.Simulation
import Ese.Proofs.Database.Tracing
import Ese.Proofs.Decimal.Widening
import Ese.Proofs.Error.Messages
import Ese.Proofs.Failure
import Ese.Proofs.File.Addressing
import Ese.Proofs.File.Bounds
import Ese.Proofs.File.Image
import Ese.Proofs.File.RoundTrip
import Ese.Proofs.File.Same
import Ese.Proofs.Json.Rendering
import Ese.Proofs.Keyed
import Ese.Proofs.LittleEndian
import Ese.Proofs.Machine.Catalog
import Ese.Proofs.Machine.Database
import Ese.Proofs.Machine.Entries
import Ese.Proofs.Machine.Leaves
import Ese.Proofs.Machine.Operations
import Ese.Proofs.Machine.Pages
import Ese.Proofs.Machine.Records
import Ese.Proofs.Machine.Text
import Ese.Proofs.Machine.Walk
import Ese.Proofs.Outcome
import Ese.Proofs.Page.Entries
import Ese.Proofs.Page.Keys
import Ese.Proofs.Page.RoundTrip
import Ese.Proofs.Record.Areas
import Ese.Proofs.Record.Division
import Ese.Proofs.Record.Errors
import Ese.Proofs.Record.Fills
import Ese.Proofs.Record.Lead
import Ese.Proofs.Record.Order
import Ese.Proofs.Record.Reference
import Ese.Proofs.Record.RoundTrip
import Ese.Proofs.Record.Tiling
import Ese.Proofs.Record.Types
import Ese.Proofs.Record.Warnings
import Ese.Proofs.Schema.Columns
import Ese.Proofs.Text.Compressed
import Ese.Proofs.Text.Lines
import Ese.Proofs.Text.SevenBit
import Ese.Proofs.Text.Utf16
import Ese.Proofs.Tree.Bounds
import Ese.Proofs.Tree.Cancellation
import Ese.Proofs.Tree.Chain
import Ese.Proofs.Tree.Depth
import Ese.Proofs.Tree.Failing
import Ese.Proofs.Tree.Footprint
import Ese.Proofs.Tree.GivingUp
import Ese.Proofs.Tree.Harvest
import Ese.Proofs.Tree.Ledger
import Ese.Proofs.Tree.Order
import Ese.Proofs.Tree.Reachability
import Ese.Proofs.Tree.Related
import Ese.Proofs.Tree.Replay
import Ese.Proofs.Tree.Roots
import Ese.Proofs.Tree.Seen
import Ese.Proofs.Tree.SharedKeys
import Ese.Proofs.Tree.Telling
import Ese.Proofs.Tree.Thrift
import Ese.Proofs.Tree.Trail
import Ese.Proofs.Tree.Watch
import Ese.Proofs.Value.Scalar
