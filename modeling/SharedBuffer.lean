import SharedBuffer.Word
import SharedBuffer.Bytes
import SharedBuffer.Numeral
import SharedBuffer.Fault
import SharedBuffer.Storage
import SharedBuffer.Event
import SharedBuffer.Action
import SharedBuffer.Ledger
import SharedBuffer.Pool
import SharedBuffer.Cursor
import SharedBuffer.ByteOrder
import SharedBuffer.Text.Utf8
import SharedBuffer.Text.Utf16
import SharedBuffer.Text.Charset
import SharedBuffer.Hex
import SharedBuffer.Dump
import SharedBuffer.Scan
import SharedBuffer.Scalar
import SharedBuffer.Config
import SharedBuffer.Capacity
import SharedBuffer.Handle
import SharedBuffer.Buffer.Basic
import SharedBuffer.Buffer.Index
import SharedBuffer.Buffer.Reserve
import SharedBuffer.Buffer.Count
import SharedBuffer.Buffer.Transfer
import SharedBuffer.Buffer.View
import SharedBuffer.Buffer.Search
import SharedBuffer.Buffer.Typed
import SharedBuffer.Stream
import SharedBuffer.Buffer.Streaming
import SharedBuffer.Table
import SharedBuffer.Arena
import SharedBuffer.Command
import SharedBuffer.Proofs.Outcome
import SharedBuffer.Proofs.Validity
import SharedBuffer.Proofs.Lending
import SharedBuffer.Proofs.Course
import SharedBuffer.Proofs.Growth
import SharedBuffer.Proofs.Transfer
import SharedBuffer.Proofs.Reading
import SharedBuffer.Proofs.Counting
import SharedBuffer.Proofs.Streaming
import SharedBuffer.Proofs.Change
import SharedBuffer.Proofs.Derivation
import SharedBuffer.Proofs.Ownership
import SharedBuffer.Proofs.Tenancy
import SharedBuffer.Proofs.Exchange
import SharedBuffer.Proofs.Commands
import SharedBuffer.Proofs.Windows
import SharedBuffer.Proofs.Atomicity
import SharedBuffer.Proofs.Isolation
import SharedBuffer.Proofs.Tallies
import SharedBuffer.Proofs.Reclamation
import SharedBuffer.Proofs.Refusal
import SharedBuffer.Proofs.Released
import SharedBuffer.Proofs.Loans
import SharedBuffer.Proofs.Discretion
import SharedBuffer.Proofs.Dealings
import SharedBuffer.Proofs.Bookkeeping
import SharedBuffer.Proofs.Ledgers
import SharedBuffer.Proofs.Recycling
import SharedBuffer.Proofs.Transparency
import SharedBuffer.Proofs.Contents
import SharedBuffer.Proofs.Serving
import SharedBuffer.Proofs.Queue
import SharedBuffer.Proofs.Utf8
import SharedBuffer.Proofs.Utf16
import SharedBuffer.Proofs.Charsets
import SharedBuffer.Proofs.Scalars
import SharedBuffer.Proofs.RoundTrip
import SharedBuffer.Proofs.Views
import SharedBuffer.Proofs.Doubling
import SharedBuffer.Proofs.Refitting
import SharedBuffer.Proofs.Adjustment
import SharedBuffer.Proofs.Room
import SharedBuffer.Proofs.Agreement
import SharedBuffer.Proofs.Enlarging
import SharedBuffer.Proofs.Adjusting
import SharedBuffer.Proofs.Preservation
import SharedBuffer.Proofs.Comparison
import SharedBuffer.Proofs.Lengthening
import SharedBuffer.Proofs.Chunking
import SharedBuffer.Proofs.Inscription
import SharedBuffer.Proofs.Grants
import SharedBuffer.Proofs.Chains
import SharedBuffer.Proofs.Scanning
import SharedBuffer.Proofs.Occurrences
import SharedBuffer.Proofs.Cuts
import SharedBuffer.Proofs.Lines
import SharedBuffer.Proofs.Delivery
import SharedBuffer.Proofs.Loading
import SharedBuffer.Proofs.Uptake
import SharedBuffer.Proofs.Storing
import SharedBuffer.Proofs.Endpoints
import SharedBuffer.Proofs.Snapshots
import SharedBuffer.Proofs.Appending
import SharedBuffer.Proofs.Compaction
import SharedBuffer.Proofs.Marks
import SharedBuffer.Proofs.Hexadecimal
import SharedBuffer.Proofs.DumpLayout
import SharedBuffer.Proofs.DumpReading
import SharedBuffer.Proofs.Reporting
import SharedBuffer.Proofs.Recounting
import SharedBuffer.Proofs.Attribution
import SharedBuffer.Proofs.EventLog
