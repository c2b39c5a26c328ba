import PieceLedger.Session
import PieceLedger.Main
import PieceLedger.Bencode.Located
import PieceLedger.Bencode.Scanner
import PieceLedger.Torrent.Draft
import PieceLedger.Proofs.Sha1.Streaming
import PieceLedger.Proofs.Tracker.Ledger
import PieceLedger.Proofs.Tracker.History
import PieceLedger.Proofs.Tracker.Client
import PieceLedger.Proofs.Tracker.LifeCycle
import PieceLedger.Proofs.Tracker.Completion
import PieceLedger.Proofs.Tracker.Progress
import PieceLedger.Proofs.Tracker.Validation
import PieceLedger.Proofs.Tracker.Delivery
import PieceLedger.Proofs.Bytes.Slice
import PieceLedger.Proofs.Torrent.Pieces
import PieceLedger.Proofs.Torrent.Reassembly
import PieceLedger.Proofs.Torrent.Length
import PieceLedger.Proofs.Torrent.InfoBytes
import PieceLedger.Proofs.Torrent.Acceptance
import PieceLedger.Proofs.Torrent.Reloading
import PieceLedger.Proofs.Session.TraceLevel
import PieceLedger.Proofs.Bencode.Grammar
import PieceLedger.Proofs.Bencode.Reading
import PieceLedger.Proofs.Bencode.RoundTrip
import PieceLedger.Proofs.Bencode.Located
import PieceLedger.Proofs.Bencode.Places
import PieceLedger.Proofs.Bencode.Truncation
import PieceLedger.Proofs.Bencode.Scanner
import PieceLedger.Proofs.Bencode.Scanning
import PieceLedger.Proofs.Bencode.Cursor
import PieceLedger.Proofs.FileTree.Growth
import PieceLedger.Proofs.Console.Course
import PieceLedger.Proofs.Payload.Stream
import PieceLedger.Proofs.Tracker.Batches
import PieceLedger.Proofs.Verification.Pieces
import PieceLedger.Proofs.CommandLine.Printed
import PieceLedger.Proofs.CommandLine.Verdicts
import PieceLedger.Proofs.Payload.Layout
import PieceLedger.Proofs.Decimal.Numerals
import PieceLedger.Proofs.CommandLine.Arguments
import PieceLedger.Proofs.Payload.Paths
import PieceLedger.Proofs.CommandLine.Underway
import PieceLedger.Proofs.CommandLine.ShortFiles
import PieceLedger.Proofs.CommandLine.Counts
import PieceLedger.Hex.InPlace
import PieceLedger.Console.Logger
import PieceLedger.Proofs.Hex.RoundTrip
import PieceLedger.Proofs.Sha1.Calls
import PieceLedger.Proofs.FileTree.Opening
import PieceLedger.Proofs.Console.Destinations
import PieceLedger.Proofs.Console.Streams
import PieceLedger.Proofs.CommandLine.Given
import PieceLedger.Proofs.CommandLine.Deeds
import PieceLedger.Proofs.CommandLine.InfoHash
