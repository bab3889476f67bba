import Chronicle.Access.Empty
import Chronicle.Access.Place
import Chronicle.Access.Reader
import Chronicle.Access.Reads
import Chronicle.Access.Shared
import Chronicle.Access.Writer
import Chronicle.Bytes.Buffer
import Chronicle.Bytes.Digits
import Chronicle.Bytes.Source
import Chronicle.Cache.Failure
import Chronicle.Cache.File
import Chronicle.Cache.Reader
import Chronicle.Cache.Record
import Chronicle.Cache.Segment
import Chronicle.CommandLine
import Chronicle.Event
import Chronicle.Failure
import Chronicle.Files.FileSystem
import Chronicle.Files.Name
import Chronicle.Files.Path
import Chronicle.Gzip.Crc
import Chronicle.Gzip.Decoder
import Chronicle.Gzip.Huffman
import Chronicle.Gzip.Inflate
import Chronicle.Gzip.Member
import Chronicle.Idempotent.Compatibility
import Chronicle.Idempotent.Writer
import Chronicle.Main
import Chronicle.Maintenance.Cleaning
import Chronicle.Maintenance.Listing
import Chronicle.Maintenance.Report
import Chronicle.Maintenance.Verification
import Chronicle.Narrow.Category
import Chronicle.Narrow.Filter
import Chronicle.Position.Codec
import Chronicle.Position.Scheme
import Chronicle.Position.Stitched
import Chronicle.Position.Transition
import Chronicle.Proofs.Access.Apart
import Chronicle.Proofs.Access.Aside
import Chronicle.Proofs.Access.HandingOut
import Chronicle.Proofs.Access.Lending
import Chronicle.Proofs.Access.Pulls
import Chronicle.Proofs.Bytes.Pieces
import Chronicle.Proofs.Cache.Adding
import Chronicle.Proofs.Cache.Appending
import Chronicle.Proofs.Cache.Arriving
import Chronicle.Proofs.Cache.Completing
import Chronicle.Proofs.Cache.Cutting
import Chronicle.Proofs.Cache.Deleting
import Chronicle.Proofs.Cache.Filling
import Chronicle.Proofs.Cache.Histories
import Chronicle.Proofs.Cache.Overlooking
import Chronicle.Proofs.Cache.Numbering
import Chronicle.Proofs.Cache.Reading
import Chronicle.Proofs.Cache.Rebuilding
import Chronicle.Proofs.Cache.Records
import Chronicle.Proofs.Cache.Replaying
import Chronicle.Proofs.Cache.Row
import Chronicle.Proofs.Cache.Scanning
import Chronicle.Proofs.Cache.Segments
import Chronicle.Proofs.Cache.Sharing
import Chronicle.Proofs.Cache.Shelf
import Chronicle.Proofs.Cache.Stems
import Chronicle.Proofs.Cache.Transcripts
import Chronicle.Proofs.Cache.Writing
import Chronicle.Proofs.Files.Hiding
import Chronicle.Proofs.Files.Paths
import Chronicle.Proofs.Files.Removing
import Chronicle.Proofs.Files.Sparing
import Chronicle.Proofs.Files.Trees
import Chronicle.Proofs.Files.Undisturbed
import Chronicle.Proofs.Gzip.Stored
import Chronicle.Proofs.Idempotent.Conjunctions
import Chronicle.Proofs.Idempotent.Deciding
import Chronicle.Proofs.Idempotent.Producers
import Chronicle.Proofs.Idempotent.Repeating
import Chronicle.Proofs.Idempotent.Rivals
import Chronicle.Proofs.Idempotent.Unattainable
import Chronicle.Proofs.Lists
import Chronicle.Proofs.Maintenance.Agreeing
import Chronicle.Proofs.Maintenance.Isolation
import Chronicle.Proofs.Maintenance.Listings
import Chronicle.Proofs.Maintenance.Printing
import Chronicle.Proofs.Maintenance.Repairing
import Chronicle.Proofs.Maintenance.Steps
import Chronicle.Proofs.Narrow.Keeping
import Chronicle.Proofs.Position.Grammar
import Chronicle.Proofs.Position.Texts
import Chronicle.Proofs.Stitch.Categories
import Chronicle.Proofs.Stitch.Consumer
import Chronicle.Proofs.Stitch.Migration
import Chronicle.Proofs.Stitch.Order
import Chronicle.Proofs.Stitch.Points
import Chronicle.Proofs.Stitch.Relaying
import Chronicle.Proofs.Stitch.Resuming
import Chronicle.Proofs.Stitch.Stages
import Chronicle.Proofs.Store.Calls
import Chronicle.Proofs.Store.Coherence
import Chronicle.Proofs.Store.Executing
import Chronicle.Proofs.Store.Following
import Chronicle.Proofs.Store.Mirroring
import Chronicle.Proofs.Store.Remaining
import Chronicle.Proofs.Store.Selecting
import Chronicle.Proofs.StreamNames
import Chronicle.Proofs.Text.JsonTokens
import Chronicle.Rehearsal.FaultyReader
import Chronicle.Rehearsal.ScriptedWriter
import Chronicle.Stitch.Source
import Chronicle.Stitch.Splice
import Chronicle.Store.Basic
import Chronicle.Store.Log
import Chronicle.StreamId
import Chronicle.Text.Column
import Chronicle.Text.JsonText
import Chronicle.Text.Numeral
import Chronicle.Text.Printable
import Chronicle.Text.Quoted
import Chronicle.Text.Utf8
import Chronicle.Timestamp
