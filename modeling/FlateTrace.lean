import FlateTrace.Bits.Meter
import FlateTrace.Bits.Reader
import FlateTrace.Bytes
import FlateTrace.Checksum.Crc32
import FlateTrace.Codes
import FlateTrace.Deflate.Alphabet
import FlateTrace.Deflate.BlockType
import FlateTrace.Deflate.CodeLengths
import FlateTrace.Deflate.Decoder
import FlateTrace.Deflate.Error
import FlateTrace.Deflate.Reading
import FlateTrace.Deflate.Standard
import FlateTrace.Deflate.Token
import FlateTrace.Deflate.Written
import FlateTrace.Huffman.Canonical
import FlateTrace.Huffman.Decode
import FlateTrace.Huffman.Pool
import FlateTrace.Main
import FlateTrace.Numbers
import FlateTrace.Output.Bytes
import FlateTrace.Output.Event
import FlateTrace.Output.History
import FlateTrace.Output.Recorder
import FlateTrace.Output.Sink
import FlateTrace.Profile.Basic
import FlateTrace.Profile.Histogram
import FlateTrace.Profile.Origins
import FlateTrace.Profile.Record
import FlateTrace.Profile.Summary
import FlateTrace.Profiler
import FlateTrace.Proofs.Bits.Charges
import FlateTrace.Proofs.Bits.Feed
import FlateTrace.Proofs.Bits.Fields
import FlateTrace.Proofs.Bits.Ports
import FlateTrace.Proofs.Checksum.Crc32
import FlateTrace.Proofs.Contributions
import FlateTrace.Proofs.Costs
import FlateTrace.Proofs.Counters
import FlateTrace.Proofs.Deflate.Accounts
import FlateTrace.Proofs.Deflate.Blocks
import FlateTrace.Proofs.Deflate.Bounds
import FlateTrace.Proofs.Deflate.Calls
import FlateTrace.Proofs.Deflate.Chains
import FlateTrace.Proofs.Deflate.Contracts
import FlateTrace.Proofs.Deflate.CopyCounts
import FlateTrace.Proofs.Deflate.Costs
import FlateTrace.Proofs.Deflate.Descriptions
import FlateTrace.Proofs.Deflate.Failures
import FlateTrace.Proofs.Deflate.Format
import FlateTrace.Proofs.Deflate.Grammar
import FlateTrace.Proofs.Deflate.Invariants
import FlateTrace.Proofs.Deflate.Items
import FlateTrace.Proofs.Deflate.LengthItems
import FlateTrace.Proofs.Deflate.Limits
import FlateTrace.Proofs.Deflate.Locality
import FlateTrace.Proofs.Deflate.Parses
import FlateTrace.Proofs.Deflate.Points
import FlateTrace.Proofs.Deflate.Protocol
import FlateTrace.Proofs.Deflate.Runs
import FlateTrace.Proofs.Deflate.Simulation
import FlateTrace.Proofs.Deflate.Spellings
import FlateTrace.Proofs.Deflate.Standard
import FlateTrace.Proofs.Deflate.Steps
import FlateTrace.Proofs.Deflate.Tables
import FlateTrace.Proofs.Deflate.Tokens
import FlateTrace.Proofs.Deflate.Tracing
import FlateTrace.Proofs.EndOfData
import FlateTrace.Proofs.Expansion
import FlateTrace.Proofs.Huffman.Build
import FlateTrace.Proofs.Huffman.Canonical
import FlateTrace.Proofs.Huffman.Forest
import FlateTrace.Proofs.Huffman.Growth
import FlateTrace.Proofs.Huffman.Kraft
import FlateTrace.Proofs.Huffman.Shape
import FlateTrace.Proofs.Huffman.Unassigned
import FlateTrace.Proofs.Output.Bytes
import FlateTrace.Proofs.Output.Capacity
import FlateTrace.Proofs.Output.Contracts
import FlateTrace.Proofs.Output.History
import FlateTrace.Proofs.Output.Periods
import FlateTrace.Proofs.Output.Protocol
import FlateTrace.Proofs.Output.Provenance
import FlateTrace.Proofs.Output.Recorder
import FlateTrace.Proofs.Output.Rows
import FlateTrace.Proofs.OutputLimit
import FlateTrace.Proofs.Preconditions
import FlateTrace.Proofs.Profile.Descent
import FlateTrace.Proofs.Profile.Origins
import FlateTrace.Proofs.Profile.Provenance
import FlateTrace.Proofs.Profile.Slices
import FlateTrace.Proofs.Profile.Tally
import FlateTrace.Proofs.Profiler
import FlateTrace.Proofs.Protocol
import FlateTrace.Proofs.Provenance
import FlateTrace.Proofs.Report.Chart
import FlateTrace.Proofs.Termination
import FlateTrace.Proofs.Zip.Archive
import FlateTrace.Proofs.Zip.Cursor
import FlateTrace.Proofs.Zip.EndRecord
import FlateTrace.Proofs.Zip.Guarded
import FlateTrace.Proofs.Zip.Offsets
import FlateTrace.Proofs.Zip.Profile
import FlateTrace.Proofs.Zip.Reading
import FlateTrace.Proofs.Zip.Records
import FlateTrace.Proofs.Zlib.Header
import FlateTrace.Report.Chart
import FlateTrace.Report.Command
import FlateTrace.Settings
import FlateTrace.Text.Decimal
import FlateTrace.Text.Dyadic
import FlateTrace.Text.Hex
import FlateTrace.Text.Json
import FlateTrace.Text.Terminal
import FlateTrace.Text.Utf8
import FlateTrace.Zip.Archive
import FlateTrace.Zip.Directory
import FlateTrace.Zip.Entry
import FlateTrace.Zip.Error
import FlateTrace.Zip.Written
import FlateTrace.Zlib.Header
