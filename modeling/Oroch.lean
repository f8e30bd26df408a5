import Oroch.Library.Cheapest
import Oroch.Library.Contest
import Oroch.Library.Chunks
import Oroch.Library.Cursor
import Oroch.Library.Frames
import Oroch.Library.Groups
import Oroch.Library.Lookahead
import Oroch.Library.Simulation
import Oroch.Library.Slots
import Oroch.Library.Tally
import Oroch.Library.Trace
import Oroch.Library.Updates
import Oroch.IntegerTraits
import Oroch.Common
import Oroch.ValueCodec
import Oroch.Varint
import Oroch.Bitpck
import Oroch.Packed
import Oroch.Bitfor
import Oroch.Plain
import Oroch.Bitpfr
import Oroch.Metadata
import Oroch.IntegerStats
import Oroch.IntegerCodec
import Oroch.Contract
import Oroch.Selection
import Oroch.IntegerGroup
import Oroch.IntegerArray
import Oroch.ArrayRuns
import Oroch.GroupSearch
import Oroch.ArrayReads
import Oroch.DryRun
import Oroch.SearchCut
import Oroch.SelectionBounds
import Oroch.SkippedWidths
import Oroch.Reselection
import Oroch.Instrumented
import Oroch.CodingSafety
import Oroch.SignedRange
import Oroch.AcceptedMetadata
import Oroch.AllocationFailures
import Oroch.FailedInsertions
import Oroch.BlockShifts
import Oroch.ArrayInterface
import Oroch.GroupInfo
import Oroch.NearOptimal
import Oroch.ArrayGrowth
import Oroch.Truncation
import Oroch.Patching
import Oroch.ExactParameters
import Oroch.Pieces
import Oroch.FrontDecoding
import Oroch.FailingRuns
