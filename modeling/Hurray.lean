import Hurray.Core.ElementType
import Hurray.Core.Quantization
import Hurray.Core.Layout
import Hurray.Descriptor.LayoutFormat
import Hurray.Descriptor.Roundtrip
import Hurray.Core.Buffer
import Hurray.Base.LittleEndian
import Hurray.Base.Wire
import Hurray.Descriptor.Contract
import Hurray.Descriptor.Framing
import Hurray.Base.Checked
import Hurray.Core.Addressing
import Hurray.Descriptor.AddressSafety
import Hurray.Descriptor.Composite
import Hurray.Stream.Types
import Hurray.Stream.Writer
import Hurray.Stream.Emission
import Hurray.Base.Runs
import Hurray.Stream.WriteDriver
import Hurray.Stream.Completion
import Hurray.Stream.TornItems
import Hurray.Stream.Reader
import Hurray.Stream.ReadDriver
import Hurray.Stream.StreamRoundtrip
import Hurray.Stream.Assembler
import Hurray.Stream.CompositeRoundtrip
import Hurray.Base.Utf8
import Hurray.File.Sections
import Hurray.File.Writer
import Hurray.File.Emission
import Hurray.Base.Rounding
import Hurray.File.Submission
import Hurray.File.WriterLife
import Hurray.File.Composite
import Hurray.File.WriterDriver
import Hurray.File.OverReports
import Hurray.File.Reader
import Hurray.Base.Leaves
import Hurray.File.ReaderCalls
import Hurray.File.ReaderRequests
import Hurray.File.ReaderLife
import Hurray.File.ReadDriver
import Hurray.File.Reading
import Hurray.File.HistoryIndependence
import Hurray.File.ReaderSession
import Hurray.File.OpenRules
import Hurray.Base.ExactCover
import Hurray.Descriptor.CompositeVerdict
import Hurray.Descriptor.PartitionCover
import Hurray.File.LengthAgreement
import Hurray.Base.MixedRadix
import Hurray.Core.LinearAddressing
import Hurray.Base.BitPlacement
import Hurray.Core.MortonAddressing
import Hurray.Base.Tiling
import Hurray.Core.TiledAliasing
import Hurray.Base.HilbertCurve
import Hurray.Core.HilbertAddressing
import Hurray.File.WalkAgreement
import Hurray.Base.Regions
import Hurray.File.WrittenFile
import Hurray.File.FileLayout
import Hurray.Stream.ReaderSafety
import Hurray.File.SectionRoundtrip
import Hurray.File.WrittenReading
import Hurray.File.FileRoundtrip
import Hurray.File.CompositeRoundtrip
import Hurray.File.WriterSession
import Hurray.Core.StridedAddressing
import Hurray.Core.ByteAddress
import Hurray.Descriptor.BufferSizes
import Hurray.Base.BinarySearch
import Hurray.Core.SparseAddressing
import Hurray.Core.CsfAddressing
import Hurray.Core.CsfLookup
import Hurray.Core.BlockPagedAddressing
import Hurray.Core.LookupSafety
import Hurray.Core.QuantizationCodec
import Hurray.Descriptor.DecodeSafety
import Hurray.File.ReaderSafety
import Hurray.Base.Positions
import Hurray.Core.ElementCount
import Hurray.File.IndexCodec
import Hurray.File.KvCodec
import Hurray.Base.RoseTree
import Hurray.Descriptor.CrossRules
import Hurray.Descriptor.TiledDepth
import Hurray.File.CompositeOrder
import Hurray.File.Transfer
import Hurray.Stream.Resumption
import Hurray.Stream.StreamReader
import Hurray.Stream.StreamWriter
import Hurray.Stream.Transfer
import Hurray.Python.Readiness
import Hurray.Python.AsyncStreamReader
import Hurray.Python.AsyncStreamWriter
import Hurray.Python.AsyncTransfer
import Hurray.Base.ArityCode
import Hurray.Ffi.Types
import Hurray.Ffi.Composite
import Hurray.Ffi.CompositeTree
import Hurray.Ffi.Item
import Hurray.Ffi.Relay
