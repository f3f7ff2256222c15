import BobUI.Corelib.Serialization.JsonEquality
import BobUI.Corelib.Text.Utf8Chunks
import BobUI.Corelib.Thread.ResultOrder
import BobUI.Corelib.Kernel.PostedEventRuns
import BobUI.Corelib.Time.CalendarDays
import BobUI.Corelib.Io.UrlRecodeOctets
import BobUI.Corelib.Tools.MultiHashEquality
import BobUI.Corelib.Tools.MultiHashRuns
import BobUI.Corelib.Tools.RingBufferDeque
import BobUI.Corelib.Tools.RingBufferQueries
import BobUI.Gui.Util.UndoClean
import BobUI.Gui.Util.UndoSignals
import BobUI.Library.BoundedFifo
import BobUI.Library.OrderedSet
import BobUI.Network.Hpack.FailedEncodes
import BobUI.Network.Hpack.IntegerReads
import BobUI.Network.Hpack.Synchrony
import BobUI.Network.Hpack.TableRefinement
import BobUI.Network.Http1.ChunkedRuns
import BobUI.Network.Http2.HeadersFrames
import BobUI.Network.Http2.TableSizes
import BobUI.Network.Http2.UploadLoop
import BobUI.Widgets.ItemViews.HeaderRuns
import BobUI.Widgets.ItemViews.SpanRuns
import BobUI.Corelib.Io.SettingsRoundTrip
import BobUI.Corelib.Tools.HashIteration
import BobUI.Library.Bits
import BobUI.Network.Hpack.Huffman
import BobUI.Network.Hpack.HuffmanDecoding
import BobUI.Network.Hpack.HuffmanStrings
import BobUI.Corelib.Text.Utf8Encoder
import BobUI.Corelib.Text.Utf8Codec
import BobUI.Corelib.ItemModels.ItemSelection
import BobUI.Corelib.Io.UrlAuthority
import BobUI.Corelib.Io.UrlPorts
import BobUI.Widgets.ItemViews.SpanQueries
import BobUI.Widgets.ItemViews.SpanQueryRuns
import BobUI.Gui.Painting.Region
import BobUI.Gui.Painting.RegionBands
import BobUI.Gui.Painting.RegionLists
import BobUI.Gui.Painting.RegionAppend
import BobUI.Gui.Painting.RegionPrepend
import BobUI.Corelib.ItemModels.SortFilterProxy
import BobUI.Library.ListEdits
import BobUI.Corelib.ItemModels.ProxyMapping
import BobUI.Corelib.ItemModels.ProxySignals
import BobUI.Corelib.ItemModels.SourceOrder
import BobUI.Corelib.ItemModels.SourceOrderRuns
import BobUI.Network.Http2.UploadMoves
import BobUI.Network.Http2.ReceiveMoves
import BobUI.Network.Http2.ConnectionMoves
import BobUI.Network.Http2.HandlerMoves
import BobUI.Network.Http2.RunMoves
import BobUI.Network.Http2.WindowUpdates
import BobUI.Corelib.Io.IdnWhitelist
import BobUI.Corelib.Text.StringIterator
import BobUI.Corelib.Io.IdnJoiners
import BobUI.Network.Http1.SizeLines
import BobUI.Corelib.Time.JalaliCalendar
import BobUI.Gui.Util.UndoSteps
import BobUI.Corelib.Io.DirPaths
import BobUI.Corelib.Io.DirPathTexts
import BobUI.Corelib.Io.DotSegments
import BobUI.Corelib.Io.CleanPaths
import BobUI.Corelib.Io.PathCourses
import BobUI.Library.VariableLengthIntegers
import BobUI.Corelib.Io.Punycode
import BobUI.Library.InsertionCode
import BobUI.Corelib.Io.PunycodeIntegers
import BobUI.Corelib.Io.PunycodeEncoder
import BobUI.Corelib.Text.CodePoints
import BobUI.Corelib.Io.PunycodeLabels
import BobUI.Corelib.Io.SettingsValues
import BobUI.Corelib.Io.SettingsReads
import BobUI.Corelib.Io.SettingsLists
import BobUI.Library.IntArithmetic
import BobUI.Corelib.Time.LeapYears
import BobUI.Corelib.Time.GregorianWeekdays
import BobUI.Corelib.Time.SharedYears
import BobUI.Corelib.Time.CenturyMatches
import BobUI.Library.Transducers
import BobUI.Corelib.Text.WideEncodings
import BobUI.Corelib.Text.Utf16Chunks
import BobUI.Corelib.Text.Utf32Chunks
import BobUI.Library.PatternSearch
import BobUI.Corelib.Text.SkipSearch
import BobUI.Corelib.Text.ByteArrayMatcher
import BobUI.Library.ThreadedLists
import BobUI.Corelib.Tools.SpanStorage
import BobUI.Corelib.Tools.SpanFreeList
import BobUI.Library.IndexedRings
import BobUI.Corelib.Tools.ContiguousCache
import BobUI.Corelib.Tools.SlidingWindow
import BobUI.Corelib.Tools.CacheRuns
import BobUI.Widgets.ItemViews.HeaderReset
import BobUI.Network.Http2.ConnectionRuns
import BobUI.Corelib.Text.Utf16RoundTrip
