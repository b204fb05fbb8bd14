import Canboat.Reassembly.Model
import Canboat.Lib.BitMask
import Canboat.Reassembly.Table
import Canboat.Reassembly.FastPacket
import Canboat.Reassembly.OrderIndependence
import Canboat.Reassembly.Stale
import Canboat.Reassembly.IsoTransport
import Canboat.Io.AddressClaim
import Canboat.Lib.Exclusive
import Canboat.Io.AddressBus
import Canboat.Format.Common
import Canboat.Io.SocketCan
import Canboat.Io.TxRoundTrip
import Canboat.Build.Dispatch
import Canboat.Build.DispatchReference
import Canboat.Format.Timestamp
import Canboat.Lib.IndexMap
import Canboat.Snapshot.Store
import Canboat.Snapshot.History
import Canboat.Lib.Json.Grammar
import Canboat.Lib.Json.Machine
import Canboat.Lib.Json.Accepted
import Canboat.Lib.Binary64
import Canboat.Core.Float64
import Canboat.Schema.Types
import Canboat.Core.Text
import Canboat.Decode.Value
import Canboat.Decode.Field
import Canboat.Decode.Fields
import Canboat.Output.Json
import Canboat.Lib.Json.Reading
import Canboat.Output.JsonText
import Canboat.Output.JsonValid
import Canboat.Format.Ebl
import Canboat.Snapshot.Observation
import Canboat.Io.Drivers
import Canboat.Snapshot.Keys
import Canboat.Core.BitFields
import Canboat.Core.Parse
import Canboat.Input.AnalyzerJson
import Canboat.Input.FromJson
import Canboat.Decode.DeviceName
import Canboat.Output.JsonKeys
import Canboat.Input.DeviceName
import Canboat.Output.JsonNested
import Canboat.Input.Delimited
import Canboat.Input.Styles
import Canboat.Build.Schema
import Canboat.Core.Exact
import Canboat.Decode.Units
import Canboat.Core.Str
import Canboat.Format.Plain
import Canboat.Format.Lines
import Canboat.Format.ParseLine
import Canboat.Io.Ikonvert
import Canboat.Bridge.Overrides
import Canboat.Io.NmeaDevice
import Canboat.Bridge.Motion
import Canboat.Bridge.Server
import Canboat.Bridge.TwoNodes
import Canboat.Io.AnalyzerLog
import Canboat.Io.KnownFormat
import Canboat.Format.PlainWriter
import Canboat.Reassembly.Retime
import Canboat.Io.Convert
import Canboat.Reassembly.Restrict
import Canboat.Io.Filters
import Canboat.Io.ClaimHistory
import Canboat.Io.WholeMessages
import Canboat.Reassembly.Carried
import Canboat.Io.WholeMessages
import Canboat.Reassembly.Carried
import Canboat.Encode.Builder
import Canboat.Encode.Packing
import Canboat.Encode.Builder
import Canboat.Encode.Packing
import Canboat.Encode.RoundTrip
import Canboat.Encode.Ranges
import Canboat.Decode.Checked
import Canboat.Decode.Progress
import Canboat.Lib.Json.Tree
import Canboat.Tui.DeviceCache
import Canboat.Tui.Line
import Canboat.Tui.State
import Canboat.Tui.Devices
import Canboat.Lib.Json.Reader
import Canboat.Output.JsonRead
import Canboat.Snapshot.Classify
import Canboat.Bridge.ControlRecords
import Canboat.Bridge.NmeaFilter
import Canboat.Format.Days
import Canboat.Format.Instant
import Canboat.Format.Carrier
import Canboat.Lib.BitString
import Canboat.Format.Base64
import Canboat.Io.NgtFrames
import Canboat.Format.Maretron
import Canboat.Bridge.BitVector
import Canboat.Bridge.Aivdm
import Canboat.Snapshot.Splitting
import Canboat.Core.Numeral
import Canboat.Output.Precision
import Canboat.Decode.Shapes
import Canboat.Input.Preserved
import Canboat.Bridge.FilterReport
import Canboat.Bridge.RequestEngine
import Canboat.Bridge.Scx20
import Canboat.Bridge.Nmea0183
import Canboat.Bridge.SentenceRate
import Canboat.Core.Rounded
import Canboat.Bridge.PositionText
import Canboat.Format.LineTimes
import Canboat.Format.LineRoundTrip
import Canboat.Format.AsciiRoundTrip
import Canboat.Core.Utf8
import Canboat.Encode.Layout
import Canboat.Encode.Written
import Canboat.Encode.Alone
import Canboat.Encode.Kept
import Canboat.Encode.TextRoundTrip
import Canboat.Lib.Drain
import Canboat.Bridge.Wmm
import Canboat.Bridge.Quirks
import Canboat.Bridge.Variation
import Canboat.Io.BusLoad
import Canboat.Reassembly.Invariant
import Canboat.Wire.Model
import Canboat.Wire.Index
import Canboat.Wire.Labels
import Canboat.Wire.Lossless
import Canboat.Io.LineDecoders
import Canboat.Format.Readers
import Canboat.Format.OneInstant
import Canboat.Format.WrittenInstants
import Canboat.Output.Clock
import Canboat.Io.Container
import Canboat.Bridge.Serving
import Canboat.Io.Supervisor
import Canboat.Wire.Framing
import Canboat.Bridge.Injection
import Canboat.Bridge.Relay
import Canboat.Lib.Json.Inside
import Canboat.Output.JsonEntries
import Canboat.Output.JsonValues
