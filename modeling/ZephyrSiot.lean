import ZephyrSiot.Theory.CString
import ZephyrSiot.Theory.Machine
import ZephyrSiot.Theory.KeyedList
import ZephyrSiot.Theory.KeyedStore
import ZephyrSiot.Theory.StoreLog
import ZephyrSiot.Theory.JsonText
import ZephyrSiot.Theory.JsonSound
import ZephyrSiot.Theory.Gregorian
import ZephyrSiot.Theory.ShellWords
import ZephyrSiot.Theory.LineFields
import ZephyrSiot.Theory.Decimal
import ZephyrSiot.Theory.Positional
import ZephyrSiot.Theory.FormText
import ZephyrSiot.Theory.Completion
import ZephyrSiot.Theory.ElmParser
import ZephyrSiot.Theory.Calls
import ZephyrSiot.Point
import ZephyrSiot.SiotString
import ZephyrSiot.JsonLib
import ZephyrSiot.PointJson
import ZephyrSiot.PointJsonMemory
import ZephyrSiot.PointMerge
import ZephyrSiot.PointCache
import ZephyrSiot.Web
import ZephyrSiot.WebThreads
import ZephyrSiot.PointDump
import ZephyrSiot.Timeconv
import ZephyrSiot.PointShell
import ZephyrSiot.Zms
import ZephyrSiot.Nvs
import ZephyrSiot.NvsThreads
import ZephyrSiot.Device
import ZephyrSiot.Cloud
import ZephyrSiot.CloudWorld
import ZephyrSiot.CloudMain
import ZephyrSiot.Frontend
import ZephyrSiot.PageView
import ZephyrSiot.Html
import ZephyrSiot.Sanitize
import ZephyrSiot.Verify.DumpBounds
import ZephyrSiot.Verify.PostBuffer
import ZephyrSiot.Verify.PostHonest
import ZephyrSiot.Verify.JsonRoundTrip
import ZephyrSiot.Verify.JsonLegal
import ZephyrSiot.Verify.StoreUnique
import ZephyrSiot.Verify.StoreRefines
import ZephyrSiot.Verify.NvsRestore
import ZephyrSiot.Verify.BootCount
import ZephyrSiot.Verify.TimeText
import ZephyrSiot.Verify.CivilDays
import ZephyrSiot.Verify.Timestamps
import ZephyrSiot.Verify.AcceptedTimes
import ZephyrSiot.Verify.StampOrder
import ZephyrSiot.Verify.FractionCut
import ZephyrSiot.Verify.QuotedFields
import ZephyrSiot.Verify.ReportLine
import ZephyrSiot.Verify.QuoteRoom
import ZephyrSiot.Verify.Replay
import ZephyrSiot.Verify.NvsPoints
import ZephyrSiot.Verify.IntegerText
import ZephyrSiot.Verify.DecodedInt
import ZephyrSiot.Verify.UnsignedText
import ZephyrSiot.Verify.FloatText
import ZephyrSiot.Verify.DecodedFloat
import ZephyrSiot.Verify.FormData
import ZephyrSiot.Verify.GetPoints
import ZephyrSiot.Verify.Ingress
import ZephyrSiot.Verify.ArrayDecode
import ZephyrSiot.Verify.DecodeComplete
import ZephyrSiot.Verify.WellFormed
import ZephyrSiot.Verify.PostChunks
import ZephyrSiot.Verify.WireAgreement
import ZephyrSiot.Verify.UiSave
import ZephyrSiot.Verify.PageEdits
import ZephyrSiot.Verify.ReadBack
import ZephyrSiot.Verify.TimeInput
import ZephyrSiot.Verify.DateInput
import ZephyrSiot.Verify.Convergence
import ZephyrSiot.Verify.FloatInput
import ZephyrSiot.Verify.CodecBounds
import ZephyrSiot.Verify.DeviceStores
import ZephyrSiot.Verify.NvsValues
import ZephyrSiot.Verify.Reboot
import ZephyrSiot.Verify.Settings
import ZephyrSiot.Verify.BootHistory
import ZephyrSiot.Verify.Console
import ZephyrSiot.Verify.ReadYourWrites
import ZephyrSiot.Verify.PageForm
import ZephyrSiot.Verify.PageAnswer
import ZephyrSiot.Verify.SavedShown
import ZephyrSiot.Verify.CloudPublish
import ZephyrSiot.Verify.CloudRuns
import ZephyrSiot.Verify.CloudRequests
