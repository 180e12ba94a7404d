import WarheadFix.Common.ConfigLayers
import WarheadFix.Common.ConfigText
import WarheadFix.Common.IntervalTimer
import WarheadFix.Common.LoggedText
import WarheadFix.Common.LoggerNames
import WarheadFix.Common.LoggerSinks
import WarheadFix.Common.LowestLevel
import WarheadFix.Common.MpscQueueIntrusive
import WarheadFix.Common.MpscQueueDestructor
import WarheadFix.Common.NumericTime
import WarheadFix.Common.PositionOptions
import WarheadFix.Common.ProducerConsumerQueue
import WarheadFix.Common.SinkPattern
import WarheadFix.Common.StringConvert
import WarheadFix.Common.StringFormat
import WarheadFix.Common.Timer
import WarheadFix.Common.Tokenize
import WarheadFix.Common.WaitingConsumers
import WarheadFix.Shared.AcceptedConnections
import WarheadFix.Shared.BufferRuns
import WarheadFix.Shared.DelayedClose
import WarheadFix.Shared.FailedWrites
import WarheadFix.Shared.FreeSpace
import WarheadFix.Shared.HostOrder
import WarheadFix.Shared.IocpQueue
import WarheadFix.Shared.NetworkThread
import WarheadFix.Shared.PackedGuid
import WarheadFix.Shared.PackedTime
import WarheadFix.Shared.ReadSide
import WarheadFix.Shared.SocketMgr
import WarheadFix.Shared.Utf8Text
import WarheadFix.Server.Authentication
import WarheadFix.Server.Dispatched
import WarheadFix.Server.Exceptions
import WarheadFix.Server.HandlerSearches
import WarheadFix.Server.Listening
import WarheadFix.Server.Reply
import WarheadFix.Server.ServedClients
import WarheadFix.Server.Startup
import WarheadFix.Server.StreamCuts
import WarheadFix.Server.WrittenRequests
