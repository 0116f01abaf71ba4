import BreUtils.Buffer.ByteQueue
import BreUtils.Buffer.Messages
import BreUtils.Config.Inst
import BreUtils.Config.Loading
import BreUtils.Crypto.Ecdsa
import BreUtils.Database.MySqlPool
import BreUtils.Database.RedisKeepAlive
import BreUtils.Database.RedisQueue
import BreUtils.Database.RedisReplies
import BreUtils.Database.RedisWaits
import BreUtils.Encoding.Base64Safety
import BreUtils.Encoding.HexCov
import BreUtils.Flag.Exceptions
import BreUtils.Flag.IntegerValues
import BreUtils.Json.CommentRemoval
import BreUtils.Json.Doubles
import BreUtils.Json.ErrorContract
import BreUtils.Json.Infinity
import BreUtils.Json.LiveValues
import BreUtils.Json.Progress
import BreUtils.Json.Soundness
import BreUtils.Json.StringDecoding
import BreUtils.Json.TailComma
import BreUtils.Json.Validity
import BreUtils.Log.Rotation
import BreUtils.Log.ShutdownJoin
import BreUtils.Net.EchoChannel
import BreUtils.Net.EchoProgress
import BreUtils.Net.EchoReplies
import BreUtils.Net.Finder
import BreUtils.Net.ServerSessions
import BreUtils.Net.TcpFrames
import BreUtils.Net.TcpLengths
import BreUtils.Net.TcpReceiver
import BreUtils.Net.TcpSender
import BreUtils.Net.UdpContract
import BreUtils.Net.UdpHostile
import BreUtils.Net.UdpLoss
import BreUtils.Nifix.Malformed
import BreUtils.PrefixTree.Reads
import BreUtils.Signals.Emission
import BreUtils.Sync.BlockQueueClose
import BreUtils.Sync.BlockQueueWakeups
import BreUtils.Timing.MultiTaskTimer
import BreUtils.Timing.TestTime
import BreUtils.Timing.TimerReuse
import BreUtils.Timing.TimerReturns
import BreUtils.Uuid.IdGenerator
