import Mbtk.Coap.ValidateReads
import Mbtk.Coap.Tiling
import Mbtk.Coap.OptionValues
import Mbtk.Client.Buffers
import Mbtk.Client.Distinct
import Mbtk.Client.Blockwise
import Mbtk.Client.Commands
import Mbtk.Client.Replies
import Mbtk.Client.IntegerOptions
import Mbtk.Client.UriPath
import Mbtk.Stanet.Queue
import Mbtk.Stanet.Exclusive
import Mbtk.Stanet.Callbacks
import Mbtk.VideoServer.Subscriptions
import Mbtk.AtGenerator.RoundTrip
import Mbtk.Coap.FailedAdd
import Mbtk.Client.BlockOptions
import Mbtk.Coap.GetUri
import Mbtk.Stanet.HostPort
import Mbtk.Client.PendingList
import Mbtk.MString.SplitArray
import Mbtk.MString.Replace
import Mbtk.Stanet.Delivery
import Mbtk.Client.SetUri
import Mbtk.MString.Bounds
import Mbtk.MString.Trim
import Mbtk.Http.Url
import Mbtk.Yuv.Planar
import Mbtk.Yuv.Extract
import Mbtk.Yuv.Bitmap
import Mbtk.MList.Independent
import Mbtk.VideoServer.Broadcast
import Mbtk.Coap.UdpSend
import Mbtk.Sock.Descriptors
import Mbtk.AtGenerator.Config
import Mbtk.AtGenerator.Handlers
import Mbtk.AtGenerator.Names
import Mbtk.Http.Responses
import Mbtk.TcpServer.SelectLaws
import Mbtk.TcpServer.PollLaws
import Mbtk.TcpServer.Dialogue
import Mbtk.TcpServer.EpollLaws
import Mbtk.Sock.InetTexts
import Mbtk.Log.Streams
import Mbtk.MQueue.Queues
import Mbtk.Stanet.SessionList
import Mbtk.Coap.Generic
